import SourceLayout.Proofs.Frame

/-! The outline of a printed import block, and what is read from it. Every header, comment and
statement is a node where the printer puts it; reading the nodes back gives the printed
statements in printed order with their comments, provided that no comment stands between the
first header and the first statement. -/

namespace SourceLayout
open Text

/-! ## Where printed texts stand -/

def Text.byteLength : Text → Nat
  | [] => 0
  | c :: r => c.utf8Size + byteLength r

/-- The node of a text that is printed from the beginning of a row. -/
def Node.printed (kind : NodeKind) (row : Nat) (t : Text) : Node where
  kind := kind
  start := ⟨row, 0⟩
  stop := ⟨row + (lines t).length - 1, byteLength ((lines t).getLastD [])⟩

namespace Text

theorem byteLength_append (a b : Text) : byteLength (a ++ b) = byteLength a + byteLength b := by
  induction a with
  | nil => simp [byteLength]
  | cons c r ih => rw [List.cons_append, byteLength, byteLength, ih, Nat.add_assoc]

theorem takeBytes_byteLength_append (a b : Text) : takeBytes (byteLength a) (a ++ b) = a := by
  induction a with
  | nil => cases b <;> rfl
  | cons c r ih =>
    have hpos := Char.utf8Size_pos c
    obtain ⟨n, hn⟩ : ∃ n, byteLength (c :: r) = n + 1 :=
      ⟨byteLength (c :: r) - 1, by simp [byteLength]; omega⟩
    have hrest : n + 1 - c.utf8Size = byteLength r := by rw [← hn]; simp [byteLength]
    rw [hn, List.cons_append, takeBytes, hrest, ih]

theorem takeBytes_byteLength (a : Text) : takeBytes (byteLength a) a = a := by
  simpa using takeBytes_byteLength_append a []

theorem dropBytes_byteLength_append (a b : Text) : dropBytes (byteLength a) (a ++ b) = b := by
  induction a with
  | nil => cases b <;> rfl
  | cons c r ih =>
    have hpos := Char.utf8Size_pos c
    obtain ⟨n, hn⟩ : ∃ n, byteLength (c :: r) = n + 1 :=
      ⟨byteLength (c :: r) - 1, by simp [byteLength]; omega⟩
    have hrest : n + 1 - c.utf8Size = byteLength r := by rw [← hn]; simp [byteLength]
    rw [hn, List.cons_append, dropBytes, hrest, ih]

theorem dropBytes_zero (t : Text) : dropBytes 0 t = t := by cases t <;> rfl

theorem lines_ne_nil (t : Text) : lines t ≠ [] := splitWhen_ne_nil _ _

/-- The lines of a text, with the last of them apart. -/
theorem lines_eq_concat (t : Text) : ∃ above last, lines t = above ++ [last] := by
  rcases List.eq_nil_or_concat (lines t) with h | ⟨above, last, h⟩
  · exact absurd h (lines_ne_nil t)
  · exact ⟨above, last, by rw [h, List.concat_eq_append]⟩

end Text

namespace Node

theorem stop_printed {kind : NodeKind} {row : Nat} {t last : Text} {above : List Text}
    (h : lines t = above ++ [last]) :
    (Node.printed kind row t).stop = ⟨row + above.length, byteLength last⟩ := by
  simp [Node.printed, h]

/-- A text that is printed from the beginning of a row is the text of its node, also if
its last row goes on. -/
theorem textIn_printed {kind : NodeKind} {t last more : Text} {above pre post : List Text}
    (h : lines t = above ++ [last]) :
    (Node.printed kind pre.length t).textIn (pre ++ (above ++ [last ++ more]) ++ post) = t := by
  unfold textIn
  rw [stop_printed h]
  cases above with
  | nil =>
    have ht : last = t := by
      rw [← unlines_lines t, h]
      simp [unlines]
    simp [Node.printed, dropBytes_zero, takeBytes_byteLength_append, List.getD_eq_getElem?_getD, ht]
  | cons l above =>
    have hfirst : (pre ++ (l :: above ++ [last ++ more]) ++ post).getD pre.length [] = l := by
      simp [List.getD_eq_getElem?_getD]
    have hbetween : ((pre ++ (l :: above ++ [last ++ more]) ++ post).drop (pre.length + 1)).take
        (pre.length + (l :: above).length - pre.length - 1) = above := by
      have hcut : pre ++ (l :: above ++ [last ++ more]) ++ post =
          (pre ++ [l]) ++ (above ++ ((last ++ more) :: post)) := by simp
      rw [hcut, List.drop_left' (by simp)]
      simp
    have hlast : (pre ++ (l :: above ++ [last ++ more]) ++ post).getD
      (pre.length + (l :: above).length) [] =
        last ++ more := by
      simp [List.getD_eq_getElem?_getD]
    have hne : (Node.printed kind pre.length t).start.row ≠ pre.length + (l :: above).length := by
      simp [Node.printed]
    rw [if_neg hne]
    simp only [Node.printed]
    rw [hfirst, hbetween, hlast, dropBytes_zero, takeBytes_byteLength_append, ← h, unlines_lines]

theorem textIn_printed_lines {kind : NodeKind} {t : Text} {rows pre post : List Text}
    (h : rows = pre ++ lines t ++ post) : (Node.printed kind pre.length t).textIn rows = t := by
  obtain ⟨above, last, ht⟩ := lines_eq_concat t
  have hprinted := @textIn_printed kind t last [] above pre post ht
  rwa [List.append_nil, ← ht, ← h] at hprinted

/-- The text of a node that stands behind a text in one row. -/
theorem textIn_behind {n : Node} {rows : List Text} {a b : Text} (hrow : n.stop.row = n.start.row)
    (hcontent : rows.getD n.start.row [] = a ++ b) (hstart : n.start.col = byteLength a)
    (hstop : n.stop.col = byteLength (a ++ b)) : n.textIn rows = b := by
  unfold textIn
  rw [if_pos hrow.symm, hcontent, hstart, hstop, takeBytes_byteLength, dropBytes_byteLength_append]

end Node

namespace Statement

def commentNodes (row : Nat) : List Text → List Node
  | [] => []
  | c :: r => Node.printed .comment row c :: commentNodes (row + (lines c).length) r

def importNode (cfg : Settings) (row : Nat) (s : Statement) : Node :=
  Node.printed .importStatement (row + (s.leading.flatMap lines).length) (s.rendered cfg)

def trailingNodes (cfg : Settings) (row : Nat) (s : Statement) : List Node :=
  let place := (s.importNode cfg row).stop
  if s.trailing.isEmpty then []
  else [{ kind := .comment
          start := ⟨place.row, place.col + 1⟩
          stop := ⟨place.row, place.col + 1 + byteLength s.trailing⟩ }]

def nodesAt (cfg : Settings) (row : Nat) (s : Statement) : List Node :=
  commentNodes row s.leading ++ s.importNode cfg row :: s.trailingNodes cfg row

def nodesFrom (cfg : Settings) (row : Nat) : List Statement → List Node
  | [] => []
  | s :: r => s.nodesAt cfg row ++ nodesFrom cfg (row + (s.outputLines cfg).length) r

def asPrinted (cfg : Settings) (s : Statement) : Statement := { s with text := s.rendered cfg }

end Statement

namespace Grouping

/-- The groups that have statements, with their statements in printed order. -/
def printedGroups (cfg : Settings) (statements : List Statement) : List (Group × List Statement) :=
  (cfg.groups.zipIdx.map fun p =>
    (p.1, Statement.sorted cfg (members cfg.groups (Statement.distinct statements) p.2))).filter
      (!·.2.isEmpty)

def groupLines (cfg : Settings) (p : Group × List Statement) : List Text :=
  Header.ofGroup cfg p.1 :: p.2.flatMap (·.outputLines cfg)

/-- The nodes of groups that are printed from a row on, one empty line between two of them. -/
def nodesFrom (cfg : Settings) (row : Nat) : List (Group × List Statement) → List Node
  | [] => []
  | p :: r =>
    Node.printed .comment row (Header.ofGroup cfg p.1) :: Statement.nodesFrom cfg (row + 1) p.2 ++
      nodesFrom cfg (row + (groupLines cfg p).length + 1) r

def nodes (cfg : Settings) (statements : List Statement) : List Node :=
  nodesFrom cfg 0 (printedGroups cfg statements)

/-- The statements of an import block as they are printed, in printed order. -/
def printed (cfg : Settings) (statements : List Statement) : List Statement :=
  (printedGroups cfg statements).flatMap fun p => p.2.map (·.asPrinted cfg)

end Grouping

namespace Statement

theorem sorted_singleton (cfg : Settings) (s : Statement) : sorted cfg [s] = [s] :=
  List.mergeSort_singleton ..

theorem sorted_pair {cfg : Settings} {a b : Statement}
    (h : textLe (a.rendered cfg) (b.rendered cfg) = false) :
    sorted cfg [a, b] = [b, a] := by
  simp [sorted, List.mergeSort, List.MergeSort.Internal.splitInTwo, h]

theorem withTrailing_concat (comment last : Text) (above : List Text) :
    withTrailing comment (above ++ [last]) =
      above ++ [last ++ if comment.isEmpty then [] else ' ' :: comment] := by
  induction above with
  | nil => cases comment <;> simp [withTrailing]
  | cons l above ih =>
    cases above with
    | nil => cases comment <;> simp [withTrailing]
    | cons k above => simpa [withTrailing] using ih

end Statement

/-! ## Reading the nodes -/

namespace ImportBlock

variable {isHeader : Text → Bool} {rows pre post : List Text} {r : Reading} {rest : List Node}

theorem collect_comment {textOf : Node → Text} {n : Node} (h : n.kind = .comment) :
    collect textOf isHeader r (n :: rest) =
      collect textOf isHeader (r.addComment isHeader n.start.row (textOf n)) rest := by
  simp [collect, h]

theorem collect_import {textOf : Node → Text} {n : Node} (h : n.kind = .importStatement)
    (he : n.hasError = false) :
    collect textOf isHeader r (n :: rest) =
      collect textOf isHeader (r.addImport (textOf n) n.stop.row) rest := by
  simp [collect, h, he]

/-- Comments that are no headers wait for the next statement. -/
theorem collect_commentNodes {cs : List Text} (hrows : rows = pre ++ cs.flatMap lines ++ post)
    (hr : r.endRow < pre.length) (hcs : ∀ c ∈ cs, isHeader c = false) :
    collect (·.textIn rows) isHeader r (Statement.commentNodes pre.length cs ++ rest) =
      collect (·.textIn rows) isHeader { r with pending := r.pending ++ cs } rest := by
  induction cs generalizing pre r with
  | nil => simp [Statement.commentNodes]
  | cons c cs ih =>
    obtain ⟨hc, hcs⟩ := List.forall_mem_cons.mp hcs
    have hhere : rows = pre ++ lines c ++ (cs.flatMap lines ++ post) := by simp [hrows]
    have hbelow : rows = (pre ++ lines c) ++ cs.flatMap lines ++ post := by simp [hrows]
    have hwaits : r.addComment isHeader pre.length c = { r with pending := r.pending ++ [c] } := by
      simp [Reading.addComment, hc, Nat.ne_of_gt hr]
    have hrest := @ih (pre ++ lines c) { r with pending := r.pending ++ [c] } hbelow
      (by simp; omega) hcs
    rw [Statement.commentNodes, List.cons_append, collect_comment rfl,
      Node.textIn_printed_lines hhere]
    change collect _ _ (r.addComment isHeader pre.length c) _ = _
    rw [hwaits]
    simpa using hrest

/-- The comment behind a statement is read as such. -/
theorem collect_trailingNodes {cfg : Settings} {s : Statement}
    (hrows : rows = pre ++ s.outputLines cfg ++ post)
    (hend : r.endRow = (s.importNode cfg pre.length).stop.row) (hr : r.latest.trailing = []) :
    collect (·.textIn rows) isHeader r (s.trailingNodes cfg pre.length ++ rest) =
      collect (·.textIn rows) isHeader { r with latest := { r.latest with trailing := s.trailing } }
        rest := by
  by_cases hs : s.trailing = []
  · rw [hs, ← hr]
    simp [Statement.trailingNodes, hs]
  · obtain ⟨above, last, hlines⟩ := lines_eq_concat (s.rendered cfg)
    have hstop : (s.importNode cfg pre.length).stop =
        ⟨pre.length + (s.leading.flatMap lines).length + above.length, byteLength last⟩ :=
        Node.stop_printed hlines
    have hrow : rows.getD (pre.length + (s.leading.flatMap lines).length + above.length) [] =
        (last ++ [' ']) ++ s.trailing := by
      have hcut : rows = (pre ++ s.leading.flatMap lines ++ above) ++
          ((last ++ ' ' :: s.trailing) :: post) := by
        rw [hrows, Statement.outputLines, hlines, Statement.withTrailing_concat]
        simp [hs]
      rw [hcut, List.getD_eq_getElem?_getD, List.getElem?_append_right (by simp; omega)]
      simp [Nat.add_assoc]
    have hspace : byteLength (last ++ [' ']) = byteLength last + 1 := by
      rw [byteLength_append]
      rfl
    have hbehind : r.addComment isHeader r.endRow s.trailing =
        { r with latest := { r.latest with trailing := s.trailing } } := by
      simp [Reading.addComment, hr]
    have hnodes : s.trailingNodes cfg pre.length = [{
        kind := .comment
        start := ⟨r.endRow, byteLength last + 1⟩
        stop := ⟨r.endRow, byteLength last + 1 + byteLength s.trailing⟩ }] := by
      simp [Statement.trailingNodes, hs, hend, hstop]
    rw [hend, hstop] at hnodes
    rw [hnodes, List.singleton_append, collect_comment rfl,
      Node.textIn_behind rfl hrow hspace.symm (by rw [byteLength_append, hspace])]
    rw [← hbehind, hend, hstop]

theorem stop_importNode (cfg : Settings) (row : Nat) (s : Statement) :
    (s.importNode cfg row).stop.row + 1 = row + (s.outputLines cfg).length := by
  obtain ⟨above, last, hlines⟩ := lines_eq_concat (s.rendered cfg)
  rw [Statement.importNode, Node.stop_printed hlines, Statement.outputLines, hlines,
    Statement.withTrailing_concat]
  simp
  omega

def Reading.next (cfg : Settings) (r : Reading) (s : Statement) (endRow : Nat) : Reading :=
  { done := r.statements, latest := s.asPrinted cfg, endRow }

/-- A printed statement is read as it is printed. -/
theorem collect_nodesAt {cfg : Settings} {s : Statement}
    (hrows : rows = pre ++ s.outputLines cfg ++ post) (hr : r.endRow < pre.length)
    (hpending : r.pending = []) (hs : ∀ c ∈ s.leading, isHeader c = false) :
    collect (·.textIn rows) isHeader r (s.nodesAt cfg pre.length ++ rest) =
      collect (·.textIn rows) isHeader (r.next cfg s (s.importNode cfg pre.length).stop.row)
        rest := by
  obtain ⟨above, last, hlines⟩ := lines_eq_concat (s.rendered cfg)
  have hout : s.outputLines cfg = s.leading.flatMap lines ++
      (above ++ [last ++ if s.trailing.isEmpty then [] else ' ' :: s.trailing]) := by
    rw [Statement.outputLines, hlines, Statement.withTrailing_concat]
  have hcomments : rows = pre ++ s.leading.flatMap lines ++
      ((above ++ [last ++ if s.trailing.isEmpty then [] else ' ' :: s.trailing]) ++ post) := by
    rw [hrows, hout]
    simp
  have htext : (s.importNode cfg pre.length).textIn rows = s.rendered cfg := by
    rw [hcomments, ← List.append_assoc, Statement.importNode, ← List.length_append]
    exact Node.textIn_printed hlines
  rw [Statement.nodesAt, List.append_assoc, collect_commentNodes hcomments hr hs, List.cons_append,
    collect_import rfl rfl, htext, collect_trailingNodes hrows rfl rfl]
  simp [Reading.next, Reading.addImport, Reading.statements, Statement.asPrinted, hpending]

/-- Printed statements are read as they are printed. -/
theorem collect_nodesFrom {cfg : Settings} {ss : List Statement}
    (hrows : rows = pre ++ ss.flatMap (·.outputLines cfg) ++ post) (hr : r.endRow < pre.length)
    (hpending : r.pending = []) (hss : ∀ s ∈ ss, ∀ c ∈ s.leading, isHeader c = false) :
    ∃ r' : Reading, collect (·.textIn rows) isHeader r
      (Statement.nodesFrom cfg pre.length ss ++ rest) =
        collect (·.textIn rows) isHeader r' rest ∧
      r'.statements = r.statements ++ ss.map (·.asPrinted cfg) ∧ r'.pending = [] ∧
      (r.endRow + 1 = pre.length ∨ ss ≠ [] →
        r'.endRow + 1 = pre.length + (ss.flatMap (·.outputLines cfg)).length) := by
  induction ss generalizing pre r with
  | nil =>
    refine ⟨r, rfl, by simp, hpending, ?_⟩
    rintro (h | h)
    · simpa using h
    · exact absurd rfl h
  | cons s ss ih =>
    obtain ⟨hs, hss⟩ := List.forall_mem_cons.mp hss
    have hhere : rows = pre ++ s.outputLines cfg ++ (ss.flatMap (·.outputLines cfg) ++ post) := by
      simp [hrows]
    have hbelow : rows = (pre ++ s.outputLines cfg) ++ ss.flatMap (·.outputLines cfg) ++ post := by
      simp [hrows]
    have hstop := stop_importNode cfg pre.length s
    obtain ⟨r', hcollect, hstatements, hpending', hend⟩ :=
      @ih (pre ++ s.outputLines cfg) (r.next cfg s (s.importNode cfg pre.length).stop.row) hbelow
        (by simp [Reading.next]; omega) rfl hss
    refine ⟨r', ?_, ?_, hpending', fun _ => ?_⟩
    · rw [Statement.nodesFrom, List.append_assoc, collect_nodesAt hhere hr hpending hs]
      simpa using hcollect
    · rw [hstatements]
      simp [Reading.next, Reading.statements]
    · have := hend (.inl (by simp [Reading.next, hstop]))
      simp at this ⊢
      omega

/-- Printed groups, each behind an empty line, are read as they are printed. -/
theorem collect_groups {cfg : Settings} {gs : List (Group × List Statement)}
    (hrows : rows = pre ++ gs.flatMap (fun p => [] :: Grouping.groupLines cfg p) ++ post)
    (hr : r.endRow + 1 = pre.length) (hpending : r.pending = []) (hne : ∀ p ∈ gs, p.2 ≠ [])
    (hgs : ∀ p ∈ gs, isHeader (Header.ofGroup cfg p.1) = true ∧ '\n' ∉ Header.ofGroup cfg p.1)
    (hss : ∀ p ∈ gs, ∀ s ∈ p.2, ∀ c ∈ s.leading, isHeader c = false) :
    ∃ r' : Reading, collect (·.textIn rows) isHeader r
      (Grouping.nodesFrom cfg (pre.length + 1) gs ++ rest) =
        collect (·.textIn rows) isHeader r' rest ∧
      r'.statements = r.statements ++ gs.flatMap (fun p => p.2.map (·.asPrinted cfg)) ∧
      r'.pending = [] ∧
      r'.endRow + 1 = pre.length +
      (gs.flatMap fun p => [] :: Grouping.groupLines cfg p).length := by
  induction gs generalizing pre r with
  | nil => exact ⟨r, rfl, by simp, hpending, by simpa using hr⟩
  | cons p gs ih =>
    obtain ⟨hp, hne⟩ := List.forall_mem_cons.mp hne
    obtain ⟨hheader, hgs⟩ := List.forall_mem_cons.mp hgs
    obtain ⟨hleading, hss⟩ := List.forall_mem_cons.mp hss
    have hlines := lines_of_not_mem hheader.2
    have htext : (Node.printed .comment (pre.length + 1) (Header.ofGroup cfg p.1)).textIn rows =
        Header.ofGroup cfg p.1 := by
      have hhere : rows = (pre ++ [[]]) ++ lines (Header.ofGroup cfg p.1) ++
        (p.2.flatMap (·.outputLines cfg) ++
          (gs.flatMap (fun p => [] :: Grouping.groupLines cfg p) ++ post)) := by
        simp [hrows, hlines, Grouping.groupLines]
      simpa using Node.textIn_printed_lines hhere
    have hdropped : r.addComment isHeader (pre.length + 1) (Header.ofGroup cfg p.1) = r := by
      simp [Reading.addComment, hheader.1]
      omega
    have hstatements : rows = (pre ++ [[], Header.ofGroup cfg p.1]) ++
      p.2.flatMap (·.outputLines cfg) ++
        (gs.flatMap (fun p => [] :: Grouping.groupLines cfg p) ++ post) := by
      simp [hrows, Grouping.groupLines]
    obtain ⟨r₁, hread₁, hr₁, hpending₁, hend₁⟩ := @collect_nodesFrom isHeader rows _ _ r
      (Grouping.nodesFrom cfg (pre.length + 1 + (Grouping.groupLines cfg p).length + 1) gs ++ rest)
      cfg p.2 hstatements (by simp; omega) hpending hleading
    have hbelow : rows = (pre ++ [] :: Grouping.groupLines cfg p) ++
        gs.flatMap (fun p => [] :: Grouping.groupLines cfg p) ++ post := by
      simp [hrows]
    have hend₁ := hend₁ (.inr hp)
    obtain ⟨r', hread, hr', hpending', hend'⟩ :=
      @ih (pre ++ [] :: Grouping.groupLines cfg p) r₁ hbelow
        (by simp [Grouping.groupLines] at hend₁ ⊢; omega) hpending₁ hne hgs hss
    refine ⟨r', ?_, by simp [hr', hr₁], hpending', ?_⟩
    · rw [Grouping.nodesFrom, List.cons_append, List.cons_append, collect_comment rfl, htext,
        List.append_assoc]
      change collect _ _ (r.addComment isHeader (pre.length + 1) (Header.ofGroup cfg p.1)) _ = _
      rw [hdropped]
      simp only [List.length_append, List.length_cons, List.length_nil] at hread₁ hread
      rw [hread₁, ← hread]
      simp [Nat.add_assoc, Nat.add_comm]
    · simp only [List.length_append, List.flatMap_cons, List.length_cons] at hend' ⊢
      omega

/-- What follows the block ends the reading, if it is code; comments before it change nothing. -/
theorem collect_others {textOf : Node → Text} {others : List Node}
    (hrow : ∀ n ∈ others, r.endRow < n.start.row)
    (hnext : ∀ n ∈ (others.dropWhile (·.kind == .comment)).head?,
      n.kind ≠ .importStatement ∧ n.kind ≠ .syntaxError) :
    ∃ r' following, collect textOf isHeader r others = .ok (r', following) ∧
      r'.statements = r.statements ∧ r'.endRow = r.endRow ∧ ∀ n ∈ following,
      r.endRow < n.start.row := by
  induction others generalizing r with
  | nil => exact ⟨r, none, rfl, rfl, rfl, by simp⟩
  | cons n others ih =>
    obtain ⟨hn, hrow⟩ := List.forall_mem_cons.mp hrow
    by_cases hkind : n.kind = .comment
    · obtain ⟨hstatements, hend⟩ : (r.addComment isHeader n.start.row (textOf n)).statements =
        r.statements ∧
          (r.addComment isHeader n.start.row (textOf n)).endRow = r.endRow := by
        have hne : n.start.row ≠ r.endRow := Nat.ne_of_gt hn
        unfold Reading.addComment
        split
        · simp_all
        · split <;> exact ⟨rfl, rfl⟩
      obtain ⟨r', following, hr', hs', he', hf'⟩ :=
        @ih (r.addComment isHeader n.start.row (textOf n)) (by rwa [hend])
          (by simpa [List.dropWhile_cons, hkind] using hnext)
      refine ⟨r', following, ?_, by rw [hs', hstatements], by rw [he', hend], by rwa [hend] at hf'⟩
      rw [collect_comment hkind, hr']
    · have hends : n.kind ≠ .importStatement ∧ n.kind ≠ .syntaxError :=
        hnext n (by simp [hkind])
      refine ⟨r, some n, ?_, rfl, rfl, by simpa using hn⟩
      unfold collect
      cases hk : n.kind <;> simp_all

/-- The first statement that is read has no comments above it. -/
theorem collect_head {textOf : Node → Text} {r' : Reading} {nodes : List Node}
    {following : Option Node} (h : collect textOf isHeader r nodes = .ok (r', following))
    (hr : ∀ s ∈ r.statements.head?, s.leading = []) :
    ∀ s ∈ r'.statements.head?, s.leading = [] := by
  induction nodes generalizing r with
  | nil =>
    cases h
    exact hr
  | cons n nodes ih =>
    rcases collect_cons h with ⟨-, h⟩ | ⟨-, h⟩ | ⟨-, rfl, -⟩
    · refine ih h ?_
      simpa [Reading.addImport, Reading.statements] using hr
    · refine ih h ?_
      unfold Reading.addComment
      split
      · simp only [Reading.statements] at hr ⊢
        cases hd : r.done with
        | nil => simpa [hd] using hr
        | cons s done => simpa [hd] using hr
      · split <;> exact hr
    · exact hr

theorem locate_head {textOf : Node → Text} {nodes : List Node} {b : ImportBlock}
    (h : locate isHeader textOf rows nodes = .found b) :
    ∀ s ∈ b.statements.head?, s.leading = [] := by
  obtain ⟨before, n, rest, r, following, rfl, -, -, -, hc, -, -, rfl⟩ := locate_eq_found_iff.mp h
  refine collect_head hc ?_
  simp [Reading.statements]

end ImportBlock

namespace Header

/-- A header that begins as a comment is known as such again. -/
theorem isHeader_ofGroup {cfg : Settings} (hfill : isBlank cfg.headerChar = false) {g : Group}
    (hg : g ∈ cfg.groups) (hlabel : startsWith g.label "//" = true) :
    isHeader cfg (ofGroup cfg g) = true := by
  obtain ⟨q, hq⟩ : ∃ q, trim g.label = ['/', '/'] ++ q := by
    obtain ⟨q, hq⟩ := List.isPrefixOf_iff_prefix.mp hlabel
    exact ⟨trimRight q, by rw [← hq]; exact trim_append (by decide) (by decide) q⟩
  obtain ⟨x, hx⟩ : ∃ x, ofGroup cfg g = ['/', '/'] ++ x := by
    unfold ofGroup render
    split
    · exact ⟨_, by rw [padTo, hq, List.append_assoc, List.append_assoc]⟩
    · exact ⟨q, hq⟩
  have hlast : ∀ c, (ofGroup cfg g).getLast? = some c → isBlank c = false := by
    intro c hc
    unfold ofGroup render at hc
    split at hc
    · next hroom =>
      have hroom : (trim g.label).length + 1 < cfg.columnWidth := by simpa [hasRoom] using hroom
      obtain ⟨n, hn⟩ : ∃ n, cfg.columnWidth - (trim g.label ++ [' ']).length = n + 1 :=
        ⟨cfg.columnWidth - (trim g.label ++ [' ']).length - 1, by simp; omega⟩
      rw [padTo, hn, List.replicate_succ', ← List.append_assoc, List.getLast?_concat] at hc
      cases hc
      exact hfill
    · exact last_trim hc
  have hshown : trim (ofGroup cfg g) = ofGroup cfg g := by
    refine trim_eq_self ?_ hlast
    intro c hc
    rw [hx] at hc
    cases hc
    decide
  unfold isHeader
  simp only [hshown, Bool.and_eq_true, List.any_eq_true]
  exact ⟨List.isPrefixOf_iff_prefix.mpr ⟨x, hx.symm⟩, g, hg, by simp⟩

theorem not_isBlankLine_of_isHeader {cfg : Settings} {l : Text} (h : isHeader cfg l = true) :
    isBlankLine l = false := by
  rw [Bool.eq_false_iff]
  intro hblank
  have htrim : trim (l ++ []) = [] := trim_blank_append hblank []
  rw [List.append_nil] at htrim
  simp [isHeader, htrim, startsWith] at h

end Header

namespace Grouping

theorem intercalate_cons_eq {α : Type} (sep a : List α) (r : List (List α)) :
    sep.intercalate (a :: r) = a ++ r.flatMap (sep ++ ·) := by
  induction r generalizing a with
  | nil => simp
  | cons b r ih => rw [intercalate_cons_cons, ih b]; simp

theorem sorted_eq_nil_iff {cfg : Settings} {ss : List Statement} :
    Statement.sorted cfg ss = [] ↔ ss = [] := by
  have hperm : (Statement.sorted cfg ss).Perm ss := List.mergeSort_perm ..
  constructor
  · intro h
    rw [h] at hperm
    exact hperm.symm.eq_nil
  · rintro rfl
    exact hperm.eq_nil

theorem block_eq (cfg : Settings) (g : Group) (ss : List Statement) :
    block cfg g ss = if ss = [] then [] else groupLines cfg (g, Statement.sorted cfg ss) := by
  simp [block, groupLines]

/-- The lines of an import block are those of its groups. -/
theorem layout_eq (cfg : Settings) (statements : List Statement) :
    layout cfg statements =
      [[]].intercalate ((printedGroups cfg statements).map (groupLines cfg)) := by
  have hblocks : ∀ (l : List (Group × Nat)),
      (l.map fun p => block cfg p.1 (members cfg.groups (Statement.distinct statements) p.2)).filter
        (!·.isEmpty) =
      ((l.map fun p => (p.1, Statement.sorted cfg
        (members cfg.groups (Statement.distinct statements) p.2))).filter (!·.2.isEmpty)).map
        (groupLines cfg) := by
    intro l
    induction l with
    | nil => rfl
    | cons p l ih =>
      rw [List.map_cons, List.map_cons, List.filter_cons, List.filter_cons, ih, block_eq]
      by_cases hp : members cfg.groups (Statement.distinct statements) p.2 = []
      · simp [hp, sorted_eq_nil_iff]
      · simp [hp, sorted_eq_nil_iff, groupLines]
  unfold layout joinBlocks printedGroups
  rw [← hblocks]

/-- What holds of the lines of an import block, headers and statements taken apart. -/
theorem forall_mem_layout {Q : Text → Prop} (hq : Q []) (cfg : Settings)
    (statements : List Statement) :
    (∀ l ∈ layout cfg statements, Q l) ↔ ∀ p ∈ printedGroups cfg statements,
      Q (Header.ofGroup cfg p.1) ∧ ∀ s ∈ p.2, ∀ l ∈ s.outputLines cfg, Q l := by
  have hblocks : ∀ bs : List (List Text), (∀ l ∈ [[]].intercalate bs, Q l) ↔
      ∀ b ∈ bs, ∀ l ∈ b, Q l := by
    intro bs
    induction bs with
    | nil => simp [List.intercalate]
    | cons b r ih =>
      cases r with
      | nil => simp
      | cons k r =>
        rw [intercalate_cons_cons, List.forall_mem_append, List.forall_mem_append, ih]
        simp [hq]
  rw [layout_eq, hblocks, List.forall_mem_map]
  refine forall_congr' fun p => forall_congr' fun _ => ?_
  simp only [groupLines, List.forall_mem_cons, List.forall_mem_flatMap]

theorem mem_printedGroups {cfg : Settings} {statements : List Statement}
    {p : Group × List Statement} (h : p ∈ printedGroups cfg statements) :
    p.1 ∈ cfg.groups ∧ p.2 ≠ [] ∧ ∀ s ∈ p.2, s ∈ statements := by
  obtain ⟨hp, hne⟩ := List.mem_filter.mp h
  obtain ⟨q, hq, rfl⟩ := List.mem_map.mp hp
  refine ⟨(List.mem_zipIdx hq).2.2 ▸ List.getElem_mem _, by simpa using hne, ?_⟩
  intro s hs
  have hmem := (List.mergeSort_perm ..).mem_iff.mp hs
  exact Statement.mem_of_mem_distinctFrom (List.mem_filter.mp hmem).1

theorem printedGroups_ne_nil {cfg : Settings} {statements : List Statement}
    (hcatch : ∃ g ∈ cfg.groups, g.isCatchAll = true) (hne : statements ≠ []) :
    printedGroups cfg statements ≠ [] := by
  obtain ⟨p, hp, hmembers⟩ := exists_members hcatch hne
  refine List.ne_nil_of_mem (List.mem_filter.mpr ⟨List.mem_map.mpr ⟨p, hp, rfl⟩, ?_⟩)
  simpa using mt sorted_eq_nil_iff.mp hmembers

end Grouping

namespace ImportBlock

theorem bottomRow_eq {isHeader : Text → Bool} {above code : List Text} {stop : Nat}
    (h : stop + 1 = above.length) :
    bottomRow isHeader (above ++ code) stop =
      stop + (code.takeWhile fun l => isBlankLine l || isHeader l).length := by
  rw [bottomRow, h, List.drop_left]

variable {cfg : Settings} {g : Group} {s : Statement} {more : List Statement}
  {gs : List (Group × List Statement)} {isHeader : Text → Bool} {rows : List Text}

/-- From the first import on, the nodes of printed groups are read as the printed statements. -/
theorem collect_block {rest : List Node} {post : List Text} (hs : s.leading = [])
    (hrows : rows = Grouping.groupLines cfg (g, s :: more) ++
      gs.flatMap (fun p => [] :: Grouping.groupLines cfg p) ++ post)
    (hne : ∀ p ∈ gs, p.2 ≠ [])
    (hheaders : ∀ p ∈ gs, isHeader (Header.ofGroup cfg p.1) = true ∧ '\n' ∉ Header.ofGroup cfg p.1)
    (hmore : ∀ s ∈ more, ∀ c ∈ s.leading, isHeader c = false)
    (hgs : ∀ p ∈ gs, ∀ s ∈ p.2, ∀ c ∈ s.leading, isHeader c = false) :
    ∃ r' : Reading,
      collect (·.textIn rows) isHeader
          { latest := { text := (s.importNode cfg 1).textIn rows },
            endRow := (s.importNode cfg 1).stop.row }
          (s.trailingNodes cfg 1 ++
            (Statement.nodesFrom cfg (1 + (s.outputLines cfg).length) more ++
            (Grouping.nodesFrom cfg ((Grouping.groupLines cfg (g, s :: more)).length + 1) gs ++
              rest))) =
        collect (·.textIn rows) isHeader r' rest ∧
      r'.statements = ((g, s :: more) :: gs).flatMap (fun p => p.2.map (·.asPrinted cfg)) ∧
      r'.endRow + 1 = (Grouping.groupLines cfg (g, s :: more)).length +
        (gs.flatMap fun p => [] :: Grouping.groupLines cfg p).length := by
  have hfirst : rows = [Header.ofGroup cfg g] ++ s.outputLines cfg ++
    (more.flatMap (·.outputLines cfg) ++
      (gs.flatMap (fun p => [] :: Grouping.groupLines cfg p) ++ post)) := by
    simp [hrows, Grouping.groupLines]
  have htext : (s.importNode cfg 1).textIn rows = s.rendered cfg := by
    obtain ⟨above, last, hlines⟩ := lines_eq_concat (s.rendered cfg)
    rw [hfirst, Statement.outputLines, hlines, Statement.withTrailing_concat, hs]
    simpa [Statement.importNode, hs] using
      @Node.textIn_printed .importStatement _ _ _ _ [Header.ofGroup cfg g] _ hlines
  have hstop := stop_importNode cfg 1 s
  have htrailing := @collect_trailingNodes isHeader rows [Header.ofGroup cfg g] _
    { latest := { text := s.rendered cfg }, endRow := (s.importNode cfg 1).stop.row }
    (Statement.nodesFrom cfg (1 + (s.outputLines cfg).length) more ++
      (Grouping.nodesFrom cfg ((Grouping.groupLines cfg (g, s :: more)).length + 1) gs ++ rest)) cfg
      s
    hfirst rfl rfl
  have hprinted : ({ text := s.rendered cfg, trailing := s.trailing } : Statement) =
      s.asPrinted cfg := by
    simp [Statement.asPrinted, hs]
  simp only [hprinted, List.length_singleton] at htrailing
  have hrest : rows = ([Header.ofGroup cfg g] ++ s.outputLines cfg) ++
    more.flatMap (·.outputLines cfg) ++
      (gs.flatMap (fun p => [] :: Grouping.groupLines cfg p) ++ post) := by
    simp [hfirst]
  obtain ⟨r₁, hread₁, hr₁, hpending₁, hend₁⟩ := @collect_nodesFrom isHeader rows _ _
    { latest := s.asPrinted cfg, endRow := (s.importNode cfg 1).stop.row }
    (Grouping.nodesFrom cfg ((Grouping.groupLines cfg (g, s :: more)).length + 1) gs ++ rest) cfg
    more hrest (by simp; omega) rfl hmore
  have hend₁ := hend₁ (.inl (by simp; omega))
  obtain ⟨r', hread, hr', -, hend⟩ := @collect_groups isHeader rows _ _ r₁ rest cfg gs hrows
    (by simp [Grouping.groupLines] at hend₁ ⊢; omega) hpending₁ hne hheaders hgs
  refine ⟨r', ?_, ?_, hend⟩
  · simp only [List.length_append, List.length_singleton] at hread₁
    rw [htext, htrailing, hread₁, hread]
  · rw [hr', hr₁]
    simp [Reading.statements]

/-- The block of printed groups is found from the first row on, if no comment stands above its first
statement. -/
theorem locate_block {above code allCode : List Text} {others : List Node} (hs : s.leading = [])
    (habove : above = Grouping.groupLines cfg (g, s :: more) ++
      gs.flatMap (fun p => [] :: Grouping.groupLines cfg p))
    (hheaders : ∀ p ∈ (g, s :: more) :: gs, p.2 ≠ [] ∧
      Header.isHeader cfg (Header.ofGroup cfg p.1) = true ∧ '\n' ∉ Header.ofGroup cfg p.1)
    (hleading : ∀ p ∈ (g, s :: more) :: gs, ∀ s ∈ p.2, ∀ c ∈ s.leading, Header.isHeader cfg c =
      false)
    (hothers : ∀ n ∈ others, above.length ≤ n.start.row)
    (hnext : ∀ n ∈ (others.dropWhile (·.kind == .comment)).head?,
      n.kind ≠ .importStatement ∧ n.kind ≠ .syntaxError) :
    ∃ b, locate (Header.isHeader cfg) (·.textIn (above ++ allCode)) (above ++ code)
        (Grouping.nodesFrom cfg 0 ((g, s :: more) :: gs) ++ others) = .found b ∧
      b.first = 0 ∧ b.statements =
        ((g, s :: more) :: gs).flatMap (fun p => p.2.map (·.asPrinted cfg)) ∧
      b.last + 1 = above.length +
      (code.takeWhile fun l => isBlankLine l || Header.isHeader cfg l).length := by
  obtain ⟨⟨-, hheader, hline⟩, hheaders⟩ := List.forall_mem_cons.mp hheaders
  dsimp only at hheader hline
  obtain ⟨hfirst, hleading⟩ := List.forall_mem_cons.mp hleading
  obtain ⟨-, hmore⟩ := List.forall_mem_cons.mp hfirst
  obtain ⟨r, hread, hr, hend⟩ :=
    @collect_block cfg g s more gs (Header.isHeader cfg) (above ++ allCode) others
      allCode hs (by rw [habove]) (fun p hp => (hheaders p hp).1) (fun p hp => (hheaders p hp).2)
        hmore hleading
  rw [← List.length_append, ← habove] at hend
  obtain ⟨r', following, hothers', hr', hend', hfollowing⟩ :=
    @collect_others (Header.isHeader cfg) r
      (·.textIn (above ++ allCode)) others (fun n hn => by have := hothers n hn; omega) hnext
  have hnodes : Grouping.nodesFrom cfg 0 ((g, s :: more) :: gs) ++ others =
      [Node.printed .comment 0 (Header.ofGroup cfg g)] ++ s.importNode cfg 1 ::
        (s.trailingNodes cfg 1 ++ (Statement.nodesFrom cfg (1 + (s.outputLines cfg).length) more ++
          (Grouping.nodesFrom cfg ((Grouping.groupLines cfg (g, s :: more)).length + 1) gs ++
            others))) := by
    simp [Grouping.nodesFrom, Statement.nodesFrom, Statement.nodesAt, Statement.commentNodes, hs]
  refine ⟨_, locate_eq_found_iff.mpr ⟨_, _, _, r', following, hnodes, ?_, rfl, rfl, ?_, ?_, ?_,
    rfl⟩, ?_, ?_, ?_⟩
  · intro m hm
    obtain rfl := List.mem_singleton.mp hm
    exact ⟨by simp [Node.printed], rfl⟩
  · rw [hread, hothers']
  · rwa [hend']
  · intro m hm
    obtain rfl : m = Node.printed .comment 0 (Header.ofGroup cfg g) := by simpa using hm.symm
    simp [Node.printed, lines_of_not_mem hline, Statement.importNode, hs]
  · -- the header is the only row above the first import
    have hrow : (s.importNode cfg 1).start.row = 1 := by
      simp [Statement.importNode, Node.printed, hs]
    have htop : (above ++ code).take 1 = [Header.ofGroup cfg g] := by
      simp [habove, Grouping.groupLines]
    simp [topRow, hrow, htop, hheader, Header.not_isBlankLine_of_isHeader hheader]
  · rw [hr', hr]
  · have hbottom := @bottomRow_eq (Header.isHeader cfg) above code r'.endRow (by rw [hend', hend])
    dsimp only
    omega

end ImportBlock

namespace Document

/-- A printed import block, with any code below it, is read back from its outline as the
printed statements in printed order with their comments, in a region that begins at the first
row and covers the block and an empty line below it, exactly if no comment stands above the
first printed statement. -/
theorem imports_read_back {cfg : Settings} (hc : cfg.Accepted)
    (hlabels : ∀ g ∈ cfg.groups, startsWith g.label "//" = true) {statements : List Statement}
    (hne : statements ≠ [])
    (hleading : ∀ s ∈ statements, ∀ c ∈ s.leading, Header.isHeader cfg c = false) {t : Text}
    {code : List Text} (ht : contentLines t = Grouping.layout cfg statements ++ code)
    {others : List Node} (hothers : ∀ n ∈ others, (Grouping.layout cfg statements).length ≤
      n.start.row) (hnext : ∀ n ∈ (others.dropWhile (·.kind == .comment)).head?,
      n.kind ≠ .importStatement ∧ n.kind ≠ .syntaxError) :
    (∃ b, (context cfg t (Grouping.nodes cfg statements ++ others)).1.imports = some b ∧
        b.first = 0 ∧ (Grouping.layout cfg statements).length ≤ b.last + 1 ∧
        (code.head? = some [] → (Grouping.layout cfg statements).length ≤ b.last) ∧
        b.statements = Grouping.printed cfg statements) ↔
      ∀ s ∈ (Grouping.printed cfg statements).head?, s.leading = [] := by
  constructor
  · rintro ⟨b, hb, -, -, -, hstatements⟩
    rw [← hstatements]
    exact ImportBlock.locate_head (imports_eq_some_iff.mp hb)
  · intro hfirst
    obtain ⟨⟨g, ss⟩, gs, hgroups⟩ :=
      List.exists_cons_of_ne_nil (Grouping.printedGroups_ne_nil hc.catchAll hne)
    have hmem : ∀ p ∈ (g, ss) :: gs, p.1 ∈ cfg.groups ∧ p.2 ≠ [] ∧ ∀ s ∈ p.2, s ∈ statements := by
      rw [← hgroups]
      exact fun p hp => Grouping.mem_printedGroups hp
    obtain ⟨s, more, rfl⟩ := List.exists_cons_of_ne_nil (hmem _ List.mem_cons_self).2.1
    have hs : s.leading = [] := hfirst (s.asPrinted cfg) (by simp [Grouping.printed, hgroups])
    have hlayout : Grouping.layout cfg statements = Grouping.groupLines cfg (g, s :: more) ++
        gs.flatMap (fun p => [] :: Grouping.groupLines cfg p) := by
      rw [Grouping.layout_eq, hgroups, List.map_cons, Grouping.intercalate_cons_eq,
        List.flatMap_map]
      rfl
    have hheaders : ∀ p ∈ (g, s :: more) :: gs, p.2 ≠ [] ∧
        Header.isHeader cfg (Header.ofGroup cfg p.1) = true ∧ '\n' ∉ Header.ofGroup cfg p.1 := by
      intro p hp
      obtain ⟨hgroup, hss, -⟩ := hmem p hp
      refine ⟨hss, Header.isHeader_ofGroup hc.headerChar hgroup (hlabels p.1 hgroup), ?_⟩
      apply not_mem_of_mem_contentLines (t := t)
      rw [ht, hlayout]
      rcases List.mem_cons.mp hp with rfl | hp
      · simp [Grouping.groupLines]
      · refine List.mem_append_left _ (List.mem_append_right _ (List.mem_flatMap.mpr ⟨p, hp, ?_⟩))
        simp [Grouping.groupLines]
    obtain ⟨allCode, hall⟩ : ∃ allCode, lines t = Grouping.layout cfg statements ++ allCode := by
      rcases lines_eq_contentLines t with h | h
      · exact ⟨code, by rw [h, ht]⟩
      · exact ⟨code ++ [[]], by rw [h, ht, List.append_assoc]⟩
    obtain ⟨b, hb, hzero, hstatements, hlast⟩ :=
      @ImportBlock.locate_block cfg g s more gs _ code allCode others
        hs hlayout hheaders (fun p hp s hs => hleading s ((hmem p hp).2.2 s hs)) hothers hnext
    refine ⟨b, imports_eq_some_iff.mpr ?_, hzero, by omega, ?_, ?_⟩
    · rw [hall, ht, Grouping.nodes, hgroups]
      exact hb
    · intro hcode
      obtain ⟨rest, rfl⟩ : ∃ rest, code = [] :: rest := by
        cases code with
        | nil => cases hcode
        | cons l rest => cases hcode; exact ⟨rest, rfl⟩
      simp [isBlankLine] at hlast
      omega
    · rw [hstatements, Grouping.printed, hgroups]

/-- Two groups, comments above and behind statements, and code below the block. -/
theorem imports_read_back_two_groups :
    let cfg : Settings := {
      columnWidth := 12
      groups := [{ label := "// LOCAL".toList, matchers := ["./".toList] }, Group.other] }
    let z : Statement := { text := "import z from 'z';".toList, trailing := "// last".toList }
    let s : Statement := { text := " import s from './s'".toList }
    let r : Statement := { text := "import r from 'r';".toList, leading := ["/* a\n b */".toList] }
    let t :=
      "// LOCAL ===\nimport s from './s'\n\n// OTHER ===\n/* a\n b */\n".toList ++
        "import r from 'r';\nimport z from 'z'; // last\n\ncall();\n".toList
    let call : Node := { kind := .other, start := ⟨9, 0⟩, stop := ⟨9, 7⟩ }
    ∃ b, (context cfg t (Grouping.nodes cfg [z, s, r] ++ [call])).1.imports = some b ∧
      b.first = 0 ∧ 8 ≤ b.last ∧ b.statements = [s.asPrinted cfg, r, z] := by
  intro cfg z s r t call
  have hgroups : Grouping.printedGroups cfg [z, s, r] =
      [({ label := "// LOCAL".toList, matchers := ["./".toList] }, [s]),
        (Group.other, [r, z])] := by
    have hlocal : Grouping.members cfg.groups (Statement.distinct [z, s, r]) 0 = [s] := by
      decide +kernel
    have hother : Grouping.members cfg.groups (Statement.distinct [z, s, r]) 1 = [z, r] := by
      decide +kernel
    have hsorted : Statement.sorted cfg [z, r] = [r, z] := Statement.sorted_pair (by decide +kernel)
    have hgroups : cfg.groups.zipIdx =
      [({ label := "// LOCAL".toList, matchers := ["./".toList] }, 0), (Group.other, 1)] := rfl
    simp only [Grouping.printedGroups, hgroups, List.map_cons, List.map_nil, hlocal, hother,
      hsorted, Statement.sorted_singleton]
    rfl
  have hlayout : Grouping.layout cfg [z, s, r] ++ [[], "call();".toList] = contentLines t := by
    rw [Grouping.layout_eq, hgroups]
    decide +kernel
  have hprinted : Grouping.printed cfg [z, s, r] = [s.asPrinted cfg, r, z] := by
    rw [Grouping.printed, hgroups]
    decide +kernel
  have hlength : (Grouping.layout cfg [z, s, r]).length = 8 := by
    have h := congrArg List.length hlayout
    have : (contentLines t).length = 10 := by decide +kernel
    simp at h
    omega
  obtain ⟨b, hb, hfirst, -, hempty, hstatements⟩ :=
    (@imports_read_back cfg ⟨[("column_width".toList, .int 12), ("groups".toList, .list [.table [
      ("label".toList, .text "// LOCAL".toList), ("matchers".toList, .list [.text "./".toList])]])],
      rfl⟩ (by decide +kernel) [z, s, r] (by decide) (by decide +kernel) t _ hlayout.symm [call]
      (by rw [hlength]; decide) (by decide)).mpr (by rw [hprinted]; decide +kernel)
  exact ⟨b, hb, hfirst, hlength ▸ hempty rfl, hprinted ▸ hstatements⟩

/-- A comment above the first printed statement is not read back, and the header above it
stays outside the region. -/
theorem leading_comment_not_read_back :
    let cfg : Settings := { columnWidth := 12, groups := [Group.other] }
    let z : Statement := { text := "import z from 'z';".toList }
    let a : Statement := { text := "import a from 'a';".toList, leading := ["// c".toList] }
    let t := "// OTHER ===\n// c\nimport a from 'a';\nimport z from 'z';".toList
    contentLines t = Grouping.layout cfg [z, a] ∧
      (context cfg t (Grouping.nodes cfg [z, a])).1.imports =
        some { first := 2, last := 3, statements := [{ a with leading := [] }, z] } := by
  intro cfg z a t
  have hgroups : Grouping.printedGroups cfg [z, a] = [(Group.other, [a, z])] := by
    have hother : Grouping.members cfg.groups (Statement.distinct [z, a]) 0 = [z, a] := by
      decide +kernel
    have hsorted : Statement.sorted cfg [z, a] = [a, z] := Statement.sorted_pair (by decide +kernel)
    have hgroups : cfg.groups.zipIdx = [(Group.other, 0)] := rfl
    simp only [Grouping.printedGroups, hgroups, List.map_cons, List.map_nil, hother, hsorted]
    rfl
  rw [Grouping.layout_eq, Grouping.nodes, hgroups]
  exact ⟨by decide +kernel, by decide +kernel⟩

end Document

end SourceLayout
