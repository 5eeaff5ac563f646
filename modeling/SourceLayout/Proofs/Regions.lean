import SourceLayout.Proofs.Ink
import SourceLayout.Proofs.Lines

/-! The regions of a file are disjoint. The import block is found by growing a range of rows over
blank lines and headers, the declarations by the columns of their nodes; that the two never meet
follows from the order of the nodes and from what stands at their ends. -/

namespace SourceLayout
open Text

def Position.Le (a b : Position) : Prop := a.row < b.row ∨ a.row = b.row ∧ a.col ≤ b.col

instance : DecidableRel Position.Le := fun a b =>
  inferInstanceAs (Decidable (a.row < b.row ∨ a.row = b.row ∧ a.col ≤ b.col))

namespace Outline

/-- What a parser promises of the nodes of a file: they are in order and do not overlap, and each
begins with a character that is not blank. -/
structure InOrder (rows : List Text) (nodes : List Node) : Prop where
  ordered : nodes.Pairwise fun a b => a.stop.Le b.start
  forward : ∀ n ∈ nodes, n.start.Le n.stop
  begins : ∀ n ∈ nodes, (n.textIn rows).head?.any (!isBlank ·) = true

/-- Besides, each node ends with a character that is not blank, and no declaration begins or ends
on the row of a header. -/
structure Placed (isHeader : Text → Bool) (rows : List Text) (nodes : List Node) : Prop
    extends InOrder rows nodes where
  ends : ∀ n ∈ nodes, (n.textIn rows).getLast?.any (!isBlank ·) = true
  offHeaders : ∀ n ∈ nodes, n.isDeclaration = true →
    isHeader (rows.getD n.start.row []) = false ∧ isHeader (rows.getD n.stop.row []) = false

variable {isHeader : Text → Bool} {rows : List Text} {nodes : List Node}

theorem InOrder.first_char (h : InOrder rows nodes) {n : Node} (hn : n ∈ nodes) :
    ∃ c, (n.textIn rows).head? = some c ∧ isBlank c = false := by
  simpa [Option.any_eq_true] using h.begins n hn

theorem Placed.last_char (h : Placed isHeader rows nodes) {n : Node} (hn : n ∈ nodes) :
    ∃ c, (n.textIn rows).getLast? = some c ∧ isBlank c = false := by
  simpa [Option.any_eq_true] using h.ends n hn

end Outline

/-! ## Bytes and nodes -/

namespace Text

theorem takeBytes_isPrefix (n : Nat) (t : Text) : takeBytes n t <+: t := by
  induction t generalizing n with
  | nil => cases n <;> exact List.prefix_rfl
  | cons c t ih =>
    cases n with
    | zero => exact List.nil_prefix
    | succ n => exact List.cons_prefix_cons.mpr ⟨rfl, ih _⟩

theorem takeBytes_mono {m n : Nat} (h : m ≤ n) (t : Text) : takeBytes m t <+: takeBytes n t := by
  induction t generalizing m n with
  | nil => cases m <;> cases n <;> exact List.prefix_rfl
  | cons c t ih =>
    cases m with
    | zero => exact List.nil_prefix
    | succ m =>
      cases n with
      | zero => omega
      | succ n => exact List.cons_prefix_cons.mpr ⟨rfl, ih (by omega)⟩

theorem dropBytes_isPrefix {a b : Text} (h : a <+: b) (n : Nat) :
    dropBytes n a <+: dropBytes n b := by
  induction a generalizing b n with
  | nil =>
    rw [dropBytes]
    exact List.nil_prefix
  | cons c a ih =>
    obtain ⟨r, rfl⟩ := h
    cases n with
    | zero => exact ⟨r, rfl⟩
    | succ n => exact ih ⟨r, rfl⟩ _

theorem takeBytes_append_dropBytes (n : Nat) (t : Text) : takeBytes n t ++ dropBytes n t = t := by
  induction t generalizing n with
  | nil => simp [takeBytes, dropBytes]
  | cons c t ih =>
    cases n with
    | zero => rfl
    | succ n => rw [takeBytes, dropBytes, List.cons_append, ih]

theorem dropBytes_isSuffix (n : Nat) (t : Text) : dropBytes n t <:+ t := by
  induction t generalizing n with
  | nil => cases n <;> exact List.suffix_rfl
  | cons c t ih =>
    cases n with
    | zero => exact List.suffix_rfl
    | succ n => exact (ih _).trans (List.suffix_cons c t)

end Text

namespace Node

/-- The row on which a node begins goes on with the node's first character where the node begins. -/
theorem start_char {rows : List Text} {n : Node} {c : Char} (h : (n.textIn rows).head? = some c)
    (hc : isBlank c = false) :
    (dropBytes n.start.col (rows.getD n.start.row [])).head? = some c := by
  unfold textIn at h
  simp only at h
  split at h
  · obtain ⟨x, hx⟩ := dropBytes_isPrefix (takeBytes_isPrefix n.stop.col (rows.getD n.start.row []))
      n.start.col
    rw [← hx, List.head?_append, h, Option.some_or]
  · obtain ⟨x, hx⟩ : ∃ x, unlines (dropBytes n.start.col (rows.getD n.start.row []) ::
        ((rows.drop (n.start.row + 1)).take (n.stop.row - n.start.row - 1) ++
          [takeBytes n.stop.col (rows.getD n.stop.row [])])) =
        dropBytes n.start.col (rows.getD n.start.row []) ++ '\n' :: x := by
      cases (rows.drop (n.start.row + 1)).take (n.stop.row - n.start.row - 1) with
      | nil => exact ⟨_, joinLines_cons_cons ..⟩
      | cons k r => exact ⟨_, joinLines_cons_cons ..⟩
    rw [List.cons_append, hx] at h
    cases hd : dropBytes n.start.col (rows.getD n.start.row []) with
    | nil =>
      rw [hd, List.nil_append, List.head?_cons, Option.some.injEq] at h
      subst h
      exact absurd hc (by decide)
    | cons d t =>
      rw [hd, List.cons_append, List.head?_cons] at h
      exact h

/-- The row on which a node begins shows the node's first character. -/
theorem start_row {rows : List Text} {n : Node} {c : Char} (h : (n.textIn rows).head? = some c)
    (hc : isBlank c = false) : c ∈ rows.getD n.start.row [] :=
  (dropBytes_isSuffix _ _).subset (List.mem_of_mem_head? (start_char h hc))

/-- The row on which a node ends shows the node's last character, before the place where it ends. -/
theorem stop_row {rows : List Text} {n : Node} {c : Char} (h : (n.textIn rows).getLast? = some c)
    (hc : isBlank c = false) : c ∈ takeBytes n.stop.col (rows.getD n.stop.row []) := by
  unfold textIn at h
  simp only at h
  split at h
  · next hrow =>
    rw [hrow] at h
    exact (dropBytes_isSuffix _ _).subset (List.mem_of_getLast? h)
  · rw [unlines, joinLines_concat _ (List.cons_ne_nil _ _), List.getLast?_append] at h
    cases hd : (takeBytes n.stop.col (rows.getD n.stop.row [])).getLast? with
    | none =>
      rw [List.getLast?_append, hd] at h
      obtain rfl : '\n' = c := by simpa using h
      exact absurd hc (by decide)
    | some d =>
      rw [List.getLast?_append, hd] at h
      obtain rfl : d = c := by simpa using h
      exact List.mem_of_getLast? hd

end Node

/-! ## Rows of a file -/

namespace Document

/-- The lines of a file and its rows differ by an empty row at the end at most. -/
theorem lines_eq_contentLines (t : Text) :
    lines t = contentLines t ∨ lines t = contentLines t ++ [[]] := by
  unfold contentLines
  split
  · next h =>
    obtain ⟨r, hr⟩ := List.getLast?_eq_some_iff.mp (getLast?_lines_of_newline (beq_iff_eq.mp h))
    exact .inr (by rw [hr, List.dropLast_concat])
  · exact .inl rfl

theorem getD_contentLines (t : Text) (i : Nat) :
    (contentLines t).getD i [] = (lines t).getD i [] := by
  rcases lines_eq_contentLines t with h | h
  · rw [h]
  · rw [h, List.getD_eq_getElem?_getD, List.getD_eq_getElem?_getD]
    by_cases hi : i < (contentLines t).length
    · rw [List.getElem?_append_left hi]
    · rw [List.getElem?_eq_none (by omega), List.getElem?_append_right (by omega)]
      cases i - (contentLines t).length with
      | zero => rfl
      | succ k => rfl

theorem not_mem_of_mem_contentLines {t l : Text} (h : l ∈ contentLines t) : '\n' ∉ l := by
  apply not_mem_of_mem_lines (t := t)
  rcases lines_eq_contentLines t with ht | ht
  · rwa [ht]
  · exact ht ▸ List.mem_append_left _ h

theorem imports_eq_some_iff {cfg : Settings} {t : Text} {nodes : List Node} {b : ImportBlock} :
    (context cfg t nodes).1.imports = some b ↔
      ImportBlock.locate (Header.isHeader cfg) (·.textIn (lines t)) (contentLines t) nodes =
        .found b := by
  simp only [context]
  cases ImportBlock.locate (Header.isHeader cfg) (·.textIn (lines t)) (contentLines t) nodes with
  | none => simp [ImportBlock.Finding.block?]
  | skipped why => simp [ImportBlock.Finding.block?]
  | found b' => simp [ImportBlock.Finding.block?]

theorem lt_of_mem_row {rows : List Text} {i : Nat} {c : Char} (h : c ∈ rows.getD i []) :
    i < rows.length := by
  rcases Nat.lt_or_ge i rows.length with hi | hi
  · exact hi
  · rw [List.getD_eq_getElem?_getD, List.getElem?_eq_none hi] at h
    exact absurd h List.not_mem_nil

end Document

/-! ## Declarations -/

namespace Region

def Disjoint (a b : Region) : Prop := a.last < b.first ∨ b.last < a.first

end Region

theorem Position.Le.row_le {a b : Position} (h : a.Le b) : a.row ≤ b.row := by
  rcases h with h | ⟨h, -⟩ <;> omega

theorem Node.isBlank_of_isAsciiBlank {c : Char} (h : Node.isAsciiBlank c = true) :
    isBlank c = true := by
  simp only [Node.isAsciiBlank, Bool.or_eq_true, beq_iff_eq, Bool.and_eq_true,
    decide_eq_true_eq] at h
  rcases h with rfl | h
  · decide
  · simp [isBlank, h]

/-- A node that owns its rows begins below every node before it. -/
theorem Outline.Placed.row_lt {isHeader : Text → Bool} {rows : List Text} {nodes : List Node}
    (h : Outline.Placed isHeader rows nodes) {a b : Node} (ha : a ∈ nodes) (hab : a.stop.Le b.start)
    (hb : b.ownsRows rows = true) : a.stop.row < b.start.row := by
  rcases hab with hlt | ⟨hrow, hcol⟩
  · exact hlt
  · obtain ⟨c, hc, hblank⟩ := h.last_char ha
    have hmem := (takeBytes_mono hcol _).subset (Node.stop_row hc hblank)
    simp only [Node.ownsRows, Bool.and_eq_true, List.all_eq_true] at hb
    rw [hrow] at hmem
    rw [Node.isBlank_of_isAsciiBlank (hb.1 c hmem)] at hblank
    cases hblank

theorem Region.declarations_pairwise {isHeader : Text → Bool} {rows : List Text} {nodes : List Node}
    (h : Outline.Placed isHeader rows nodes) :
    (Region.declarations rows nodes).Pairwise fun a b => a.last < b.first := by
  rw [Region.declarations, List.pairwise_map]
  refine (h.ordered.filter _).imp_of_mem ?_
  intro a b ha hb hab
  simp only [List.mem_filter, Bool.and_eq_true] at ha hb
  exact h.row_lt ha.1 hab hb.2.2

/-! ## The import block -/

namespace ImportBlock

private theorem getElem?_of_takeWhile {α : Type} {p : α → Bool} {l : List α} {k : Nat}
    (h : k < (l.takeWhile p).length) : ∃ x, l[k]? = some x ∧ p x = true := by
  have hmem := List.all_eq_true.mp List.all_takeWhile _ (List.getElem_mem h)
  refine ⟨(l.takeWhile p)[k], ?_, hmem⟩
  rw [(List.takeWhile_prefix p).getElem h, List.getElem?_eq_getElem]

theorem topRow_le (isHeader : Text → Bool) (rows : List Text) (start : Nat) :
    topRow isHeader rows start ≤ start := Nat.sub_le ..

/-- The rows that the block takes in above its first import are blank or headers. -/
theorem topRow_spec {isHeader : Text → Bool} {rows : List Text} {start i : Nat}
    (hs : start ≤ rows.length) (hlo : topRow isHeader rows start ≤ i) (hhi : i < start) :
    isBlankLine (rows.getD i []) = true ∨ isHeader (rows.getD i []) = true := by
  have hlt : start - 1 - i <
      ((rows.take start).reverse.takeWhile fun l => isBlankLine l || isHeader l).length := by
    have hle := (List.dropWhile_sublist isBlankLine
      (l := ((rows.take start).reverse.takeWhile fun l =>
      isBlankLine l || isHeader l).reverse)).length_le
    rw [List.length_reverse] at hle
    unfold topRow at hlo
    simp only at hlo
    omega
  obtain ⟨l, hl, hp⟩ := getElem?_of_takeWhile hlt
  rw [List.getElem?_reverse (by simp; omega), List.length_take, Nat.min_eq_left hs,
    List.getElem?_take_of_lt (by omega), show start - 1 - (start - 1 - i) = i by omega] at hl
  rw [List.getD_eq_getElem?_getD, hl, Option.getD_some]
  simpa using hp

theorem le_bottomRow (isHeader : Text → Bool) (rows : List Text) (stop : Nat) :
    stop ≤ bottomRow isHeader rows stop := Nat.le_add_right ..

theorem bottomRow_lt (isHeader : Text → Bool) {rows : List Text} {stop : Nat}
    (h : stop < rows.length) : bottomRow isHeader rows stop < rows.length := by
  have hle := (List.takeWhile_prefix (fun l => isBlankLine l || isHeader l)
    (l := rows.drop (stop + 1))).length_le
  rw [List.length_drop] at hle
  unfold bottomRow
  omega

/-- The rows that the block takes in below its last import are blank or headers. -/
theorem bottomRow_spec {isHeader : Text → Bool} {rows : List Text} {stop i : Nat}
    (hlo : stop < i) (hhi : i ≤ bottomRow isHeader rows stop) :
    isBlankLine (rows.getD i []) = true ∨ isHeader (rows.getD i []) = true := by
  have hlt : i - (stop + 1) <
      ((rows.drop (stop + 1)).takeWhile fun l => isBlankLine l || isHeader l).length := by
    unfold bottomRow at hhi
    omega
  obtain ⟨l, hl, hp⟩ := getElem?_of_takeWhile hlt
  rw [List.getElem?_drop, show stop + 1 + (i - (stop + 1)) = i by omega] at hl
  rw [List.getD_eq_getElem?_getD, hl, Option.getD_some]
  simpa using hp

@[simp] theorem Reading.endRow_addComment (isHeader : Text → Bool) (r : Reading) (row : Nat)
    (t : Text) : (r.addComment isHeader row t).endRow = r.endRow := by
  unfold addComment
  split
  · rfl
  · split <;> rfl

/-- The node at the head of a list is read, or it is the node that ends the reading. -/
theorem collect_cons {textOf : Node → Text} {isHeader : Text → Bool} {r r' : Reading} {n : Node}
    {rest : List Node} {following : Option Node}
    (h : collect textOf isHeader r (n :: rest) = .ok (r', following)) :
    (n.kind = .importStatement ∧
        collect textOf isHeader (r.addImport (textOf n) n.stop.row) rest = .ok (r', following)) ∨
      (n.kind = .comment ∧
        collect textOf isHeader (r.addComment isHeader n.start.row (textOf n)) rest =
          .ok (r', following)) ∨
      ((n.kind ≠ .importStatement ∧ n.kind ≠ .comment) ∧ r' = r ∧ following = some n) := by
  unfold collect at h
  split at h
  · next hk =>
    split at h
    · cases h
    · exact .inl ⟨hk, h⟩
  · next hk => exact .inr (.inl ⟨hk, h⟩)
  · cases h
  · next himport hcomment _ =>
    cases h
    exact .inr (.inr ⟨⟨himport, hcomment⟩, rfl, rfl⟩)

/-- What is read of the nodes behind the first import: imports and comments, up to
the first other node. -/
theorem collect_spec {textOf : Node → Text} {isHeader : Text → Bool} {r r' : Reading}
    {nodes : List Node} {following : Option Node}
    (h : collect textOf isHeader r nodes = .ok (r', following)) :
    ∃ read unread, nodes = read ++ unread ∧ unread.head? = following ∧
      (∀ m ∈ read, m.kind = .importStatement ∨ m.kind = .comment) ∧
      (r'.endRow = r.endRow ∨ ∃ m ∈ read, r'.endRow = m.stop.row) := by
  induction nodes generalizing r with
  | nil =>
    cases h
    exact ⟨[], [], rfl, rfl, by simp, .inl rfl⟩
  | cons n rest ih =>
    rcases collect_cons h with ⟨hk, h⟩ | ⟨hk, h⟩ | ⟨-, rfl, rfl⟩
    · obtain ⟨read, unread, rfl, hf, hread, hend⟩ := ih h
      refine ⟨n :: read, unread, rfl, hf, List.forall_mem_cons.mpr ⟨.inl hk, hread⟩, ?_⟩
      rcases hend with hend | ⟨m, hm, hend⟩
      · exact .inr ⟨n, List.mem_cons_self, hend⟩
      · exact .inr ⟨m, List.mem_cons_of_mem _ hm, hend⟩
    · obtain ⟨read, unread, rfl, hf, hread, hend⟩ := ih h
      refine ⟨n :: read, unread, rfl, hf, List.forall_mem_cons.mpr ⟨.inr hk, hread⟩, ?_⟩
      rcases hend with hend | ⟨m, hm, hend⟩
      · exact .inl (by rw [hend, Reading.endRow_addComment])
      · exact .inr ⟨m, List.mem_cons_of_mem _ hm, hend⟩
    · exact ⟨[], n :: rest, rfl, rfl, by simp, .inl rfl⟩

/-- The import block is found at the first import, if nothing around it or in
it stands in the way. -/
theorem locate_eq_found_iff {isHeader : Text → Bool} {textOf : Node → Text} {rows : List Text}
    {nodes : List Node} {b : ImportBlock} :
    locate isHeader textOf rows nodes = .found b ↔
      ∃ before n rest r following,
        nodes = before ++ n :: rest ∧
        (∀ m ∈ before, m.kind ≠ .importStatement ∧ m.hasError = false) ∧
        n.kind = .importStatement ∧ n.hasError = false ∧
        collect textOf isHeader { latest := { text := textOf n }, endRow := n.stop.row } rest =
          .ok (r, following) ∧
        (∀ m ∈ following, r.endRow < m.start.row) ∧
        (∀ m ∈ before.getLast?, m.stop.row < n.start.row) ∧
        b = { first := topRow isHeader rows n.start.row
              last := bottomRow isHeader rows r.endRow
              statements := r.statements } := by
  constructor
  · intro h
    unfold locate at h
    simp only at h
    split at h
    · cases h
    next n rest hn =>
    split at h
    · cases h
    next herrors =>
    split at h
    · cases h
    next herror =>
    split at h
    · cases h
    next r following hc =>
    split at h
    · cases h
    next hfollowing =>
    split at h
    · cases h
    next hbefore =>
    cases h
    have hkind : n.kind = .importStatement := by
      have hd := List.head?_dropWhile_not (·.kind != .importStatement) nodes
      simpa [hn] using hd
    refine ⟨nodes.takeWhile (·.kind != .importStatement), n, rest, r, following, ?_, ?_, hkind,
      by simpa using herror, hc, ?_, ?_, rfl⟩
    · rw [← hn, List.takeWhile_append_dropWhile]
    · intro m hm
      have hkept := List.all_eq_true.mp (List.all_takeWhile ..) m hm
      exact ⟨by simpa using hkept,
        by simpa using fun he => herrors (List.any_eq_true.mpr ⟨m, hm, he⟩)⟩
    · intro m hm
      simpa [Option.mem_def.mp hm] using hfollowing
    · intro m hm
      simpa [Option.mem_def.mp hm] using hbefore
  · rintro ⟨before, n, rest, r, following, rfl, hbefore, hkind, herror, hc, hfollowing, hlast, rfl⟩
    have hpass : ∀ m ∈ before, (m.kind != .importStatement) = true := by
      intro m hm
      simpa using (hbefore m hm).1
    have hany : before.any (·.hasError) = false := by
      simpa using fun m hm => (hbefore m hm).2
    have hfollowing : (following.any fun m => m.start.row ≤ r.endRow) = false := by
      cases following with
      | none => rfl
      | some m => simpa using hfollowing m rfl
    have hlast : (before.getLast?.any fun m => n.start.row ≤ m.stop.row) = false := by
      cases hm : before.getLast? with
      | none => rfl
      | some m => simpa using hlast m hm
    unfold locate
    simp only [List.takeWhile_append_of_pos hpass, List.dropWhile_append_of_pos hpass,
      List.takeWhile_cons, List.dropWhile_cons, hkind, bne_self_eq_false, Bool.false_eq_true,
      if_false, List.append_nil, hany, herror, hc, hfollowing, hlast]

/-- How the import block lies among the nodes of a file. -/
theorem locate_spec {isHeader : Text → Bool} {textOf : Node → Text} {rows : List Text}
    {nodes : List Node} {b : ImportBlock} (h : locate isHeader textOf rows nodes = .found b) :
    ∃ before n read unread endRow,
      nodes = before ++ n :: (read ++ unread) ∧
      (∀ m ∈ n :: read, m.kind = .importStatement ∨ m.kind = .comment) ∧
      (∃ m ∈ n :: read, endRow = m.stop.row) ∧
      (∀ m, before.getLast? = some m → m.stop.row < n.start.row) ∧
      (∀ m, unread.head? = some m → endRow < m.start.row) ∧
      b.first = topRow isHeader rows n.start.row ∧ b.last = bottomRow isHeader rows endRow := by
  obtain ⟨before, n, rest, r, following, rfl, -, hkind, -, hc, hfollowing, hbefore, rfl⟩ :=
    locate_eq_found_iff.mp h
  obtain ⟨read, unread, rfl, hf, hread, hend⟩ := collect_spec hc
  refine ⟨before, n, read, unread, r.endRow, rfl, ?_, ?_, hbefore, ?_, rfl, rfl⟩
  · exact List.forall_mem_cons.mpr ⟨.inl hkind, hread⟩
  · rcases hend with hend | ⟨m, hm, hend⟩
    · exact ⟨n, List.mem_cons_self, hend⟩
    · exact ⟨m, List.mem_cons_of_mem _ hm, hend⟩
  · intro m hm
    exact hfollowing m (by rw [← hf, hm]; rfl)

end ImportBlock

theorem Outline.InOrder.start_lt_length {t : Text} {nodes : List Node}
    (h : Outline.InOrder (lines t) nodes) {n : Node} (hn : n ∈ nodes) :
    n.start.row < (Document.contentLines t).length := by
  obtain ⟨c, hc, hcb⟩ := h.first_char hn
  have hstart := Node.start_row hc hcb
  rw [← Document.getD_contentLines] at hstart
  exact Document.lt_of_mem_row hstart

namespace Outline.Placed

variable {isHeader : Text → Bool} {t : Text} {nodes : List Node}

/-- Nodes begin and end within the file. -/
theorem row_lt_length (h : Outline.Placed isHeader (lines t) nodes) {n : Node} (hn : n ∈ nodes) :
    n.start.row < (Document.contentLines t).length ∧
    n.stop.row < (Document.contentLines t).length := by
  obtain ⟨d, hd, hdb⟩ := h.last_char hn
  have hstop := (takeBytes_isPrefix _ _).subset (Node.stop_row hd hdb)
  rw [← Document.getD_contentLines] at hstop
  exact ⟨h.start_lt_length hn, Document.lt_of_mem_row hstop⟩

/-- A declaration begins and ends on rows that are neither blank nor headers. -/
theorem declaration_rows (h : Outline.Placed isHeader (lines t) nodes) {n : Node} (hn : n ∈ nodes)
    (hd : n.isDeclaration = true) {row : Nat} (hrow : row = n.start.row ∨ row = n.stop.row) :
    ¬(isBlankLine ((Document.contentLines t).getD row []) = true ∨
      isHeader ((Document.contentLines t).getD row []) = true) := by
  obtain ⟨hstart, hstop⟩ := h.offHeaders n hn hd
  rw [Document.getD_contentLines]
  rcases hrow with rfl | rfl
  · obtain ⟨c, hc, hcb⟩ := h.first_char hn
    rw [isBlankLine_of_mem (Node.start_row hc hcb) hcb, hstart]
    simp
  · obtain ⟨c, hc, hcb⟩ := h.last_char hn
    rw [isBlankLine_of_mem ((takeBytes_isPrefix _ _).subset (Node.stop_row hc hcb)) hcb, hstop]
    simp

/-- Nodes before the last of a list end no later than it does. -/
theorem stop_le_getLast {nodes : List Node} (ho : nodes.Pairwise fun a b => a.stop.Le b.start)
    (hf : ∀ n ∈ nodes, n.start.Le n.stop) {z d : Node} (hz : nodes.getLast? = some z)
    (hd : d ∈ nodes) : d.stop.row ≤ z.stop.row := by
  obtain ⟨xs, rfl⟩ := List.getLast?_eq_some_iff.mp hz
  rcases List.mem_append.mp hd with hdx | hdz
  · have hdz := ((List.pairwise_append.mp ho).2.2 d hdx z (by simp)).row_le
    have hzz := (hf z (by simp)).row_le
    omega
  · obtain rfl : d = z := by simpa using hdz
    exact Nat.le_refl _

/-- Nodes behind the first of a list begin no earlier than it does. -/
theorem head_le_start {nodes : List Node} (ho : nodes.Pairwise fun a b => a.stop.Le b.start)
    (hf : ∀ n ∈ nodes, n.start.Le n.stop) {z d : Node} (hz : nodes.head? = some z)
    (hd : d ∈ nodes) : z.start.row ≤ d.start.row := by
  obtain ⟨xs, rfl⟩ := List.head?_eq_some_iff.mp hz
  rcases List.mem_cons.mp hd with rfl | hdx
  · exact Nat.le_refl _
  · have hzd := ((List.pairwise_cons.mp ho).1 d hdx).row_le
    have hzz := (hf z List.mem_cons_self).row_le
    omega

/-- The import block lies within the file and shares no row with a declaration. -/
theorem located (h : Outline.Placed isHeader (lines t) nodes) {textOf : Node → Text}
    {b : ImportBlock} (hb : ImportBlock.locate isHeader textOf (Document.contentLines t) nodes =
      .found b) :
    (b.first ≤ b.last ∧ b.last < (Document.contentLines t).length) ∧
      ∀ r ∈ Region.declarations (lines t) nodes, b.toRegion.Disjoint r := by
  obtain ⟨before, n, read, unread, endRow, rfl, hread, ⟨m, hm, hend⟩, hbefore, hunread, hfirst,
      hlast⟩ :=
    ImportBlock.locate_spec hb
  have hsub : ∀ d ∈ n :: read, d ∈ before ++ n :: (read ++ unread) := by
    intro d hd
    rw [List.mem_append, ← List.cons_append]
    exact .inr (List.mem_append_left _ hd)
  obtain ⟨hobefore, honread, -⟩ := List.pairwise_append.mp h.ordered
  rw [← List.cons_append] at honread
  obtain ⟨horead, hounread, -⟩ := List.pairwise_append.mp honread
  have hforward : ∀ d ∈ n :: read, d.start.Le d.stop := fun d hd => h.forward d (hsub d hd)
  have hstartEnd : n.start.row ≤ endRow := by
    have hnm := head_le_start horead hforward rfl hm
    have hmm := (hforward m hm).row_le
    omega
  have htop := ImportBlock.topRow_le isHeader (Document.contentLines t) n.start.row
  have hbottom := ImportBlock.le_bottomRow isHeader (Document.contentLines t) endRow
  have hinside := ImportBlock.bottomRow_lt isHeader (hend ▸ (h.row_lt_length (hsub m hm)).2)
  refine ⟨⟨by omega, by omega⟩, ?_⟩
  intro r hr
  obtain ⟨d, hd, rfl⟩ := List.mem_map.mp hr
  simp only [List.mem_filter, Bool.and_eq_true] at hd
  obtain ⟨hdmem, ⟨hdecl, -⟩, -⟩ := hd
  have hstart := h.declaration_rows hdmem hdecl (.inl rfl)
  have hstop := h.declaration_rows hdmem hdecl (.inr rfl)
  rw [← List.cons_append, List.mem_append, List.mem_append] at hdmem
  rcases hdmem with hdb | hdr | hdu
  · -- above the block: its growth upwards stops at the last row of the declaration
    obtain ⟨z, hz⟩ : ∃ z, before.getLast? = some z := by
      cases hg : before.getLast? with
      | none => rw [List.getLast?_eq_none_iff.mp hg] at hdb; cases hdb
      | some z => exact ⟨z, rfl⟩
    have hzn := hbefore z hz
    have hdz := stop_le_getLast hobefore (fun d hd => h.forward d (List.mem_append_left _ hd)) hz
      hdb
    have hnlen := (h.row_lt_length (hsub n List.mem_cons_self)).1
    refine .inr (Nat.lt_of_not_le fun hle => hstop ?_)
    rw [hfirst] at hle
    exact ImportBlock.topRow_spec (by omega) hle (by omega)
  · -- an import or a comment declares nothing
    rcases hread d hdr with hk | hk <;> simp [Node.isDeclaration, hk] at hdecl
  · -- below the block: its growth downwards stops at the first row of the declaration
    obtain ⟨z, hz⟩ : ∃ z, unread.head? = some z := by
      cases hg : unread.head? with
      | none => rw [List.head?_eq_none_iff.mp hg] at hdu; cases hdu
      | some z => exact ⟨z, rfl⟩
    have hzn := hunread z hz
    have hzd := head_le_start hounread (fun d hd => h.forward d (by simp [hd])) hz hdu
    refine .inl (Nat.lt_of_not_le fun hle => hstart ?_)
    rw [hlast] at hle
    exact ImportBlock.bottomRow_spec (by omega) hle

end Outline.Placed

def Context.regions (ctx : Context) : List Region :=
  ctx.imports.toList.map (·.toRegion) ++ ctx.declarations

/-- The regions of a file are disjoint and lie within it. -/
theorem Outline.Placed.regions {cfg : Settings} {t : Text} {nodes : List Node}
    (h : Outline.Placed (Header.isHeader cfg) (lines t) nodes) :
    (Document.context cfg t nodes).1.regions.Pairwise Region.Disjoint ∧
      ∀ r ∈ (Document.context cfg t nodes).1.regions,
        r.first ≤ r.last ∧ r.last < (Document.contentLines t).length := by
  have hdecls : (Region.declarations (lines t) nodes).Pairwise Region.Disjoint :=
    (Region.declarations_pairwise h).imp .inl
  have hbounds : ∀ r ∈ Region.declarations (lines t) nodes,
      r.first ≤ r.last ∧ r.last < (Document.contentLines t).length := by
    intro r hr
    obtain ⟨d, hd, rfl⟩ := List.mem_map.mp hr
    have hmem := (List.mem_filter.mp hd).1
    exact ⟨(h.forward d hmem).row_le, (h.row_lt_length hmem).2⟩
  unfold Document.context Context.regions
  simp only
  cases hl : ImportBlock.locate (Header.isHeader cfg) (·.textIn (lines t)) (Document.contentLines t)
    nodes with
  | none => exact ⟨hdecls, hbounds⟩
  | skipped why => exact ⟨hdecls, hbounds⟩
  | found b =>
    obtain ⟨hb, hdisjoint⟩ := h.located hl
    exact ⟨List.pairwise_cons.mpr ⟨hdisjoint, hdecls⟩, List.forall_mem_cons.mpr ⟨hb, hbounds⟩⟩

end SourceLayout
