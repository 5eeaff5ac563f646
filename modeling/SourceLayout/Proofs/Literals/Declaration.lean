import SourceLayout.Proofs.Literals.Member
import SourceLayout.Proofs.OneLineBody

/-! The strings of declarations. A declaration is cut at braces and at an equals sign that are code,
and what is between them is laid out as members; so its strings stay as they are, wherever each of
them ends on its line and no comment or escape hides what the layout cuts at. -/

namespace SourceLayout
open Text Scan

/-! ## Braces on one line -/

namespace Block

theorem literals?_braceParts {t before content after : Text} {i : Nat} {m : Mark} {w : Text}
    {b : Bool} (hm : (marks t)[i]? = some m) (hcode : m.isCode = true) (hchar : m.char = '{')
    (hp : braceParts? t i = some (before, content, after))
    (hw : lineLiterals? false t = some (w, b)) :
    Closes before ∧ ∃ x y, lineLiterals? false content = some (x, false) ∧
      lineLiterals? false ('}' :: afterBrace after) = some (y, b) ∧
      w = literals before ++ (x ++ y) := by
  obtain ⟨⟨front, inside, rest⟩, hpair, he⟩ := Option.bind_eq_some_iff.mp hp
  simp only [Option.ite_none_left_eq_some, Option.some.injEq, Prod.mk.injEq] at he
  obtain ⟨-, rfl, rfl, rfl⟩ := he
  obtain ⟨rfl, hbefore, hinside⟩ := parted_pair (d := '}') hm hcode (by rw [hchar]; rfl)
    (by rw [hchar]; rfl) hpair
  have hopen : [m.char].all isInert = true := by rw [hchar]; rfl
  rw [← List.singleton_append] at hinside
  rw [hbefore.lineLiterals?, lineLiterals?_lead hopen, ← List.singleton_append,
    hinside.lineLiterals?, lineLiterals?_lead rfl, Option.map_map] at hw
  obtain ⟨⟨y, b'⟩, hy, he⟩ := Option.map_eq_some_iff.mp hw
  cases he
  refine ⟨hbefore.closes, literals inside, y, ?_, ?_, rfl⟩
  · rw [lineLiterals?_trim, hinside.closes.lineLiterals?]
  · obtain ⟨a, hbrace, ha⟩ := afterBrace_eq (trim rest)
    have hlead : ('}' :: a).all isInert = true := by rw [List.all_cons, ha]; rfl
    rw [hbrace, ← List.cons_append, lineLiterals?_lead hlead, lineLiterals?_trim, hy]

theorem literals?_formatOneLine (cfg : Settings) (room : Nat) {base line : Text}
    (hb : isBlankLine base = true) (hn : Over (· ≠ '\n') base) (hline : Over (· ≠ '\n') line)
    {w : Text} {b : Bool} (hw : lineLiterals? false line = some (w, b)) (ht : tame w = true) :
    literals? false (formatOneLine cfg room base line) = some (w, b) := by
  unfold formatOneLine
  split
  · rw [literals?_singleton, hw]
  · next before content after h =>
    obtain ⟨i, hi, hp⟩ := Option.bind_eq_some_iff.mp h
    obtain ⟨m, hm, hcode, hchar⟩ := findTop?_mark hi
    obtain ⟨hbefore, x, y, hx, hy, rfl⟩ := literals?_braceParts hm hcode hchar hp hw
    have hadded : Over (· ≠ '\n') added := by decide
    have hindent := isBlankLine_append hb (isBlankLine_unit cfg)
    have hmember : lineLiterals? false (base ++ cfg.indentUnit ++ Member.terminate content) =
        some (x, false) := by
      rw [lineLiterals?_lead (inert_blank hindent), lineLiterals?_terminate, hx]
    have hover : ∀ l ∈ [base ++ cfg.indentUnit ++ Member.terminate content], Over (· ≠ '\n') l := by
      intro l hl
      rw [List.mem_singleton.mp hl]
      exact over_append.mpr ⟨over_append.mpr ⟨hn, over_indentUnit hadded cfg⟩,
        Member.over_terminate hadded (over_braceParts? hline hp).2.1⟩
    have hbody := literals?_format cfg room hb hn hover
      (by rw [literals?_singleton, hmember]) (tame_append (tame_append ht).2).1
    rw [List.cons_append, literals?_cons_eq_some]
    refine ⟨_, false, _, ?_, literals?_append_eq_some.mpr ⟨x, false, y, hbody, ?_, rfl⟩, rfl⟩
    · rw [lineLiterals?_trimRight, hbefore.lineLiterals?_append rfl]
    · rw [literals?_singleton, lineLiterals?_lead (inert_blank hb), hy]

end Block

/-! ## Members between bars -/

namespace Union

/-- Where a type alias is cut no comment goes on: neither where the line of its equals sign begins,
nor where that line ends, unless the first bar is on it. -/
def cutsOutside (ls : List Text) : Bool :=
  (assignmentLine? ls).all fun (before, line, i, _) =>
    !(feedAll {} before).inBlock &&
      ((trim (line.drop (i + 1))).head? == some '|' || !(feedAll {} (before ++ [line])).inBlock)

theorem assignment?_mark {line : Text} {i : Nat} (h : assignment? line = some i) :
    ∃ m, (marks line)[i]? = some m ∧ m.isCode = true ∧ m.char = '=' := by
  obtain ⟨⟨m, j⟩, hfind, rfl⟩ := Option.map_eq_some_iff.mp h
  have hp := List.find?_some hfind
  simp only [Bool.and_eq_true, beq_iff_eq] at hp
  obtain ⟨hmem, hcode⟩ := List.mem_filter.mp (List.mem_of_find?_eq_some hfind)
  exact ⟨m, List.mem_zipIdx_iff_getElem?.mp hmem, hcode, hp.1.2⟩

theorem literals?_cut? {base : Text} (hb : isBlankLine base = true) {ls head rest : List Text}
    {w : Text} {b : Bool} (h : cut? base ls = some (head, rest)) (hc : cutsOutside ls = true)
    (hw : literals? false ls = some (w, b)) :
    ∃ x y, literals? false head = some (x, false) ∧ literals? false rest = some (y, b) ∧
    w = x ++ y := by
  obtain ⟨⟨before, line, i, after⟩, ha, hparts⟩ := Option.map_eq_some_iff.mp h
  rw [cutsOutside, ha] at hc
  simp only [Option.all_some, Bool.and_eq_true, Bool.not_eq_true'] at hc
  obtain ⟨rfl, hassign⟩ := assignmentLine?_spec ha
  obtain ⟨x₀, c, r, hbefore, hrest, rfl⟩ := literals?_append_eq_some.mp hw
  obtain ⟨x₁, d, x₂, hline, hafter, rfl⟩ := literals?_cons_eq_some.mp hrest
  have hlex := feedAll_of_lines (s := {}) rfl hbefore
  obtain rfl : c = false := (congrArg Prod.snd hlex).symm.trans hc.1
  simp only at hparts
  split at hparts
  · cases hparts
    -- the line is cut behind its equals sign, which is code
    obtain ⟨m, hm, hcode, hchar⟩ := assignment?_mark hassign
    have hget := getElem?_of_marks hm
    rw [hchar] at hget
    obtain ⟨hlt, hat⟩ := List.getElem?_eq_some_iff.mp hget
    have hcut := parted_code hm hcode (by rw [hchar]; decide)
    rw [List.drop_eq_getElem_cons hlt, hat, ← List.singleton_append] at hcut
    obtain ⟨hparted, -, -⟩ := hcut.extend rfl
    have htake : line.take i ++ ['='] = line.take (i + 1) := by
      rw [List.take_add_one, hget]
      rfl
    rw [htake] at hparted
    have hwhole := hparted.lineLiterals?
    rw [List.take_append_drop, hline] at hwhole
    obtain ⟨⟨y, d'⟩, hy, he⟩ := Option.map_eq_some_iff.mp hwhole.symm
    cases he
    refine ⟨x₀ ++ literals (line.take (i + 1)), y ++ x₂,
      literals?_append_eq_some.mpr ⟨x₀, false, _, hbefore, ?_, rfl⟩,
      literals?_cons_eq_some.mpr ⟨y, d', x₂, ?_, hafter, rfl⟩, by simp⟩
    · rw [literals?_singleton, lineLiterals?_trimRight, hparted.closes.lineLiterals?]
    · rw [lineLiterals?_reindent false hb, hy]
  · next hbar =>
    cases hparts
    obtain rfl : d = false := by
      have hblock := hc.2
      rw [Bool.or_eq_true, or_iff_right hbar, Bool.not_eq_true', feedAll_append] at hblock
      exact (congrArg Prod.snd (feed_of_line hlex hline)).symm.trans hblock
    refine ⟨x₀ ++ x₁, x₂, literals?_append_eq_some.mpr ⟨x₀, false, x₁, hbefore, ?_, rfl⟩,
      hafter, by simp⟩
    rw [literals?_singleton, lineLiterals?_trimRight, hline]

/-- The members are read one by one. -/
theorem groups_membersFrom {s : State} {b b' : Bool} {current ls : List Text} {x w : Text}
    (hs : s.lex = (none, b)) (hc : literals? false current.reverse = some (x, b))
    (h : literals? b ls = some (w, b')) : Member.Groups (membersFrom s current ls) (x ++ w) b' := by
  induction ls generalizing s b current x w with
  | nil =>
    cases h
    rw [List.append_nil, membersFrom]
    split
    · next hempty =>
      rw [List.isEmpty_iff.mp hempty] at hc
      cases hc
      exact .nil
    · exact .last hc
  | cons l r ih =>
    obtain ⟨y, c, z, hl, hr, rfl⟩ := literals?_cons_eq_some.mp h
    have hfeed := feed_of_line hs (lineLiterals?_trim b l ▸ hl)
    rw [membersFrom]
    simp only
    split
    · next hblank =>
      rw [lineLiterals?_blank b (isBlankLine_of_trim (List.isEmpty_iff.mp hblank))] at hl
      cases hl
      exact ih hs hc hr
    · split
      · next hsettled =>
        rw [Bool.and_eq_true] at hsettled
        obtain rfl : b = false := (congrArg Prod.snd hs).symm.trans (settled_iff.mp hsettled.1).2.2
        have hrest : Member.Groups (membersFrom (feed s (trim l)) [l] r) (y ++ z) b' :=
          ih hfeed (by rw [List.reverse_singleton, literals?_singleton, hl]) hr
        split
        · next hempty =>
          rw [List.isEmpty_iff.mp hempty] at hc
          cases hc
          exact hrest
        · exact .cons hc hrest
      · have hgroup : literals? false (l :: current).reverse = some (x ++ y, c) := by
          rw [List.reverse_cons, literals?_append_eq_some]
          exact ⟨x, b, y, hc, by rw [literals?_singleton, hl], rfl⟩
        rw [← List.append_assoc]
        exact ih hfeed hgroup hr

/-- The strings of a member with an object type: before its brace, between its braces, and from
the closing brace on. -/
theorem literals?_object? {deeper : Text} (hd : isBlankLine deeper = true) {ls content : List Text}
    {before closing : Text} {w : Text} {b : Bool}
    (h : object? deeper ls = some (before, content, closing))
    (hw : literals? false ls = some (w, b)) :
    Closes before ∧ ∃ x y, literals? false content = some (x, false) ∧
      lineLiterals? false closing = some (y, b) ∧
      w = literals before ++ (x ++ y) := by
  unfold object? at h
  split at h
  · next hone =>
    obtain ⟨l, rfl⟩ := List.length_eq_one_iff.mp hone
    obtain ⟨⟨front, inside, after⟩, hparts, he⟩ := Option.map_eq_some_iff.mp h
    obtain ⟨i, hi, hp⟩ := Option.bind_eq_some_iff.mp hparts
    cases he
    obtain ⟨m, hm, hcode, hchar⟩ := findCode?_mark hi
    rw [literals?_singleton, ← lineLiterals?_trim] at hw
    obtain ⟨hbefore, x, y, hx, hy, hw⟩ := Block.literals?_braceParts hm hcode hchar hp hw
    refine ⟨hbefore, x, y, ?_, hy, hw⟩
    rw [literals?_singleton, lineLiterals?_lead (inert_blank hd), lineLiterals?_terminate, hx]
  · obtain ⟨span, hs, he⟩ := Option.map_eq_some_iff.mp h
    cases he
    cases ls with
    | nil => cases hs
    | cons l r => exact ObjectSpan.read?_strings hd hs hw

/-- Laying out a member leaves its strings alone. -/
theorem literals?_memberLines (cfg : Settings) (room : Nat) {indent : Text}
    (hi : isBlankLine indent = true) (hin : Over (· ≠ '\n') indent) {ls : List Text}
    (hlines : ∀ l ∈ ls, Over (· ≠ '\n') l) {w : Text} {b : Bool}
    (hw : literals? false ls = some (w, b)) (ht : tame w = true) :
    literals? false (memberLines cfg room indent ls) = some (w, b) := by
  unfold memberLines
  simp only
  split
  · next before content closing ho =>
    simp only [Option.ite_none_right_eq_some] at ho
    have hadded : Over (· ≠ '\n') added := by decide
    obtain ⟨hbefore, x, y, hx, hy, rfl⟩ :=
      literals?_object? (isBlankLine_append hi (isBlankLine_unit cfg)) ho.2 hw
    obtain ⟨hfree, hcontent, -⟩ :=
      over_object? hadded (over_append.mpr ⟨hin, over_indentUnit hadded cfg⟩) hlines ho.2
    have hbody := Block.literals?_format cfg (room - 1) hi hin hcontent hx
      (tame_append (tame_append ht).2).1
    obtain ⟨hclose, hsame⟩ := hbefore.trim fun hmem => hfree _ hmem rfl
    obtain ⟨a, hopen, ha⟩ := openBrace_eq (trim before)
    rw [List.cons_append, literals?_cons_eq_some]
    refine ⟨_, false, _, ?_, literals?_append_eq_some.mpr ⟨x, false, y, hbody, ?_, rfl⟩, rfl⟩
    · rw [lineLiterals?_lead (inert_blank hi), hopen, hclose.lineLiterals?_append ha, hsame]
    · rw [literals?_singleton, lineLiterals?_lead (inert_blank hi), hy]
  · cases ls with
    | nil =>
      cases hw
      have hline : lineLiterals? false (trimRight (indent ++ trim [])) = some ([], false) := by
        rw [lineLiterals?_trimRight, lineLiterals?_reindent false hi]
        rfl
      exact (literals?_singleton false _).trans hline
    | cons l r =>
      split
      · next hone =>
        obtain rfl : r = [] := by simpa using hone
        rw [literals?_singleton, List.headD_cons, lineLiterals?_reindent false hi,
          ← literals?_singleton, hw]
      · rw [List.headD_cons, literals?_keepLines cfg hi (lineLiterals?_reindent false hi l), hw]

theorem literals?_flatMap_groups {f : List Text → List Text} {gs : List (List Text)} {w : Text}
    {b : Bool} (hgs : Member.Groups gs w b) (ht : tame w = true)
    (hf : ∀ g ∈ gs, ∀ x c, literals? false g = some (x, c) → tame x = true → literals? false (f g) =
      some (x, c)) :
    literals? false (gs.flatMap f) = some (w, b) := by
  induction hgs with
  | nil => rfl
  | last hg =>
    rw [List.flatMap_singleton]
    exact hf _ List.mem_cons_self _ _ hg ht
  | cons hg _ ih =>
    rw [List.flatMap_cons, literals?_append_eq_some]
    exact ⟨_, false, _, hf _ List.mem_cons_self _ _ hg (tame_append ht).1,
      ih (tame_append ht).2 fun g hmem => hf g (List.mem_cons_of_mem _ hmem), rfl⟩

theorem literals?_format (cfg : Settings) (room : Nat) {base : Text} (hb : isBlankLine base = true)
    (hn : Over (· ≠ '\n') base) {ls : List Text} (hlines : ∀ l ∈ ls, Over (· ≠ '\n') l)
    (hc : cutsOutside ls = true) {w : Text} {b : Bool} (hw : literals? false ls = some (w, b))
    (ht : tame w = true) : literals? false (format cfg room base ls) = some (w, b) := by
  have hadded : Over (· ≠ '\n') added := by decide
  unfold format
  split
  · exact hw
  · next head rest hcut =>
    obtain ⟨x, y, hhead, hrest, rfl⟩ := literals?_cut? hb hcut hc hw
    have hgroups : Member.Groups (members rest) ([] ++ y) b :=
      groups_membersFrom (s := {}) rfl rfl hrest
    have hover := (over_cut? hn hlines hcut).2
    refine literals?_append_eq_some.mpr ⟨x, false, y, hhead, ?_, rfl⟩
    refine literals?_flatMap_groups hgroups (tame_append ht).2 fun g hg z c hz htz => ?_
    exact literals?_memberLines cfg room (isBlankLine_append hb (isBlankLine_unit cfg))
      (over_append.mpr ⟨hn, over_indentUnit hadded cfg⟩) (over_members hover hg) hz htz

end Union

/-! ## Declarations -/

namespace Declaration

theorem shape_body {ls : List Text} {row col close : Nat} (h : shape ls = .body row col close) :
    row + 1 ≠ ls.length ∧ bodyBrace? ls = some (row, col) ∧
      ∃ closeRow, closingBrace? ls row col = some (closeRow, close) ∧ closeRow + 1 = ls.length := by
  rcases shape_cases ls with hother | ⟨row', col', closeRow, close', hb, hc, hlast, hshape⟩
  · simp [h] at hother
  · rw [h] at hshape
    split at hshape
    · cases hshape
    · next hrow =>
      cases hshape
      exact ⟨by simpa using hrow, hb, closeRow, hc, hlast⟩

/-- The line of the brace that opens the body begins outside comments, and is cut
in front of the brace. -/
theorem parted_bodyBrace {ls : List Text} {row col : Nat} (h : bodyBrace? ls = some (row, col))
    {w : Text} {b : Bool} (hw : literals? false ls = some (w, b)) :
    row < ls.length ∧ Parted ((ls.getD row []).take col) ((ls.getD row []).drop col) ∧
      (ls.getD row [])[col]? = some '{' ∧ ∃ x y, literals? false (ls.take row) = some (x, false) ∧
        literals? false (ls.drop row) = some (y, b) ∧ w = x ++ y := by
  obtain ⟨hlt, hfind⟩ := findMark?_eq_some h
  obtain ⟨_, hbrace, -⟩ := List.findIdx?_eq_some_iff_getElem.mp hfind
  simp only [Bool.and_eq_true, beq_iff_eq] at hbrace
  have hm := List.getElem?_eq_getElem ‹col <
    (marks (ls.getD row []) (feedAll {} (ls.take row))).length›
  rw [← List.take_append_drop row ls, literals?_append_eq_some] at hw
  obtain ⟨x, c, y, hx, hy, rfl⟩ := hw
  obtain ⟨x₁, d, y₁, hl, -⟩ := literals?_cons_eq_some.mp (drop_row hlt ▸ hy)
  obtain ⟨rfl, hparted⟩ := parted_of_line (feedAll_of_lines rfl hx) hl hm hbrace.1
    (by rw [hbrace.2.1]; decide)
  exact ⟨hlt, hparted, hbrace.2.1 ▸ getElem?_of_marks hm, x, y, hx, hy, rfl⟩

/-- Where a body over several lines closes: on the last line, read from the
brace that opens it on. -/
theorem closingBrace?_body {ls : List Text} {row col closeRow close : Nat} (hrow : row < ls.length)
    (hmany : row + 1 ≠ ls.length) (h : closingBrace? ls row col = some (closeRow, close))
    (hlast : closeRow + 1 = ls.length) :
    ∃ middle last m, ls.drop (row + 1) = middle ++ [last] ∧
      (marks last (feedAll {} ((ls.getD row []).drop col :: middle)))[close]? = some m ∧
        m.isCode = true ∧
        m.char = '}' := by
  have hlen : (ls.drop (row + 1)).length + (row + 1) = ls.length := by
    rw [List.length_drop]
    omega
  rw [closingBrace?, drop_row hrow] at h
  obtain ⟨⟨r, c⟩, hfind, he⟩ := Option.map_eq_some_iff.mp h
  simp only [Prod.mk.injEq] at he
  obtain ⟨rfl, rfl⟩ := he
  obtain ⟨middle, last, hrest⟩ : ∃ middle last, ls.drop (row + 1) = middle ++ [last] := by
    rcases List.eq_nil_or_concat (ls.drop (row + 1)) with hnil | ⟨middle, last, hconcat⟩
    · rw [hnil, List.length_nil] at hlen
      omega
    · exact ⟨middle, last, by rw [hconcat, List.concat_eq_append]⟩
  rw [hrest, List.length_append, List.length_singleton] at hlen
  obtain rfl : r = middle.length + 1 := by omega
  rw [hrest] at hfind
  obtain ⟨-, hmark⟩ := findMark?_eq_some hfind
  rw [List.take_succ_cons, List.take_left] at hmark
  have hget : ((ls.getD row []).drop col :: (middle ++ [last])).getD (middle.length + 1) [] =
      last := by
    simp
  rw [hget] at hmark
  obtain ⟨hlt, hbrace, -⟩ := List.findIdx?_eq_some_iff_getElem.mp hmark
  simp only [Bool.and_eq_true, beq_iff_eq] at hbrace
  exact ⟨middle, last, _, hrest, List.getElem?_eq_getElem hlt, hbrace.1, hbrace.2.1⟩

/-- The strings of a declaration with a body over several lines, in its parts. -/
theorem bodySpan_strings {ls : List Text} {row col close : Nat} {w : Text} {b : Bool}
    {indent : Text} (hi : isBlankLine indent = true) (h : shape ls = .body row col close)
    (hw : literals? false ls = some (w, b)) :
    Closes (bodySpan ls row col close).before ∧ ∃ v x y, literals? false (ls.take row) =
      some (v, false) ∧
      literals? false ((bodySpan ls row col close).content indent) = some (x, false) ∧
      lineLiterals? false (bodySpan ls row col close).closing = some (y, b) ∧
      w = v ++ (literals (bodySpan ls row col close).before ++ (x ++ y)) := by
  obtain ⟨hmany, hopen, closeRow, hclose, hlast⟩ := shape_body h
  obtain ⟨hrow, hparted, hget, v, u, hv, hu, rfl⟩ := parted_bodyBrace hopen hw
  obtain ⟨middle, last, m, hrest, hm, hcode, hchar⟩ := closingBrace?_body hrow hmany hclose hlast
  rw [drop_row hrow, hrest] at hu
  have hend : ls.getLast?.getD [] = last := by
    rw [← List.take_append_drop (row + 1) ls, hrest, ← List.append_assoc, List.getLast?_concat,
      Option.getD_some]
  have hspan : bodySpan ls row col close = {
      before := (ls.getD row []).take col
      afterOpen := trim ((ls.getD row []).drop (col + 1))
      middle
      beforeClose := trim (last.take close)
      closing := trim (last.drop close) } := by
    rw [bodySpan, hrest, hend, List.dropLast_concat]
  rw [hspan]
  have hs (x : Text) (d : Bool)
    (hfront : literals? false (ls.getD row [] :: middle) = some (x, d)) :
      (feedAll {} ((ls.getD row []).drop col :: middle)).lex = (none, d) := by
    obtain ⟨x₀, c, x₂, hl, hmiddle, -⟩ := literals?_cons_eq_some.mp hfront
    have hline := hparted.lineLiterals?
    rw [List.take_append_drop, hl] at hline
    obtain ⟨⟨x₁, c'⟩, hx₁, he⟩ := Option.map_eq_some_iff.mp hline.symm
    cases he
    rw [feedAll_cons]
    exact feedAll_of_lines (feed_of_line rfl hx₁) hmiddle
  obtain ⟨x, y, hcontent, hclosing, rfl⟩ :=
    ObjectSpan.literals?_span hi hparted hget hu hs hm hcode hchar
  exact ⟨hparted.closes, v, x, y, hv, hcontent, hclosing, rfl⟩

theorem isUnion_of_shape {ls : List Text} (h : shape ls = .union) : Union.isUnion ls = true := by
  rcases shape_cases ls with hother | ⟨row, col, closeRow, close, -, -, -, hshape⟩
  · simpa [h] using hother
  · rw [h] at hshape
    split at hshape <;> cases hshape

/-- Laying out a declaration leaves the strings on its lines alone. -/
theorem literals?_format (cfg : Settings) {ls : List Text} (hlines : ∀ l ∈ ls, Over (· ≠ '\n') l)
    {w : Text} {b : Bool} (hw : literals? false ls = some (w, b)) (ht : tame w = true)
    (hunion : Union.isUnion ls = true → Union.cutsOutside ls = true) :
    literals? false (format cfg ls) = some (w, b) := by
  have hb : isBlankLine (indentOf (ls.headD [])) = true := isBlankLine_indentOf _
  have hn : Over (· ≠ '\n') (indentOf (ls.headD [])) := (over_headD hlines).indentOf
  have hadded : Over (· ≠ '\n') added := by decide
  unfold format
  cases hs : shape ls with
  | union =>
    exact Union.literals?_format cfg (roomAt 0) hb hn hlines (hunion (isUnion_of_shape hs)) hw ht
  | plain => exact hw
  | unclosed => exact hw
  | oneLine row =>
    obtain ⟨hlast, col, close, hopen, -⟩ := shape_oneLine hs
    obtain ⟨hrow, -, -, x, y, hx, hy, rfl⟩ := parted_bodyBrace hopen hw
    rw [drop_row hrow, hlast, List.drop_length, literals?_singleton] at hy
    refine literals?_append_eq_some.mpr ⟨x, false, y, hx, ?_, rfl⟩
    exact Block.literals?_formatOneLine cfg _ hb hn (over_getD hlines row) hy (tame_append ht).2
  | body row col close =>
    have hdeeper := isBlankLine_append hb (isBlankLine_unit cfg)
    obtain ⟨hclose, v, x, y, hv, hx, hy, rfl⟩ := bodySpan_strings hdeeper hs hw
    have hcontent := ObjectSpan.over_content hadded (over_bodySpan hlines row col close)
      (over_append.mpr ⟨hn, over_indentUnit hadded cfg⟩)
    have hbody := Block.literals?_format cfg (roomAt 0) hb hn hcontent hx
      (tame_append (tame_append (tame_append ht).2).2).1
    have hopening : lineLiterals? false (trimRight ((bodySpan ls row col close).before ++ ['{'])) =
        some (literals (bodySpan ls row col close).before, false) := by
      rw [lineLiterals?_trimRight, hclose.lineLiterals?_append rfl]
    have hclosing : literals? false
        [indentOf (ls.headD []) ++ (bodySpan ls row col close).closing] = some (y, b) := by
      rw [literals?_singleton, lineLiterals?_lead (inert_blank hb), hy]
    simp only [formatBody]
    refine literals?_append_eq_some.mpr ⟨_, false, y, literals?_append_eq_some.mpr ⟨v, false, _, hv,
      literals?_cons_eq_some.mpr ⟨_, false, x, hopening, hbody, rfl⟩, rfl⟩, hclosing, ?_⟩
    simp

/-- Laying out a declaration leaves its strings alone if each of them ends on its line, no code
stands behind a comment from an earlier line, no name of a field seems to end in a string, and a
type alias is not cut in a comment. -/
theorem literals_unlines_format {ls : List Text} (hlines : ∀ l ∈ ls, '\n' ∉ l) {w : Text} {b : Bool}
    (hw : literals? false ls = some (w, b)) (ht : tame w = true)
    (hunion : Union.isUnion ls = true → Union.cutsOutside ls = true) (cfg : Settings) :
    literals (unlines (format cfg ls)) = literals (unlines ls) := by
  have hover : ∀ l ∈ ls, Over (· ≠ '\n') l := fun l hl c hc he => hlines l hl (he ▸ hc)
  have hformat := literals?_format cfg hover hw ht hunion
  calc literals (unlines (format cfg ls))
      _ = w := stringChars_unlines hformat
      _ = literals (unlines ls) := (stringChars_unlines hw).symm

/-- Strings with escapes, separators and braces, in the name of a field, in
parameters and in a result. -/
theorem literals_unlines_format_signature :
    let ls := ["interface A \x7b // it's".toList,
      "  'k\\'y'?:\"a: \x7bb\x7d\"; f(x: 'p; q', y: \x7b z: `t` \x7d): 'r'".toList, "\x7d".toList]
    literals (unlines (format {} ls)) = literals (unlines ls) ∧
      literals (unlines ls) = "'k\\'y'\"a: \x7bb\x7d\"'p; q'`t`'r'".toList ∧
      (format {} ls).length = 11 := by
  intro ls
  have hw : literals? false ls = some ("'k\\'y'\"a: \x7bb\x7d\"'p; q'`t`'r'".toList, false) := by
    decide +kernel
  refine ⟨literals_unlines_format (by decide +kernel) hw (by decide +kernel) (by decide +kernel) {},
    ?_, ?_⟩
  · decide +kernel
  · decide +kernel

/-- No condition can be dropped: a string over two lines is indented, an escaped quote is taken
for the end of a name, and a semicolon and a line break come into strings that are taken for
code behind a comment. -/
theorem literals_unlines_format_altered :
    let differs (ls : List Text) : Bool :=
  literals (unlines (format {} ls)) != literals (unlines ls)
    differs ["type A = \x7b".toList, "  a: `x".toList, "    y`;".toList, "\x7d".toList] ∧
      differs ["interface A \x7b".toList, "  'a\\':b': string;".toList, "\x7d".toList] ∧
      differs ["interface A \x7b".toList, "  a: string; /* x".toList,
        "y: ' */ b: 'z // w' \x7d".toList] ∧
      differs ["type A = /* c".toList, "| \x7b it's */".toList, "| 'x \x7d'".toList] := by
  decide +kernel

end Declaration

end SourceLayout
