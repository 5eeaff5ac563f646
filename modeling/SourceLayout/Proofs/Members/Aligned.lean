import SourceLayout.Member.Block
import SourceLayout.Proofs.Literals.Member
import SourceLayout.Proofs.Members.Reread

/-! Blocks of fields and comments. Each field is printed on one line with its colon in the column
that all share, comments are printed as they are, and the printed lines are read as the same members
and printed as they are. -/

namespace SourceLayout
open Text Scan

/-! ## The column -/

namespace NameColumn

theorem length_le_width {names : List (Text × Bool)} {x : Text × Bool} (hx : x ∈ names) :
    x.1.length ≤ (NameColumn.of names).width := by
  have hfold {n : Nat} {ws : List Nat} {w : Nat} (h : w ≤ n ∨ w ∈ ws) : w ≤ ws.foldl max n := by
    induction ws generalizing n with
    | nil => simpa using h
    | cons k ws ih =>
      refine ih ?_
      rcases h with h | h
      · exact .inl (by omega)
      · rcases List.mem_cons.mp h with rfl | h
        · exact .inl (by omega)
        · exact .inr h
  exact hfold (.inr (List.mem_map_of_mem hx))

theorem length_cell {col : NameColumn} {name : Text} (h : name.length ≤ col.width)
    (optional : Bool) : (col.cell name optional).length = col.cellWidth := by
  have hpad : (padTo col.width ' ' name).length = col.width := by simp [padTo, h]
  unfold cell cellWidth
  rw [List.length_append, hpad]
  cases col.hasOptional <;> cases optional <;> rfl

/-- A cell with a blank behind it is the name, with blanks around its question mark. -/
theorem cell_mark (col : NameColumn) (name : Text) {optional : Bool}
    (h : optional = true → col.hasOptional = true) :
    ∃ a b, isBlankLine a = true ∧ isBlankLine b = true ∧
      '\n' ∉ a ++ (if optional then '?' :: b else []) ∧
      col.cell name optional ++ [' '] = name ++ (a ++ if optional then '?' :: b else []) := by
  have hpad := isBlankLine_replicate_space (col.width - name.length)
  unfold cell padTo
  cases optional with
  | true =>
    refine ⟨List.replicate (col.width - name.length) ' ' ++ [' '], [' '],
      isBlankLine_append hpad rfl, rfl, by simp, ?_⟩
    simp [h rfl]
  | false =>
    refine ⟨List.replicate (col.width - name.length) ' ' ++
      ((if col.hasOptional then [' ', ' '] else []) ++ [' ']), [], isBlankLine_append hpad ?_, rfl,
      ?_, by simp⟩
    · cases col.hasOptional <;> rfl
    · cases col.hasOptional <;> simp

end NameColumn

namespace Member

/-! ## Fields -/

def fieldLine (indent : Text) (col : NameColumn) (head : FieldHead) : Text :=
  trimRight (indent ++ col.cell head.key head.optional ++ [' ', ':'] ++ ' ' :: head.value)

/-- The line of a field is its indentation, its key, its mark and its value. -/
theorem fieldLine_eq (indent : Text) {col : NameColumn} {head : FieldHead}
    (hv : ∀ c ∈ head.value.getLast?, isBlank c = false)
    (ho : head.optional = true → col.hasOptional = true) :
    ∃ a b c, isBlankLine a = true ∧ isBlankLine b = true ∧ isBlankLine c = true ∧
      '\n' ∉ FieldHead.mark head.optional a b c ∧ (head.value = [] → c = []) ∧
      fieldLine indent col head =
        indent ++ (head.key ++ (FieldHead.mark head.optional a b c ++ head.value)) ∧
      (indent ++ head.key ++ a ++ if head.optional then '?' :: b else []).length =
        indent.length + (col.cell head.key head.optional).length + 1 := by
  obtain ⟨a, b, ha, hb, hn, hcell⟩ := col.cell_mark head.key ho
  have hlength := congrArg List.length hcell
  have hlabel : indent ++ col.cell head.key head.optional ++ [' ', ':'] =
      indent ++ (head.key ++ FieldHead.mark head.optional a b []) := by
    have hsplit : [' ', ':'] = [' '] ++ [':'] := rfl
    rw [hsplit, ← List.append_assoc, List.append_assoc indent, hcell, FieldHead.mark]
    simp
  refine ⟨a, b, if head.value = [] then [] else [' '], ha, hb, by split <;> rfl, ?_,
    fun h => if_pos h, ?_, ?_⟩
  · rw [FieldHead.mark, List.mem_append, not_or]
    exact ⟨hn, by split <;> simp⟩
  · rw [fieldLine, hlabel]
    split
    · next hnil =>
      have hcolon : FieldHead.mark head.optional a b [] =
          a ++ (if head.optional then '?' :: b else []) ++ [':'] := rfl
      rw [hnil, List.append_nil, trimRight_append_blank _ (b := [' ']) rfl]
      refine trimRight_eq_self fun c hc => ?_
      rw [hcolon, ← List.append_assoc, ← List.append_assoc, List.getLast?_concat] at hc
      cases hc
      rfl
    · next hne =>
      rw [List.append_cons, trimRight_append_of_last hne hv]
      simp [FieldHead.mark]
  · simp only [List.length_append, List.length_singleton] at hlength ⊢
    omega

theorem head_of_read? {t : Text} {h : FieldHead} (hr : FieldHead.read? t = some h) :
    ∃ c r, t = c :: r ∧ c ≠ '/' ∧ c ≠ '*' := by
  have hnone {c : Char} (hc : c = '/' ∨ c = '*') (r : Text) : FieldHead.read? (c :: r) = none := by
    rcases hc with rfl | rfl <;> rfl
  cases t with
  | nil => cases hr
  | cons c r =>
    refine ⟨c, r, rfl, ?_, ?_⟩
    · rintro rfl
      rw [hnone (.inl rfl)] at hr
      cases hr
    · rintro rfl
      rw [hnone (.inr rfl)] at hr
      cases hr

/-- The head of a field is code. -/
theorem codeOf_of_read? {l : Text} {h : FieldHead} (hr : FieldHead.read? (trim l) = some h) :
    codeOf {} l ≠ [] := by
  obtain ⟨c, r, ht, hslash, -⟩ := head_of_read? hr
  obtain ⟨b, hl, -⟩ := trim_spec l
  have hc : isBlank c = false := head_trim (t := l) (by rw [ht]; rfl)
  have hmark : (step .free {} c (r ++ b).head?).1.isComment = false := by
    simp only [step, stepFree, Bool.false_eq_true, ↓reduceIte]
    split
    · rfl
    · simp [hslash, Mark.isComment]
  have hmarks := marks_blank_append (isBlankLine_indentOf l) (s := {}) rfl rfl (trim l ++ b)
  rw [← List.append_assoc, ← hl, ht, List.cons_append, marks, marks, marksFrom_cons] at hmarks
  refine trim_ne_nil_of_mem (c := c) ?_ hc
  rw [withoutComments, marks, hmarks, List.filter_append,
    List.filter_cons_of_pos (by rw [hmark]; rfl), List.map_append, List.map_cons, step_char]
  simp

theorem feedAll_blank {s : State} (hs : s.Quoted) {ls : List Text}
    (h : ∀ l ∈ ls, isBlankLine l = true) : feedAll s ls = s := by
  induction ls with
  | nil => rfl
  | cons l r ih =>
    obtain ⟨hl, hr⟩ := List.forall_mem_cons.mp h
    rw [feedAll_cons, show feed s l = s from stateFrom_blank .free hs hl, ih hr]

/-- Lines that show one line, the first: what follows it is blank and stands in a string. -/
theorem exists_shown_line {g : List Text} (hg : NoGap {} g)
    (hone : (g.filter (!isBlankLine ·)).length = 1) :
    ∃ l r, g = l :: r ∧ isBlankLine l = false ∧ feedAll {} g = feed {} l ∧
    ((feed {} l).quote = none → r = []) := by
  have hne : g ≠ [] := by
    rintro rfl
    cases hone
  obtain ⟨l, r, rfl, hl⟩ := hg.head rfl hne
  have hblank : ∀ k ∈ r, isBlankLine k = true := by
    rw [List.filter_cons_of_pos (by simp [hl]), List.length_cons, Nat.add_eq_right,
      List.length_eq_zero_iff, List.filter_eq_nil_iff] at hone
    intro k hk
    simpa using hone k hk
  have hquoted : (feed {} l).Quoted := by
    rw [feed_eq]
    exact (State.Quoted.of_none rfl).endFrom .free l
  refine ⟨l, r, rfl, hl, feedAll_blank hquoted hblank, fun hq => ?_⟩
  by_contra hr
  obtain ⟨k, r, rfl, hk⟩ := hg.2.head hq hr
  rw [hblank k List.mem_cons_self] at hk
  cases hk

theorem isWhole_singleton (l : Text) (r : List Text) :
    isWhole [l] r = ((ending (codeOf {} l)).1 || (ending (codeOf {} l)).2.1 ||
      (!(ending (codeOf {} l)).2.2 && nextStarts r)) := by
  rw [isWhole, unlines, joinLines_singleton]
  rfl

theorem kindOf_of_read? {l : Text} {h : FieldHead} (hr : FieldHead.read? (trim l) = some h) :
    kindOf [l] = .field { h with value := trim h.value } := by
  have hcode : (trim (withoutComments (unlines [l]))).isEmpty = false := by
    rw [unlines, joinLines_singleton, Bool.eq_false_iff, ne_eq, List.isEmpty_iff]
    exact codeOf_of_read? hr
  simp only [kindOf, List.headD_cons, hcode, FieldHead.methodHead_of_read? hr, hr]
  rfl

/-- A field on one line is read as before from the line that is printed for it. -/
theorem reread_field {g : List Text} (hg : Single g) (hstay : AllStay {} g) (hn : ∀ l ∈ g, '\n' ∉ l)
    {head : FieldHead} (hk : kindOf g = .field head) (hone : (g.filter (!isBlankLine ·)).length = 1)
    {indent : Text} (hi : isBlankLine indent = true) {col : NameColumn}
    (ho : head.optional = true → col.hasOptional = true) :
    Reread g [fieldLine indent col head] := by
  obtain ⟨l, r, rfl, hl, hfeedAll, hlone⟩ := exists_shown_line hg.shown hone
  obtain ⟨k, hread, hhead⟩ := kindOf_field hk
  have hnt : '\n' ∉ trim l := fun hmem => hn l List.mem_cons_self (mem_of_mem_trim hmem)
  rw [List.headD_cons] at hread
  obtain rfl : head = k := by rw [hhead, value_of_trim hread hnt]
  obtain ⟨hkey, a, b, c, ha, hb, hc, ht, hfirst⟩ := FieldHead.isKey_of_read? hread hnt
  have hlast : ∀ d ∈ head.value.getLast?, isBlank d = false := by
    intro d hd
    refine last_trim (t := l) ?_
    rw [ht, ← List.append_assoc, List.getLast?_append, hd, Option.some_or]
  obtain ⟨a', b', c', ha', hb', hc', hn', hnil, hline, -⟩ := fieldLine_eq indent hlast ho
  generalize hx : head.key ++ (FieldHead.mark head.optional a' b' c' ++ head.value) = x at hline
  have hreadX : FieldHead.read? x = some head := by
    rw [← hx]
    exact hkey.read head.optional ha' hb' hc' hfirst fun hmem => hnt (by rw [ht]; simp [hmem])
  have htrimX : trim x = x := by
    refine trim_eq_self (fun d hd => ?_) fun d hd => ?_
    · have hkeyHead : (trim l).head? = some d := by
        rw [← hx] at hd
        rw [ht, ← hd, List.head?_append_of_ne_nil _ hkey.ne, List.head?_append_of_ne_nil _ hkey.ne]
      exact head_trim hkeyHead
    · rw [← hx, List.getLast?_append, List.getLast?_append] at hd
      cases hv : head.value.getLast? with
      | some e =>
        rw [hv, Option.some_or, Option.some_or, Option.some.injEq] at hd
        exact hd ▸ hlast e hv
      | none =>
        -- without a value the colon is the last character
        have hmark : FieldHead.mark head.optional a' b' c' =
            a' ++ (if head.optional then '?' :: b' else []) ++ [':'] := by
          rw [hnil (List.getLast?_eq_none_iff.mp hv), FieldHead.mark]
        rw [hv, Option.none_or, hmark, List.getLast?_concat, Option.some_or,
          Option.some.injEq] at hd
        exact hd ▸ rfl
  have htrim : trim (indent ++ x) = x := by rw [trim_blank_append hi, htrimX]
  -- the blanks around the mark say nothing
  have hrespaced : FieldHead.Respaced {} x (trim l) := by
    rw [ht, ← hx]
    exact FieldHead.respaced_mark rfl hkey.last ha' hb' hc' (FieldHead.mark_soft ha' hb' hc' hn') ha
      hb hc (FieldHead.mark_soft ha hb hc fun hmem => hnt (by rw [ht]; simp [hmem])) head.value
  have hshown : isBlankLine (indent ++ x) = false := by
    obtain ⟨d, x', rfl, -, -⟩ := head_of_read? hreadX
    exact isBlankLine_of_mem (c := d) (by simp)
      (head_trim (t := indent ++ d :: x') (by rw [htrim]; rfl))
  have hfeed : feed {} (indent ++ x) = feed {} l := by
    rw [feed_blank_append rfl hi x, hrespaced.feed, feed_trim rfl]
  rw [hline]
  refine ⟨⟨by simp, noGap_of_shown (by simpa using hshown), ?_⟩, ?_, ?_, ?_, ?_⟩
  · intro a b hab ha hb
    have hlength := congrArg List.length hab
    have hposA := List.length_pos_iff.mpr ha
    have hposB := List.length_pos_iff.mpr hb
    rw [List.length_singleton, List.length_append] at hlength
    omega
  · -- the line of the field had one member, so the printed line has
    obtain ⟨d, y, hy, hslash, hstar⟩ := head_of_read? hread
    have hold : (onLine (trim l)).length < 2 := by
      have hstays := hstay.1
      rw [hy] at hstays ⊢
      simpa [stays, startsWith, hslash.symm, hstar.symm, State.carries] using hstays
    have hink : inkMarks x = inkMarks (trim l) ++ [] := by rw [List.append_nil]; exact hrespaced.ink
    have hsame := length_onLine_congr hink (by simp) (.inl rfl)
    refine ⟨?_, trivial⟩
    rw [htrim, stays, hsame, decide_eq_true hold, Bool.or_true]
  · rw [nextStarts_cons hshown, htrim]
    exact FieldHead.starts_of_read? hreadX
  · intro rest hsettled hwhole
    rw [hfeedAll] at hsettled
    obtain rfl : r = [] := hlone (settled_iff.mp hsettled).2.1
    have hend : ending (codeOf {} (indent ++ x)) = ending (codeOf {} l) := by
      have hquote : (feed {} l).quote = none := (settled_iff.mp hsettled).2.1
      have hindent := codeOf_reindent (s := {}) rfl hi (l := x) (by
        rw [hrespaced.feed, feed_trim rfl]; exact hquote)
      have hbare := codeOf_reindent (s := {}) rfl (a := []) rfl hquote
      rw [htrimX] at hindent
      rw [hindent, hrespaced.ending, ← hbare, List.nil_append]
    refine ⟨by rw [feedAll_cons, feedAll_nil, hfeed]; exact hsettled, fun r' hr' => ?_⟩
    rw [isWhole_singleton] at hwhole ⊢
    rw [hend, hr', Bool.and_true]
    cases hopen : (ending (codeOf {} l)).2.2 with
    | false => simp
    | true => simpa [hopen] using hwhole
  · rw [hk, kindOf_of_read? (l := indent ++ x) (by rw [htrim]; exact hreadX),
      value_of_trim hread hnt]

/-! ## What is printed -/

variable {indent : Text} {col : NameColumn}

def printed (indent : Text) (col : NameColumn) (g : List Text) : List Text :=
  match kindOf g with
  | .comment => commentLines indent g
  | .field head => [fieldLine indent col head]
  | _ => []

def IsPlain (g : List Text) : Prop :=
  kindOf g = .comment ∨ ∃ head, kindOf g = .field head ∧ (g.filter (!isBlankLine ·)).length = 1

theorem kind_ofLines (g : List Text) : (ofLines g).kind = kindOf g := rfl

theorem foldl_place (cfg : Settings) (room : Nat) (inner : Text → List Text → List Text)
    {G : List (List Text)} (hG : ∀ g ∈ G, IsPlain g) (out : Layout) :
    (((G.map ofLines).foldl (place cfg room inner indent col) out).done ++
      ((G.map ofLines).foldl (place cfg room inner indent col) out).comments) =
      out.done ++ out.comments ++ (G.map (printed indent col)).flatten := by
  induction G generalizing out with
  | nil => simp
  | cons g G ih =>
    obtain ⟨hg, hrest⟩ := List.forall_mem_cons.mp hG
    rw [List.map_cons, List.foldl_cons, ih hrest, List.map_cons, List.flatten_cons,
      ← List.append_assoc]
    congr 1
    rcases hg with hk | ⟨head, hk, hone⟩
    · rw [place, kind_ofLines, printed, hk]
      exact (List.append_assoc ..).symm
    · have hline : fieldLines cfg inner indent col head g = [fieldLine indent col head] :=
        if_pos hone
      rw [place, kind_ofLines, printed, hk]
      simp only
      rw [List.append_nil]
      exact congrArg (out.done ++ out.comments ++ ·) hline

theorem reindented_commentLine (hi : isBlankLine indent = true) (x : Text × Nat) :
    Reindented x.1 (commentLine indent x) := by
  unfold commentLine
  simp only
  split
  · exact ⟨indent ++ [' '], isBlankLine_append hi rfl, by simp⟩
  · exact ⟨indent, hi, rfl⟩

theorem commentLines_of_shown {g : List Text} (h : ∀ l ∈ g, isBlankLine l = false) :
    commentLines indent g = g.zipIdx.map (commentLine indent) := by
  rw [commentLines, List.filter_eq_self.mpr]
  intro x hx
  simp [h x.1 (List.fst_mem_of_mem_zipIdx hx)]

theorem reindented_commentLines (hi : isBlankLine indent = true) {g : List Text}
    (h : ∀ l ∈ g, isBlankLine l = false) : List.Forall₂ Reindented g (commentLines indent g) := by
  rw [commentLines_of_shown h, List.forall₂_iff_get]
  refine ⟨by simp, fun i hg hc => ?_⟩
  have hline := reindented_commentLine hi (g.get ⟨i, hg⟩, i)
  simpa using hline

/-- Comments are printed once for all. -/
theorem commentLines_commentLines (hi : isBlankLine indent = true) {g : List Text}
    (h : ∀ l ∈ g, isBlankLine l = false) :
    commentLines indent (commentLines indent g) = commentLines indent g := by
  have hshown : ∀ l ∈ commentLines indent g, isBlankLine l = false := by
    intro l hl
    rw [commentLines_of_shown h] at hl
    obtain ⟨x, hx, rfl⟩ := List.mem_map.mp hl
    rw [(reindented_commentLine hi x).isBlankLine_eq, h x.1 (List.fst_mem_of_mem_zipIdx hx)]
  rw [commentLines_of_shown hshown, commentLines_of_shown h]
  apply List.ext_getElem?
  intro i
  cases hg : g[i]? with
  | none => simp [hg]
  | some l =>
    have htrim := (reindented_commentLine hi (l, i)).trim_eq
    have hsame : commentLine indent (commentLine indent (l, i), i) = commentLine indent (l, i) := by
      conv => lhs; rw [commentLine]
      simp only [htrim]
      rfl
    simp [hg, hsame]

/-- What is printed for comments and fields is read as they are. -/
theorem reread_printed (hi : isBlankLine indent = true) {g : List Text} (hg : Single g)
    (hstay : AllStay {} g) (hn : ∀ l ∈ g, '\n' ∉ l) (hplain : IsPlain g)
    (ho : ∀ head, kindOf g = .field head → head.optional = true → col.hasOptional = true) :
    Reread g (printed indent col g) := by
  rcases hplain with hk | ⟨head, hk, hone⟩
  · have hremarks := kindOf_comment.mp hk
    rw [printed, hk]
    exact reread_remarks hg hstay hremarks
      (reindented_commentLines hi (shown_of_remarks rfl hremarks hg.shown))
  · rw [printed, hk]
    exact reread_field hg hstay hn hk hone hi (ho head hk)

/-- Printing what is printed changes nothing. -/
theorem printed_printed (hi : isBlankLine indent = true) {g : List Text} (hg : Single g)
    (hplain : IsPlain g) (h : Reread g (printed indent col g)) :
    printed indent col (printed indent col g) = printed indent col g ∧
    IsPlain (printed indent col g) := by
  rcases hplain with hk | ⟨head, hk, -⟩
  · have hlines : printed indent col g = commentLines indent g := by rw [printed, hk]
    have hkind := h.kind.trans hk
    refine ⟨?_, .inl hkind⟩
    conv => lhs; rw [printed, hkind]
    rw [hlines]
    exact commentLines_commentLines hi (shown_of_remarks rfl (kindOf_comment.mp hk) hg.shown)
  · have hlines : printed indent col g = [fieldLine indent col head] := by rw [printed, hk]
    have hkind := h.kind.trans hk
    refine ⟨?_, .inr ⟨head, hkind, ?_⟩⟩
    · conv => lhs; rw [printed, hkind]
      rw [hlines]
    · obtain ⟨l, r, hfirst, hl⟩ := h.single.shown.head rfl h.single.ne
      rw [hlines] at hfirst ⊢
      obtain ⟨rfl, -⟩ := List.cons.inj hfirst
      rw [List.filter_cons_of_pos (by simp [hl])]
      rfl

theorem column_congr {ms ms' : List Member} (h : ms.map kind = ms'.map kind) :
    column ms = column ms' := by
  have hfields (ms : List Member) : ms.filterMap field? = (ms.map kind).filterMap fun k =>
      field? ⟨[], k⟩ := by
    rw [List.filterMap_map]
    rfl
  rw [column, column, hfields, hfields, h]

/-- A line of a field with its colon in column `col`, behind its key and its question mark. -/
def ColonIn (indent : Text) (col : Nat) (head : FieldHead) (l : Text) : Prop :=
  ∃ a b c, isBlankLine a = true ∧ isBlankLine b = true ∧ isBlankLine c = true ∧
    l = (indent ++ head.key ++ a ++ if head.optional then '?' :: b else []) ++ ':' ::
    (c ++ head.value) ∧ (indent ++ head.key ++ a ++ if head.optional then '?' :: b else []).length =
      col

/-- The lines of a member in a block: one line of a field, its colon in column `col`, and the lines
of a comment with other indentations. -/
def AlignedIn (indent : Text) (col : Nat) (m : Member) (part : List Text) : Prop :=
  match m.kind with
  | .field head => ∃ l, part = [l] ∧ ColonIn indent col head l
  | _ => part.map trim = m.lines.map trim

theorem colonIn_fieldLine {g : List Text} {head : FieldHead} (hk : kindOf g = .field head)
    (hkey : head.key.length ≤ col.width) (ho : head.optional = true → col.hasOptional = true) :
    ColonIn indent (indent.length + col.cellWidth + 1) head (fieldLine indent col head) := by
  obtain ⟨k, -, rfl⟩ := kindOf_field hk
  have hlast : ∀ d ∈ (trim k.value).getLast?, isBlank d = false := fun d hd => last_trim hd
  obtain ⟨a, b, c, ha, hb, hc, -, -, hline, hlength⟩ :=
    @fieldLine_eq indent col { k with value := trim k.value } hlast ho
  refine ⟨a, b, c, ha, hb, hc, ?_, ?_⟩
  · rw [hline]
    simp [FieldHead.mark]
  · rw [hlength, NameColumn.length_cell hkey]

theorem alignedIn_printed (hi : isBlankLine indent = true) {g : List Text} (hg : Single g)
    (hplain : IsPlain g) (hcol : ∀ head, kindOf g = .field head →
      head.key.length ≤ col.width ∧ (head.optional = true → col.hasOptional = true)) :
    AlignedIn indent (indent.length + col.cellWidth + 1) (ofLines g) (printed indent col g) := by
  unfold AlignedIn
  rw [kind_ofLines, printed]
  rcases hplain with hk | ⟨head, hk, -⟩
  · have hsame := reindented_commentLines hi (shown_of_remarks rfl (kindOf_comment.mp hk) hg.shown)
    rw [hk]
    exact map_trim_reindented hsame
  · rw [hk]
    exact ⟨_, rfl, colonIn_fieldLine hk (hcol head hk).1 (hcol head hk).2⟩

theorem column_of_mem {ms : List Member} {m : Member} (hm : m ∈ ms) {head : FieldHead}
    (hk : m.kind = .field head) :
    head.key.length ≤ (column ms).width ∧
    (head.optional = true → (column ms).hasOptional = true) := by
  refine ⟨?_, column_hasOptional hm hk⟩
  have hmem : (head.key, head.optional) ∈ (ms.filterMap field?).map fun head =>
      (head.key, head.optional) :=
    List.mem_map_of_mem (List.mem_filterMap.mpr ⟨m, hm, by rw [field?, hk]⟩)
  exact NameColumn.length_le_width hmem

end Member

namespace Block

open Member

theorem format_of_plain (cfg : Settings) (room : Nat) (base : Text) {ls : List Text}
    (hplain : ∀ g ∈ delimit (expandLines ls), IsPlain g) :
    format cfg (room + 1) base ls =
      ((delimit (expandLines ls)).map
        (printed (base ++ cfg.indentUnit) (column (members ls)))).flatten := by
  rw [format]
  exact foldl_place cfg room (format cfg room) hplain {}

/-- Aligned fields are read back unchanged. A block of comments and of fields on one line is printed
member by member, the colons of all fields in one column; the printed lines hold the same members,
with the same keys, optional marks and values, and printing them changes nothing. -/
theorem format_aligned (cfg : Settings) {depth : Int} (hd : depth ≤ nestingLimit) {base : Text}
    (hb : isBlankLine base = true) {ls : List Text} (hn : ∀ l ∈ ls, '\n' ∉ l)
    (hm : ∀ m ∈ members ls, m.kind = .comment ∨
      ∃ head, m.kind = .field head ∧ (m.lines.filter (!isBlankLine ·)).length = 1) :
    (∃ col parts, format cfg (roomAt depth) base ls = parts.flatten ∧
      List.Forall₂ (AlignedIn (base ++ cfg.indentUnit) col) (members ls) parts) ∧
    (members (format cfg (roomAt depth) base ls)).map kind = (members ls).map kind ∧
    format cfg (roomAt depth) base (format cfg (roomAt depth) base ls) =
      format cfg (roomAt depth) base ls := by
  obtain ⟨room, hroom⟩ : ∃ room, roomAt depth = room + 1 :=
    ⟨roomAt depth - 1, by unfold roomAt; omega⟩
  have hi : isBlankLine (base ++ cfg.indentUnit) = true :=
    isBlankLine_append hb (isBlankLine_unit cfg)
  have hplain : ∀ g ∈ delimit (expandLines ls), IsPlain g :=
    fun g hg => hm (ofLines g) (List.mem_map_of_mem hg)
  obtain ⟨hseries, hflatten⟩ := (delimit_eq_iff_series (expandLines ls) _).mp rfl
  have hstay : AllStay {} (delimit (expandLines ls)).flatten := by
    rw [hflatten]
    exact (allStay_expandFrom {} ls).shown
  have hcol {g : List Text} (hg : g ∈ delimit (expandLines ls)) {head : FieldHead}
      (hk : kindOf g = .field head) :=
    column_of_mem (show ofLines g ∈ members ls from List.mem_map_of_mem hg) hk
  have hreread : ∀ g ∈ delimit (expandLines ls),
      Reread g (printed (base ++ cfg.indentUnit) (column (members ls)) g) := by
    intro g hg
    have hlines := (over_members (P := (· ≠ '\n')) (by decide)
      (fun l hl c hc heq => hn l hl (heq ▸ hc)) (List.mem_map_of_mem hg)).2
    exact reread_printed hi (hseries.single g hg) (hseries.allStay hstay g hg)
      (fun l hl hmem => hlines l hl '\n' hmem rfl) (hplain g hg) fun head hk => (hcol hg hk).2
  rw [hroom, format_of_plain cfg room base hplain]
  generalize hG : delimit (expandLines ls) = G at *
  generalize hC : column (members ls) = col at *
  generalize hP : printed (base ++ cfg.indentUnit) col = P at *
  obtain ⟨hseries', hstay', -⟩ := series_reread hseries hreread
  have hgroups : delimit (expandLines (G.map P).flatten) = G.map P := by
    rw [show expandLines (G.map P).flatten = (G.map P).flatten from expandFrom_of_allStay hstay']
    exact delimit_of_series hseries'
  have hkinds : (members (G.map P).flatten).map kind = (members ls).map kind := by
    rw [members, members, hgroups, hG]
    simp only [List.map_map]
    exact List.map_congr_left fun g hg => (hreread g hg).kind
  have hagain : ∀ g ∈ G, P (P g) = P g ∧ IsPlain (P g) := by
    intro g hg
    subst hP
    exact printed_printed hi (hseries.single g hg) (hplain g hg) (hreread g hg)
  refine ⟨⟨(base ++ cfg.indentUnit).length + col.cellWidth + 1, G.map P, rfl, ?_⟩, hkinds, ?_⟩
  · rw [members, hG, List.forall₂_map_left_iff, List.forall₂_map_right_iff, List.forall₂_same]
    intro g hg
    subst hP
    exact alignedIn_printed hi (hseries.single g hg) (hplain g hg) fun head hk => hcol hg hk
  · have hplain' : ∀ g ∈ delimit (expandLines (G.map P).flatten), IsPlain g := by
      rw [hgroups]
      intro g' hg'
      obtain ⟨g, hg, rfl⟩ := List.mem_map.mp hg'
      exact (hagain g hg).2
    rw [format_of_plain cfg room base hplain', column_congr hkinds, hC, hgroups, hP, List.map_map]
    congr 1
    exact List.map_congr_left fun g hg => (hagain g hg).1

/-- A comment over two lines, a key in quotes and an optional field whose string is not closed,
on the deepest level. -/
theorem format_aligned_open_string :
    let ls := ["/* c".toList, " * d */ ".toList, "'a b' :string; readonly x?: `1".toList, []]
    let out := format {} (roomAt 32) "  ".toList ls
    (members out).map kind = [.comment, .field ⟨"'a b'".toList, false, "string;".toList⟩,
        .field ⟨"readonly x".toList, true, "`1".toList⟩] ∧
      format {} (roomAt 32) "  ".toList out = out := by
  intro ls out
  have hmembers : members ls = [⟨["/* c".toList, " * d */ ".toList], .comment⟩,
      ⟨["'a b' :string;".toList], .field ⟨"'a b'".toList, false, "string;".toList⟩⟩,
      ⟨["readonly x?: `1".toList, []],
        .field ⟨"readonly x".toList, true, "`1".toList⟩⟩] := by decide +kernel
  have hm : ∀ m ∈ members ls, m.kind = .comment ∨
      ∃ head, m.kind = .field head ∧ (m.lines.filter (!isBlankLine ·)).length = 1 := by
    rw [hmembers]
    refine List.forall_mem_cons.mpr ⟨.inl rfl,
      List.forall_mem_cons.mpr ⟨.inr ⟨_, rfl, by decide⟩, ?_⟩⟩
    exact List.forall_mem_singleton.mpr (.inr ⟨_, rfl, by decide⟩)
  have hdepth : (32 : Int) ≤ nestingLimit := by decide
  have hbase : isBlankLine "  ".toList = true := by decide
  obtain ⟨-, hkinds, hfix⟩ := format_aligned {} hdepth hbase (show ∀ l ∈ ls, '\n' ∉ l by decide) hm
  exact ⟨hkinds.trans (by rw [hmembers]; rfl), hfix⟩

end Block

end SourceLayout
