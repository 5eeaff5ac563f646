import SourceLayout.Proofs.Alphabet
import SourceLayout.Proofs.Kept.Member
import SourceLayout.Proofs.Literals.Field
import SourceLayout.Proofs.Literals.Signature
import SourceLayout.Proofs.Literals.Split

/-! The strings of members. A nested object type is cut at its braces, which are code, so what
stands before, between and behind them keeps its strings; a field is respaced behind its name; so
the members of a block, laid out one after the other at every depth of nesting, keep theirs. -/

namespace SourceLayout
open Text Scan

/-! ## Object types over several lines -/

namespace ObjectSpan

theorem literals?_loose {indent : Text} (hi : isBlankLine indent = true) (t : Text) :
    literals? false (loose indent t) = lineLiterals? false t := by
  unfold loose
  split
  · next hempty =>
    rw [List.isEmpty_iff.mp hempty]
    rfl
  · have hindent := lineLiterals?_around false (t := Member.terminate t) hi (c := []) rfl
    rw [List.append_nil] at hindent
    rw [literals?_singleton, hindent, lineLiterals?_terminate]

theorem pass?_eq {depth : Nat} {s s' : State} {ls : List Text} (h : pass? depth s ls = some s') :
    s' = feedAll s ls := by
  induction ls generalizing s with
  | nil =>
    cases h
    rfl
  | cons l r ih =>
    rw [pass?] at h
    split at h
    · cases h
    · exact ih h

/-- The strings of an object type over several lines: before its brace, between its braces, and
from the closing brace on. The closing brace is found from a state that agrees with the lines on
strings and comments. -/
theorem literals?_span {indent l last : Text} {middle : List Text} {opener closer : Nat} {s : State}
    {m : Mark} {w : Text} {b : Bool} (hi : isBlankLine indent = true)
    (hopen : Parted (l.take opener) (l.drop opener)) (hget : l[opener]? = some '{')
    (hw : literals? false (l :: (middle ++ [last])) = some (w, b))
    (hs : ∀ x d, literals? false (l :: middle) = some (x, d) → s.lex = (none, d))
    (hm : (marks last s)[closer]? = some m) (hcode : m.isCode = true) (hchar : m.char = '}') :
    ∃ x y, literals? false (loose indent (trim (l.drop (opener + 1))) ++ middle ++
        loose indent (trim (last.take closer))) = some (x, false) ∧
      lineLiterals? false (trim (last.drop closer)) = some (y, b) ∧
      w = literals (l.take opener) ++ (x ++ y) := by
  rw [← List.cons_append, literals?_append_eq_some] at hw
  obtain ⟨w₁, c, w₂, hfront, hlast, rfl⟩ := hw
  rw [literals?_singleton] at hlast
  -- the line of the closing brace begins outside comments
  obtain ⟨rfl, hclose⟩ := parted_of_line (hs _ _ hfront) hlast hm hcode (by rw [hchar]; decide)
  obtain ⟨x₀, d, x₂, hl, hmiddle, rfl⟩ := literals?_cons_eq_some.mp hfront
  obtain ⟨hlt, hat⟩ := List.getElem?_eq_some_iff.mp hget
  have hdrop : l.drop opener = ['{'] ++ l.drop (opener + 1) := by
    rw [List.drop_eq_getElem_cons hlt, hat]
    rfl
  have hfirst := hopen.lineLiterals?
  rw [List.take_append_drop, hl, hdrop, lineLiterals?_lead rfl] at hfirst
  obtain ⟨⟨x₁, d'⟩, hx₁, he⟩ := Option.map_eq_some_iff.mp hfirst.symm
  cases he
  have hend := hclose.lineLiterals?
  rw [List.take_append_drop, hlast] at hend
  obtain ⟨⟨y, b'⟩, hy, he⟩ := Option.map_eq_some_iff.mp hend.symm
  cases he
  refine ⟨x₁ ++ x₂ ++ literals (last.take closer), y, ?_, by rw [lineLiterals?_trim, hy], by simp⟩
  rw [literals?_append_eq_some]
  refine ⟨x₁ ++ x₂, false, _, literals?_append_eq_some.mpr ⟨x₁, d', x₂, ?_, hmiddle, rfl⟩, ?_, rfl⟩
  · rw [literals?_loose hi, lineLiterals?_trim, hx₁]
  · rw [literals?_loose hi, lineLiterals?_trim, hclose.closes.lineLiterals?]

theorem read?_strings {l : Text} {r : List Text} {o : ObjectSpan} {w : Text} {b : Bool}
    {indent : Text} (hi : isBlankLine indent = true) (h : read? (l :: r) = some o)
    (hw : literals? false (l :: r) = some (w, b)) :
    Closes o.before ∧ ∃ x y, literals? false (o.content indent) = some (x, false) ∧
      lineLiterals? false o.closing = some (y, b) ∧ w = literals o.before ++ (x ++ y) := by
  obtain ⟨last, hlast, h⟩ := Option.bind_eq_some_iff.mp h
  obtain ⟨⟨opener, depth⟩, hopen, h⟩ := Option.bind_eq_some_iff.mp h
  obtain ⟨s, hpass, h⟩ := Option.bind_eq_some_iff.mp h
  obtain ⟨closer, hclose, h⟩ := Option.bind_eq_some_iff.mp h
  cases h
  obtain ⟨middle, hr⟩ := List.getLast?_eq_some_iff.mp hlast
  obtain rfl : r = middle ++ [last] := hr
  simp only [List.tail_cons, List.dropLast_concat] at hpass hclose ⊢
  have htrimmed : literals? false (trim l :: (middle ++ [trim last])) = some (w, b) := by
    rw [← hw]
    simp only [literals?, literals?_append, lineLiterals?_trim]
  obtain ⟨m, hm, hcode, hchar⟩ := mark_of_openBraces hopen
  have hparted := parted_code hm hcode (by rw [hchar]; decide)
  obtain ⟨hlt, hbrace, -⟩ := List.findIdx?_eq_some_iff_getElem.mp hclose
  simp only [Bool.and_eq_true, beq_iff_eq] at hbrace
  refine ⟨hparted.closes, literals?_span hi hparted (hchar ▸ getElem?_of_marks hm) htrimmed
    (fun x d hfront => ?_) (List.getElem?_eq_getElem hlt) hbrace.1.1 hbrace.1.2⟩
  obtain ⟨x₀, c, x₂, hl, hmiddle, -⟩ := literals?_cons_eq_some.mp hfront
  rw [pass?_eq hpass]
  exact feedAll_of_lines (feed_of_line rfl hl) hmiddle

end ObjectSpan

/-! ## Fields -/

namespace Member

theorem value_of_trim {l : Text} {h : FieldHead} (hr : FieldHead.read? (trim l) = some h)
    (hn : '\n' ∉ trim l) : trim h.value = h.value := by
  obtain ⟨-, a, b, c, -, -, -, ht, hhead⟩ := FieldHead.isKey_of_read? hr hn
  refine trim_eq_self hhead fun d hd => last_trim (t := l) ?_
  rw [ht, ← List.append_assoc, List.getLast?_append, hd, Option.some_or]

section Field

variable (col : NameColumn) {indent : Text} {h : FieldHead}

theorem label_eq (indent key : Text) (optional : Bool) :
    ∃ m, m.all isSoft = true ∧ ∀ v,
      indent ++ col.cell key optional ++ [' ', ':'] ++ ' ' :: v = indent ++ (key ++ (m ++ v)) := by
  obtain ⟨a, hcell, ha⟩ := col.cell_eq key optional
  refine ⟨a ++ [' ', ':', ' '], ?_, fun v => by rw [hcell]; simp⟩
  rw [List.all_append, ha]
  decide

/-- The first line of a field, respaced, holds the same strings. -/
theorem lineLiterals?_first {l : Text} (hi : isBlankLine indent = true)
    (hr : FieldHead.read? (trim l) = some h) (hn : '\n' ∉ trim l)
    (ht : tame (literals (trim l)) = true) :
    lineLiterals? false (indent ++ col.cell h.key h.optional ++ [' ', ':'] ++ ' ' :: h.value) =
      lineLiterals? false l := by
  obtain ⟨hlast, m, hm, -, htext⟩ := FieldHead.read?_soft hr hn
  obtain ⟨m', hm', hlabel⟩ := label_eq col indent h.key h.optional
  have hindent := lineLiterals?_around false (t := h.key ++ (m' ++ h.value)) hi (c := []) rfl
  rw [List.append_nil] at hindent
  rw [hlabel, hindent, ← lineLiterals?_trim false l, htext]
  exact FieldHead.lineLiterals?_respaced hlast (FieldHead.quote_key hr hn ht) hm' hm h.value

/-- The line of the opening brace of a nested object type holds the strings
in front of the brace. -/
theorem lineLiterals?_opening {l x : Text} (hi : isBlankLine indent = true)
    (hr : FieldHead.read? (trim l) = some h) (hn : '\n' ∉ trim l)
    (ht : tame (literals (trim l)) = true) {a : Text} (hl : trim l = a ++ h.value)
    (hclose : Closes (a ++ x)) (hx : '\n' ∉ x) :
    lineLiterals? false (indent ++ col.cell h.key h.optional ++ [' ', ':'] ++ ' ' :: trim x ++
      ['{']) = some (literals (a ++ x), false) := by
  obtain ⟨hlast, m, hm, -, htext⟩ := FieldHead.read?_soft hr hn
  obtain ⟨m', hm', hlabel⟩ := label_eq col indent h.key h.optional
  obtain rfl : a = h.key ++ m := by
    rw [htext, ← List.append_assoc] at hl
    exact (List.append_cancel_right hl).symm
  obtain ⟨b, hb, hblank⟩ := trim_spec x
  have hlead : (m ++ indentOf x).all isSoft = true := by
    rw [List.all_append, hm, Bool.true_and, List.all_eq_true]
    intro c hc
    have hne : c ≠ '\n' := by
      rintro rfl
      exact hx (List.takeWhile_subset _ hc)
    simp [isSoft, List.all_eq_true.mp (isBlankLine_indentOf x) c hc, hne]
  -- the blanks in front of the object type are part of the spacing, those behind it
  -- stand before the brace
  have hread := FieldHead.read_respaced hlast (FieldHead.quote_key hr hn ht) hlead hm' (trim x ++ b)
  have hold : h.key ++ (m ++ indentOf x ++ (trim x ++ b)) = h.key ++ m ++ x := by
    conv => rhs; rw [hb]
    simp
  have hnew : h.key ++ (m' ++ (trim x ++ b)) = h.key ++ (m' ++ trim x) ++ b := by simp
  rw [hold, hnew] at hread
  have hcloses : Closes (h.key ++ (m' ++ trim x) ++ b) := by
    rw [closes_iff, ← hread.2]
    exact closes_iff.mp hclose
  obtain ⟨hcut, hsame⟩ := hcloses.of_blank hblank fun hmem => hx (by rw [hb]; simp [hmem])
  have hindent := lineLiterals?_around false (t := h.key ++ (m' ++ trim x) ++ ['{']) hi
    (c := []) rfl
  rw [List.append_nil, ← List.append_assoc] at hindent
  rw [hlabel, hindent, hcut.lineLiterals?_append rfl, hread.1, hsame]

/-- Laying out a field leaves its strings alone. -/
theorem literals?_fieldLines (cfg : Settings) {inner : Text → List Text → List Text}
    {ls : List Text} (hr : FieldHead.read? (trim (ls.headD [])) = some h)
    (hi : isBlankLine indent = true) (hin : Over (· ≠ '\n') indent)
    (hlines : ∀ l ∈ ls, Over (· ≠ '\n') l) {w : Text} {b : Bool}
    (hw : literals? false ls = some (w, b)) (ht : tame w = true)
    (hinner : ∀ ls x, (∀ l ∈ ls, Over (· ≠ '\n') l) → literals? false ls = some (x, false) →
      tame x = true → literals? false (inner indent ls) = some (x, false)) :
    literals? false (fieldLines cfg inner indent col { h with value := trim h.value } ls) =
      some (w, b) := by
  obtain ⟨r, hbody⟩ := nonblank_of_head fun he => by
    rw [he] at hr
    cases hr
  have hfree : ∀ l ∈ ls.filter (!isBlankLine ·), Over (· ≠ '\n') l :=
    fun l hl => hlines l (List.mem_filter.mp hl).1
  rw [← literals?_shown, hbody] at hw
  rw [hbody] at hfree
  generalize ls.headD [] = l at hr hbody hw hfree
  have hn : '\n' ∉ trim l := fun hmem => (hfree l List.mem_cons_self).trim _ hmem rfl
  rw [value_of_trim hr hn]
  have htl : tame (literals (trim l)) = true := by
    obtain ⟨x, c, y, hl, -, rfl⟩ := literals?_cons_eq_some.mp hw
    rw [← lineLiterals?_trim] at hl
    obtain ⟨-, rfl⟩ := lineLiterals?_eq_some hl
    exact (tame_append ht).1
  have hfirst := lineLiterals?_first col hi hr hn htl
  unfold fieldLines
  simp only [hbody]
  split
  · next hone =>
    obtain rfl : r = [] := by simpa using hone
    rw [literals?_singleton, lineLiterals?_trimRight, hfirst, ← literals?_singleton, hw]
  · unfold nestedField?
    cases hspan : nestedSpan? h (l :: r) with
    | none => rw [Option.map_none, Option.getD_none, literals?_keepLines cfg hi hfirst, hw]
    | some x =>
      obtain ⟨before, span⟩ := x
      obtain ⟨-, m, -, -, htext⟩ := FieldHead.read?_soft hr hn
      rw [← List.append_assoc] at htext
      obtain ⟨hread, x, hbefore, rfl⟩ := nestedSpan?_eq htext hspan
      have hinside := isBlankLine_append hi (isBlankLine_unit cfg)
      obtain ⟨hclose, y, z, hcontent, hclosing, rfl⟩ := ObjectSpan.read?_strings hinside hread hw
      have hover := ObjectSpan.over_read? hfree hread
      have hadded : Over (· ≠ '\n') added := by decide
      have hdeeper := over_append.mpr ⟨hin, over_indentUnit hadded cfg⟩
      rw [hbefore] at hclose ht
      have hx : '\n' ∉ x := fun hmem => by
        have hbefores := hover.before
        rw [hbefore] at hbefores
        exact (over_append.mp hbefores).2 _ hmem rfl
      have hopening := lineLiterals?_opening col hi hr hn htl htext hclose hx
      have hmiddle := hinner _ y (ObjectSpan.over_content hadded hover hdeeper) hcontent
        (tame_append (tame_append ht).2).1
      have hend := lineLiterals?_around false (t := span.closing) hi (c := []) rfl
      rw [List.append_nil, hclosing] at hend
      simp only [Option.map_some, Option.getD_some, List.cons_append]
      rw [literals?_cons_eq_some]
      refine ⟨_, false, _, hopening, literals?_append_eq_some.mpr ⟨y, false, z, hmiddle, ?_, rfl⟩,
        ?_⟩
      · rw [literals?_singleton, hend]
      · rw [hbefore]

end Field

/-! ## Blocks -/

theorem literals?_setOff (b : Bool) (done : List Text) :
    literals? b (setOff done) = literals? b done := by
  unfold setOff
  cases hlast : done.getLast? with
  | none => rw [List.getLast?_eq_none_iff.mp hlast]
  | some l =>
    simp only
    split
    · rfl
    · rw [literals?_append]
      cases literals? b done with
      | none => rfl
      | some x => simp [lineLiterals?_blank x.2 (l := []) rfl]

section Place

variable (cfg : Settings) (room : Nat) (col : NameColumn) {inner : Text → List Text → List Text}
    {indent : Text}

def Layout.literals? (out : Layout) : Option (Text × Bool) :=
  Scan.literals? false (out.done ++ out.comments)

/-- Adding a member adds its strings. -/
theorem literals?_place (hi : isBlankLine indent = true) (hin : Over (· ≠ '\n') indent)
    (hinner : ∀ ls x, (∀ l ∈ ls, Over (· ≠ '\n') l) → literals? false ls = some (x, false) →
      tame x = true → literals? false (inner indent ls) = some (x, false))
    {g : List Text} (hlines : ∀ l ∈ g, Over (· ≠ '\n') l) {x : Text} {b : Bool}
    (hx : literals? false g = some (x, b)) (ht : tame x = true) {out : Layout} {v : Text}
    (hout : out.literals? = some (v, false)) :
    (place cfg room inner indent col out (ofLines g)).literals? = some (v ++ x, b) := by
  have hadd {ls : List Text} (hls : literals? false ls = some (x, b)) :
      literals? false (out.done ++ out.comments ++ ls) = some (v ++ x, b) :=
    literals?_append_eq_some.mpr ⟨v, false, x, hout, hls, rfl⟩
  unfold place Layout.literals?
  simp only [ofLines]
  cases hkind : kindOf g with
  | comment =>
    rw [← List.append_assoc]
    exact hadd (by rw [literals?_commentLines hi, hx])
  | method head =>
    have hset : literals? false (setOff out.done ++ out.comments) = some (v, false) := by
      rw [literals?_append, literals?_setOff, ← literals?_append]
      exact hout
    rw [List.append_nil, literals?_append_eq_some]
    exact ⟨v, false, x, hset, Signature.literals?_format cfg room _ (kindOf_method hkind) hi hx,
      rfl⟩
  | field head =>
    obtain ⟨k, hread, rfl⟩ := kindOf_field hkind
    rw [List.append_nil]
    exact hadd (literals?_fieldLines col cfg hread hi hin hlines hx ht hinner)
  | unknown =>
    rw [List.append_nil]
    exact hadd (by rw [literals?_plainLines hi, hx])

theorem literals?_foldl_place (hi : isBlankLine indent = true) (hin : Over (· ≠ '\n') indent)
    (hinner : ∀ ls x, (∀ l ∈ ls, Over (· ≠ '\n') l) → literals? false ls = some (x, false) →
      tame x = true → literals? false (inner indent ls) = some (x, false))
    {gs : List (List Text)} {w : Text} {b : Bool} (hgs : Groups gs w b)
    (hlines : ∀ g ∈ gs, ∀ l ∈ g, Over (· ≠ '\n') l) (ht : tame w = true) {out : Layout} {v : Text}
    (hout : out.literals? = some (v, false)) :
    ((gs.map ofLines).foldl (place cfg room inner indent col) out).literals? =
      some (v ++ w, b) := by
  induction hgs generalizing out v with
  | nil => rw [List.append_nil]; exact hout
  | last hg =>
    exact literals?_place cfg room col hi hin hinner (hlines _ List.mem_cons_self) hg ht hout
  | cons hg _ ih =>
    obtain ⟨hfirst, hrest⟩ := List.forall_mem_cons.mp hlines
    have hplace := literals?_place cfg room col hi hin hinner hfirst hg (tame_append ht).1 hout
    rw [← List.append_assoc]
    exact ih hrest (tame_append ht).2 hplace

end Place

end Member

/-- Laying out the lines between a pair of braces leaves their strings alone. -/
theorem Block.literals?_format (cfg : Settings) (room : Nat) {base : Text}
    (hb : isBlankLine base = true) (hn : Over (· ≠ '\n') base) {ls : List Text}
    (hlines : ∀ l ∈ ls, Over (· ≠ '\n') l) {w : Text} {b : Bool}
    (hw : literals? false ls = some (w, b)) (ht : tame w = true) :
    literals? false (Block.format cfg room base ls) = some (w, b) := by
  have hdeeper {base : Text} (hb : isBlankLine base = true) :=
    isBlankLine_append hb (isBlankLine_unit cfg)
  induction room generalizing base ls w b with
  | zero =>
    rw [Block.format, Member.literals?_plainLines (hdeeper hb), hw]
  | succ room ih =>
    have hinner : Over (· ≠ '\n') (base ++ cfg.indentUnit) :=
      over_append.mpr ⟨hn, over_indentUnit (by decide) cfg⟩
    have hgroups : ∀ g ∈ Member.delimit (Member.expandLines ls), ∀ l ∈ g, Over (· ≠ '\n') l := by
      intro g hg
      exact (Block.over_members (by decide) hlines (List.mem_map_of_mem (f := Member.ofLines) hg)).2
    have hstart : ({} : Member.Layout).literals? = some ([], false) := rfl
    have hout := Member.literals?_foldl_place cfg room (Member.column (members ls)) (hdeeper hb)
      hinner (fun ls x hls hx hx' => ih (hdeeper hb) hinner hls hx hx') (Member.groups_members hw)
        hgroups ht hstart
    rw [List.nil_append] at hout
    exact hout

end SourceLayout
