import SourceLayout.Proofs.Brackets
import SourceLayout.Proofs.Collapse

/-! The heads of members lose no ink: what is read of a head, written out again, has the ink of the
text it was read from. The head of a call signature is read twice, from its first line and from its
collapsed lines, and both readings have the same ink. -/

namespace SourceLayout
open Text Scan

namespace MethodHead

theorem questionMark_spec {t r : Text} {b : Bool} (h : questionMark t = (b, r)) :
    ∃ a, t = a ++ r ∧ (∀ c ∈ a, c ∉ signs) ∧ ink a = if b then ['?'] else [] := by
  have hindent : ∀ u : Text, ∀ c ∈ indentOf u, c ∉ signs := fun u c hc =>
    not_sign_of_blank (List.all_eq_true.mp List.all_takeWhile c hc)
  have ht := indentOf_append_trimLeft t
  unfold questionMark at h
  split at h
  · next r' hr =>
    simp only [Prod.mk.injEq] at h
    obtain ⟨rfl, rfl⟩ := h
    refine ⟨indentOf t ++ '?' :: indentOf r', ?_, ?_, by simp⟩
    · rw [List.append_assoc, List.cons_append, indentOf_append_trimLeft, ← hr, ht]
    · intro c hc
      simp only [List.mem_append, List.mem_cons] at hc
      rcases hc with hc | rfl | hc
      · exact hindent t c hc
      · decide
      · exact hindent r' c hc
  · simp only [Prod.mk.injEq] at h
    obtain ⟨rfl, rfl⟩ := h
    exact ⟨indentOf t, ht.symm, hindent t, by simp⟩

def opens (m : Mark) : Bool := m.isTop && m.char == '('

private theorem chars_plain (a : Text) :
    (a.map (fun c => (⟨c, 0, .code⟩ : Mark))).map Mark.char = a := by
  simp [Function.comp_def]

private theorem opens_plain {a : Text} (ha : ∀ c ∈ a, c ∉ signs) :
    ∀ m ∈ a.map (fun c => (⟨c, 0, .code⟩ : Mark)), opens m = false := by
  intro m hm
  obtain ⟨c, hc, rfl⟩ := List.mem_map.mp hm
  have hne : c ≠ '(' := by rintro rfl; exact ha _ hc (by decide)
  simp [opens, hne]

private theorem generics?_spec {t g r : Text} (h : generics? t = some (g, r)) {s : State}
    (hs : s.settled = true) :
    ∃ ms s', marksFrom .free s t = ms ++ marksFrom .free s' r ∧ s'.settled = true ∧
      (∀ m ∈ ms, opens m = false) ∧ ink (ms.map Mark.char) = ink g := by
  unfold generics? at h
  split at h
  · next hh =>
    cases t with
    | nil => simp at hh
    | cons o r₀ =>
      obtain rfl : o = '<' := by simpa using hh
      obtain ⟨i, hi, he⟩ := Option.map_eq_some_iff.mp h
      simp only [Prod.mk.injEq] at he
      obtain ⟨rfl, rfl⟩ := he
      obtain ⟨inner, c, s₁, rest, hm, hl, hc, hs₁, hin⟩ := matching?_spec (by decide) hi
      obtain ⟨htake, hdrop⟩ := take_drop_pair hm
      rw [← hl, htake, hdrop]
      -- behind the angle brackets come blanks, then the rest
      obtain ⟨s', hs', hrest⟩ := marksFrom_plain (indentOf rest) (trimLeft rest)
        (fun c hc => not_sign_of_blank (List.all_eq_true.mp List.all_takeWhile c hc)) hs₁
      rw [indentOf_append_trimLeft] at hrest
      refine ⟨(⟨'<', 0, .code⟩ :: inner ++ [⟨c, 0, .code⟩]) ++ (indentOf rest).map (⟨·, 0, .code⟩),
        s', ?_, hs', ?_, ?_⟩
      · rw [marksFrom_opener (by decide) hs, ← marksFrom_opener (by decide) (s := {}) rfl, ← marks,
          hm, hrest]
        simp
      · intro m hmem
        simp only [List.mem_append, List.mem_cons, List.not_mem_nil, or_false] at hmem
        rcases hmem with ((rfl | hmem) | rfl) | hmem
        · decide
        · cases hk : m.isCode with
          | true =>
            have hd := hin m hmem hk
            simp only [opens, Mark.isTop, Bool.and_eq_false_iff, beq_eq_false_iff_ne]
            exact .inl (.inr (by omega))
          | false => simp [opens, Mark.isTop, hk]
        · rw [eq_of_openerOf hc (d := '>') rfl]; decide
        · exact opens_plain
            (fun c hc => not_sign_of_blank (List.all_eq_true.mp List.all_takeWhile c hc)) m hmem
      · rw [List.map_append, chars_plain, ink_append, ink_indentOf, List.append_nil]
        simp
  · simp only [Option.some.injEq, Prod.mk.injEq] at h
    obtain ⟨rfl, rfl⟩ := h
    exact ⟨[], s, rfl, hs, by simp, rfl⟩

/-- The marks of a head and of what follows it: no parenthesis opens outside brackets before the
parameters, and the ink up to there is the ink of the head. -/
theorem read?_marks {t : Text} {h : MethodHead} (hr : read? t = some h) :
    ∃ ms s', marks t = ms ++ marksFrom .free s' h.rest ∧ s'.settled = true ∧
      (∀ m ∈ ms, opens m = false) ∧ ink (ms.map Mark.char) = ink h.token ∧
      h.rest.head? = some '(' := by
  rcases hq : questionMark (t.dropWhile isNameChar) with ⟨b, r₁⟩
  simp only [read?, hq] at hr
  obtain ⟨⟨g, r⟩, hg, hr⟩ := Option.bind_eq_some_iff.mp hr
  simp only [Option.ite_none_right_eq_some, Bool.and_eq_true, beq_iff_eq, Option.some.injEq] at hr
  obtain ⟨⟨-, hhead⟩, rfl⟩ := hr
  obtain ⟨a, ha, hplain, hink⟩ := questionMark_spec hq
  have hname : ∀ c ∈ t.takeWhile isNameChar, c ∉ signs := fun c hc =>
    not_sign_of_nameChar (List.all_eq_true.mp List.all_takeWhile c hc)
  obtain ⟨s₁, hs₁, hm₁⟩ := marksFrom_plain (t.takeWhile isNameChar) (t.dropWhile isNameChar) hname
    (s := {}) rfl
  obtain ⟨s₂, hs₂, hm₂⟩ := marksFrom_plain a _ hplain hs₁
  obtain ⟨ms, s', hm, hs', hno, hi⟩ := generics?_spec hg hs₂
  rw [← ha] at hm₂
  rw [List.takeWhile_append_dropWhile, ← marks, hm₂, hm] at hm₁
  refine ⟨(t.takeWhile isNameChar).map (⟨·, 0, .code⟩) ++ (a.map (⟨·, 0, .code⟩) ++ ms), s', ?_,
    hs', ?_, ?_, hhead⟩
  · simpa using hm₁
  · intro m hmem
    rcases List.mem_append.mp hmem with hmem | hmem
    · exact opens_plain hname m hmem
    · rcases List.mem_append.mp hmem with hmem | hmem
      · exact opens_plain hplain m hmem
      · exact hno m hmem
  · simp only [List.map_append, chars_plain, ink_append, hink, hi, token]
    cases b <;> simp

/-- A head and what follows it make up the text. -/
theorem read?_append {t : Text} {h : MethodHead} (hr : read? t = some h) :
    ∃ a, t = a ++ h.rest ∧ ink a = ink h.token := by
  obtain ⟨ms, s', hm, -, -, hi, -⟩ := read?_marks hr
  refine ⟨ms.map Mark.char, ?_, hi⟩
  conv => lhs; rw [← map_char_marks t {}, hm, List.map_append, map_char_marksFrom]

theorem ink_read? {t : Text} {h : MethodHead} (hr : read? t = some h) :
    ink t = ink h.token ++ ink h.rest := by
  obtain ⟨a, ha, hi⟩ := read?_append hr
  conv => lhs; rw [ha, ink_append, hi]

theorem rest_read? {t : Text} {h : MethodHead} (hr : read? t = some h) :
    h.rest.head? = some '(' := by
  obtain ⟨ms, s', -, -, -, -, hh⟩ := read?_marks hr
  exact hh

private theorem takeWhile_firm (q : Mark → Bool) (hq : ∀ m, m.isFirm = false → q m = true)
    (ms : List Mark) :
    ink (((ms.filter Mark.isFirm).takeWhile q).map Mark.char) =
      ink ((ms.takeWhile q).map Mark.char) := by
  induction ms with
  | nil => rfl
  | cons m ms ih =>
    cases hm : m.isFirm with
    | true =>
      rw [List.filter_cons_of_pos hm, List.takeWhile_cons, List.takeWhile_cons]
      cases q m with
      | true => simp only [↓reduceIte, List.map_cons]; rw [ink_cons, ih, ← ink_cons]
      | false => rfl
    | false =>
      have hb : isBlankLine [m.char] = true := by
        simp only [Mark.isFirm, Bool.or_eq_false_iff, Bool.not_eq_false'] at hm
        simp [isBlankLine, hm.2]
      rw [List.filter_cons_of_neg (by simp [hm]), ih, List.takeWhile_cons, if_pos (hq m hm),
        List.map_cons, ink_cons, ink_blank hb, List.nil_append]

/-- The ink of a head is the ink in front of the first parenthesis outside brackets. -/
private theorem token_of_firm {t : Text} {h : MethodHead} (hr : read? t = some h) :
    ink ((((marks t).filter Mark.isFirm).takeWhile (!opens ·)).map Mark.char) = ink h.token ∧
      ∃ m ∈ (marks t).filter Mark.isFirm, opens m = true := by
  obtain ⟨ms, s', hm, hs', hno, hi, hh⟩ := read?_marks hr
  obtain ⟨r, hrest⟩ : ∃ r, h.rest = '(' :: r := by
    cases hc : h.rest with
    | nil => simp [hc] at hh
    | cons c r => exact ⟨r, by simpa [hc] using hh⟩
  rw [hrest, marksFrom_opener (by decide) hs'] at hm
  constructor
  · have hfirm : ∀ m : Mark, m.isFirm = false → (!opens m) = true := by
      intro m hm
      simp only [Mark.isFirm, Bool.or_eq_false_iff, Bool.not_eq_false'] at hm
      have hne : m.char ≠ '(' := by intro e; rw [e] at hm; exact absurd hm.2 (by decide)
      simp [opens, hne]
    rw [takeWhile_firm _ hfirm, hm, List.takeWhile_append_of_pos (by simpa using hno)]
    simp [opens, Mark.isTop, Mark.isCode, hi]
  · refine ⟨⟨'(', 0, .code⟩, ?_, by decide⟩
    rw [hm]
    simp [Mark.isFirm, show isBlank '(' = false by decide]

/-- Two texts have heads of the same ink if the firm marks of one begin those of the other. -/
theorem token_ink_eq {t u : Text} {h k : MethodHead} (ht : read? t = some h) (hu : read? u = some k)
    {ms : List Mark} (hm : (marks u).filter Mark.isFirm = (marks t).filter Mark.isFirm ++ ms) :
    ink h.token = ink k.token := by
  obtain ⟨hi, m, hmem, hopens⟩ := token_of_firm ht
  obtain ⟨hj, -⟩ := token_of_firm hu
  have hne : (((marks t).filter Mark.isFirm).takeWhile (!opens ·)).length ≠
      ((marks t).filter Mark.isFirm).length := by
    intro hl
    have he := List.takeWhile_prefix (!opens ·) (l := (marks t).filter Mark.isFirm)
    rw [← he.eq_of_length hl] at hmem
    have := List.all_eq_true.mp List.all_takeWhile m hmem
    simp [hopens] at this
  rw [← hi, ← hj, hm, List.takeWhile_append, if_neg hne]

end MethodHead

theorem dropWord?_spec {w : String} {t r : Text} (h : dropWord? w t = some r) :
    t = w.toList ++ r := by
  simp only [dropWord?, startsWith, Option.ite_none_right_eq_some, Option.some.injEq,
    List.isPrefixOf_iff_prefix] at h
  obtain ⟨⟨u, rfl⟩, rfl⟩ := h
  rw [← String.length_toList, List.drop_left]

theorem dropWord?_append (w : String) (r : Text) : dropWord? w (w.toList ++ r) = some r := by
  have hprefix : startsWith (w.toList ++ r) w = true :=
    List.isPrefixOf_iff_prefix.mpr (List.prefix_append _ _)
  rw [dropWord?, if_pos hprefix, ← String.length_toList, List.drop_left]

namespace FieldHead

private theorem enclosed?_spec {close : Char} {allowEmpty : Bool} {t n r : Text}
    (h : enclosed? close allowEmpty t = some (n, r)) : t = n ++ r := by
  cases t with
  | nil => simp [enclosed?] at h
  | cons o t =>
    have ht := List.takeWhile_append_dropWhile (p := (· != close)) (l := t)
    unfold enclosed? at h
    simp only at h
    split at h
    · cases h
    · next c rest hc =>
      simp only [Option.ite_none_left_eq_some, Option.some.injEq, Prod.mk.injEq] at h
      obtain ⟨-, rfl, rfl⟩ := h
      rw [hc] at ht
      simp [ht]

theorem name?_spec {t n r : Text} (h : name? t = some (n, r)) : t = n ++ r := by
  unfold name? at h
  split at h
  · cases h
  · exact enclosed?_spec h
  · exact enclosed?_spec h
  · exact enclosed?_spec h
  · simp only [Option.ite_none_right_eq_some, Option.some.injEq, Prod.mk.injEq] at h
    obtain ⟨-, rfl, rfl⟩ := h
    exact List.takeWhile_append_dropWhile.symm

theorem value?_spec {t v : Text} (h : value? t = some v) :
    ∃ rest, t = indentOf t ++ v ++ rest ∧ (rest = [] ∨ rest = ['\n']) ∧
      ∀ c, v.head? = some c → isBlank c = false := by
  simp only [value?, Option.ite_none_right_eq_some, Bool.or_eq_true, beq_iff_eq,
    Option.some.injEq] at h
  obtain ⟨hrest, rfl⟩ := h
  refine ⟨_, ?_, hrest, ?_⟩
  · rw [List.append_assoc, List.takeWhile_append_dropWhile, indentOf_append_trimLeft]
  · intro c hc
    apply head_trimLeft (t := t)
    cases ht : trimLeft t with
    | nil => simp [ht] at hc
    | cons d r =>
      rw [ht, List.takeWhile_cons] at hc
      split at hc
      · simpa using hc
      · simp at hc

private theorem after?_spec {lead t : Text} {h : FieldHead} (ha : after? lead t = some h) :
    ∃ a rest, lead ++ t = a ++ h.value ++ rest ∧ (rest = [] ∨ rest = ['\n']) ∧
      (∀ c, h.value.head? = some c → isBlank c = false) ∧
      ink a = ink h.key ++ (if h.optional then ['?'] else []) ++ [':'] := by
  obtain ⟨⟨n, r⟩, hn, ha⟩ := Option.bind_eq_some_iff.mp ha
  rcases hq : MethodHead.questionMark r with ⟨b, r₁⟩
  simp only [hq] at ha
  split at ha
  · next r₂ =>
    obtain ⟨v, hv, rfl⟩ := Option.map_eq_some_iff.mp ha
    obtain ⟨rest, hr₂, hrest, hhead⟩ := value?_spec hv
    obtain ⟨q, hq, -, hink⟩ := MethodHead.questionMark_spec hq
    refine ⟨lead ++ n ++ q ++ ':' :: indentOf r₂, rest, ?_, hrest, hhead, ?_⟩
    · rw [name?_spec hn, hq]
      conv => lhs; rw [hr₂]
      simp
    · simp [hink]
  · cases ha

theorem readonly?_spec {t lead rest : Text} (h : readonly? t = some (lead, rest)) :
    t = lead ++ rest := by
  obtain ⟨r, hr, h⟩ := Option.bind_eq_some_iff.mp h
  simp only [Option.ite_none_right_eq_some, Option.some.injEq, Prod.mk.injEq] at h
  obtain ⟨-, rfl, rfl⟩ := h
  rw [dropWord?_spec hr, List.append_assoc, indentOf_append_trimLeft]

/-- A field is its key, its mark, a colon and its value, up to blanks. -/
theorem read?_spec {t : Text} {h : FieldHead} (hr : read? t = some h) :
    ∃ a rest, t = a ++ h.value ++ rest ∧ (rest = [] ∨ rest = ['\n']) ∧
      (∀ c, h.value.head? = some c → isBlank c = false) ∧
      ink a = ink h.key ++ (if h.optional then ['?'] else []) ++ [':'] := by
  simp only [read?, Option.orElse_eq_orElse, Option.orElse_eq_or, Option.or_eq_some_iff] at hr
  rcases hr with hr | ⟨-, hr⟩
  · obtain ⟨⟨lead, rest⟩, hl, ha⟩ := Option.bind_eq_some_iff.mp hr
    rw [readonly?_spec hl]
    exact after?_spec ha
  · exact after?_spec hr

end FieldHead

theorem ink_splitTop {separators : List Char} (h : separators.all (!isInk ·) = true) (t : Text) :
    ink (splitTop separators t).flatten = ink t := by
  have htrim : ∀ l ∈ (piecesTop separators t).map trim, (!l.isEmpty) = false → ink l = [] := by
    intro l _ hl
    have he : l = [] := by simpa using hl
    rw [he, ink_nil]
  rw [splitTop, ink_flatten_filter _ _ htrim, ink_flatten_map (fun _ _ => ink_trim _), piecesTop,
    ← List.map_flatten, flatten_splitWhen]
  conv => rhs; rw [← map_char_marks t {}]
  rw [ink, ink, List.filter_map, List.filter_map, List.filter_filter]
  congr 2
  funext m
  cases hm : isInk m.char with
  | false => simp [hm]
  | true =>
    have hne : m.char ∉ separators := by
      intro hmem
      have hnot := List.all_eq_true.mp h m.char hmem
      simp [hm] at hnot
    simp [hm, hne]

namespace Parameter

/-- Whether a parameter has a colon outside brackets and no type behind it. -/
def lacksType (t : Text) : Bool :=
  (findTop? [':'] t).any fun colon => isBlankLine (t.drop (colon + 1))

def inkOf (p : Parameter) : Text :=
  ink p.name ++ (if p.optional then ['?'] else []) ++
    (if p.type.isEmpty then [] else ':' :: ink p.type)

theorem inkOf_read {t : Text} (h : lacksType t = false) : (read t).inkOf = ink t := by
  unfold read
  cases hf : findTop? [':'] t with
  | none => simp [inkOf]
  | some colon =>
    obtain ⟨c, hc, hi⟩ := findTop?_spec hf
    obtain rfl : c = ':' := by simpa using hc
    have htype : (trim (t.drop (colon + 1))).isEmpty = false := by
      rw [Bool.eq_false_iff]
      intro he
      simp [lacksType, hf, isBlankLine_of_trim (List.isEmpty_iff.mp he)] at h
    have hname := ink_trim (t.take colon)
    rw [ink_at hi]
    simp only [inkOf, htype, ink_trim]
    split
    · next ho =>
      obtain ⟨a, ha⟩ := List.getLast?_eq_some_iff.mp (beq_iff_eq.mp ho)
      rw [ha, ink_append] at hname
      simp [ha, ← hname]
    · simp

end Parameter

end SourceLayout
