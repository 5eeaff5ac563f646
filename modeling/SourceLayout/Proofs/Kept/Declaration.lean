import SourceLayout.Proofs.Kept.Member

/-! Laying out a declaration loses, repeats and reorders no text: but for blanks and separators the
lines read as before. -/

namespace SourceLayout
open Text Scan

namespace Block

theorem braceParts?_spec {t before content after : Text} {opener : Nat} (ho : t[opener]? = some '{')
    (h : braceParts? t opener = some (before, content, after)) :
    ink t = ink before ++ '{' :: ink content ++ '}' :: ink after := by
  obtain ⟨⟨b, inside, a⟩, hp, h⟩ := Option.bind_eq_some_iff.mp h
  simp only [Option.ite_none_left_eq_some, Option.some.injEq, Prod.mk.injEq] at h
  obtain ⟨-, rfl, rfl, rfl⟩ := h
  rw [aroundPair?_spec (by decide) (d := '}') rfl ho hp]
  simp

def oneLineTexts (cfg : Settings) (room : Nat) (base line : Text) : List Text :=
  match (findTop? ['{'] line).bind (braceParts? line) with
  | none => []
  | some (_, content, _) =>
    parameterTexts cfg room base [base ++ cfg.indentUnit ++ Member.terminate content]

theorem ink_formatOneLine {cfg : Settings} {room : Nat} {base line : Text} (hb : ink base = [])
    (ht : ∀ t ∈ oneLineTexts cfg room base line, Parameter.lacksType t = false) :
    ink (formatOneLine cfg room base line).flatten = ink line := by
  unfold formatOneLine
  unfold oneLineTexts at ht
  split
  · simp
  · next before content after h =>
    simp only [h] at ht
    obtain ⟨i, hi, hp⟩ := Option.bind_eq_some_iff.mp h
    obtain ⟨c, hc, hget⟩ := findTop?_spec hi
    obtain rfl : c = '{' := by simpa using hc
    have hbody := ink_format hb ht
    rw [braceParts?_spec hget hp]
    simp only [List.cons_append, List.flatten_cons, List.flatten_append, ink_append, hbody]
    simp [hb]

end Block

namespace Union

theorem assignmentLine?_spec {ls before after : List Text} {line : Text} {i : Nat}
    (h : assignmentLine? ls = some (before, line, i, after)) :
    ls = before ++ line :: after ∧ assignment? line = some i := by
  induction ls generalizing before with
  | nil => cases h
  | cons l r ih =>
    unfold assignmentLine? at h
    split at h
    · next j hj =>
      cases h
      exact ⟨rfl, hj⟩
    · obtain ⟨⟨b, x⟩, hr, h⟩ := Option.map_eq_some_iff.mp h
      simp only [Prod.mk.injEq] at h
      obtain ⟨rfl, rfl⟩ := h
      obtain ⟨hls, hi⟩ := ih hr
      exact ⟨by rw [hls, List.cons_append], hi⟩

theorem ink_cut? {base : Text} (hb : ink base = []) {ls head rest : List Text}
    (h : cut? base ls = some (head, rest)) :
    ink head.flatten ++ ink rest.flatten = ink ls.flatten := by
  obtain ⟨⟨before, line, i, after⟩, ha, h⟩ := Option.map_eq_some_iff.mp h
  rw [(assignmentLine?_spec ha).1]
  simp only at h
  split at h
  · simp only [Prod.mk.injEq] at h
    obtain ⟨rfl, rfl⟩ := h
    have hline : ink (line.take (i + 1)) ++ (ink (line.drop (i + 1)) ++ ink after.flatten) =
        ink line ++ ink after.flatten := by
      rw [← List.append_assoc, ink_take_append_drop]
    simp [hb, hline]
  · simp only [Prod.mk.injEq] at h
    obtain ⟨rfl, rfl⟩ := h
    simp

theorem ink_membersFrom (s : State) (current ls : List Text) :
    ink (membersFrom s current ls).flatten.flatten = ink current.reverse.flatten ++
      ink ls.flatten := by
  have hcurrent : ∀ current : List Text,
      (if current.isEmpty then [] else [current.reverse]).flatten = current.reverse := by
    intro current
    split
    · next he => simp [List.isEmpty_iff.mp he]
    · simp
  induction ls generalizing s current with
  | nil =>
    rw [membersFrom, hcurrent]
    simp
  | cons l r ih =>
    unfold membersFrom
    simp only
    split
    · next he =>
      have hl : ink l = [] := ink_blank (isBlankLine_of_trim (List.isEmpty_iff.mp he))
      simp [ih, hl]
    · split
      · rw [List.flatten_append, List.flatten_append, ink_append, hcurrent, ih]
        simp
      · simp [ih]

theorem ink_object? {deeper : Text} (hd : ink deeper = []) {ls content : List Text}
    {before closing : Text} (h : object? deeper ls = some (before, content, closing)) :
    ink ls.flatten = ink before ++ '{' :: ink content.flatten ++ ink closing := by
  unfold object? at h
  split at h
  · next hone =>
    obtain ⟨l, rfl⟩ := List.length_eq_one_iff.mp hone
    obtain ⟨⟨b, c, a⟩, hp, h⟩ := Option.map_eq_some_iff.mp h
    obtain ⟨i, hi, hp⟩ := Option.bind_eq_some_iff.mp hp
    simp only [Prod.mk.injEq] at h
    obtain ⟨rfl, rfl, rfl⟩ := h
    have hl := Block.braceParts?_spec (findCode?_spec hi) hp
    rw [List.headD_cons, ink_trim] at hl
    simp [hl, hd]
  · obtain ⟨span, hs, h⟩ := Option.map_eq_some_iff.mp h
    simp only [Prod.mk.injEq] at h
    obtain ⟨rfl, rfl, rfl⟩ := h
    obtain ⟨-, -, hink⟩ := ObjectSpan.read?_spec hs
    rw [hink, ObjectSpan.ink_content _ hd]
    simp

def memberTexts (cfg : Settings) (room : Nat) (indent : Text) (ls : List Text) : List Text :=
  match if 1 < room then object? (indent ++ cfg.indentUnit) ls else none with
  | some (_, content, _) => Block.parameterTexts cfg (room - 1) indent content
  | none => []

theorem ink_memberLines {cfg : Settings} {room : Nat} {indent : Text} {ls : List Text}
    (hi : ink indent = [])
    (ht : ∀ t ∈ memberTexts cfg room indent ls, Parameter.lacksType t = false) :
    ink (memberLines cfg room indent ls).flatten = ink ls.flatten := by
  unfold memberLines
  unfold memberTexts at ht
  simp only
  split
  · next before content closing h =>
    simp only [h] at ht
    simp only [Option.ite_none_right_eq_some] at h
    have hbody := Block.ink_format hi ht
    rw [ink_object? (by simp [hi]) h.2]
    simp only [List.cons_append, List.flatten_cons, List.flatten_append, ink_append, hbody]
    simp [hi]
  · split
    · next hone =>
      obtain ⟨l, rfl⟩ := List.length_eq_one_iff.mp hone
      simp [hi]
    · exact ink_keepLines cfg hi (by simp [hi])

def parameterTexts (cfg : Settings) (room : Nat) (base : Text) (ls : List Text) : List Text :=
  match cut? base ls with
  | none => []
  | some (_, rest) => (members rest).flatMap (memberTexts cfg room (base ++ cfg.indentUnit))

theorem ink_format {cfg : Settings} {room : Nat} {base : Text} {ls : List Text} (hb : ink base = [])
    (ht : ∀ t ∈ parameterTexts cfg room base ls, Parameter.lacksType t = false) :
    ink (format cfg room base ls).flatten = ink ls.flatten := by
  unfold format
  unfold parameterTexts at ht
  split
  · rfl
  · next head rest h =>
    simp only [h] at ht
    have hi : ink (base ++ cfg.indentUnit) = [] := by simp [hb]
    have hmembers := ink_flatMap (l := members rest) (g := fun m => ink m.flatten) fun m hm =>
      ink_memberLines hi fun t hmem => ht t (List.mem_flatMap.mpr ⟨m, hm, hmem⟩)
    have hrest : ((members rest).map fun m => ink m.flatten).flatten = ink rest.flatten := by
      have h := ink_membersFrom {} [] rest
      rw [List.reverse_nil, List.flatten_nil, ink_nil, List.nil_append] at h
      rw [← h, List.flatten_flatten, ink_flatten, List.map_map]
      rfl
    rw [List.flatten_append, ink_append, hmembers, hrest, ink_cut? hb h]

end Union

namespace Declaration

/-- The texts that are read as parameters of call signatures, or as members of object types in their
parameters, when a declaration is laid out. -/
def parameterTexts (cfg : Settings) (ls : List Text) : List Text :=
  let base := indentOf (ls.headD [])
  match shape ls with
  | .union => Union.parameterTexts cfg (roomAt 0) base ls
  | .plain => []
  | .unclosed => []
  | .oneLine row => Block.oneLineTexts cfg (roomAt 0) base (ls.getD row [])
  | .body row col close =>
    Block.parameterTexts cfg (roomAt 0) base
      ((bodySpan ls row col close).content (base ++ cfg.indentUnit))

theorem findMark?_spec {p : Mark → Bool} {s : State} {ls : List Text} {row col : Nat}
    (h : findMark? p s ls = some (row, col)) :
    ∃ l m, ls[row]? = some l ∧ l[col]? = some m.char ∧ p m = true := by
  induction ls generalizing s row with
  | nil => cases h
  | cons l r ih =>
    unfold findMark? at h
    split at h
    · next c hc =>
      cases h
      obtain ⟨hlt, hp, -⟩ := List.findIdx?_eq_some_iff_getElem.mp hc
      rw [Bool.and_eq_true] at hp
      exact ⟨l, _, rfl, getElem?_of_marks (List.getElem?_eq_getElem hlt), hp.2⟩
    · obtain ⟨⟨row', col'⟩, hr, h⟩ := Option.map_eq_some_iff.mp h
      cases h
      exact ih hr

/-- The lines of a declaration whose body is on its last line, or begins before it. -/
theorem shape_spec (ls : List Text) :
    (∀ row, shape ls = .oneLine row → row + 1 = ls.length) ∧
      ∀ row col close, shape ls = .body row col close →
        row + 1 < ls.length ∧ (ls.getD row [])[col]? = some '{' := by
  unfold shape
  split
  · simp
  split
  · simp
  · next row col hb =>
    obtain ⟨l, m, hl, hm, hp⟩ := findMark?_spec hb
    simp only [Bool.and_eq_true, beq_iff_eq] at hp
    have hlt := (List.getElem?_eq_some_iff.mp hl).1
    simp only
    split
    · simp
    split
    · simp
    split
    · simp
    split
    · next hlast => simpa using hlast
    · next hlast =>
      simp only [reduceCtorEq, false_implies, implies_true, Shape.body.injEq, true_and]
      rintro _ _ _ ⟨rfl, rfl, -⟩
      rw [beq_iff_eq] at hlast
      refine ⟨by omega, ?_⟩
      rw [List.getD_eq_getElem?_getD, hl, Option.getD_some, hm, hp.1]

theorem drop_row {ls : List Text} {row : Nat} (h : row < ls.length) :
    ls.drop row = ls.getD row [] :: ls.drop (row + 1) := by
  rw [List.drop_eq_getElem_cons h, List.getD_eq_getElem?_getD, List.getElem?_eq_getElem h,
    Option.getD_some]

private theorem ink_bodySpan {ls : List Text} {row col : Nat} (close : Nat)
    (hlen : row + 1 < ls.length) (hget : (ls.getD row [])[col]? = some '{') :
    ink (ls.drop row).flatten = ink (bodySpan ls row col close).before ++
      '{' :: ink (bodySpan ls row col close).afterOpen ++
      ink (bodySpan ls row col close).middle.flatten ++
        ink (bodySpan ls row col close).beforeClose ++
      ink (bodySpan ls row col close).closing := by
  have hlast : ls.drop (row + 1) = (ls.drop (row + 1)).dropLast ++ [ls.getLast?.getD []] := by
    have hdrop := List.getLast?_drop (l := ls) (i := row + 1)
    rw [if_neg (by omega)] at hdrop
    cases hl : ls.getLast? with
    | none =>
      rw [List.getLast?_eq_none_iff.mp hl] at hlen
      simp at hlen
    | some last =>
      obtain ⟨ys, hys⟩ := List.getLast?_eq_some_iff.mp (hdrop.trans hl)
      rw [hys, List.dropLast_concat, Option.getD_some]
  rw [drop_row (by omega), List.flatten_cons, ink_append, ink_at hget, hlast]
  simp [bodySpan]

/-- But for blanks, semicolons and commas, laying out a declaration changes nothing: what is
written is what was read, in the same order. The one condition is that no parameter has a
colon without a type. -/
theorem format_conserves_ink {cfg : Settings} {ls : List Text}
    (ht : ∀ t ∈ parameterTexts cfg ls, Parameter.lacksType t = false) :
    ink (format cfg ls).flatten = ink ls.flatten := by
  have hb : ink (indentOf (ls.headD [])) = [] := ink_indentOf _
  obtain ⟨honeLine, hbody⟩ := shape_spec ls
  unfold format
  unfold parameterTexts at ht
  cases hs : shape ls with
  | union =>
    rw [hs] at ht
    exact Union.ink_format hb ht
  | plain => rfl
  | unclosed => rfl
  | oneLine row =>
    rw [hs] at ht
    have hlen := honeLine row hs
    simp only [List.flatten_append, ink_append, Block.ink_formatOneLine hb ht]
    conv => rhs; rw [← List.take_append_drop row ls, drop_row (by omega)]
    simp [List.drop_eq_nil_of_le (Nat.le_of_eq hlen.symm)]
  | body row col close =>
    rw [hs] at ht
    obtain ⟨hlen, hget⟩ := hbody row col close hs
    have hformat := Block.ink_format hb ht
    rw [ObjectSpan.ink_content _ (by simp)] at hformat
    conv => rhs; rw [← List.take_append_drop row ls, List.flatten_append, ink_append,
      ink_bodySpan close hlen hget]
    simp only [formatBody, List.flatten_append, List.flatten_cons, ink_append, hformat]
    simp

/-- A call signature with an object type in its parameters is such a declaration. -/
theorem format_conserves_ink_signature :
    let ls :=
  ["interface A \x7b", "f(a: \x7b x: number \x7d, b?: string): void \x7d"].map String.toList
    parameterTexts {} ls = ["a: \x7b x: number \x7d", "x: number", "b?: string"].map String.toList ∧
      (format {} ls).length = 8 ∧ ink (format {} ls).flatten = ink ls.flatten := by
  refine ⟨by decide +kernel, by decide +kernel, format_conserves_ink (by decide +kernel)⟩

/-- What is written may still change its lines when it is laid out again. A comment behind a result
type gets a semicolon before it and keeps the one behind it, and then stands between the two. -/
theorem format_twice_ne_once :
    let ls := ["interface A \x7b", "  f(): void /* c */;", "\x7d"].map String.toList
    let cfg := ({} : Settings).resolveIndent (unlines ls)
    format cfg (format cfg ls) ≠ format cfg ls := by
  decide +kernel

end Declaration

end SourceLayout
