import SourceLayout.Declaration.Basic

/-! The ink of a text: what is left of it without blanks and without the separators `;` and `,`.
Trimming, padding and indenting leave the ink alone, and so does moving separators about. -/

namespace SourceLayout.Text

/-- A character that is neither blank nor a separator. -/
def isInk (c : Char) : Bool := !isBlank c && c != ';' && c != ','

def ink (t : Text) : Text := t.filter isInk

@[simp] theorem ink_nil : ink [] = [] := rfl

@[simp] theorem ink_append (a b : Text) : ink (a ++ b) = ink a ++ ink b := List.filter_append ..

theorem ink_cons (c : Char) (t : Text) : ink (c :: t) = ink [c] ++ ink t :=
  ink_append [c] t

@[simp] theorem ink_take_append_drop (i : Nat) (t : Text) :
    ink (t.take i) ++ ink (t.drop i) = ink t := by
  rw [← ink_append, List.take_append_drop]

@[simp] theorem ink_cons_space (t : Text) : ink (' ' :: t) = ink t := rfl
@[simp] theorem ink_cons_semicolon (t : Text) : ink (';' :: t) = ink t := rfl
@[simp] theorem ink_cons_comma (t : Text) : ink (',' :: t) = ink t := rfl
@[simp] theorem ink_cons_colon (t : Text) : ink (':' :: t) = ':' :: ink t := rfl
@[simp] theorem ink_cons_mark (t : Text) : ink ('?' :: t) = '?' :: ink t := rfl
@[simp] theorem ink_cons_open (t : Text) : ink ('{' :: t) = '{' :: ink t := rfl
@[simp] theorem ink_cons_close (t : Text) : ink ('}' :: t) = '}' :: ink t := rfl
@[simp] theorem ink_cons_openParen (t : Text) : ink ('(' :: t) = '(' :: ink t := rfl
@[simp] theorem ink_cons_closeParen (t : Text) : ink (')' :: t) = ')' :: ink t := rfl

theorem isInk_of_blank {c : Char} (h : isBlank c = true) : isInk c = false := by
  simp [isInk, h]

theorem ink_blank {t : Text} (h : isBlankLine t = true) : ink t = [] := by
  have hb : ∀ c ∈ t, isBlank c = true := List.all_eq_true.mp h
  simpa [ink] using fun c hc => isInk_of_blank (hb c hc)

theorem isBlankLine_replicate_space (n : Nat) : isBlankLine (List.replicate n ' ') = true := by
  simp only [isBlankLine, List.all_replicate]
  split <;> rfl

theorem ink_flatten_filter (ls : List Text) (p : Text → Bool)
    (h : ∀ l ∈ ls, p l = false → ink l = []) : ink (ls.filter p).flatten = ink ls.flatten := by
  induction ls with
  | nil => rfl
  | cons l ls ih =>
    have hr := ih fun a ha => h a (List.mem_cons_of_mem _ ha)
    cases hp : p l with
    | true => simp [hp, hr]
    | false => simp [hp, hr, h l List.mem_cons_self hp]

@[simp] theorem indentOf_append_trimLeft (t : Text) : indentOf t ++ trimLeft t = t :=
  List.takeWhile_append_dropWhile

theorem isBlankLine_indentOf (t : Text) : isBlankLine (indentOf t) = true := List.all_takeWhile

@[simp] theorem ink_indentOf (t : Text) : ink (indentOf t) = [] :=
  ink_blank List.all_takeWhile

@[simp] theorem ink_trimLeft (t : Text) : ink (trimLeft t) = ink t := by
  have h := congrArg ink (indentOf_append_trimLeft t)
  rw [ink_append, ink_indentOf] at h
  exact h

/-- The blanks that `trimRight` takes away. -/
theorem trimRight_append (t : Text) : ∃ b, t = trimRight t ++ b ∧ isBlankLine b = true := by
  refine ⟨(t.reverse.takeWhile isBlank).reverse, ?_, ?_⟩
  · rw [trimRight, ← List.reverse_append, List.takeWhile_append_dropWhile, List.reverse_reverse]
  · rw [isBlankLine, List.all_reverse]
    exact List.all_takeWhile

@[simp] theorem ink_trimRight (t : Text) : ink (trimRight t) = ink t := by
  obtain ⟨b, hb, hblank⟩ := trimRight_append t
  have h := congrArg ink hb
  rw [ink_append, ink_blank hblank, List.append_nil] at h
  exact h.symm

theorem head_trimLeft {t : Text} {c : Char} (h : (trimLeft t).head? = some c) :
    isBlank c = false := by
  have hd := List.head?_dropWhile_not isBlank t
  rw [trimLeft] at h
  simpa [h] using hd

theorem trimLeft_eq_self {t : Text} (h : ∀ c, t.head? = some c → isBlank c = false) :
    trimLeft t = t := by
  cases t with
  | nil => rfl
  | cons c r => simp [trimLeft, h c rfl]

theorem trimRight_eq (t : Text) : trimRight t = (trimLeft t.reverse).reverse := rfl

theorem last_trimRight {t : Text} {c : Char} (h : (trimRight t).getLast? = some c) :
    isBlank c = false := by
  rw [trimRight_eq, List.getLast?_reverse] at h
  exact head_trimLeft h

theorem trimRight_eq_self {t : Text} (h : ∀ c, t.getLast? = some c → isBlank c = false) :
    trimRight t = t := by
  rw [trimRight_eq, trimLeft_eq_self, List.reverse_reverse]
  intro c hc
  exact h c (by rw [← hc, List.head?_reverse])

theorem head_trim {t : Text} {c : Char} (h : (trim t).head? = some c) : isBlank c = false := by
  obtain ⟨b, hb, -⟩ := trimRight_append (trimLeft t)
  apply head_trimLeft (t := t)
  rw [trim] at h
  rw [hb, List.head?_append, h, Option.some_or]

theorem last_trim {t : Text} {c : Char} (h : (trim t).getLast? = some c) : isBlank c = false :=
  last_trimRight h

theorem trim_eq_self {t : Text} (hh : ∀ c, t.head? = some c → isBlank c = false)
    (hl : ∀ c, t.getLast? = some c → isBlank c = false) : trim t = t := by
  rw [trim, trimLeft_eq_self hh, trimRight_eq_self hl]

@[simp] theorem trim_trim (t : Text) : trim (trim t) = trim t :=
  trim_eq_self (fun _ => head_trim) fun _ => last_trim

theorem trim_append {a : Text} (ha : trim a = a) (hne : a ≠ []) (b : Text) :
    trim (a ++ b) = a ++ trimRight b := by
  have hl : trimLeft (a ++ b) = a ++ b := by
    apply trimLeft_eq_self
    intro c hc
    cases a with
    | nil => exact absurd rfl hne
    | cons d a => exact head_trim (t := d :: a) (by rw [ha]; exact hc)
  have hr : a.reverse.dropWhile isBlank = a.reverse := by
    have h := trimLeft_eq_self (t := a.reverse) fun c hc =>
      last_trim (t := a) (by rw [ha, ← hc, List.head?_reverse])
    exact h
  rw [trim, hl, trimRight, trimRight, List.reverse_append, List.dropWhile_append, hr]
  split
  · next he => simp [List.isEmpty_iff.mp he]
  · simp

@[simp] theorem ink_trim (t : Text) : ink (trim t) = ink t := by simp [trim]

theorem isBlankLine_of_trim {t : Text} (h : trim t = []) : isBlankLine t = true := by
  obtain ⟨b, hb, hblank⟩ := trimRight_append (trimLeft t)
  rw [trim] at h
  rw [h, List.nil_append] at hb
  rw [← indentOf_append_trimLeft t, hb]
  simp only [isBlankLine, List.all_append, Bool.and_eq_true] at hblank ⊢
  exact ⟨List.all_takeWhile, hblank⟩

theorem ink_at {t : Text} {i : Nat} {c : Char} (h : t[i]? = some c) :
    ink t = ink (t.take i) ++ ink [c] ++ ink (t.drop (i + 1)) := by
  obtain ⟨hlt, hget⟩ := List.getElem?_eq_some_iff.mp h
  have ht : t = t.take i ++ c :: t.drop (i + 1) := by
    rw [← hget, ← List.drop_eq_getElem_cons hlt, List.take_append_drop]
  conv => lhs; rw [ht]
  rw [ink_append, ink_cons c, List.append_assoc]

theorem trim_blank_append {a : Text} (ha : isBlankLine a = true) (t : Text) :
    trim (a ++ t) = trim t := by
  have hl : trimLeft (a ++ t) = trimLeft t := List.dropWhile_append_of_pos (List.all_eq_true.mp ha)
  rw [trim, hl, trim]

theorem trim_spec (t : Text) : ∃ b, t = indentOf t ++ trim t ++ b ∧ isBlankLine b = true := by
  obtain ⟨b, hb, hblank⟩ := trimRight_append (trimLeft t)
  refine ⟨b, ?_, hblank⟩
  rw [List.append_assoc, trim, ← hb, indentOf_append_trimLeft]

theorem filter_blank {t : Text} (h : isBlankLine t = true) : t.filter (!isBlank ·) = [] := by
  rw [List.filter_eq_nil_iff]
  intro c hc
  simp [List.all_eq_true.mp h c hc]

theorem filter_trim (t : Text) : (trim t).filter (!isBlank ·) = t.filter (!isBlank ·) := by
  obtain ⟨b, ht, hb⟩ := trim_spec t
  conv => rhs; rw [ht, List.filter_append, List.filter_append, filter_blank hb,
    filter_blank (isBlankLine_indentOf t), List.nil_append, List.append_nil]

theorem mem_of_mem_trim {t : Text} {c : Char} (h : c ∈ trim t) : c ∈ t := by
  obtain ⟨b, ht, -⟩ := trim_spec t
  rw [ht]
  simp [h]

theorem trimRight_append_blank (t : Text) {b : Text} (hb : isBlankLine b = true) :
    trimRight (t ++ b) = trimRight t := by
  have hall : ∀ c ∈ b.reverse, isBlank c = true :=
    fun c hc => List.all_eq_true.mp hb c (List.mem_reverse.mp hc)
  rw [trimRight, trimRight, List.reverse_append, List.dropWhile_append_of_pos hall]

theorem trim_blank {b : Text} (hb : isBlankLine b = true) : trim b = [] := by
  have hnil := trim_blank_append hb []
  rw [List.append_nil] at hnil
  exact hnil

theorem trim_append_blank (t : Text) {b : Text} (hb : isBlankLine b = true) :
    trim (t ++ b) = trim t := by
  cases ht : isBlankLine t with
  | true => rw [trim_blank_append ht, trim_blank hb, trim_blank ht]
  | false =>
    have hleft : trimLeft (t ++ b) = trimLeft t ++ b := by
      rw [trimLeft, List.dropWhile_append, if_neg]
      · rfl
      · intro he
        have hnil : trimLeft t = [] := List.isEmpty_iff.mp he
        rw [isBlankLine_of_trim (by rw [trim, hnil]; rfl)] at ht
        cases ht
    rw [trim, hleft, trimRight_append_blank _ hb, trim]

theorem trimRight_append_of_last {t u : Text} (hu : u ≠ [])
    (hl : ∀ c, u.getLast? = some c → isBlank c = false) :
    trimRight (t ++ u) = t ++ u := by
  apply trimRight_eq_self
  intro c hc
  apply hl c
  rw [List.getLast?_append] at hc
  cases h : u.getLast? with
  | none => exact absurd (List.getLast?_eq_none_iff.mp h) hu
  | some d => rwa [h, Option.some_or] at hc

theorem trimRight_append_shown (t : Text) {u : Text} (hu : isBlankLine u = false) :
    trimRight (t ++ u) = t ++ trimRight u := by
  obtain ⟨b, hb, hblank⟩ := trimRight_append u
  have hne : trimRight u ≠ [] := by
    intro hnil
    rw [hnil, List.nil_append] at hb
    rw [hb, hblank] at hu
    cases hu
  have hwhole : trimRight (t ++ u) = trimRight (t ++ trimRight u ++ b) := by
    rw [List.append_assoc, ← hb]
  rw [hwhole, trimRight_append_blank _ hblank, trimRight_append_of_last hne fun _ => last_trimRight]

theorem isBlankLine_of_mem {t : Text} {c : Char} (h : c ∈ t) (hc : isBlank c = false) :
    isBlankLine t = false := by
  rw [Bool.eq_false_iff]
  intro hb
  rw [List.all_eq_true.mp hb c h] at hc
  cases hc

theorem trim_ne_nil_of_mem {t : Text} {c : Char} (h : c ∈ t) (hc : isBlank c = false) :
    trim t ≠ [] := by
  intro hnil
  have hblank := isBlankLine_of_trim hnil
  rw [isBlankLine_of_mem h hc] at hblank
  cases hblank

/-- A first line that shows something is the first that is not blank. -/
theorem nonblank_of_head {ls : List Text} (h : trim (ls.headD []) ≠ []) :
    ∃ r, ls.filter (!isBlankLine ·) = ls.headD [] :: r := by
  cases ls with
  | nil => exact absurd rfl h
  | cons l r =>
    have hb : isBlankLine l = false := by
      rw [Bool.eq_false_iff]
      intro hb
      have hnil := trim_blank_append hb []
      rw [List.append_nil] at hnil
      exact h hnil
    exact ⟨_, List.filter_cons_of_pos (by simp [hb])⟩

@[simp] theorem ink_padTo (width : Nat) (t : Text) : ink (padTo width ' ' t) = ink t := by
  simp [padTo, ink_blank (isBlankLine_replicate_space _)]

theorem isBlankLine_append {a b : Text} (ha : isBlankLine a = true) (hb : isBlankLine b = true) :
    isBlankLine (a ++ b) = true := by
  rw [isBlankLine, List.all_append, ← isBlankLine, ← isBlankLine, ha, hb]
  rfl

theorem isBlankLine_unit (cfg : Settings) : isBlankLine cfg.indentUnit = true := by
  unfold Settings.indentUnit
  split
  · rfl
  · exact isBlankLine_replicate_space _

@[simp] theorem ink_indentUnit (cfg : Settings) : ink cfg.indentUnit = [] :=
  ink_blank (isBlankLine_unit cfg)

@[simp] theorem ink_cell (col : NameColumn) (name : Text) (optional : Bool)
    (h : optional = true → col.hasOptional = true) :
    ink (col.cell name optional) = ink name ++ if optional then ['?'] else [] := by
  unfold NameColumn.cell
  cases optional with
  | false => split <;> simp
  | true => simp [h rfl]

@[simp] theorem ink_openBrace (t : Text) : ink (openBrace t) = ink t ++ ['{'] := by
  unfold openBrace
  cases h : t.getLast? with
  | none => rw [List.getLast?_eq_none_iff.mp h]; rfl
  | some c => simp only; split <;> simp

@[simp] theorem ink_afterBrace (t : Text) : ink (afterBrace t) = ink t := by
  unfold afterBrace
  cases t with
  | nil => rfl
  | cons c t => simp only [List.head?_cons]; split <;> simp

/-- The ink of the pieces between separators is the ink of the whole. -/
theorem flatten_splitWhen {α : Type} (p : α → Bool) (l : List α) :
    (splitWhen p l).flatten = l.filter (!p ·) := by
  induction l with
  | nil => rfl
  | cons a l ih =>
    unfold splitWhen
    cases hp : p a with
    | true => simpa [hp] using ih
    | false =>
      cases hs : splitWhen p l with
      | nil => rw [hs] at ih; simp [hp, ← ih]
      | cons q qs => rw [hs] at ih; simp [hp, ← ih]

theorem ink_intercalate_space (ls : List Text) : ink ([' '].intercalate ls) = ink ls.flatten := by
  induction ls with
  | nil => rfl
  | cons l ls ih =>
    cases ls with
    | nil => simp [List.intercalate]
    | cons k ls =>
      have h : [' '].intercalate (l :: k :: ls) = l ++ ' ' :: [' '].intercalate (k :: ls) := by
        simp [List.intercalate]
      rw [h]
      simp [ih]

theorem ink_flatten (ls : List Text) : ink ls.flatten = (ls.map ink).flatten :=
  List.filter_flatten ..

theorem ink_flatMap {α : Type} {l : List α} {f : α → List Text} {g : α → Text}
    (h : ∀ a ∈ l, ink (f a).flatten = g a) : ink (l.flatMap f).flatten = (l.map g).flatten := by
  induction l with
  | nil => rfl
  | cons a l ih =>
    have ha := h a List.mem_cons_self
    have hl := ih fun b hb => h b (List.mem_cons_of_mem _ hb)
    simp [ha, hl]

theorem ink_flatten_map {f : Text → Text} {ls : List Text} (h : ∀ l ∈ ls, ink (f l) = ink l) :
    ink (ls.map f).flatten = ink ls.flatten := by
  rw [ink_flatten, ink_flatten, List.map_map]
  congr 1
  exact List.map_congr_left h

@[simp] theorem ink_flatten_nonblank (ls : List Text) :
    ink (ls.filter (!isBlankLine ·)).flatten = ink ls.flatten :=
  ink_flatten_filter ls _ fun l _ hl => ink_blank (by simpa using hl)

/-- Lines without the blank ones, each with another indentation, have the same ink. -/
theorem ink_reindent {indent : Text} (h : ink indent = []) (ls : List Text) :
    ink ((ls.filter (!isBlankLine ·)).map fun l => indent ++ trim l).flatten = ink ls.flatten := by
  rw [ink_flatten_map (by simp [h]), ink_flatten_nonblank]

end SourceLayout.Text
