import SourceLayout.Document.Format

/-! Lines and the texts they are joined to: cutting and joining undo each other, and the end of a
text is the end of its last line. -/

namespace SourceLayout
open Text

namespace Text

theorem intercalate_cons_cons {α : Type} (sep a b : List α) (r : List (List α)) :
    sep.intercalate (a :: b :: r) = a ++ (sep ++ sep.intercalate (b :: r)) := by
  simp [List.intercalate]

theorem intercalate_singleton {α : Type} (sep a : List α) : sep.intercalate [a] = a := by
  simp [List.intercalate]

theorem intercalate_append {α : Type} (sep : List α) {as bs : List (List α)} (ha : as ≠ [])
    (hb : bs ≠ []) :
    sep.intercalate (as ++ bs) = sep.intercalate as ++ (sep ++ sep.intercalate bs) := by
  induction as with
  | nil => exact absurd rfl ha
  | cons a as ih =>
    cases as with
    | nil =>
      cases bs with
      | nil => exact absurd rfl hb
      | cons b bs => rw [intercalate_singleton, List.singleton_append, intercalate_cons_cons]
    | cons a' as =>
      rw [List.cons_append, List.cons_append, intercalate_cons_cons, intercalate_cons_cons,
        ← List.cons_append, ih (List.cons_ne_nil _ _), List.append_assoc, List.append_assoc]

theorem intercalate_concat {α : Type} (sep : List α) {ls : List (List α)} (h : ls ≠ [])
    (a : List α) : sep.intercalate (ls ++ [a]) = sep.intercalate ls ++ (sep ++ a) := by
  rw [intercalate_append sep h (List.cons_ne_nil a []), intercalate_singleton]

theorem concat_eq_append {α : Type} {x a b : List α} {l : α} (h : x ++ [l] = a ++ b) :
    b = [] ∧ a = x ++ [l] ∨ ∃ b', b = b' ++ [l] ∧ x = a ++ b' := by
  cases hb : b.getLast? with
  | none =>
    obtain rfl := List.getLast?_eq_none_iff.mp hb
    exact .inl ⟨rfl, by simpa using h.symm⟩
  | some k =>
    obtain ⟨b', rfl⟩ := List.getLast?_eq_some_iff.mp hb
    rw [← List.append_assoc] at h
    obtain ⟨hx, hl⟩ := List.append_inj' h rfl
    exact .inr ⟨b', by rw [hl], hx⟩

theorem joinLines_cons_cons (lineBreak a b : Text) (r : List Text) :
    joinLines lineBreak (a :: b :: r) = a ++ (lineBreak ++ joinLines lineBreak (b :: r)) :=
  intercalate_cons_cons ..

@[simp] theorem joinLines_singleton (lineBreak a : Text) : joinLines lineBreak [a] = a :=
  intercalate_singleton ..

theorem joinLines_concat (lineBreak : Text) {ls : List Text} (h : ls ≠ []) (a : Text) :
    joinLines lineBreak (ls ++ [a]) = joinLines lineBreak ls ++ (lineBreak ++ a) :=
  intercalate_concat _ h a

/-- A text ends as its last line does, unless that line is empty. -/
theorem getLast?_joinLines (lineBreak : Text) {ls : List Text} {l : Text} {c : Char}
    (hl : ls.getLast? = some l) (hc : l.getLast? = some c) :
    (joinLines lineBreak ls).getLast? = some c := by
  obtain ⟨r, rfl⟩ := List.getLast?_eq_some_iff.mp hl
  cases r with
  | nil => simpa using hc
  | cons k r =>
    rw [joinLines_concat _ (List.cons_ne_nil _ _), List.getLast?_append, List.getLast?_append, hc]
    rfl

theorem splitWhen_ne_nil {α : Type} (p : α → Bool) (l : List α) : splitWhen p l ≠ [] := by
  cases l with
  | nil => exact List.cons_ne_nil _ _
  | cons a l =>
    unfold splitWhen
    split
    · exact List.cons_ne_nil _ _
    · split <;> exact List.cons_ne_nil _ _

theorem splitWhen_of_none {α : Type} {p : α → Bool} {l : List α} (h : ∀ a ∈ l, p a = false) :
    splitWhen p l = [l] := by
  induction l with
  | nil => rfl
  | cons a l ih =>
    obtain ⟨ha, hl⟩ := List.forall_mem_cons.mp h
    simp [splitWhen, ha, ih hl]

/-- A list is cut at an element that satisfies `p`, whatever stands before and behind it. -/
theorem splitWhen_append_cons {α : Type} {p : α → Bool} (l : List α) {a : α} (ha : p a = true)
    (r : List α) : splitWhen p (l ++ a :: r) = splitWhen p l ++ splitWhen p r := by
  induction l with
  | nil => simp [splitWhen, ha]
  | cons b l ih =>
    rw [List.cons_append, splitWhen, splitWhen, ih]
    split
    · rfl
    · cases hl : splitWhen p l with
      | nil => exact absurd hl (splitWhen_ne_nil p l)
      | cons x xs => rfl

theorem lines_cons (c : Char) (t : Text) :
    ∃ l r, lines t = l :: r ∧ lines (c :: t) = if c = '\n' then
    [] :: l :: r else (c :: l) :: r := by
  cases h : lines t with
  | nil => exact absurd h (splitWhen_ne_nil _ _)
  | cons l r =>
    refine ⟨l, r, rfl, ?_⟩
    rw [lines] at h ⊢
    rw [splitWhen, h]
    by_cases hc : c = '\n'
    · simp [hc]
    · simp [hc]

theorem not_mem_of_mem_lines {t l : Text} (h : l ∈ lines t) : '\n' ∉ l := by
  induction t generalizing l with
  | nil =>
    obtain rfl : l = [] := by simpa [lines, splitWhen] using h
    exact List.not_mem_nil
  | cons c t ih =>
    obtain ⟨k, r, hk, hc⟩ := lines_cons c t
    rw [hc] at h
    rw [hk] at ih
    split at h
    · rcases List.mem_cons.mp h with rfl | h
      · exact List.not_mem_nil
      · exact ih h
    · next hne =>
      rcases List.mem_cons.mp h with rfl | h
      · intro hmem
        rcases List.mem_cons.mp hmem with rfl | hmem
        · exact hne rfl
        · exact ih List.mem_cons_self hmem
      · exact ih (List.mem_cons_of_mem _ h)

theorem lines_of_not_mem {t : Text} (h : '\n' ∉ t) : lines t = [t] :=
  splitWhen_of_none fun _ hc => beq_false_of_ne fun heq => h (heq ▸ hc)

/-- Joining the lines of a text gives the text. -/
theorem unlines_lines (t : Text) : unlines (lines t) = t := by
  induction t with
  | nil => rfl
  | cons c t ih =>
    obtain ⟨k, r, hk, hc⟩ := lines_cons c t
    rw [hk] at ih
    rw [hc]
    split
    · next h =>
      rw [unlines, joinLines_cons_cons, h]
      rw [unlines] at ih
      rw [ih]
      rfl
    · rw [← ih]
      cases r with
      | nil => simp [unlines]
      | cons m r => simp [unlines, joinLines_cons_cons]

theorem subset_of_mem_lines {t l : Text} (h : l ∈ lines t) : l ⊆ t := by
  have hjoin : ∀ ls : List Text, l ∈ ls → l ⊆ unlines ls := by
    intro ls
    induction ls with
    | nil => simp
    | cons k r ih =>
      intro hl
      cases r with
      | nil =>
        rw [List.mem_singleton.mp hl, unlines, joinLines_singleton]
        exact List.Subset.refl _
      | cons m r =>
        rw [unlines, joinLines_cons_cons]
        rcases List.mem_cons.mp hl with rfl | hl
        · exact List.subset_append_left _ _
        · exact List.Subset.trans (List.Subset.trans (ih hl) (List.subset_append_right _ _))
            (List.subset_append_right _ _)
  have hmem := hjoin (lines t) h
  rwa [unlines_lines] at hmem

/-- The last line of a text that does not end in a line feed ends as the text does. -/
theorem getLast?_lines {t : Text} {c : Char} (h : t.getLast? = some c) (hc : c ≠ '\n') :
    ∃ l, (lines t).getLast? = some l ∧ l.getLast? = some c := by
  cases hl : (lines t).getLast? with
  | none => exact absurd (List.getLast?_eq_none_iff.mp hl) (splitWhen_ne_nil _ _)
  | some l =>
    refine ⟨l, rfl, ?_⟩
    cases hd : l.getLast? with
    | some d =>
      have hend := getLast?_joinLines ['\n'] hl hd
      rw [← unlines, unlines_lines, h] at hend
      exact hend.symm
    | none =>
      -- an empty last line leaves a line feed at the end of the text, or no text at all
      obtain rfl : l = [] := List.getLast?_eq_none_iff.mp hd
      obtain ⟨r, hr⟩ := List.getLast?_eq_some_iff.mp hl
      have ht := unlines_lines t
      rw [hr, unlines] at ht
      cases r with
      | nil =>
        rw [List.nil_append, joinLines_singleton] at ht
        simp [← ht] at h
      | cons k r =>
        rw [joinLines_concat _ (List.cons_ne_nil _ _), List.append_nil] at ht
        rw [← ht, List.getLast?_concat] at h
        exact absurd (Option.some.inj h).symm hc

theorem getLast?_lines_of_newline {t : Text} (h : t.getLast? = some '\n') :
    (lines t).getLast? = some [] := by
  cases hl : (lines t).getLast? with
  | none => exact absurd (List.getLast?_eq_none_iff.mp hl) (splitWhen_ne_nil _ _)
  | some l =>
    cases hd : l.getLast? with
    | none => rw [List.getLast?_eq_none_iff.mp hd]
    | some d =>
      have hend := getLast?_joinLines ['\n'] hl hd
      rw [← unlines, unlines_lines, h] at hend
      obtain rfl : '\n' = d := Option.some.inj hend
      exact absurd (List.mem_of_getLast? hd) (not_mem_of_mem_lines (List.mem_of_getLast? hl))

theorem occursIn_iff {w t : Text} : occursIn w t = true ↔ w <:+: t := by
  induction t with
  | nil => simp [occursIn]
  | cons c t ih =>
    rw [occursIn, Bool.or_eq_true, ih, List.isPrefixOf_iff_prefix, List.infix_cons_iff]

end Text

end SourceLayout
