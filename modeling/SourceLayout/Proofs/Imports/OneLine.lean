import SourceLayout.Import.Statement
import SourceLayout.Proofs.Ink
import SourceLayout.Proofs.Lines

/-! Statements on one line. Line breaks, with the blanks around them, become spaces; what stands
between them stays as it is, and the blanks at the ends of a text do not matter. -/

namespace SourceLayout
open Text

namespace Text

theorem joinWrapped_go_blank {w : Text} (hw : isBlankLine w = true) (run y : Text) :
    joinWrapped.go run (w ++ y) = joinWrapped.go (w.reverse ++ run) y := by
  induction w generalizing run with
  | nil => rfl
  | cons c w ih =>
    simp only [isBlankLine, List.all_cons, Bool.and_eq_true] at hw
    rw [List.cons_append, joinWrapped.go, if_pos hw.1, ih hw.2]
    simp

/-- Behind a character that is not blank, joining begins anew. -/
theorem joinWrapped_go_append {x : Text} {c : Char} (hx : x.getLast? = some c)
    (hc : isBlank c = false) (run y : Text) :
    joinWrapped.go run (x ++ y) = joinWrapped.go run x ++ joinWrapped y := by
  induction x generalizing run with
  | nil => cases hx
  | cons d r ih =>
    cases hr : r with
    | nil =>
      subst hr
      obtain rfl : d = c := by simpa using hx
      simp [joinWrapped.go, hc, joinWrapped.release, joinWrapped]
    | cons e r' =>
      have hlast : r.getLast? = some c := by
        rw [List.getLast?_cons, hr, List.getLast?_cons] at hx
        rw [hr, List.getLast?_cons]
        exact hx
      rw [← hr, List.cons_append, joinWrapped.go, joinWrapped.go]
      split
      · exact ih hlast _
      · rw [ih hlast]
        simp

theorem joinWrapped_go_line {l : Text} (h : '\n' ∉ l) {run : Text} (hrun : '\n' ∉ run) :
    joinWrapped.go run l = run.reverse ++ l := by
  induction l generalizing run with
  | nil => simp [joinWrapped.go, joinWrapped.release, hrun]
  | cons c l ih =>
    have hl : '\n' ∉ l := fun hmem => h (List.mem_cons_of_mem _ hmem)
    have hc : '\n' ≠ c := fun heq => h (heq ▸ List.mem_cons_self)
    rw [joinWrapped.go]
    split
    · rw [ih hl (by simp [hc, hrun])]
      simp
    · rw [ih hl (by simp)]
      simp [joinWrapped.release, hrun]

/-- A line stays as it is. -/
theorem joinWrapped_line {l : Text} (h : '\n' ∉ l) : joinWrapped l = l :=
  joinWrapped_go_line h List.not_mem_nil

theorem not_mem_joinWrapped (t : Text) : '\n' ∉ joinWrapped t := by
  have hrelease (run : Text) : '\n' ∉ joinWrapped.release run := by
    unfold joinWrapped.release
    split
    · decide
    · next h => simpa using h
  have hgo (run : Text) : '\n' ∉ joinWrapped.go run t := by
    induction t generalizing run with
    | nil => exact hrelease run
    | cons c t ih =>
      rw [joinWrapped.go]
      split
      · exact ih _
      · next hc =>
        have hne : '\n' ≠ c := by
          rintro rfl
          exact hc rfl
        simp [hrelease run, hne, ih]
  exact hgo []

theorem isBlankLine_release {run : Text} (h : isBlankLine run = true) :
    isBlankLine (joinWrapped.release run) = true := by
  unfold joinWrapped.release
  split
  · rfl
  · simpa [isBlankLine] using h

theorem isBlankLine_reverse {a : Text} (h : isBlankLine a = true) :
    isBlankLine a.reverse = true := by
  simpa [isBlankLine] using h

theorem joinWrapped_cons {c : Char} (hc : isBlank c = false) (r : Text) :
    joinWrapped (c :: r) = c :: joinWrapped r := by
  simp [joinWrapped, joinWrapped.go, hc, joinWrapped.release]

/-- Blanks before a text are joined on their own. -/
theorem joinWrapped_blank_append {a x : Text} (ha : isBlankLine a = true) {c : Char}
    (hx : x.head? = some c) (hc : isBlank c = false) :
    joinWrapped (a ++ x) = joinWrapped.release a.reverse ++ joinWrapped x := by
  obtain ⟨r, rfl⟩ := List.head?_eq_some_iff.mp hx
  rw [joinWrapped, joinWrapped_go_blank ha, List.append_nil, joinWrapped.go, hc,
    joinWrapped_cons hc]
  rfl

theorem joinWrapped_blank {b : Text} (hb : isBlankLine b = true) :
    isBlankLine (joinWrapped b) = true := by
  have hgo := joinWrapped_go_blank hb [] []
  rw [List.append_nil, List.append_nil, joinWrapped.go] at hgo
  rw [joinWrapped, hgo]
  exact isBlankLine_release (isBlankLine_reverse hb)

theorem getLast?_joinWrapped {x : Text} {c : Char} (hx : x.getLast? = some c)
    (hc : isBlank c = false) : (joinWrapped x).getLast? = some c := by
  obtain ⟨u, rfl⟩ := List.getLast?_eq_some_iff.mp hx
  have hgo (run : Text) : (joinWrapped.go run (u ++ [c])).getLast? = some c := by
    induction u generalizing run with
    | nil => simp [joinWrapped.go, hc, joinWrapped.release]
    | cons d u ih =>
      rw [List.cons_append, joinWrapped.go]
      split
      · exact ih (by simp) _
      · rw [List.getLast?_append, List.getLast?_cons, ih (by simp)]
        rfl
  exact hgo []

theorem exists_ends_of_trim {x : Text} (h : trim x = x) (hne : x ≠ []) :
    ∃ c d, x.head? = some c ∧ isBlank c = false ∧ x.getLast? = some d ∧ isBlank d = false := by
  obtain ⟨c, hc⟩ := Option.isSome_iff_exists.mp (List.isSome_head?.mpr hne)
  obtain ⟨d, hd⟩ := Option.isSome_iff_exists.mp (List.getLast?_isSome.mpr hne)
  exact ⟨c, d, hc, head_trim (h.symm ▸ hc), hd, last_trim (h.symm ▸ hd)⟩

end Text

namespace Statement

/-- On one line a text has no blanks at its ends if it had none. -/
theorem flatten_trimmed {x : Text} (h : trim x = x) : flatten x = joinWrapped x := by
  by_cases hne : x = []
  · subst hne
    rfl
  · obtain ⟨c, d, hc, hcb, hd, hdb⟩ := exists_ends_of_trim h hne
    obtain ⟨r, rfl⟩ := List.head?_eq_some_iff.mp hc
    refine trim_eq_self (fun k hk => ?_) fun k hk => ?_
    · rw [joinWrapped_cons hcb] at hk
      cases hk
      exact hcb
    · rw [getLast?_joinWrapped hd hdb] at hk
      cases hk
      exact hdb

/-- Blanks at the ends of a text do not matter. -/
theorem flatten_trim (t : Text) : flatten (trim t) = flatten t := by
  obtain ⟨b, ht, hb⟩ := trim_spec t
  by_cases hne : trim t = []
  · have hblank := isBlankLine_of_trim hne
    rw [hne, flatten, flatten, trim_blank (joinWrapped_blank hblank)]
    rfl
  · obtain ⟨c, d, hc, hcb, hd, hdb⟩ := exists_ends_of_trim (trim_trim t) hne
    have hhead : (trim t ++ b).head? = some c := by rw [List.head?_append, hc]; rfl
    have hjoin : joinWrapped t =
        joinWrapped.release (indentOf t).reverse ++ (joinWrapped (trim t) ++ joinWrapped b) := by
      conv => lhs; rw [ht, List.append_assoc]
      rw [joinWrapped_blank_append (isBlankLine_indentOf t) hhead hcb, joinWrapped,
        joinWrapped_go_append hd hdb]
      rfl
    rw [flatten, flatten, hjoin,
      trim_blank_append (isBlankLine_release (isBlankLine_reverse (isBlankLine_indentOf t))),
      trim_append_blank _ (joinWrapped_blank hb)]

/-- A line break, with the blanks around it, becomes a space. -/
theorem flatten_append_newline {l y : Text} (hl : trim l ≠ []) (hn : '\n' ∉ l) (hy : trim y ≠ []) :
    flatten (l ++ '\n' :: y) = trim l ++ ' ' :: flatten y := by
  obtain ⟨b, hlb, hb⟩ := trim_spec l
  obtain ⟨e, hye, he⟩ := trim_spec y
  obtain ⟨c, d, hc, hcb, hd, hdb⟩ := exists_ends_of_trim (trim_trim l) hl
  obtain ⟨c', d', hc', hcb', hd', hdb'⟩ := exists_ends_of_trim (trim_trim y) hy
  -- the blanks around the line break, and the text between the blanks at the ends
  let w := b ++ '\n' :: indentOf y
  let x := trim l ++ (w ++ trim y)
  have hsplit : l ++ '\n' :: y = indentOf l ++ (x ++ e) := by
    conv => lhs; rw [hlb, hye]
    simp [x, w]
  have hw : isBlankLine w = true := by
    have hindent := isBlankLine_indentOf y
    simp only [isBlankLine] at hb hindent
    simp only [w, isBlankLine, List.all_append, List.all_cons, hb, hindent]
    rfl
  have hx : trim x = x := by
    refine trim_eq_self (fun k hk => ?_) fun k hk => ?_
    · rw [List.head?_append, hc] at hk
      cases hk
      exact hcb
    · rw [List.getLast?_append, List.getLast?_append, hd'] at hk
      cases hk
      exact hdb'
  have hline : '\n' ∉ trim l := fun hmem => hn (by rw [hlb]; simp [hmem])
  have hspace : joinWrapped.release w.reverse = [' '] := by
    have hmem : '\n' ∈ w.reverse := by simp [w]
    rw [joinWrapped.release, if_pos (List.contains_iff_mem.mpr hmem)]
  calc flatten (l ++ '\n' :: y)
      = flatten (trim x) := by
        rw [← flatten_trim, hsplit, trim_blank_append (isBlankLine_indentOf l),
          trim_append_blank _ he]
    _ = joinWrapped (trim l) ++ joinWrapped (w ++ trim y) := by
        rw [hx, flatten_trimmed hx, joinWrapped, joinWrapped_go_append hd hdb]
        rfl
    _ = trim l ++ ' ' :: flatten y := by
        rw [joinWrapped_line hline, joinWrapped_blank_append hw hc' hcb', hspace, ← flatten_trim y,
          flatten_trimmed (trim_trim y)]
        rfl

/-- Lines that show something are joined by spaces, without the blanks at their ends. -/
theorem flatten_unlines {ls : List Text} (h : ∀ l ∈ ls, trim l ≠ [] ∧ '\n' ∉ l) :
    flatten (unlines ls) = [' '].intercalate (ls.map trim) := by
  induction ls with
  | nil => rfl
  | cons l r ih =>
    obtain ⟨⟨hl, hn⟩, hr⟩ := List.forall_mem_cons.mp h
    cases r with
    | nil =>
      rw [unlines, joinLines_singleton, List.map_singleton, intercalate_singleton, ← flatten_trim,
        flatten_trimmed (trim_trim l)]
      exact joinWrapped_line fun hmem => hn (mem_of_mem_trim hmem)
    | cons k r =>
      have hjoin : unlines (l :: k :: r) = l ++ '\n' :: unlines (k :: r) := joinLines_cons_cons ..
      have hshown : trim (unlines (k :: r)) ≠ [] := by
        obtain ⟨c, -, hc, hcb, -, -⟩ :=
          exists_ends_of_trim (trim_trim k) (hr k List.mem_cons_self).1
        have hmem : c ∈ unlines (k :: r) := by
          have hk := mem_of_mem_trim (List.mem_of_mem_head? hc)
          cases r with
          | nil => simpa [unlines] using hk
          | cons m r => simp [unlines, joinLines_cons_cons, hk]
        exact trim_ne_nil_of_mem hmem hcb
      rw [hjoin, flatten_append_newline hl hn hshown, ih hr]
      exact (intercalate_cons_cons [' '] (trim l) (trim k) (r.map trim)).symm

end Statement

end SourceLayout
