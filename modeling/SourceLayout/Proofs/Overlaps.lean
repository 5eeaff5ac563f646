import SourceLayout.Proofs.Splice

/-! Edits that may overlap. In their order each edit is applied unless it begins inside one that was
applied before; so the applied edits have no line in common, each edit that is left out has one in
common with an edit in front of it, and the lines are those of the applied edits, line by line. -/

namespace SourceLayout.Edit

def appliedFrom (cursor : Int) : List Edit → List Edit
  | [] => []
  | e :: r => if e.first < cursor then appliedFrom cursor r else e :: appliedFrom (e.last + 1) r

def applied (es : List Edit) : List Edit := appliedFrom 0 (es.mergeSort le)

def dropped (es : List Edit) : List Edit := droppedFrom 0 (es.mergeSort le)

/-- Two edits with a common line. -/
def Overlaps (a b : Edit) : Prop := ∃ i, a.covers i = true ∧ b.covers i = true

/-! ## From a line on -/

theorem perm_appliedFrom (cursor : Int) (es : List Edit) :
    es.Perm (appliedFrom cursor es ++ droppedFrom cursor es) := by
  induction es generalizing cursor with
  | nil => exact .nil
  | cons e r ih =>
    rw [appliedFrom, droppedFrom]
    split
    · exact ((ih cursor).cons e).trans List.perm_middle.symm
    · exact (ih (e.last + 1)).cons e

/-- What is left out leaves no trace. -/
theorem applyFrom_appliedFrom (ls : List Text) (cursor : Int) (es : List Edit) :
    applyFrom ls cursor (appliedFrom cursor es) = applyFrom ls cursor es := by
  induction es generalizing cursor with
  | nil => rfl
  | cons e r ih =>
    rw [appliedFrom]
    split
    · next hbefore => rw [ih, applyFrom, if_pos hbefore]
    · next hafter => rw [applyFrom, if_neg hafter, ih, applyFrom, if_neg hafter]

/-- Each applied edit begins behind the cursor, and behind the one before it. -/
theorem appliedFrom_ordered {cursor : Int} {es : List Edit} (h : ∀ e ∈ es, e.first ≤ e.last) :
    (∀ e ∈ appliedFrom cursor es, cursor ≤ e.first) ∧
      (appliedFrom cursor es).Pairwise fun a b => a.last < b.first := by
  induction es generalizing cursor with
  | nil => exact ⟨by simp [appliedFrom], .nil⟩
  | cons e r ih =>
    obtain ⟨he, hr⟩ := List.forall_mem_cons.mp h
    rw [appliedFrom]
    split
    · exact ih hr
    · next hafter =>
      obtain ⟨hbegin, hordered⟩ := @ih (e.last + 1) hr
      refine ⟨List.forall_mem_cons.mpr ⟨by omega, fun d hd => ?_⟩,
        List.pairwise_cons.mpr ⟨fun d hd => ?_, hordered⟩⟩
      · have := hbegin d hd
        omega
      · have := hbegin d hd
        omega

/-- An edit is left out because it begins before the cursor or inside an edit that is
applied in front of it. -/
theorem droppedFrom_overlaps {cursor : Int} {es : List Edit}
    (h : ∀ e ∈ es, 0 ≤ e.first ∧ e.first ≤ e.last) (ho : es.Pairwise fun a b => le a b = true)
    {d : Edit} (hd : d ∈ droppedFrom cursor es) :
    d.first < cursor ∨ ∃ a ∈ appliedFrom cursor es, a.Overlaps d ∧ le a d = true := by
  induction es generalizing cursor with
  | nil => cases hd
  | cons e r ih =>
    obtain ⟨he, hr⟩ := List.forall_mem_cons.mp h
    obtain ⟨hle, hor⟩ := List.pairwise_cons.mp ho
    rw [droppedFrom] at hd
    rw [appliedFrom]
    split at hd
    · next hbefore =>
      rw [if_pos hbefore]
      rcases List.mem_cons.mp hd with rfl | hd
      · exact .inl hbefore
      · exact ih hr hor hd
    · next hafter =>
      rw [if_neg hafter]
      right
      rcases ih hr hor hd with hinside | ⟨a, ha, hover⟩
      · -- the first line of `d` is one of `e`
        have hmem : d ∈ r := (perm_appliedFrom (e.last + 1) r).mem_iff.mpr
          (List.mem_append_right _ hd)
        have hed := hle d hmem
        have hfirst : e.first ≤ d.first := by
          simp only [le, Bool.or_eq_true, Bool.and_eq_true, decide_eq_true_eq, beq_iff_eq] at hed
          omega
        have hwithin := hr d hmem
        refine ⟨e, List.mem_cons_self, ⟨d.first.toNat, ?_, ?_⟩, hed⟩
        · rw [covers_iff]
          omega
        · rw [covers_iff]
          omega
      · exact ⟨a, List.mem_cons_of_mem _ ha, hover⟩

/-! ## All edits -/

theorem perm_applied (es : List Edit) : es.Perm (applied es ++ dropped es) :=
  (List.mergeSort_perm es le).symm.trans (perm_appliedFrom 0 _)

theorem mem_of_mem_applied {es : List Edit} {e : Edit} (h : e ∈ applied es) : e ∈ es :=
  (perm_applied es).mem_iff.mpr (List.mem_append_left _ h)

theorem applied_ordered {es : List Edit} {n : Nat} (hw : ∀ e ∈ es, e.Within n) :
    (applied es).Pairwise fun a b => a.last < b.first :=
  (appliedFrom_ordered fun e he => (hw e (List.mem_mergeSort.mp he)).2.1).2

theorem applied_disjoint {es : List Edit} {n : Nat} (hw : ∀ e ∈ es, e.Within n) :
    (applied es).Pairwise Disjoint :=
  (applied_ordered hw).imp fun h => .inl h

theorem dropped_overlaps {es : List Edit} {n : Nat} (hw : ∀ e ∈ es, e.Within n) {d : Edit}
    (hd : d ∈ dropped es) : ∃ a ∈ applied es, a.Overlaps d ∧ le a d = true := by
  have hwithin : ∀ e ∈ es.mergeSort le, 0 ≤ e.first ∧ e.first ≤ e.last := fun e he =>
    have hin := hw e (List.mem_mergeSort.mp he)
    ⟨hin.1, hin.2.1⟩
  rcases droppedFrom_overlaps hwithin (List.pairwise_mergeSort le_trans le_total es) hd
    with hbefore | hover
  · have hmem : d ∈ es := (perm_applied es).mem_iff.mpr (List.mem_append_right _ hd)
    have := (hw d hmem).1
    omega
  · exact hover

/-- The lines are those that the applied edits leave, line by line. -/
theorem applyAll_applied {ls : List Text} {es : List Edit} (hw : ∀ e ∈ es, e.Within ls.length) :
    applyAll ls es = (List.range ls.length).flatMap (becomes ls (applied es)) := by
  have hw' : ∀ e ∈ applied es, e.Within ls.length := fun e he => hw e (mem_of_mem_applied he)
  have hlines := applyFrom_sorted 0 (applied_ordered hw) hw' (fun e he => (hw' e he).1)
    (Nat.zero_le _)
  rw [applyAll, ← applyFrom_appliedFrom, List.range_eq_range']
  exact hlines

theorem applied_perm {es : List Edit} {n : Nat} (hd : es.Pairwise Disjoint)
    (hw : ∀ e ∈ es, e.Within n) : (applied es).Perm es := by
  have hperm := perm_applied es
  rw [dropped, droppedFrom_eq_nil hd hw, List.append_nil] at hperm
  exact hperm.symm

/-- Edits are spliced in exactly. Those that are applied have no line in common, and each one that
is left out has a line in common with an applied one that sorts no later; the first line of each
applied range becomes the new lines, its other lines go, and every line outside these ranges is
kept once and in its place. If no two of the edits have a line in common all are applied, and
their order does not matter. -/
theorem applyAll_exact {ls : List Text} {es : List Edit} (hw : ∀ e ∈ es, e.Within ls.length) :
    es.Perm (applied es ++ dropped es) ∧
    (applied es).Pairwise Disjoint ∧
    (∀ d ∈ dropped es, ∃ a ∈ applied es, a.Overlaps d ∧ le a d = true) ∧
    applyAll ls es = (List.range ls.length).flatMap (becomes ls (applied es)) ∧
    (es.Pairwise Disjoint →
      (applied es).Perm es ∧ ∀ es', es'.Perm es → applyAll ls es' = applyAll ls es) := by
  refine ⟨perm_applied es, applied_disjoint hw, fun d hd => dropped_overlaps hw hd,
    applyAll_applied hw, ?_⟩
  intro hd
  refine ⟨applied_perm hd hw, fun es' hperm => ?_⟩
  have hd' : es'.Pairwise Disjoint := (hperm.pairwise_iff Disjoint.symm).mpr hd
  rw [applyAll_eq hd hw, applyAll_eq hd' fun e he => hw e (hperm.mem_iff.mp he),
    becomes_perm hperm hd']

/-- Of two edits with the same range the one with the lesser priority is applied; one that is nested
in it and one that reaches over its end are left out, and one that begins right behind it is
applied. These two may also be given the other way round. -/
theorem applyAll_exact_nested :
    let ls : List Text := ["a".toList, "b".toList, "c".toList, "d".toList]
    let kept : Edit := ⟨0, 2, ["x".toList], 1⟩
    let behind : Edit := ⟨3, 3, [], 0⟩
    let es : List Edit := [⟨2, 3, [], 0⟩, behind, ⟨0, 2, ["y".toList], 2⟩, ⟨1, 1, [], 0⟩, kept]
    applied es = [kept, behind] ∧ applyAll ls es = ["x".toList] ∧
      (∀ d ∈ dropped es, ∃ a ∈ [kept, behind], a.Overlaps d ∧ le a d = true) ∧
      applyAll ls [behind, kept] = applyAll ls [kept, behind] := by
  intro ls kept behind es
  have happlied : applied es = [kept, behind] := by
    simp [applied, appliedFrom, List.mergeSort, List.MergeSort.Internal.splitInTwo, le, es, kept,
      behind]
  have hw : ∀ e ∈ es, e.Within ls.length := by
    unfold Within
    decide +kernel
  obtain ⟨-, hdisjoint, hdropped, hlines, -⟩ := applyAll_exact hw
  rw [happlied] at hdisjoint hdropped hlines
  obtain ⟨-, -, -, -, hany⟩ :=
    @applyAll_exact ls [kept, behind] fun e he => hw e (mem_of_mem_applied (happlied ▸ he))
  exact ⟨happlied, hlines, hdropped, (hany hdisjoint).2 _ (.swap kept behind [])⟩

end SourceLayout.Edit
