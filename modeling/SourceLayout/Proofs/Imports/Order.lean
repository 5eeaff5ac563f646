import Mathlib.Data.List.Nodup
import SourceLayout.Proofs.Imports.Partition

/-! The order of the imports in a source. Statements that neither repeat each other nor are
written alike are sorted in one way only, so the printed block is the same for every order in
which they are given. -/

namespace SourceLayout
open Text

namespace Statement

/-- Of statements none of which has been seen and no two of which are the same on one
line, none is dropped. -/
theorem distinctFrom_of_nodup {seen : List Text} {ss : List Statement}
    (hseen : ∀ s ∈ ss, s.normalized ∉ seen) (h : (ss.map normalized).Nodup) :
    distinctFrom seen ss = ss := by
  induction ss generalizing seen with
  | nil => rfl
  | cons s ss ih =>
    obtain ⟨hs, hrest⟩ := List.forall_mem_cons.mp hseen
    rw [List.map_cons, List.nodup_cons] at h
    rw [distinctFrom, if_neg (by simpa using hs), ih ?_ h.2]
    intro a ha hmem
    rcases List.mem_cons.mp hmem with heq | hmem
    · exact h.1 (heq ▸ List.mem_map_of_mem ha)
    · exact hrest a ha hmem

theorem distinct_of_nodup {ss : List Statement} (h : (ss.map normalized).Nodup) :
    distinct ss = ss :=
  distinctFrom_of_nodup (by simp) h

theorem textLe_antisymm {a b : Text} (hab : textLe a b = true) (hba : textLe b a = true) :
    a = b := by
  rw [textLe_iff] at hab hba
  rcases hab with hab | rfl
  · rcases hba with hba | rfl
    · exact absurd hba (List.lt_asymm hab)
    · rfl
  · rfl

/-- Statements no two of which are written alike can be sorted in one way only. -/
theorem sorted_perm {cfg : Settings} {ss ss' : List Statement} (h : ss.Perm ss')
    (hn : (ss.map (rendered cfg)).Nodup) : sorted cfg ss = sorted cfg ss' := by
  have hsorted (l : List Statement) : (l.mergeSort (renderedLe cfg)).Pairwise fun a b =>
      renderedLe cfg a b = true :=
    List.pairwise_mergeSort (renderedLe_trans cfg) (renderedLe_total cfg) l
  have hperm : (ss.mergeSort (renderedLe cfg)).Perm (ss'.mergeSort (renderedLe cfg)) :=
    (List.mergeSort_perm ss _).trans (h.trans (List.mergeSort_perm ss' _).symm)
  rw [sorted_eq, sorted_eq]
  refine hperm.eq_of_pairwise ?_ (hsorted ss) (hsorted ss')
  intro a b ha hb hab hba
  have hb := h.mem_iff.mpr (List.mem_mergeSort.mp hb)
  exact List.inj_on_of_nodup_map hn (List.mem_mergeSort.mp ha) hb (textLe_antisymm hab hba)

end Statement

namespace Grouping

theorem block_perm {cfg : Settings} (g : Group) {ss ss' : List Statement} (h : ss.Perm ss')
    (hn : (ss.map (Statement.rendered cfg)).Nodup) : block cfg g ss = block cfg g ss' := by
  have hempty : ss.isEmpty = ss'.isEmpty := by
    rw [Bool.eq_iff_iff, List.isEmpty_iff, List.isEmpty_iff]
    exact ⟨fun hnil => (hnil ▸ h).nil_eq.symm, fun hnil => (hnil ▸ h).eq_nil⟩
  rw [block, block, hempty, Statement.sorted_perm h hn]

/-- The printed block does not depend on the order of the imports: statements of which no two are
the same on one line and no two are written alike give the same lines in every order. -/
theorem layout_perm {cfg : Settings} {ss ss' : List Statement} (h : ss.Perm ss')
    (hform : (ss.map Statement.normalized).Nodup)
    (hwritten : (ss.map (Statement.rendered cfg)).Nodup) :
    layout cfg ss = layout cfg ss' := by
  have hform' : (ss'.map Statement.normalized).Nodup := (h.map _).nodup_iff.mp hform
  have hmembers (i : Nat) : (members cfg.groups ss i).Perm (members cfg.groups ss' i) := h.filter _
  have hgroup (i : Nat) : ((members cfg.groups ss i).map (Statement.rendered cfg)).Nodup :=
    hwritten.sublist (List.filter_sublist.map _)
  rw [layout, layout, Statement.distinct_of_nodup hform, Statement.distinct_of_nodup hform']
  congr 1
  exact List.map_congr_left fun g _ => block_perm g.1 (hmembers g.2) (hgroup g.2)

/-- Two statements of one group, the second broken into lines, and one of another between them. -/
theorem layout_perm_two_groups :
    let cfg : Settings := {
      columnWidth := 20
      groups := [{ label := "// LOCAL".toList, matchers := ["./".toList] }, Group.other] }
    let z : Statement := { text := "import z from 'z';".toList, trailing := "// last".toList }
    let s : Statement := { text := "import s from './s'".toList, leading := ["// c".toList] }
    let a : Statement := { text := "import { b, a } from 'a';".toList }
    layout cfg [z, s, a] = layout cfg [a, z, s] := by
  intro cfg z s a
  have hrotate : [z, s, a].Perm [a, z, s] := @List.perm_append_comm _ [z, s] [a]
  exact layout_perm hrotate (by decide +kernel) (by decide +kernel)

end Grouping

end SourceLayout
