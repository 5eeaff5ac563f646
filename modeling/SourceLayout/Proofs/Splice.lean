import Mathlib.Data.List.Basic
import SourceLayout.Document.Edit

/-! Edits with disjoint ranges. None of them is dropped, their order does not matter, and the lines
outside the ranges stay as and where they are. -/

namespace SourceLayout.Edit

def Disjoint (a b : Edit) : Prop := a.last < b.first ∨ b.last < a.first

/-- An edit that replaces at least one of `n` lines and none beyond them. -/
def Within (n : Nat) (e : Edit) : Prop := 0 ≤ e.first ∧ e.first ≤ e.last ∧ e.last < n

def covers (e : Edit) (i : Nat) : Bool := decide (e.first ≤ i) && decide ((i : Int) ≤ e.last)

theorem covers_iff {e : Edit} {i : Nat} : e.covers i = true ↔ e.first ≤ i ∧ (i : Int) ≤ e.last := by
  simp [covers]

/-- What becomes of line `i`: the first line of a range becomes the new lines, the others nothing,
and a line outside all ranges stays. -/
def becomes (ls : List Text) (es : List Edit) (i : Nat) : List Text :=
  match es.find? (·.covers i) with
  | none => [ls.getD i []]
  | some e => if (i : Int) = e.first then e.lines else []

def droppedFrom (cursor : Int) : List Edit → List Edit
  | [] => []
  | e :: r => if e.first < cursor then e :: droppedFrom cursor r else droppedFrom (e.last + 1) r

/-! ## Edits in order -/

theorem clamp_nat (n k : Nat) : clamp n (k : Int) = min k n := by
  rw [clamp, if_neg (by omega), Int.toNat_natCast]

theorem applyAll_nil (ls : List Text) : applyAll ls [] = ls := by
  simp [applyAll, applyFrom, clamp]

theorem window_eq {ls : List Text} {lo hi : Nat} (hlo : lo ≤ hi) (h : hi ≤ ls.length) :
    window ls lo hi = (ls.take hi).drop lo := by
  rw [window, clamp_nat, clamp_nat, Nat.min_eq_left h, Nat.min_eq_left (by omega)]

theorem map_rows {ls : List Text} {lo n : Nat} (h : lo + n ≤ ls.length) :
    (List.range' lo n).map (fun i => ls.getD i []) = (ls.take (lo + n)).drop lo := by
  induction n generalizing lo with
  | zero => simp
  | succ n ih =>
    have hlt : lo < (ls.take (lo + (n + 1))).length := by
      rw [List.length_take]
      omega
    have hget : ls.getD lo [] = (ls.take (lo + (n + 1)))[lo] := by
      rw [List.getElem_take, List.getD_eq_getElem?_getD, List.getElem?_eq_getElem (by omega),
        Option.getD_some]
    have hrest : (List.range' (lo + 1) n).map (fun i => ls.getD i []) =
        (ls.take (lo + (n + 1))).drop (lo + 1) := by
      rw [ih (by omega), show lo + 1 + n = lo + (n + 1) by omega]
    rw [List.range'_succ, List.map_cons, hrest, hget, ← List.drop_eq_getElem_cons hlt]

/-- Lines that no edit covers are kept. -/
theorem flatMap_becomes_outside {ls : List Text} {es : List Edit} {lo n : Nat}
    (h : lo + n ≤ ls.length) (hout : ∀ i, lo ≤ i → i < lo + n → ∀ e ∈ es, e.covers i = false) :
    (List.range' lo n).flatMap (becomes ls es) = (ls.take (lo + n)).drop lo := by
  rw [← map_rows h, List.map_eq_flatMap]
  refine List.flatMap_congr fun i hi => ?_
  rw [List.mem_range'_1] at hi
  have hnone : es.find? (·.covers i) = none :=
    List.find?_eq_none.mpr fun e he => by simp [hout i hi.1 hi.2 e he]
  simp only [becomes, hnone]

/-- The lines that an edit covers become its new lines. -/
theorem flatMap_becomes_inside {ls : List Text} {e : Edit} {r : List Edit} {lo hi : Nat}
    (hfirst : e.first = lo) (hlast : e.last = hi) (h : lo ≤ hi) :
    (List.range' lo (hi + 1 - lo)).flatMap (becomes ls (e :: r)) = e.lines := by
  have hcover : ∀ i, lo ≤ i → i ≤ hi → becomes ls (e :: r) i = if i = lo then e.lines else [] := by
    intro i hlo hhi
    have hc : e.covers i = true := covers_iff.mpr (by omega)
    simp only [becomes, List.find?_cons, hc, hfirst, Int.natCast_inj]
  have hrest : (List.range' (lo + 1) (hi - lo)).flatMap (becomes ls (e :: r)) = [] := by
    rw [List.flatMap_eq_nil_iff]
    intro i hi
    rw [List.mem_range'_1] at hi
    rw [hcover i (by omega) (by omega), if_neg (by omega)]
  rw [show hi + 1 - lo = (hi - lo) + 1 by omega, List.range'_succ, List.flatMap_cons, hrest,
    hcover lo (Nat.le_refl _) h, if_pos rfl, List.append_nil]

private theorem range'_cut {a b c : Nat} (hab : a ≤ b) (hbc : b ≤ c) :
    List.range' a (c - a) = List.range' a (b - a) ++ List.range' b (c - b) := by
  have h := List.range'_append_1 (s := a) (m := b - a) (n := c - b)
  rw [show a + (b - a) = b by omega, show b - a + (c - b) = c - a by omega] at h
  exact h.symm

/-- Edits in order are all applied, and the lines between them are kept. -/
theorem applyFrom_sorted {ls : List Text} {es : List Edit} (cursor : Nat)
    (ho : es.Pairwise fun a b => a.last < b.first) (hw : ∀ e ∈ es, e.Within ls.length)
    (hc : ∀ e ∈ es, (cursor : Int) ≤ e.first) (hl : cursor ≤ ls.length) :
    applyFrom ls cursor es = (List.range' cursor (ls.length - cursor)).flatMap (becomes ls es) := by
  induction es generalizing cursor with
  | nil =>
    rw [flatMap_becomes_outside (by omega) (by simp), show cursor + (ls.length - cursor) =
      ls.length by omega, List.take_length, applyFrom, clamp_nat, Nat.min_eq_left hl]
  | cons e r ih =>
    obtain ⟨hfirst, hle, hlast⟩ := hw e List.mem_cons_self
    have hcursor := hc e List.mem_cons_self
    obtain ⟨hafter, hor⟩ := List.pairwise_cons.mp ho
    obtain ⟨lo, hlo⟩ := Int.eq_ofNat_of_zero_le hfirst
    obtain ⟨hi, hhi⟩ := Int.eq_ofNat_of_zero_le (Int.le_trans hfirst hle)
    -- the lines before the edit, those it replaces, and those after it
    have hrange : List.range' cursor (ls.length - cursor) =
        List.range' cursor (lo - cursor) ++
          (List.range' lo (hi + 1 - lo) ++ List.range' (hi + 1) (ls.length - (hi + 1))) := by
      rw [range'_cut (b := lo) (by omega) (by omega),
        range'_cut (a := lo) (b := hi + 1) (by omega) (by omega)]
    have hbefore : (List.range' cursor (lo - cursor)).flatMap (becomes ls (e :: r)) =
        (ls.take lo).drop cursor := by
      rw [flatMap_becomes_outside (by omega), show cursor + (lo - cursor) = lo by omega]
      intro i _ hi d hd
      rw [Bool.eq_false_iff, ne_eq, covers_iff]
      rcases List.mem_cons.mp hd with rfl | hd
      · omega
      · have := hafter d hd
        omega
    have hrest : (List.range' (hi + 1) (ls.length - (hi + 1))).flatMap (becomes ls (e :: r)) =
        applyFrom ls (e.last + 1) r := by
      rw [hhi, show ((hi : Int) + 1) = ((hi + 1 : Nat) : Int) by omega,
        ih _ hor (fun d hd => hw d (List.mem_cons_of_mem _ hd))
          (fun d hd => by have := hafter d hd; omega) (by omega)]
      refine List.flatMap_congr fun i hmem => ?_
      rw [List.mem_range'_1] at hmem
      have hnot : e.covers i = false := by
        rw [Bool.eq_false_iff, ne_eq, covers_iff]
        omega
      simp only [becomes, List.find?_cons, hnot]
    rw [applyFrom, if_neg (by omega), hrange, List.flatMap_append, List.flatMap_append, hbefore,
      hrest, flatMap_becomes_inside hlo hhi (by omega), hlo, window_eq (by omega) (by omega),
      List.append_assoc]

theorem droppedFrom_sorted {es : List Edit} {cursor : Int}
    (ho : es.Pairwise fun a b => a.last < b.first) (hc : ∀ e ∈ es, cursor ≤ e.first) :
    droppedFrom cursor es = [] := by
  induction es generalizing cursor with
  | nil => rfl
  | cons e r ih =>
    obtain ⟨hafter, hor⟩ := List.pairwise_cons.mp ho
    have hcursor := hc e List.mem_cons_self
    rw [droppedFrom, if_neg (by omega)]
    exact ih hor fun d hd => by have := hafter d hd; omega

/-! ## Edits in any order -/

theorem Disjoint.symm {a b : Edit} (h : Disjoint a b) : Disjoint b a := Or.symm h

private theorem eq_of_covers {es : List Edit} (hd : es.Pairwise Disjoint) {a b : Edit} {i : Nat}
    (ha : a ∈ es) (hb : b ∈ es) (hca : a.covers i = true) (hcb : b.covers i = true) : a = b := by
  have hnot : ∀ {x y : Edit}, x.covers i = true → y.covers i = true → ¬Disjoint x y := by
    intro x y hx hy hxy
    rw [covers_iff] at hx hy
    rcases hxy with h | h <;> omega
  induction es with
  | nil => cases ha
  | cons e r ih =>
    obtain ⟨he, hr⟩ := List.pairwise_cons.mp hd
    rcases List.mem_cons.mp ha with rfl | har
    · rcases List.mem_cons.mp hb with rfl | hbr
      · rfl
      · exact absurd (he b hbr) (hnot hca hcb)
    · rcases List.mem_cons.mp hb with rfl | hbr
      · exact absurd (he a har) (hnot hcb hca)
      · exact ih hr har hbr

theorem becomes_perm {es es' : List Edit} (hp : es.Perm es') (hd : es.Pairwise Disjoint)
    (ls : List Text) : becomes ls es = becomes ls es' := by
  funext i
  have hfind : es.find? (·.covers i) = es'.find? (·.covers i) := by
    cases h : es.find? (·.covers i) with
    | none =>
      rw [List.find?_eq_none] at h
      exact (List.find?_eq_none.mpr fun e he => h e (hp.mem_iff.mpr he)).symm
    | some e =>
      have he := List.mem_of_find?_eq_some h
      have hc := List.find?_some h
      cases h' : es'.find? (·.covers i) with
      | none => exact absurd hc (List.find?_eq_none.mp h' e (hp.mem_iff.mp he))
      | some e' =>
        have he' := hp.mem_iff.mpr (List.mem_of_find?_eq_some h')
        have hc' := List.find?_some h'
        rw [eq_of_covers hd he he' hc hc']
  simp only [becomes, hfind]

theorem le_trans (a b c : Edit) (hab : le a b = true) (hbc : le b c = true) : le a c = true := by
  simp only [le, Bool.or_eq_true, Bool.and_eq_true, decide_eq_true_eq, beq_iff_eq] at hab hbc ⊢
  omega

theorem le_total (a b : Edit) : (le a b || le b a) = true := by
  simp only [le, Bool.or_eq_true, Bool.and_eq_true, decide_eq_true_eq, beq_iff_eq]
  omega

theorem mergeSort_sorted {es : List Edit} {n : Nat} (hd : es.Pairwise Disjoint)
    (hw : ∀ e ∈ es, e.Within n) : (es.mergeSort le).Pairwise fun a b => a.last < b.first := by
  have hperm := List.mergeSort_perm es le
  have hdisjoint := (hperm.pairwise_iff Disjoint.symm).mpr hd
  refine (hdisjoint.and (List.pairwise_mergeSort le_trans le_total es)).imp_of_mem ?_
  intro a b ha hb hab
  obtain ⟨hdis, hle⟩ := hab
  have hwb := hw b (hperm.mem_iff.mp hb)
  simp only [le, Bool.or_eq_true, Bool.and_eq_true, decide_eq_true_eq, beq_iff_eq] at hle
  rcases hdis with h | h
  · exact h
  · unfold Within at hwb
    omega

/-- Disjoint edits are applied line by line, in whatever order they are given. -/
theorem applyAll_eq {ls : List Text} {es : List Edit} (hd : es.Pairwise Disjoint)
    (hw : ∀ e ∈ es, e.Within ls.length) :
    applyAll ls es = (List.range ls.length).flatMap (becomes ls es) := by
  have hperm := List.mergeSort_perm es le
  have hw' : ∀ e ∈ es.mergeSort le, e.Within ls.length := fun e he => hw e (hperm.mem_iff.mp he)
  have h := applyFrom_sorted 0 (mergeSort_sorted hd hw) hw' (fun e he => (hw' e he).1)
    (Nat.zero_le _)
  rw [applyAll, List.range_eq_range', becomes_perm hperm.symm hd]
  exact h

/-- No disjoint edit is dropped. -/
theorem droppedFrom_eq_nil {es : List Edit} {n : Nat} (hd : es.Pairwise Disjoint)
    (hw : ∀ e ∈ es, e.Within n) : droppedFrom 0 (es.mergeSort le) = [] :=
  droppedFrom_sorted (mergeSort_sorted hd hw) fun e he =>
    (hw e ((List.mergeSort_perm es le).mem_iff.mp he)).1

/-- Every line behind edits is one of the lines before or a line of an edit. -/
theorem mem_applyAll {ls : List Text} {es : List Edit} {l : Text} (h : l ∈ applyAll ls es) :
    l ∈ ls ∨ ∃ e ∈ es, l ∈ e.lines := by
  have hfrom : ∀ (es : List Edit) (cursor : Int), l ∈ applyFrom ls cursor es →
      l ∈ ls ∨ ∃ e ∈ es, l ∈ e.lines := by
    intro es
    induction es with
    | nil => exact fun _ h => .inl (List.mem_of_mem_drop h)
    | cons e r ih =>
      intro cursor h
      have hrest : ∀ cursor, l ∈ applyFrom ls cursor r → l ∈ ls ∨ ∃ d ∈ e :: r, l ∈ d.lines :=
        fun cursor h => (ih cursor h).imp_right fun ⟨d, hd, hl⟩ =>
          ⟨d, List.mem_cons_of_mem _ hd, hl⟩
      unfold applyFrom at h
      split at h
      · exact hrest _ h
      · rcases List.mem_append.mp h with h | h
        · rcases List.mem_append.mp h with h | h
          · exact .inl (List.mem_of_mem_take (List.mem_of_mem_drop h))
          · exact .inr ⟨e, List.mem_cons_self, h⟩
        · exact hrest _ h
  rcases hfrom _ 0 h with h | ⟨e, he, h⟩
  · exact .inl h
  · exact .inr ⟨e, List.mem_mergeSort.mp he, h⟩

/-- If no edit is dropped, the lines of all of them are there. -/
theorem subset_applyAll {ls : List Text} {es : List Edit} (h : droppedFrom 0 (es.mergeSort le) = [])
    {e : Edit} (he : e ∈ es) : e.lines ⊆ applyAll ls es := by
  have hfrom : ∀ (es : List Edit) (cursor : Int), droppedFrom cursor es = [] → e ∈ es →
      e.lines ⊆ applyFrom ls cursor es := by
    intro es
    induction es with
    | nil => intro _ _ he; simp at he
    | cons d r ih =>
      intro cursor hd he
      unfold droppedFrom at hd
      split at hd
      · cases hd
      · next hcursor =>
        rw [applyFrom, if_neg hcursor]
        rcases List.mem_cons.mp he with rfl | he
        · exact fun l hl => List.mem_append_left _ (List.mem_append_right _ hl)
        · exact fun l hl => List.mem_append_right _ (ih _ hd he hl)
  exact hfrom _ 0 h (List.mem_mergeSort.mpr he)

end SourceLayout.Edit
