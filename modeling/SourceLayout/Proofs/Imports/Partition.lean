import SourceLayout.Proofs.ImportReadBack

/-! Grouping is an ordered partition. What stands in which block and in which order is said by
the positions of the statements in the source and of the groups in the settings; this fixes
the blocks, and the printed lines are theirs. No statement is lost, because the last group
takes every statement. -/

namespace SourceLayout
open Text

/-! ## The order of texts -/

namespace Statement

theorem textLe_iff (a b : Text) : textLe a b = true ↔ a < b ∨ a = b := by
  induction a generalizing b with
  | nil => cases b <;> simp [textLe]
  | cons c a ih =>
    cases b with
    | nil => simp [textLe]
    | cons d b =>
      have hchar : c.toNat = d.toNat ↔ c = d := Char.toNat_inj
      have hlt : c.toNat < d.toNat ↔ c < d := Iff.rfl
      simp only [textLe, Bool.or_eq_true, decide_eq_true_eq, Bool.and_eq_true, beq_iff_eq, hchar,
        hlt, ih, List.cons_lt_cons_iff, List.cons.injEq]
      grind

theorem textLe_trans (a b c : Text) (hab : textLe a b = true) (hbc : textLe b c = true) :
    textLe a c = true := by
  rw [textLe_iff] at hab hbc ⊢
  rcases hab with hab | rfl
  · rcases hbc with hbc | rfl
    · exact .inl (List.lt_trans hab hbc)
    · exact .inl hab
  · exact hbc

theorem textLe_total (a b : Text) : (textLe a b || textLe b a) = true := by
  rw [Bool.or_eq_true, textLe_iff, textLe_iff]
  by_cases hab : a < b
  · exact .inl (.inl hab)
  · by_cases hba : b < a
    · exact .inr (.inl hba)
    · exact .inl (.inr (List.le_antisymm (List.not_lt.mp hba) (List.not_lt.mp hab)))

def renderedLe (cfg : Settings) (a b : Statement) : Bool := textLe (a.rendered cfg) (b.rendered cfg)

theorem renderedLe_trans (cfg : Settings) (a b c : Statement) (hab : renderedLe cfg a b = true)
    (hbc : renderedLe cfg b c = true) : renderedLe cfg a c = true := textLe_trans _ _ _ hab hbc

theorem renderedLe_total (cfg : Settings) (a b : Statement) :
    (renderedLe cfg a b || renderedLe cfg b a) = true :=
  textLe_total _ _

theorem sorted_eq (cfg : Settings) (ss : List Statement) :
    sorted cfg ss = ss.mergeSort (renderedLe cfg) := rfl

/-! ## Positions of statements -/

/-- The statement stands at the position in the source, and none before it has the
same form on one line. -/
def FreshAt (ss : List Statement) (p : Statement × Nat) : Prop :=
  ss[p.2]? = some p.1 ∧ ∀ s ∈ ss.take p.2, s.normalized ≠ p.1.normalized

instance (ss : List Statement) (p : Statement × Nat) : Decidable (FreshAt ss p) :=
  inferInstanceAs (Decidable (_ ∧ _))

/-- Printed order: by the text that is written, and by the position in the source
where that is the same. -/
def Precedes (cfg : Settings) (p q : Statement × Nat) : Prop :=
  p.1.rendered cfg < q.1.rendered cfg ∨ p.1.rendered cfg = q.1.rendered cfg ∧ p.2 < q.2

/-- The comments above a statement, line by line, then its text, with the comment behind it at
the end of the last line. -/
def writtenLines (cfg : Settings) (s : Statement) : List Text :=
  s.leading.flatMap lines ++ (lines (s.rendered cfg)).dropLast ++
    [(lines (s.rendered cfg)).getLastD [] ++ if s.trailing = [] then [] else ' ' :: s.trailing]

theorem outputLines_eq (cfg : Settings) (s : Statement) :
    s.outputLines cfg = s.writtenLines cfg := by
  obtain ⟨above, last, h⟩ := lines_eq_concat (s.rendered cfg)
  rw [outputLines, writtenLines, h, withTrailing_concat]
  simp

theorem Precedes.asymm {cfg : Settings} {p q : Statement × Nat} (h : Precedes cfg p q) :
    ¬Precedes cfg q p := by
  rcases h with h | ⟨he, h⟩ <;> rintro (h' | ⟨he', h'⟩)
  · exact List.lt_asymm h h'
  · rw [he'] at h
    exact List.lt_irrefl _ h
  · rw [he] at h'
    exact List.lt_irrefl _ h'
  · omega

def freshAt (ss : List Statement) : List (Statement × Nat) :=
  ss.zipIdx.filter fun p => (ss.take p.2).all (·.normalized != p.1.normalized)

theorem mem_freshAt {ss : List Statement} {p : Statement × Nat} :
    p ∈ freshAt ss ↔ FreshAt ss p := by
  rw [freshAt, List.mem_filter, List.mem_zipIdx_iff_getElem?, List.all_eq_true]
  simp [FreshAt]

theorem pairwise_zipIdx {α : Type} (l : List α) : l.zipIdx.Pairwise (·.2 < ·.2) := by
  have hrange : (l.zipIdx.map Prod.snd).Pairwise (· < ·) := by
    rw [List.zipIdx_map_snd]
    exact List.pairwise_lt_range' 1
  exact List.pairwise_map.mp hrange

theorem pairwise_freshAt (ss : List Statement) : (freshAt ss).Pairwise (·.2 < ·.2) :=
  (pairwise_zipIdx ss).filter _

/-- What has been seen before a position decides as the whole list before it does. -/
theorem distinctFrom_eq (before ss : List Statement) {seen : List Text}
    (hseen : ∀ t, t ∈ seen ↔ ∃ s ∈ before, s.normalized = t) :
    distinctFrom seen ss = ((ss.zipIdx before.length).filter fun p =>
      ((before ++ ss).take p.2).all (·.normalized != p.1.normalized)).map Prod.fst := by
  induction ss generalizing before seen with
  | nil => rfl
  | cons s ss ih =>
    have hjoin : before ++ s :: ss = (before ++ [s]) ++ ss := by simp
    have hlength : before.length + 1 = (before ++ [s]).length := by simp
    have hhere : ((before ++ s :: ss).take before.length).all (·.normalized != s.normalized) =
        !seen.contains s.normalized := by
      rw [List.take_left', Bool.eq_iff_iff]
      · simp [hseen]
      · rfl
    rw [List.zipIdx_cons, List.filter_cons, hhere, distinctFrom]
    cases hs : seen.contains s.normalized with
    | true =>
      have hmem : s.normalized ∈ seen := List.contains_iff_mem.mp hs
      rw [hlength, hjoin]
      simp only [Bool.not_true, ↓reduceIte, Bool.false_eq_true]
      apply ih
      · intro t
        rw [hseen t]
        constructor
        · rintro ⟨a, ha, rfl⟩
          exact ⟨a, List.mem_append_left _ ha, rfl⟩
        · rintro ⟨a, ha, rfl⟩
          rcases List.mem_append.mp ha with ha | ha
          · exact ⟨a, ha, rfl⟩
          · obtain rfl := List.mem_singleton.mp ha
            exact (hseen _).mp hmem
    | false =>
      rw [hlength, hjoin]
      simp only [Bool.not_false, ↓reduceIte, Bool.false_eq_true, List.map_cons]
      rw [@ih (before ++ [s]) (s.normalized :: seen)]
      intro t
      simp only [List.mem_cons, hseen, List.mem_append]
      grind

theorem distinct_eq (ss : List Statement) : distinct ss = (freshAt ss).map Prod.fst := by
  rw [distinct, @distinctFrom_eq [] ss [] (by simp)]
  rfl

/-- Sorting keeps the order of the source where the texts are the same. -/
theorem pairwise_mergeSort_precedes (cfg : Settings) {ps : List (Statement × Nat)}
    (h : ps.Pairwise (·.2 < ·.2)) :
    (ps.mergeSort fun p q => renderedLe cfg p.1 q.1).Pairwise (Precedes cfg) := by
  have htrans : ∀ a b c : Statement × Nat, renderedLe cfg a.1 b.1 = true → renderedLe cfg b.1 c.1 =
    true →
      renderedLe cfg a.1 c.1 = true := fun _ _ _ => renderedLe_trans cfg _ _ _
  have htotal : ∀ a b : Statement × Nat, (renderedLe cfg a.1 b.1 || renderedLe cfg b.1 a.1) =
      true :=
    fun _ _ => renderedLe_total cfg _ _
  -- every element is sorted together with its rank in `ps`, which decides where
  -- the texts are the same
  have hranked := List.pairwise_mergeSort (List.zipIdxLE_trans htrans) (List.zipIdxLE_total htotal)
    ps.zipIdx
  have hranks : (ps.zipIdx.mergeSort (List.zipIdxLE fun p q => renderedLe cfg p.1 q.1)).Pairwise
      (fun x y => x.2 ≠ y.2) := by
    refine ((List.mergeSort_perm ..).pairwise_iff Ne.symm).mpr (List.pairwise_map.mp ?_)
    rw [List.zipIdx_map_snd]
    exact List.nodup_range'
  rw [← List.mergeSort_zipIdx, List.pairwise_map]
  refine (hranked.and hranks).imp_of_mem ?_
  rintro ⟨p, i⟩ ⟨q, j⟩ hp hq ⟨hle, hne⟩
  have hp := List.mem_zipIdx_iff_getElem?.mp (List.mem_mergeSort.mp hp)
  have hq := List.mem_zipIdx_iff_getElem?.mp (List.mem_mergeSort.mp hq)
  simp only [List.zipIdxLE] at hle hne hp hq
  split at hle
  · next hpq =>
    rcases (textLe_iff _ _).mp hpq with hlt | heq
    · exact .inl hlt
    · have hqp : renderedLe cfg q.1 p.1 = true := (textLe_iff _ _).mpr (.inr heq.symm)
      rw [if_pos hqp, decide_eq_true_eq] at hle
      obtain ⟨hi, rfl⟩ := List.getElem?_eq_some_iff.mp hp
      obtain ⟨hj, rfl⟩ := List.getElem?_eq_some_iff.mp hq
      exact .inr ⟨heq, List.pairwise_iff_getElem.mp h i j hi hj (by omega)⟩
  · cases hle

end Statement

/-! ## Blocks -/

namespace Grouping

/-- A block of statements: its group with the group's position, and its statements with
theirs, in printed order. -/
structure Section where
  group : Group
  place : Nat
  members : List (Statement × Nat)

/-- The group at the position takes the statement, and none before it does. -/
def FirstTaker (groups : List Group) (s : Statement) (g : Group) (i : Nat) : Prop :=
  groups[i]? = some g ∧ g.accepts s = true ∧ ∀ h ∈ groups.take i, h.accepts s = false

instance (groups : List Group) (s : Statement) (g : Group) (i : Nat) :
    Decidable (FirstTaker groups s g i) :=
  inferInstanceAs (Decidable (_ ∧ _))

/-- The blocks of the statements of a source: one for each group that is the first to take a
statement which repeats none before it, in the order of the groups, with exactly these
statements in printed order. -/
structure Partition (cfg : Settings) (ss : List Statement) (bs : List Section) : Prop where
  ordered : bs.Pairwise (·.place < ·.place)
  nonempty : ∀ b ∈ bs, b.members ≠ []
  sorted : ∀ b ∈ bs, b.members.Pairwise (Statement.Precedes cfg)
  members : ∀ b ∈ bs, ∀ p,
    p ∈ b.members ↔ Statement.FreshAt ss p ∧ FirstTaker cfg.groups p.1 b.group b.place
  complete : ∀ p g i, Statement.FreshAt ss p → FirstTaker cfg.groups p.1 g i →
    ∃ b ∈ bs, b.group = g ∧ b.place = i

def Section.lines (cfg : Settings) (b : Section) : List Text :=
  Header.ofGroup cfg b.group :: b.members.flatMap fun p => p.1.writtenLines cfg

theorem firstTaker_iff {groups : List Group} {s : Statement} {g : Group} {i : Nat} :
    FirstTaker groups s g i ↔ groups[i]? = some g ∧ home? groups s = some i := by
  rw [FirstTaker, home?, List.findIdx?_eq_some_iff_getElem]
  constructor
  · rintro ⟨hg, haccepts, hbefore⟩
    obtain ⟨hi, rfl⟩ := List.getElem?_eq_some_iff.mp hg
    refine ⟨List.getElem?_eq_getElem hi, hi, haccepts, fun j hj => ?_⟩
    rw [hbefore _ (List.mem_take_iff_getElem.mpr ⟨j, by omega, rfl⟩)]
    exact Bool.false_ne_true
  · rintro ⟨hg, hi, haccepts, hbefore⟩
    obtain ⟨-, rfl⟩ := List.getElem?_eq_some_iff.mp hg
    refine ⟨List.getElem?_eq_getElem hi, haccepts, fun h hh => ?_⟩
    obtain ⟨j, hj, rfl⟩ := List.mem_take_iff_getElem.mp hh
    simpa using hbefore j (by omega)

def membersAt (cfg : Settings) (ss : List Statement) (i : Nat) : List (Statement × Nat) :=
  ((Statement.freshAt ss).filter fun p => home? cfg.groups p.1 == some i).mergeSort
    fun p q => Statement.renderedLe cfg p.1 q.1

def sections (cfg : Settings) (ss : List Statement) : List Section :=
  (cfg.groups.zipIdx.map fun g => ⟨g.1, g.2, membersAt cfg ss g.2⟩).filter (!·.members.isEmpty)

theorem mem_membersAt {cfg : Settings} {ss : List Statement} {i : Nat} {p : Statement × Nat} :
    p ∈ membersAt cfg ss i ↔ Statement.FreshAt ss p ∧ home? cfg.groups p.1 = some i := by
  rw [membersAt, List.mem_mergeSort, List.mem_filter, Statement.mem_freshAt, beq_iff_eq]

theorem mem_sections {cfg : Settings} {ss : List Statement} {b : Section} :
    b ∈ sections cfg ss ↔
      cfg.groups[b.place]? = some b.group ∧ b.members ≠ [] ∧
      b.members = membersAt cfg ss b.place := by
  rw [sections, List.mem_filter, List.mem_map]
  constructor
  · rintro ⟨⟨p, hp, rfl⟩, hne⟩
    exact ⟨List.mem_zipIdx_iff_getElem?.mp hp, by simpa using hne, rfl⟩
  · rintro ⟨hg, hne, hmembers⟩
    refine ⟨⟨(b.group, b.place), List.mem_zipIdx_iff_getElem?.mpr hg, ?_⟩, by simpa using hne⟩
    rw [← hmembers]

theorem partition_sections (cfg : Settings) (ss : List Statement) :
    Partition cfg ss (sections cfg ss) := by
  refine ⟨?_, fun b hb => (mem_sections.mp hb).2.1, ?_, ?_, ?_⟩
  · refine List.Pairwise.filter _ (List.pairwise_map.mpr ?_)
    exact Statement.pairwise_zipIdx cfg.groups
  · intro b hb
    rw [(mem_sections.mp hb).2.2]
    exact Statement.pairwise_mergeSort_precedes cfg ((Statement.pairwise_freshAt ss).filter _)
  · intro b hb p
    obtain ⟨hg, -, hmembers⟩ := mem_sections.mp hb
    rw [hmembers, mem_membersAt, firstTaker_iff]
    simp [hg]
  · intro p g i hp hg
    obtain ⟨hg, hhome⟩ := firstTaker_iff.mp hg
    have hmem : p ∈ membersAt cfg ss i := mem_membersAt.mpr ⟨hp, hhome⟩
    exact ⟨⟨g, i, membersAt cfg ss i⟩, mem_sections.mpr ⟨hg, List.ne_nil_of_mem hmem, rfl⟩, rfl,
      rfl⟩

/-- Lists that are in order for a relation without two-way pairs are equal if they
have the same members. -/
theorem eq_of_pairwise_of_mem {α : Type} {r : α → α → Prop} (hr : ∀ a b, r a b → ¬r b a)
    {l l' : List α} (h : l.Pairwise r) (h' : l'.Pairwise r) (hmem : ∀ a, a ∈ l ↔ a ∈ l') :
    l = l' := by
  have hne : ∀ a b, r a b → a ≠ b := by
    rintro a b hab rfl
    exact hr a a hab hab
  have hperm := (List.perm_ext_iff_of_nodup (h.imp (hne _ _)) (h'.imp (hne _ _))).mpr hmem
  exact hperm.eq_of_pairwise (fun a b _ _ hab hba => absurd hba (hr a b hab)) h h'

/-- The statements fix the blocks. -/
theorem Partition.unique {cfg : Settings} {ss : List Statement} {bs bs' : List Section}
    (h : Partition cfg ss bs) (h' : Partition cfg ss bs') : bs = bs' := by
  have hsub : ∀ {xs ys : List Section}, Partition cfg ss xs → Partition cfg ss ys → ∀ b ∈ xs,
      b ∈ ys := by
    intro xs ys hx hy b hb
    obtain ⟨p, hp⟩ := List.exists_mem_of_ne_nil _ (hx.nonempty b hb)
    obtain ⟨hfresh, htaker⟩ := (hx.members b hb p).mp hp
    obtain ⟨c, hc, hgroup, hplace⟩ := hy.complete p b.group b.place hfresh htaker
    have hmembers : c.members = b.members := by
      refine eq_of_pairwise_of_mem (fun _ _ => Statement.Precedes.asymm) (hy.sorted c hc)
        (hx.sorted b hb) ?_
      intro q
      rw [hy.members c hc, hx.members b hb, hgroup, hplace]
    obtain rfl : c = b := by
      cases c
      cases b
      simp_all
    exact hc
  exact eq_of_pairwise_of_mem (fun a b hab => by omega) h.ordered h'.ordered
    fun b => ⟨hsub h h' b, hsub h' h b⟩

theorem sorted_members (cfg : Settings) (ss : List Statement) (i : Nat) :
    Statement.sorted cfg (members cfg.groups (Statement.distinct ss) i) =
      (membersAt cfg ss i).map Prod.fst := by
  rw [Statement.distinct_eq, members, List.filter_map, Statement.sorted_eq, membersAt,
    @List.map_mergeSort _ _ _ (Statement.renderedLe cfg) _ _ (fun _ _ _ _ => rfl)]
  rfl

/-- The lines of an import block are those of the blocks of its statements. -/
theorem layout_eq_sections (cfg : Settings) (ss : List Statement) :
    layout cfg ss = [[]].intercalate ((sections cfg ss).map (·.lines cfg)) := by
  have hgroups : printedGroups cfg ss = (sections cfg ss).map fun b =>
      (b.group, b.members.map Prod.fst) := by
    simp only [printedGroups, sections, sorted_members]
    rw [List.filter_map, List.filter_map, List.map_map]
    congr 1
    apply List.filter_congr
    simp
  rw [layout_eq, hgroups, List.map_map]
  congr 2
  funext b
  simp [groupLines, Section.lines, List.flatMap_map, Statement.outputLines_eq]

/-- Grouping is an ordered partition. The printed lines are those of the blocks that the statements
fix, with one empty line between two blocks; every statement that repeats none before it is in
exactly one of them, because the last group takes every statement. -/
theorem layout_partition {cfg : Settings} (hc : cfg.Accepted) (ss : List Statement) :
    ∃ bs, Partition cfg ss bs ∧ (∀ bs', Partition cfg ss bs' → bs' = bs) ∧
      layout cfg ss = [[]].intercalate (bs.map (·.lines cfg)) ∧
      (∀ p, Statement.FreshAt ss p → ∃ b ∈ bs, p ∈ b.members ∧ ∀ b' ∈ bs, p ∈ b'.members → b' = b) ∧
      ∃ g, cfg.groups.getLast? = some g ∧ g.isCatchAll = true := by
  have hpart := partition_sections cfg ss
  refine ⟨sections cfg ss, hpart, fun bs' h => h.unique hpart, layout_eq_sections cfg ss, ?_,
    hc.last⟩
  intro p hp
  obtain ⟨i, hhome, hi⟩ := home?_isSome hc.catchAll p.1
  have htaker : FirstTaker cfg.groups p.1 cfg.groups[i] i :=
    firstTaker_iff.mpr ⟨List.getElem?_eq_getElem hi, hhome⟩
  obtain ⟨b, hb, hgroup, hplace⟩ := hpart.complete p _ i hp htaker
  refine ⟨b, hb, (hpart.members b hb p).mpr ⟨hp, hgroup ▸ hplace ▸ htaker⟩, ?_⟩
  intro b' hb' hp'
  -- the first group that takes a statement is one, and the blocks of one group are one
  have hhome' := (firstTaker_iff.mp ((hpart.members b' hb' p).mp hp').2).2
  have hplace' : b'.place = b.place := by
    rw [hhome, Option.some.injEq] at hhome'
    rw [hplace, hhome']
  obtain ⟨hg, -, hmembers⟩ := mem_sections.mp hb
  obtain ⟨hg', -, hmembers'⟩ := mem_sections.mp hb'
  rw [hplace'] at hg' hmembers'
  cases b
  cases b'
  simp_all

/-- Two groups and three statements, of which the last repeats the first on two lines. -/
theorem layout_partition_repeated :
    let cfg : Settings := {
      columnWidth := 12
      groups := [{ label := "// LOCAL".toList, matchers := ["./".toList] }, Group.other] }
    let z : Statement := { text := "import z from 'z';".toList }
    let s : Statement := { text := "import s from './s'".toList, leading := ["// c".toList] }
    let again : Statement := { text := "import z\n  from 'z';".toList, trailing := "// d".toList }
    ∃ bs, Partition cfg [z, s, again] bs ∧
      layout cfg [z, s, again] = [[]].intercalate (bs.map (·.lines cfg)) ∧
      (∃ b ∈ bs, b.place = 0 ∧ (s, 1) ∈ b.members) ∧ (∃ b ∈ bs, b.place = 1 ∧ (z, 0) ∈ b.members) ∧
      ∀ b ∈ bs, (again, 2) ∉ b.members := by
  intro cfg z s again
  obtain ⟨bs, hpart, -, hlines, -, -⟩ := @layout_partition cfg ⟨[("column_width".toList, .int 12),
    ("groups".toList, .list [.table [("label".toList, .text "// LOCAL".toList),
      ("matchers".toList, .list [.text "./".toList])]])], rfl⟩ [z, s, again]
  have hin : ∀ p g i, Statement.FreshAt [z, s, again] p → FirstTaker cfg.groups p.1 g i →
      ∃ b ∈ bs, b.place = i ∧ p ∈ b.members := by
    intro p g i hfresh htaker
    obtain ⟨b, hb, rfl, rfl⟩ := hpart.complete p g i hfresh htaker
    exact ⟨b, hb, rfl, (hpart.members b hb p).mpr ⟨hfresh, htaker⟩⟩
  refine ⟨bs, hpart, hlines, hin (s, 1) cfg.groups[0] 0 (by decide +kernel) (by decide +kernel),
    hin (z, 0) cfg.groups[1] 1 (by decide +kernel) (by decide +kernel), fun b hb hmem => ?_⟩
  exact absurd ((hpart.members b hb _).mp hmem).1 (by decide +kernel)

end Grouping

end SourceLayout
