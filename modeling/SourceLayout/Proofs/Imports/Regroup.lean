import Mathlib.Algebra.Order.BigOperators.Group.List
import Mathlib.Algebra.Order.Ring.Nat
import Mathlib.Data.List.Nodup
import SourceLayout.Proofs.Imports.Partition
import SourceLayout.Proofs.Imports.Words

/-! Grouping what has been grouped. A printed statement has the module and the words of the
statement it comes from, so groups that look neither at spacing nor at one kind of quotes take it as
before. Then grouping the printed statements prints the same lines exactly if no two of them are the
same on one line, and grouping once more changes nothing. -/

namespace SourceLayout
open Text

/-! ## Groups that take a statement however it is printed -/

namespace Group

def swapQuote (c : Char) : Char := if c = '"' then '\'' else if c = '\'' then '"' else c

/-- Whether a matcher of a group does not depend on how an import is broken: a quoted name
holds neither blanks nor semicolons and stands there in both kinds of quotes, a path or a file
ending is within a word. -/
def isSteadyMatcher (g : Group) (w : Text) : Bool :=
  if w.head? == some '"' || w.head? == some '\'' then
    w.all (fun c => !isBlank c && c != ';') && g.matchers.contains (w.map swapQuote)
  else if w.head? == some '.' || w.getLast? == some '/' then w.all (!isBreak ·)
  else true

def isSteady (g : Group) : Bool := g.isCatchAll || g.matchers.all g.isSteadyMatcher

example : Group.defaults.all isSteady = true := by decide +kernel

theorem matcherAccepts_congr {a b : Statement} (h : a.normalized = b.normalized) (w : Text) :
    matcherAccepts w a = matcherAccepts w b := by
  have hmodule : a.moduleName = b.moduleName := by
    rw [Statement.moduleName, Statement.moduleName, h]
  rw [matcherAccepts, matcherAccepts, h, hmodule]

theorem accepts_congr {a b : Statement} (h : a.normalized = b.normalized) (g : Group) :
    g.accepts a = g.accepts b := by
  simp only [accepts, matcherAccepts_congr h]

theorem swapQuote_of_quote {q q' : Char} (hq : q = '"' ∨ q = '\'') (hq' : q' = '"' ∨ q' = '\'')
    (hne : q ≠ q') : swapQuote q = q' := by
  rcases hq with rfl | rfl <;> rcases hq' with rfl | rfl <;> simp_all [swapQuote]

theorem swapQuote_of_plain {c : Char} (h : c ≠ '"' ∧ c ≠ '\'') : swapQuote c = c := by
  simp [swapQuote, h]

theorem map_swapQuote_of_plain {m : Text} (h : ∀ c ∈ m, Scan.isQuote c = false) :
    m.map swapQuote = m := by
  conv => rhs; rw [← List.map_id m]
  refine List.map_congr_left fun c hc => swapQuote_of_plain ?_
  have hquote := h c hc
  simp_all [Scan.isQuote]

theorem swapQuote_kept {c : Char} (h : isBlank c = false ∧ c ≠ ';') :
    isBlank (swapQuote c) = false ∧ swapQuote c ≠ ';' := by
  by_cases hc : c = '"' ∨ c = '\''
  · rcases hc with rfl | rfl <;> decide
  · rwa [swapQuote_of_plain (not_or.mp hc)]

/-- A quoted name is found in an import if its module begins so. -/
theorem matcherAccepts_quote {s : Statement} {m : Text} {q : Char}
    (hs : Statement.Sourced s.normalized m q) {c : Char} {w : Text} (hc : c = '"' ∨ c = '\'')
    (hw : ∀ d ∈ w, isBlank d = false ∧ d ≠ ';') :
    matcherAccepts (c :: w) s = true ↔ c = q ∧ w <+: m ++ [q] := by
  rw [← hs.occursIn_quote hc hw, matcherAccepts, if_pos (by rcases hc with rfl | rfl <;> simp)]

section

variable {g : Group} {a b : Statement} {m : Text} {q q' : Char}

/-- A quoted name that a group has in both kinds of quotes takes a statement in one of them. -/
theorem exists_matcherAccepts_quote (ha : Statement.Sourced a.normalized m q)
    (hb : Statement.Sourced b.normalized m q') {c : Char} {w : Text} (hc : c = '"' ∨ c = '\'')
    (hkept : ∀ d ∈ w, isBlank d = false ∧ d ≠ ';') (hw : c :: w ∈ g.matchers)
    (hswap : (c :: w).map swapQuote ∈ g.matchers) (h : matcherAccepts (c :: w) a = true) :
    ∃ x ∈ g.matchers, matcherAccepts x b = true := by
  obtain ⟨rfl, hstarts⟩ := (matcherAccepts_quote ha hc hkept).mp h
  by_cases heq : c = q'
  · subst heq
    exact ⟨c :: w, hw, (matcherAccepts_quote hb hc hkept).mpr ⟨rfl, hstarts⟩⟩
  · -- the other statement has the other quotes, so it is the swapped matcher that takes it
    have hq' := swapQuote_of_quote hc hb.quote heq
    have hkept' : ∀ d ∈ w.map swapQuote, isBlank d = false ∧ d ≠ ';' :=
      List.forall_mem_map.mpr fun d hd => swapQuote_kept (hkept d hd)
    have hstarts' : w.map swapQuote <+: m ++ [q'] := by
      simpa [map_swapQuote_of_plain ha.plain, hq'] using hstarts.map swapQuote
    rw [List.map_cons, hq'] at hswap
    exact ⟨_, hswap, (matcherAccepts_quote hb hb.quote hkept').mpr ⟨rfl, hstarts'⟩⟩

/-- A path or a file ending is found in the words. -/
theorem matcherAccepts_path {w : Text} (hw : w.head? = some '.' ∨ w.getLast? = some '/')
    (hbreak : ∀ c ∈ w, isBreak c = false) (s : Statement) :
    matcherAccepts w s = true ↔ ∃ x ∈ wordsOf s.normalized, occursIn w x = true := by
  have hne : w ≠ [] := by
    rintro rfl
    simp at hw
  rw [matcherAccepts, if_pos (by rcases hw with hw | hw <;> simp [hw]), occursIn_wordsOf hne hbreak]

/-- A group that takes an import takes one with the same module and the same
words, in any quotes. -/
theorem accepts_of_sourced (hg : g.isSteady = true) (ha : Statement.Sourced a.normalized m q)
    (hb : Statement.Sourced b.normalized m q')
    (hwords : wordsOf a.normalized = wordsOf b.normalized) (h : g.accepts a = true) :
    g.accepts b = true := by
  rw [accepts, Bool.or_eq_true, List.any_eq_true] at h ⊢
  rw [isSteady, Bool.or_eq_true, List.all_eq_true] at hg
  rcases h with hcatch | ⟨w, hw, haccepts⟩
  · exact .inl hcatch
  rcases hg with hcatch | hg
  · exact .inl hcatch
  right
  have hsteady := hg w hw
  rw [isSteadyMatcher] at hsteady
  split at hsteady
  · next hhead =>
    cases w with
    | nil => simp at hhead
    | cons c w =>
      simp only [Bool.and_eq_true, List.all_eq_true, List.contains_iff_mem, Bool.not_eq_true',
        bne_iff_ne] at hsteady
      obtain ⟨hkept, hswap⟩ := hsteady
      exact exists_matcherAccepts_quote ha hb (by simpa using hhead)
        (fun d hd => hkept d (List.mem_cons_of_mem _ hd)) hw hswap haccepts
  · next hhead =>
    refine ⟨w, hw, ?_⟩
    split at hsteady
    · next hpath =>
      have hpath : w.head? = some '.' ∨ w.getLast? = some '/' := by simpa using hpath
      have hbreak : ∀ c ∈ w, isBreak c = false := by simpa using hsteady
      rwa [matcherAccepts_path hpath hbreak, ← hwords, ← matcherAccepts_path hpath hbreak]
    · next hpath =>
      have hname : ¬(w.head? == some '"' || w.head? == some '\'' || w.head? == some '.' ||
          w.getLast? == some '/') = true := by
        simp_all
      rw [matcherAccepts, if_neg hname] at haccepts ⊢
      rwa [hb.moduleName, ← ha.moduleName]

end

end Group

/-! ## Statements that are printed again -/

namespace Statement

/-- A statement that settles when it is printed: printed again it is written as before, and
the same groups take it. -/
structure Settles (cfg : Settings) (s : Statement) : Prop where
  rendered : (s.asPrinted cfg).rendered cfg = s.rendered cfg
  taken : ∀ g ∈ cfg.groups, g.accepts (s.asPrinted cfg) = g.accepts s

theorem settles_of_steady {cfg : Settings} {s : Statement}
    (h : ∀ i ∈ s.broken? cfg, i.isPlain = true ∧ ∀ g ∈ cfg.groups, g.isSteady = true) :
    s.Settles cfg := by
  refine ⟨rendered_asPrinted fun i hi => (h i hi).1, fun g hg => ?_⟩
  cases hbroken : s.broken? cfg with
  | none =>
    refine Group.accepts_congr ?_ g
    rw [normalized_asPrinted, hbroken]
  | some i =>
    obtain ⟨hplain, hsteady⟩ := h i hbroken
    obtain ⟨⟨q, hs⟩, hprinted, hwords⟩ := sourced_asPrinted hbroken hplain
    rw [Bool.eq_iff_iff]
    exact ⟨Group.accepts_of_sourced (hsteady g hg) hprinted hs hwords,
      Group.accepts_of_sourced (hsteady g hg) hs hprinted hwords.symm⟩

variable {cfg : Settings} {s : Statement}

theorem Settles.asPrinted (h : s.Settles cfg) :
    (s.asPrinted cfg).asPrinted cfg = s.asPrinted cfg := by
  rw [Statement.asPrinted, h.rendered]
  rfl

theorem Settles.again (h : s.Settles cfg) : (s.asPrinted cfg).Settles cfg :=
  ⟨by rw [h.asPrinted], fun g _ => by rw [h.asPrinted]⟩

theorem Settles.outputLines (h : s.Settles cfg) :
    (s.asPrinted cfg).outputLines cfg = s.outputLines cfg := by
  rw [Statement.outputLines, h.rendered]
  rfl

theorem Settles.home? (h : s.Settles cfg) :
    Grouping.home? cfg.groups (s.asPrinted cfg) = Grouping.home? cfg.groups s := by
  have hfind (gs : List Group) (hgs : ∀ g ∈ gs, g.accepts (s.asPrinted cfg) = g.accepts s) :
      gs.findIdx? (·.accepts (s.asPrinted cfg)) = gs.findIdx? (·.accepts s) := by
    induction gs with
    | nil => rfl
    | cons g gs ih =>
      obtain ⟨hg, hgs⟩ := List.forall_mem_cons.mp hgs
      rw [List.findIdx?_cons, List.findIdx?_cons, hg, ih hgs]
  exact hfind cfg.groups h.taken

/-- Statements that settle are in printed order also when they are printed. -/
theorem sorted_map_asPrinted {ss : List Statement} (h : ∀ s ∈ ss, s.Settles cfg) :
    sorted cfg ((sorted cfg ss).map (·.asPrinted cfg)) = (sorted cfg ss).map (·.asPrinted cfg) := by
  have hsorted := List.pairwise_mergeSort (renderedLe_trans cfg) (renderedLe_total cfg) ss
  rw [← sorted_eq] at hsorted
  rw [sorted_eq cfg (List.map _ _)]
  refine List.mergeSort_of_pairwise (List.pairwise_map.mpr (hsorted.imp_of_mem ?_))
  intro a b ha hb hle
  rwa [renderedLe, (h a (List.mem_mergeSort.mp ha)).rendered,
    (h b (List.mem_mergeSort.mp hb)).rendered]

/-! ## Statements that repeat none before them -/

theorem nodup_distinctFrom (seen : List Text) (ss : List Statement) :
    ((distinctFrom seen ss).map (·.normalized)).Nodup ∧ ∀ s ∈ distinctFrom seen ss,
    s.normalized ∉ seen := by
  induction ss generalizing seen with
  | nil => simp [distinctFrom]
  | cons s ss ih =>
    rw [distinctFrom]
    split
    · exact ih seen
    · next hs =>
      obtain ⟨hnodup, hfresh⟩ := ih (s.normalized :: seen)
      simp only [List.mem_cons, not_or] at hfresh
      rw [List.map_cons, List.nodup_cons, List.forall_mem_cons]
      refine ⟨⟨?_, hnodup⟩, by simpa using hs, fun t ht => (hfresh t ht).2⟩
      simp only [List.mem_map, not_exists, not_and]
      exact fun t ht => (hfresh t ht).1

theorem distinctFrom_eq_self {seen : List Text} {ss : List Statement}
    (hnodup : (ss.map (·.normalized)).Nodup) (hfresh : ∀ s ∈ ss, s.normalized ∉ seen) :
    distinctFrom seen ss = ss := by
  induction ss generalizing seen with
  | nil => rfl
  | cons s ss ih =>
    obtain ⟨hs, hfresh⟩ := List.forall_mem_cons.mp hfresh
    obtain ⟨hnot, hnodup⟩ := List.nodup_cons.mp hnodup
    rw [distinctFrom, if_neg (by simpa using hs), ih hnodup]
    intro t ht
    rw [List.mem_cons, not_or]
    refine ⟨fun heq => hnot ?_, hfresh t ht⟩
    exact List.mem_map.mpr ⟨t, ht, heq⟩

theorem distinct_eq_self_iff {ss : List Statement} :
    distinct ss = ss ↔ (ss.map (·.normalized)).Nodup := by
  constructor
  · intro h
    rw [← h]
    exact (nodup_distinctFrom [] ss).1
  · intro h
    exact distinctFrom_eq_self h (by simp)

end Statement

/-! ## The lines of statements that are grouped again -/

namespace Grouping

open Statement

variable {cfg : Settings} {ss : List Statement}

/-- The lines of statements in their groups, repeated ones included. -/
def arranged (cfg : Settings) (ds : List Statement) : List Text :=
  joinBlocks (cfg.groups.zipIdx.map fun p => block cfg p.1 (members cfg.groups ds p.2))

theorem layout_eq_arranged (cfg : Settings) (ss : List Statement) :
    layout cfg ss = arranged cfg (distinct ss) := rfl

def printedAt (cfg : Settings) (ss : List Statement) (i : Nat) : List Statement :=
  (sorted cfg (members cfg.groups (distinct ss) i)).map (·.asPrinted cfg)

theorem printed_eq (cfg : Settings) (ss : List Statement) :
    printed cfg ss = cfg.groups.zipIdx.flatMap fun p => printedAt cfg ss p.2 := by
  have hfilter (ps : List (Group × List Statement)) : (ps.filter (!·.2.isEmpty)).flatMap
      (fun p => p.2.map (·.asPrinted cfg)) = ps.flatMap fun p => p.2.map (·.asPrinted cfg) := by
    induction ps with
    | nil => rfl
    | cons p ps ih =>
      rw [List.filter_cons, List.flatMap_cons, ← ih]
      cases hp : p.2 with
      | nil => simp
      | cons s r => simp [hp]
  rw [printed, printedGroups, hfilter, List.flatMap_map]
  rfl

theorem exists_of_mem_printedAt {i : Nat} {t : Statement} (h : t ∈ printedAt cfg ss i) :
    ∃ s ∈ ss, t = s.asPrinted cfg ∧ home? cfg.groups s = some i := by
  obtain ⟨s, hs, rfl⟩ := List.mem_map.mp h
  obtain ⟨hs, hhome⟩ := List.mem_filter.mp (List.mem_mergeSort.mp hs)
  exact ⟨s, mem_of_mem_distinctFrom hs, rfl, by simpa using hhome⟩

/-- The printed statements of a group are those that the group takes when they are grouped again. -/
theorem members_printed (h : ∀ s ∈ ss, s.Settles cfg) {p : Group × Nat}
    (hp : p ∈ cfg.groups.zipIdx) :
    members cfg.groups (printed cfg ss) p.2 = printedAt cfg ss p.2 := by
  have hhome {i : Nat} {t : Statement} (ht : t ∈ printedAt cfg ss i) : home? cfg.groups t =
      some i := by
    obtain ⟨s, hs, rfl, hi⟩ := exists_of_mem_printedAt ht
    rw [(h s hs).home?, hi]
  have hown : (printedAt cfg ss p.2).filter (fun s => home? cfg.groups s == some p.2) =
      printedAt cfg ss p.2 :=
    List.filter_eq_self.mpr fun t ht => by simp [hhome ht]
  have hother {qs : List (Group × Nat)} (hqs : ∀ q ∈ qs, q.2 ≠ p.2) :
      (qs.flatMap fun q => printedAt cfg ss q.2).filter (fun s => home? cfg.groups s == some p.2) =
        [] := by
    simp only [List.filter_eq_nil_iff, List.mem_flatMap]
    rintro t ⟨q, hq, ht⟩
    simpa [hhome ht] using hqs q hq
  obtain ⟨before, after, hgroups⟩ := List.append_of_mem hp
  have hordered := Statement.pairwise_zipIdx cfg.groups
  rw [hgroups, List.pairwise_append, List.pairwise_cons] at hordered
  obtain ⟨-, ⟨hafter, -⟩, hbefore⟩ := hordered
  rw [members, printed_eq, hgroups, List.flatMap_append, List.flatMap_cons, List.filter_append,
    List.filter_append, hown, hother fun q hq => Nat.ne_of_lt (hbefore q hq p List.mem_cons_self),
    hother fun q hq => Nat.ne_of_gt (hafter q hq)]
  simp

theorem block_asPrinted {ms : List Statement} (g : Group) (h : ∀ s ∈ ms, s.Settles cfg) :
    block cfg g ((sorted cfg ms).map (·.asPrinted cfg)) = block cfg g ms := by
  have hlines : ((sorted cfg ms).map (·.asPrinted cfg)).flatMap (·.outputLines cfg) =
      (sorted cfg ms).flatMap (·.outputLines cfg) := by
    rw [List.flatMap_map]
    exact List.flatMap_congr fun s hs => (h s (List.mem_mergeSort.mp hs)).outputLines
  rw [block, block, sorted_map_asPrinted h, hlines]
  simp [sorted_eq_nil_iff]

/-- Printed statements that are not looked through for repeated ones give the
lines they come from. -/
theorem arranged_printed (h : ∀ s ∈ ss, s.Settles cfg) :
    arranged cfg (printed cfg ss) = layout cfg ss := by
  rw [layout_eq_arranged, arranged, arranged]
  congr 1
  refine List.map_congr_left fun p hp => ?_
  rw [members_printed h hp, printedAt]
  exact block_asPrinted p.1 fun s hs => h s (mem_of_mem_distinctFrom (List.mem_filter.mp hs).1)

/-! ## How many lines there are -/

/-- How many lines a block adds, with the empty line that sets it off. -/
def weight (b : List Text) : Nat := if b.isEmpty then 0 else b.length + 1

theorem length_joinBlocks (bs : List (List Text)) :
    (joinBlocks bs).length = (bs.map weight).sum - 1 := by
  have hjoin (bs : List (List Text)) :
      ([[]].intercalate bs).length = (bs.map fun b => b.length + 1).sum - 1 := by
    induction bs with
    | nil => rfl
    | cons b bs ih =>
      cases bs with
      | nil => simp [List.intercalate]
      | cons c bs =>
        rw [intercalate_cons_cons]
        simp only [List.length_append, ih, List.map_cons, List.sum_cons, List.length_singleton]
        omega
  have hweights : ((bs.filter (!·.isEmpty)).map fun b => b.length + 1).sum =
      (bs.map weight).sum := by
    induction bs with
    | nil => rfl
    | cons b bs ih => cases b <;> simp [weight, ih]
  rw [joinBlocks, hjoin, hweights]

theorem length_outputLines_pos (cfg : Settings) (s : Statement) :
    0 < (s.outputLines cfg).length := by
  rw [outputLines_eq, writtenLines, List.length_append]
  exact Nat.lt_add_left _ Nat.one_pos

theorem weight_block (g : Group) (ms : List Statement) :
    weight (block cfg g ms) = if ms.isEmpty then
    0 else 2 + (ms.map fun s => (s.outputLines cfg).length).sum := by
  have hperm : (sorted cfg ms).Perm ms := List.mergeSort_perm ..
  cases ms with
  | nil => rfl
  | cons s ms =>
    simp only [weight, block, List.isEmpty_cons, Bool.false_eq_true, if_false, List.length_cons,
      List.length_flatMap]
    rw [(hperm.map _).sum_eq]
    omega

/-- A group with fewer statements has fewer lines. -/
theorem weight_block_lt (g : Group) {ms' ms : List Statement} (hsub : ms'.Sublist ms)
    (hne : ms' ≠ ms) : weight (block cfg g ms') < weight (block cfg g ms) := by
  have hsum : (ms'.map fun s => (s.outputLines cfg).length).sum + ms.length ≤
      (ms.map fun s => (s.outputLines cfg).length).sum + ms'.length := by
    clear hne
    induction hsub with
    | slnil => simp
    | cons s h ih =>
      have hpos := length_outputLines_pos cfg s
      simp only [List.map_cons, List.sum_cons, List.length_cons]
      omega
    | cons_cons s h ih =>
      simp only [List.map_cons, List.sum_cons, List.length_cons]
      omega
  have hlength : ms'.length < ms.length := by
    by_contra hle
    exact hne (hsub.eq_of_length_le (by omega))
  have hnonempty : ¬ms.isEmpty = true := by
    rw [List.isEmpty_iff_length_eq_zero]
    omega
  rw [weight_block, weight_block, if_neg hnonempty]
  split
  · omega
  · omega

/-- Of statements that have a group, some group loses one when some are left out. -/
theorem exists_members_ne {groups : List Group} {ds' ds : List Statement} (hsub : ds'.Sublist ds)
    (hne : ds' ≠ ds) (hhome : ∀ s ∈ ds, ∃ i, home? groups s = some i) :
    ∃ i < groups.length, members groups ds' i ≠ members groups ds i := by
  induction hsub with
  | slnil => exact absurd rfl hne
  | @cons ds' ds s h ih =>
    obtain ⟨i, hi⟩ := hhome s List.mem_cons_self
    obtain ⟨hlt, -⟩ := List.findIdx?_eq_some_iff_getElem.mp hi
    refine ⟨i, hlt, fun heq => ?_⟩
    have hle : (members groups ds' i).length ≤ (members groups ds i).length :=
      (h.filter _).length_le
    rw [heq, members, List.filter_cons, if_pos (by simp [hi]), List.length_cons] at hle
    exact absurd hle (Nat.not_succ_le_self _)
  | @cons_cons ds' ds s h ih =>
    obtain ⟨i, hi, hmembers⟩ :=
      ih (fun heq => hne (heq ▸ rfl)) fun t ht => hhome t (List.mem_cons_of_mem _ ht)
    refine ⟨i, hi, fun heq => hmembers ?_⟩
    simp only [members, List.filter_cons] at heq
    split at heq
    · exact (List.cons.inj heq).2
    · exact heq

theorem length_arranged_lt {ds' ds : List Statement} (hsub : ds'.Sublist ds) (hne : ds' ≠ ds)
    (hhome : ∀ s ∈ ds, ∃ i, home? cfg.groups s = some i) :
    (arranged cfg ds').length < (arranged cfg ds).length := by
  have hle : ∀ p ∈ cfg.groups.zipIdx, weight (block cfg p.1 (members cfg.groups ds' p.2)) ≤
      weight (block cfg p.1 (members cfg.groups ds p.2)) := by
    intro p hp
    by_cases heq : members cfg.groups ds' p.2 = members cfg.groups ds p.2
    · rw [heq]
    · exact Nat.le_of_lt (weight_block_lt p.1 (hsub.filter _) heq)
  obtain ⟨i, hi, hmembers⟩ := exists_members_ne hsub hne hhome
  have hp : (cfg.groups[i], i) ∈ cfg.groups.zipIdx :=
    List.mem_zipIdx_iff_getElem?.mpr (List.getElem?_eq_getElem hi)
  have hlt := @weight_block_lt cfg cfg.groups[i] _ _ (hsub.filter _) hmembers
  have hsum := List.sum_lt_sum _ _ hle ⟨_, hp, hlt⟩
  have htwo : 2 ≤ weight (block cfg cfg.groups[i] (members cfg.groups ds i)) := by
    have hpos : weight (block cfg cfg.groups[i] (members cfg.groups ds i)) ≠ 0 :=
      Nat.ne_zero_of_lt hlt
    rw [weight_block] at hpos ⊢
    split
    · next hempty => exact absurd (if_pos hempty) hpos
    · omega
  have htotal : 2 ≤ (cfg.groups.zipIdx.map fun p =>
      weight (block cfg p.1 (members cfg.groups ds p.2))).sum :=
    Nat.le_trans htwo (List.le_sum_of_mem (List.mem_map.mpr ⟨_, hp, rfl⟩))
  rw [arranged, arranged, length_joinBlocks, length_joinBlocks, List.map_map, List.map_map,
    Function.comp_def, Function.comp_def]
  omega

/-! ## Grouping again -/

theorem home?_congr {a b : Statement} (h : a.normalized = b.normalized) (groups : List Group) :
    home? groups a = home? groups b := by
  simp only [home?, Group.accepts_congr h]

theorem exists_of_mem_printed {t : Statement} (h : t ∈ printed cfg ss) :
    ∃ s ∈ ss, t = s.asPrinted cfg ∧ ∃ i, home? cfg.groups s = some i := by
  rw [printed_eq] at h
  obtain ⟨p, -, ht⟩ := List.mem_flatMap.mp h
  obtain ⟨s, hs, heq, hhome⟩ := exists_of_mem_printedAt ht
  exact ⟨s, hs, heq, p.2, hhome⟩

/-- No two printed statements are the same on one line if printing changes none on one line. -/
theorem nodup_printed (h : ∀ s ∈ ss, (s.asPrinted cfg).normalized = s.normalized) :
    ((printed cfg ss).map (·.normalized)).Nodup := by
  rw [printed_eq, List.map_flatMap, List.nodup_flatMap]
  refine ⟨fun p _ => ?_, (Statement.pairwise_zipIdx cfg.groups).imp fun {p q} hpq t hp hq => ?_⟩
  · have hperm : (sorted cfg (members cfg.groups (distinct ss) p.2)).Perm
        (members cfg.groups (distinct ss) p.2) :=
      List.mergeSort_perm ..
    have hlines : (printedAt cfg ss p.2).map (·.normalized) =
        (sorted cfg (members cfg.groups (distinct ss) p.2)).map (·.normalized) := by
      rw [printedAt, List.map_map]
      refine List.map_congr_left fun s hs => h s ?_
      exact mem_of_mem_distinctFrom (List.mem_filter.mp (hperm.mem_iff.mp hs)).1
    rw [hlines, (hperm.map _).nodup_iff]
    exact (nodup_distinctFrom [] ss).1.sublist (List.filter_sublist.map _)
  · obtain ⟨_, hap, rfl⟩ := List.mem_map.mp hp
    obtain ⟨_, hbq, hab⟩ := List.mem_map.mp hq
    obtain ⟨a, ha, rfl, hi⟩ := exists_of_mem_printedAt hap
    obtain ⟨b, hb, rfl, hj⟩ := exists_of_mem_printedAt hbq
    -- the same on one line, they have the same group
    rw [h a ha, h b hb] at hab
    have hhome := home?_congr hab cfg.groups
    rw [hi, hj, Option.some.injEq] at hhome
    omega

theorem layout_printed_iff (h : ∀ s ∈ ss, s.Settles cfg) :
    layout cfg (printed cfg ss) = layout cfg ss ↔ ((printed cfg ss).map (·.normalized)).Nodup := by
  rw [← arranged_printed h, layout_eq_arranged, ← distinct_eq_self_iff]
  constructor
  · intro heq
    by_contra hne
    have hlt := @length_arranged_lt cfg _ _ (distinctFrom_sublist [] (printed cfg ss)) hne
      fun t ht => by
      obtain ⟨s, hs, rfl, i, hi⟩ := exists_of_mem_printed ht
      exact ⟨i, by rw [(h s hs).home?, hi]⟩
    rw [← distinct, heq] at hlt
    exact Nat.lt_irrefl _ hlt
  · intro heq
    rw [heq]

/-- Let the imports that are broken be plain, and the groups steady if there are any. Then grouping
the printed statements again prints the same lines exactly if no two of them are the same on one
line, and this is so if none is broken; and grouping a third time prints what the second did. -/
theorem layout_printed (h : ∀ s ∈ ss, ∀ i ∈ s.broken? cfg, i.isPlain = true ∧ ∀ g ∈ cfg.groups,
      g.isSteady = true) :
    (layout cfg (printed cfg ss) = layout cfg ss ↔ ((printed cfg ss).map (·.normalized)).Nodup) ∧
      ((∀ s ∈ ss, s.broken? cfg = none) → layout cfg (printed cfg ss) = layout cfg ss) ∧
      layout cfg (printed cfg (printed cfg ss)) = layout cfg (printed cfg ss) := by
  have hsettles : ∀ s ∈ ss, s.Settles cfg := fun s hs => settles_of_steady (h s hs)
  have hiff := layout_printed_iff hsettles
  refine ⟨hiff, fun hwhole => ?_, ?_⟩
  · refine hiff.mpr (nodup_printed fun s hs => ?_)
    rw [normalized_asPrinted, hwhole s hs]
  · have hagain : ∀ t ∈ printed cfg ss, t.Settles cfg ∧ t.asPrinted cfg = t := by
      intro t ht
      obtain ⟨s, hs, rfl, -⟩ := exists_of_mem_printed ht
      exact ⟨(hsettles s hs).again, (hsettles s hs).asPrinted⟩
    refine (layout_printed_iff fun t ht => (hagain t ht).1).mpr (nodup_printed fun t ht => ?_)
    rw [(hagain t ht).2]

/-- An import that is broken and changes its quotes stays in its group, and its
lines stay as they are. -/
theorem layout_printed_broken :
    let cfg : Settings := {
      columnWidth := 20
      groups := [
        { label := "// M".toList, matchers := ["./".toList, "'m'".toList, "\"m\"".toList] },
        Group.other] }
    let z : Statement := { text := "import z from 'z';".toList }
    let m : Statement := {
      text := "import \x7b b, a \x7d from 'm';".toList
      leading := ["// c".toList] }
    (∀ s ∈ [z, m], ∀ i ∈ s.broken? cfg, i.isPlain = true ∧ ∀ g ∈ cfg.groups, g.isSteady = true) ∧
      (m.broken? cfg).isSome = true ∧ layout cfg (printed cfg [z, m]) = layout cfg [z, m] ∧
      layout cfg (printed cfg (printed cfg [z, m])) = layout cfg (printed cfg [z, m]) := by
  intro cfg z m
  have h : ∀ s ∈ [z, m], ∀ i ∈ s.broken? cfg, i.isPlain = true ∧ ∀ g ∈ cfg.groups,
      g.isSteady = true := by
    decide +kernel
  obtain ⟨hiff, -, hagain⟩ := layout_printed h
  exact ⟨h, by decide +kernel, hiff.mpr (by decide +kernel), hagain⟩

/-- Two imports that are printed alike are one when they are grouped again; a matcher in one kind of
quotes loses the import it took; and the end of a line of a comment between the names is lost, so
that each time a comma is added to it. -/
theorem layout_printed_ne :
    let cfg : Settings := { columnWidth := 20, groups := [Group.other] }
    let quoted : Settings := {
      columnWidth := 20
      groups := [{ label := "// M".toList, matchers := ["'m'".toList] }, Group.other] }
    let single : Statement := { text := "import \x7b a, b \x7d from 'm';".toList }
    let double : Statement := { text := "import \x7b a, b \x7d from \"m\";".toList }
    let noted : Statement := { text := "import \x7b a, // c\n  b \x7d from 'm';".toList }
    cfg.Accepted ∧ quoted.Accepted ∧
      layout cfg (printed cfg [single, double]) ≠ layout cfg [single, double] ∧
      layout quoted (printed quoted [single]) ≠ layout quoted [single] ∧
      layout cfg (printed cfg [noted]) ≠ layout cfg [noted] := by
  intro cfg quoted single double noted
  refine ⟨⟨[("column_width".toList, .int 20), ("groups".toList, .list [])], rfl⟩,
    ⟨[("column_width".toList, .int 20),
      ("groups".toList, .list
        [.table [("label".toList, .text "// M".toList),
          ("matchers".toList, .list [.text "'m'".toList])]])], rfl⟩,
          fun heq => ?_, by decide +kernel, by decide +kernel⟩
  have hsettles : ∀ s ∈ [single, double], s.Settles cfg := fun s hs => settles_of_steady (by
    revert s
    decide +kernel)
  have hmembers : members cfg.groups (distinct [single, double]) 0 = [single, double] := by
    decide +kernel
  have hperm : (printed cfg [single, double]).Perm
      [single.asPrinted cfg, double.asPrinted cfg] := by
    have hgroups : cfg.groups.zipIdx = [(Group.other, 0)] := rfl
    rw [printed_eq, hgroups, List.flatMap_singleton, printedAt, hmembers]
    exact (List.mergeSort_perm ..).map _
  have hnodup := (layout_printed_iff hsettles).mp heq
  rw [(hperm.map _).nodup_iff] at hnodup
  revert hnodup
  decide +kernel

end Grouping

end SourceLayout
