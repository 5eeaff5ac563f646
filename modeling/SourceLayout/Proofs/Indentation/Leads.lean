import SourceLayout.Proofs.Alphabet
import SourceLayout.Proofs.Lines
import SourceLayout.Indent

/-! What lines are indented with, and what can be told from it. A line counts by the blanks in
front of its first character that is not blank, so nothing behind that character matters. The
leads of a text are those of its lines, and the unit that they show is known once they all fit it
and one of them is the unit. -/

namespace SourceLayout
open Text

namespace IndentStyle

/-! ## Lines -/

theorem isBlank_of_isLead {c : Char} (h : isLead c = true) : isBlank c = true := by
  simp only [isLead, Bool.or_eq_true, beq_iff_eq] at h
  rcases h with rfl | rfl <;> decide

@[simp] theorem evidence_nil : evidence [] = none := rfl

theorem evidence_of_blank {l : Text} (h : isBlankLine l = true) : evidence l = none := by
  simp [evidence, trim_blank h]

/-- The lead of a line is that of the blanks in front of its first character that is not blank. -/
theorem evidence_append_cons {i : Text} (hi : isBlankLine i = true) {c : Char}
    (hc : isBlank c = false) (x : Text) :
    evidence (i ++ c :: x) =
      if c == '*' || (i.takeWhile isLead).isEmpty then none else some (i.takeWhile isLead) := by
  have htrim : trim (i ++ c :: x) = c :: trimRight x := by
    have hone : trim [c] = [c] := trim_eq_self (by simp [hc]) (by simp [hc])
    rw [trim_blank_append hi, ← List.singleton_append, trim_append hone (List.cons_ne_nil _ _)]
    rfl
  have hlead : (i ++ c :: x).takeWhile isLead = i.takeWhile isLead := by
    have hstop : (c :: x).takeWhile isLead = [] := by
      have : isLead c = false := Bool.eq_false_iff.mpr fun h => by simp [isBlank_of_isLead h] at hc
      simp [this]
    rw [List.takeWhile_append, hstop, List.append_nil]
    split
    · next h => exact (List.takeWhile_prefix _).eq_of_length h |>.symm
    · rfl
  simp only [evidence, htrim, hlead]
  simp

theorem exists_shown {l : Text} (h : isBlankLine l = false) :
    ∃ i c x, l = i ++ c :: x ∧ isBlankLine i = true ∧ isBlank c = false := by
  cases hx : trimLeft l with
  | nil =>
    have hl := indentOf_append_trimLeft l
    rw [hx, List.append_nil] at hl
    rw [← hl, isBlankLine_indentOf] at h
    cases h
  | cons c x =>
    refine ⟨indentOf l, c, x, ?_, isBlankLine_indentOf l, head_trimLeft (by rw [hx]; rfl)⟩
    rw [← hx, indentOf_append_trimLeft]

/-- What stands behind a text that shows something does not matter. -/
theorem evidence_append {l : Text} (h : isBlankLine l = false) (r : Text) :
    evidence (l ++ r) = evidence l := by
  obtain ⟨i, c, x, rfl, hi, hc⟩ := exists_shown h
  rw [List.append_assoc, List.cons_append, evidence_append_cons hi hc, evidence_append_cons hi hc]

theorem evidence_of_isPrefix {p l : Text} (hp : p <+: l) (h : isBlankLine p = false) :
    evidence p = evidence l := by
  obtain ⟨r, rfl⟩ := hp
  exact (evidence_append h r).symm

@[simp] theorem evidence_trimRight (l : Text) : evidence (trimRight l) = evidence l := by
  obtain ⟨b, hl, hb⟩ := trimRight_append l
  cases h : isBlankLine (trimRight l) with
  | true =>
    rw [evidence_of_blank h, evidence_of_blank]
    rw [hl, isBlankLine, List.all_append, ← isBlankLine, h]
    exact hb
  | false =>
    conv => rhs; rw [hl]
    rw [evidence_append h]

/-! ## Lines that are indented with what satisfies `P` -/

variable {P : Text → Prop}

/-- A line is not indented, does not count, or is indented with what satisfies `P`. -/
def Led (P : Text → Prop) (l : Text) : Prop := ∀ lead ∈ evidence l, P lead

/-- Lines may be indented with the text: it is empty or satisfies `P`. -/
def Margin (P : Text → Prop) (i : Text) : Prop := (∀ c ∈ i, isLead c = true) ∧ (i = [] ∨ P i)

theorem Led.of_isPrefix {p l : Text} (h : Led P l) (hp : p <+: l) : Led P p := by
  cases hb : isBlankLine p with
  | true =>
    rw [Led, evidence_of_blank hb]
    simp
  | false =>
    rw [Led, evidence_of_isPrefix hp hb]
    exact h

theorem Led.trimRight {l : Text} (h : Led P l) : Led P (trimRight l) := by
  rw [Led, evidence_trimRight]
  exact h

theorem Led.append {l : Text} (h : Led P l) (hb : isBlankLine l = false) (r : Text) :
    Led P (l ++ r) := by
  rw [Led, evidence_append hb]
  exact h

theorem led_nil : Led P [] := fun _ h => nomatch h

theorem led_getD {ls : List Text} (h : ∀ l ∈ ls, Led P l) (i : Nat) : Led P (ls.getD i []) := by
  rw [List.getD_eq_getElem?_getD]
  cases hl : ls[i]? with
  | none => exact led_nil
  | some l => exact h l (List.mem_of_getElem? hl)

theorem isBlankLine_of_leads {i : Text} (h : ∀ c ∈ i, isLead c = true) : isBlankLine i = true :=
  List.all_eq_true.mpr fun c hc => isBlank_of_isLead (h c hc)

theorem evidence_leads {i : Text} (hi : ∀ c ∈ i, isLead c = true) {c : Char}
    (hc : isBlank c = false) (x : Text) :
    evidence (i ++ c :: x) = if c == '*' || i.isEmpty then none else some i := by
  have hlead : i.takeWhile isLead = i := by
    simpa using @List.takeWhile_append_of_pos _ isLead i [] hi
  rw [evidence_append_cons (isBlankLine_of_leads hi) hc, hlead]

theorem evidence_front {i : Text} (hi : ∀ c ∈ i, isLead c = true) (hne : i ≠ []) {c : Char}
    (hc : isBlank c = false) (hstar : c ≠ '*') (x : Text) : evidence (i ++ c :: x) = some i := by
  rw [evidence_leads hi hc, if_neg]
  simp [hstar, hne]

theorem Margin.nil : Margin P [] := ⟨by simp, .inl rfl⟩

/-- A text that begins with what is not blank may stand behind a margin. -/
theorem Margin.led {i : Text} (h : Margin P i) {x : Text} (hx : ∀ c ∈ x.head?, isBlank c = false) :
    Led P (i ++ x) := by
  intro lead hlead
  cases x with
  | nil =>
    rw [List.append_nil, evidence_of_blank (isBlankLine_of_leads h.1)] at hlead
    cases hlead
  | cons c x =>
    rw [evidence_leads h.1 (hx c rfl)] at hlead
    split at hlead
    · cases hlead
    · next hne =>
      cases hlead
      simp only [Bool.or_eq_true, List.isEmpty_iff, not_or] at hne
      exact h.2.resolve_left hne.2

theorem Margin.led_cons {i : Text} (h : Margin P i) {c : Char} (hc : isBlank c = false) (x : Text) :
    Led P (i ++ c :: x) := h.led (by simpa using hc)

theorem Margin.led_trim {i : Text} (h : Margin P i) (t : Text) : Led P (i ++ trim t) :=
  h.led fun _ hc => head_trim hc

/-- A line that shows something and is led: whatever is put behind it, it stays so. -/
def Fronted (P : Text → Prop) (l : Text) : Prop := Led P l ∧ isBlankLine l = false

theorem Fronted.append {l : Text} (h : Fronted P l) (r : Text) : Fronted P (l ++ r) := by
  refine ⟨h.1.append h.2 r, ?_⟩
  rw [isBlankLine, List.all_append, ← isBlankLine, h.2, Bool.false_and]

theorem Fronted.trimRight {l : Text} (h : Fronted P l) : Fronted P (trimRight l) := by
  refine ⟨h.1.trimRight, Bool.eq_false_iff.mpr fun hb => ?_⟩
  obtain ⟨b, hl, hblank⟩ := trimRight_append l
  have hshown := h.2
  rw [hl, isBlankLine, List.all_append, ← isBlankLine, hb, Bool.true_and, ← isBlankLine,
    hblank] at hshown
  cases hshown

theorem Margin.fronted {i : Text} (h : Margin P i) {c : Char} (hc : isBlank c = false) (x : Text) :
    Fronted P (i ++ c :: x) :=
  ⟨h.led_cons hc x, isBlankLine_of_mem (by simp) hc⟩

/-- A property of what lines are indented with that one more unit keeps. -/
structure Scale (u : Text) (P : Text → Prop) : Prop where
  lead : ∀ c ∈ u, isLead c = true
  first : P u
  next : ∀ b, P b → P (b ++ u)

theorem Margin.step {u i : Text} (hs : Scale u P) (h : Margin P i) : Margin P (i ++ u) := by
  refine ⟨List.forall_mem_append.mpr ⟨h.1, hs.lead⟩, .inr ?_⟩
  rcases h.2 with rfl | hp
  · exact hs.first
  · exact hs.next i hp

/-! ## Texts -/

def Flat (c : Char) : Prop := isLineBoundary c = true → c = '\n'

instance : DecidablePred Flat :=
  fun c => inferInstanceAs (Decidable (isLineBoundary c = true → c = '\n'))

theorem splitWhen_congr {α : Type} {p q : α → Bool} {l : List α} (h : ∀ a ∈ l, p a = q a) :
    splitWhen p l = splitWhen q l := by
  induction l with
  | nil => rfl
  | cons a l ih =>
    obtain ⟨ha, hl⟩ := List.forall_mem_cons.mp h
    rw [splitWhen, splitWhen, ha, ih hl]

/-- The leads of a text that only line feeds cut into lines. -/
theorem leads_of_flat {t : Text} (h : Over Flat (unifyBreaks t)) :
    leads t = (lines (unifyBreaks t)).filterMap evidence := by
  have hsplit : splitWhen isLineBoundary (unifyBreaks t) = lines (unifyBreaks t) := by
    refine splitWhen_congr fun c hc => Bool.eq_iff_iff.mpr ?_
    rw [beq_iff_eq]
    exact ⟨h c hc, fun he => he ▸ by decide⟩
  rw [leads, shownLines, hsplit]
  split
  · next hlast =>
    obtain ⟨above, habove⟩ := List.getLast?_eq_some_iff.mp (beq_iff_eq.mp hlast)
    rw [habove, List.dropLast_concat, List.filterMap_append]
    simp
  · rfl

theorem not_mem_of_flat {t : Text} (h : Over Flat t) : '\r' ∉ t :=
  fun hmem => absurd (h _ hmem (by decide)) (by decide)

theorem unifyBreaks_append {a : Text} (h : '\r' ∉ a) (b : Text) :
    unifyBreaks (a ++ b) = a ++ unifyBreaks b := by
  induction a with
  | nil => rfl
  | cons c a ih =>
    rw [List.mem_cons, not_or] at h
    rw [List.cons_append, unifyBreaks, ih h.2]
    · rfl
    · intro r he
      exact absurd he.symm h.1

theorem unifyBreaks_joinLines {lineBreak : Text}
    (hb : lineBreak = ['\n'] ∨ lineBreak = ['\r', '\n']) {ls : List Text} (h : ∀ l ∈ ls, '\r' ∉ l)
    (final : Bool) :
    unifyBreaks (joinLines lineBreak ls ++ if final then lineBreak else []) =
      joinLines ['\n'] ls ++ if final then ['\n'] else [] := by
  have hbreak : ∀ t, unifyBreaks (lineBreak ++ t) = '\n' :: unifyBreaks t := by
    rcases hb with rfl | rfl <;> intro t <;> rfl
  have hfinal : unifyBreaks (if final then lineBreak else []) = if final then ['\n'] else [] := by
    cases final with
    | true =>
      have h := hbreak []
      rwa [List.append_nil] at h
    | false => rfl
  induction ls with
  | nil => simpa [joinLines, List.intercalate] using hfinal
  | cons l r ih =>
    obtain ⟨hl, hr⟩ := List.forall_mem_cons.mp h
    cases r with
    | nil => rw [joinLines_singleton, joinLines_singleton, unifyBreaks_append hl, hfinal]
    | cons k r =>
      rw [joinLines_cons_cons, joinLines_cons_cons, List.append_assoc, List.append_assoc,
        unifyBreaks_append hl, hbreak, ih hr]
      simp

theorem filterMap_lines_joinLines (ls : List Text) (final : Bool) :
    (lines (joinLines ['\n'] ls ++ if final then ['\n'] else [])).filterMap evidence =
      ls.flatMap fun l => (lines l).filterMap evidence := by
  have hcut : ∀ a b : Text, lines (a ++ '\n' :: b) = lines a ++ lines b :=
    fun a b => splitWhen_append_cons a rfl b
  have hempty : (lines []).filterMap evidence = [] := rfl
  have hfinal : ∀ a : Text, (lines (a ++ if final then ['\n'] else [])).filterMap evidence =
      (lines a).filterMap evidence := by
    intro a
    cases final with
    | true => simp [hcut, hempty]
    | false => simp
  rw [hfinal]
  induction ls with
  | nil => exact hempty
  | cons l r ih =>
    cases r with
    | nil => simp
    | cons k r =>
      rw [joinLines_cons_cons, List.singleton_append, hcut, List.filterMap_append, ih]
      rfl

/-- The leads of lines that are joined are those of each of them. -/
theorem leads_joinLines {lineBreak : Text} (hb : lineBreak = ['\n'] ∨ lineBreak = ['\r', '\n'])
    {ls : List Text} (h : ∀ l ∈ ls, Over Flat l) (final : Bool) :
    leads (joinLines lineBreak ls ++ if final then lineBreak else []) =
      ls.flatMap fun l => (lines l).filterMap evidence := by
  have hunify := unifyBreaks_joinLines hb (fun l hl => not_mem_of_flat (h l hl)) final
  have hnewline : Flat '\n' := fun _ => rfl
  have hflat : Over Flat (joinLines ['\n'] ls ++ if final then ['\n'] else []) := by
    refine over_append.mpr ⟨over_intercalate (by simpa using hnewline) h, ?_⟩
    split <;> simp [hnewline]
  rw [leads_of_flat (by rw [hunify]; exact hflat), hunify, filterMap_lines_joinLines]

/-! ## Units -/

theorem foldl_gcd_dvd (ws : List Nat) (w : Nat) :
    ws.foldl Nat.gcd w ∣ w ∧ ∀ x ∈ ws, ws.foldl Nat.gcd w ∣ x := by
  induction ws generalizing w with
  | nil => simp
  | cons y ws ih =>
    obtain ⟨hgcd, hrest⟩ := ih (w.gcd y)
    exact ⟨Nat.dvd_trans hgcd (Nat.gcd_dvd_left w y),
      List.forall_mem_cons.mpr ⟨Nat.dvd_trans hgcd (Nat.gcd_dvd_right w y), hrest⟩⟩

theorem dvd_foldl_gcd {n : Nat} {ws : List Nat} {w : Nat} (hw : n ∣ w) (h : ∀ x ∈ ws, n ∣ x) :
    n ∣ ws.foldl Nat.gcd w := by
  induction ws generalizing w with
  | nil => exact hw
  | cons y ws ih =>
    obtain ⟨hy, hws⟩ := List.forall_mem_cons.mp h
    exact ih (Nat.dvd_gcd hw hy) hws

theorem sizeOf_mem (ws : List Nat) : sizeOf ws ∈ [2, 3, 4, 8] := by
  have hchoose : ∀ n : Nat, (if [2, 3, 4, 8].contains n then n else defaultSize) ∈
      [2, 3, 4, 8] := by
    intro n
    split
    · next h => simpa using h
    · decide
  unfold sizeOf
  split
  · decide
  · exact hchoose _

theorem one_le_sizeOf (ws : List Nat) : 1 ≤ sizeOf ws := by
  have hmem := sizeOf_mem ws
  simp only [List.mem_cons, List.not_mem_nil, or_false] at hmem
  omega

/-- The size of a level is `n` if one width is `n` and the others that count are
whole multiples of it. -/
theorem sizeOf_eq {n : Nat} {ws : List Nat} (hn : n ∈ [2, 3, 4, 8]) (hmem : n ∈ ws)
    (h : ∀ w ∈ ws, n ∣ w ∨ 8 < w) : sizeOf ws = n := by
  have hle : n ≤ 8 ∧ n ≠ 1 := by
    simp only [List.mem_cons, List.not_mem_nil, or_false] at hn
    omega
  have hfilter : n ∈ ws.filter (· ≤ 8) := List.mem_filter.mpr ⟨hmem, by simpa using hle.1⟩
  have hdvd : ∀ w ∈ ws.filter (· ≤ 8), n ∣ w := by
    intro w hw
    obtain ⟨hw, hw8⟩ := List.mem_filter.mp hw
    exact (h w hw).resolve_right (by simpa using hw8)
  unfold sizeOf
  split
  · next he => simp [he] at hfilter
  · next w ws' he =>
    rw [he] at hfilter hdvd
    obtain ⟨hw, hws⟩ := List.forall_mem_cons.mp hdvd
    obtain ⟨hgcd, hgcds⟩ := foldl_gcd_dvd ws' w
    have hlower : ws'.foldl Nat.gcd w ∣ n :=
      (List.mem_cons.mp hfilter).elim (fun he => he ▸ hgcd) (hgcds n)
    have hsize : ws'.foldl Nat.gcd w = n := Nat.dvd_antisymm hlower (dvd_foldl_gcd hw hws)
    simp only [hsize, if_neg hle.2]
    rw [if_pos (by simpa using hn)]

theorem ofLeads_spaces {ls : List Text} (h : ∀ l ∈ ls, '\t' ∉ l) :
    ofLeads ls = ⟨.spaces, sizeOf (ls.map List.length)⟩ := by
  have htabbed : ls.filter (·.contains '\t') = [] := by simpa using h
  have hspaced : ls.filter (not ∘ (·.contains '\t')) = ls := by simpa using h
  rw [ofLeads, List.partition_eq_filter_filter, htabbed, hspaced]
  simp

theorem ofLeads_tabs {ls : List Text} (h : ∀ l ∈ ls, '\t' ∈ l) (hne : ls ≠ []) :
    ofLeads ls = ⟨.tabs, 1⟩ := by
  have htabbed : ls.filter (·.contains '\t') = ls := by simpa using h
  have hspaced : ls.filter (not ∘ (·.contains '\t')) = [] := by simpa using h
  rw [ofLeads, List.partition_eq_filter_filter, htabbed, hspaced]
  simp [List.length_pos_iff.mpr hne]

end IndentStyle

namespace Settings
open IndentStyle

/-- What lines may be indented with so that a unit stays as it is: tabs among the leads if the
unit is a tab, and otherwise whole units of spaces or too many of them to count. A fixed size
leaves the kind to tell only. -/
def Fits (cfg : Settings) (unit lead : Text) : Prop :=
  if unit = ['\t'] then '\t' ∈ lead
  else '\t' ∉ lead ∧ (cfg.indentSize.isSome = true ∨ unit.length ∣ lead.length ∨ 8 < lead.length)

instance (cfg : Settings) (unit lead : Text) : Decidable (cfg.Fits unit lead) :=
  inferInstanceAs (Decidable (if unit = ['\t'] then _ else _))

theorem indentUnit_spec (s : Settings) :
    (s.indentKind = some .tabs ∧ s.indentUnit = ['\t']) ∨
      (s.indentKind ≠ some .tabs ∧
        s.indentUnit = List.replicate (s.indentSize.getD defaultSize) ' ') := by
  unfold indentUnit
  split
  · next h => exact .inl ⟨h, rfl⟩
  · next h => exact .inr ⟨h, rfl⟩

theorem replicate_ne_tab (n : Nat) : List.replicate n ' ' ≠ ['\t'] := by
  intro h
  have hmem : '\t' ∈ List.replicate n ' ' := by rw [h]; exact List.mem_singleton_self _
  exact absurd (List.eq_of_mem_replicate hmem) (by decide)

theorem scale_fits (cfg s : Settings) : Scale s.indentUnit (cfg.Fits s.indentUnit) := by
  rcases s.indentUnit_spec with ⟨-, hu⟩ | ⟨-, hu⟩
  · rw [hu]
    refine ⟨List.forall_mem_singleton.mpr rfl, by simp [Fits], fun b hb => ?_⟩
    simp [Fits]
  · rw [hu]
    have hspace : ∀ c ∈ List.replicate (s.indentSize.getD defaultSize) ' ', c = ' ' :=
      fun c hc => List.eq_of_mem_replicate hc
    have htab : '\t' ∉ List.replicate (s.indentSize.getD defaultSize) ' ' :=
      fun h => absurd (hspace _ h) (by decide)
    refine ⟨fun c hc => hspace c hc ▸ by decide, ?_, fun b hb => ?_⟩
    · rw [Fits, if_neg (replicate_ne_tab _)]
      exact ⟨htab, .inr (.inl (Nat.dvd_refl _))⟩
    · rw [Fits, if_neg (replicate_ne_tab _)] at hb ⊢
      obtain ⟨hb, hlength⟩ := hb
      refine ⟨by simp only [List.mem_append, hb, htab, or_self, not_false_eq_true], ?_⟩
      rw [List.length_append]
      rcases hlength with h | h | h
      · exact .inl h
      · exact .inr (.inl (Nat.dvd_add h (Nat.dvd_refl _)))
      · exact .inr (.inr (by omega))

theorem scale_true (s : Settings) : Scale s.indentUnit fun _ => True :=
  ⟨(s.scale_fits s).lead, trivial, fun _ _ => trivial⟩

theorem indentUnit_resolveIndent {cfg : Settings} (h : cfg.indentKind ≠ some .tabs) (t : Text) :
    (cfg.resolveIndent t).indentUnit =
      if cfg.indentKind = none ∧ (detect t).kind = .tabs then ['\t']
      else List.replicate
        (cfg.indentSize.getD (if (detect t).kind = .spaces then (detect t).size else defaultSize))
        ' ' := by
  cases hkind : cfg.indentKind with
  | none =>
    cases hd : (detect t).kind <;> simp [resolveIndent, indentUnit, hkind, hd]
  | some k =>
    cases k with
    | tabs => exact absurd hkind h
    | spaces =>
      cases hsize : cfg.indentSize with
      | some n => simp [resolveIndent, indentUnit, hkind, hsize]
      | none => cases hd : (detect t).kind <;> simp [resolveIndent, indentUnit, hkind, hsize, hd]

/-- Leads that all fit a unit are enough to tell it: one of them is the unit, or is any at all if it
is a tab, or spaces of a fixed size are used. -/
def Tells (cfg : Settings) (unit : Text) (ls : List Text) : Prop :=
  if unit = ['\t'] then ls ≠ [] else cfg.indentSize.isSome = true ∨ unit ∈ ls

theorem tells_of_mem {cfg : Settings} {unit : Text} {ls : List Text} (h : unit ∈ ls) :
    cfg.Tells unit ls := by
  unfold Tells
  split
  · exact List.ne_nil_of_mem h
  · exact .inr h

/-- The unit of a text is told by another one whose leads fit it too. -/
theorem indentUnit_of_fits {cfg : Settings} {t t' : Text}
    (ht : ∀ lead ∈ leads t, cfg.Fits (cfg.resolveIndent t).indentUnit lead)
    (ht' : ∀ lead ∈ leads t', cfg.Fits (cfg.resolveIndent t).indentUnit lead)
    (htells : cfg.Tells (cfg.resolveIndent t).indentUnit (leads t')) :
    (cfg.resolveIndent t').indentUnit = (cfg.resolveIndent t).indentUnit := by
  by_cases hfixed : cfg.indentKind = some .tabs
  · simp [resolveIndent, hfixed]
  rw [indentUnit_resolveIndent hfixed t']
  have hunit := indentUnit_resolveIndent hfixed t
  generalize (cfg.resolveIndent t).indentUnit = u at ht ht' htells hunit ⊢
  by_cases htab : u = ['\t']
  · -- tabs show in all leads, and there is one
    simp only [Fits, Tells, htab, if_true] at ht' htells
    have hdetect : detect t' = ⟨.tabs, 1⟩ := ofLeads_tabs ht' htells
    have hkind : cfg.indentKind = none := by
      split at hunit
      · next h => exact h.1
      · exact absurd (hunit.symm.trans htab) (replicate_ne_tab _)
    simp [hdetect, hkind, htab]
  · -- no lead has a tab, so the sizes decide
    simp only [Fits, Tells, htab, if_false] at ht ht' htells
    have hdetect : detect t = ⟨.spaces, IndentStyle.sizeOf ((leads t).map List.length)⟩ :=
      ofLeads_spaces fun l hl => (ht l hl).1
    have hdetect' : detect t' = ⟨.spaces, IndentStyle.sizeOf ((leads t').map List.length)⟩ :=
      ofLeads_spaces fun l hl => (ht' l hl).1
    simp only [hdetect, reduceCtorEq, and_false, if_false, if_true] at hunit
    simp only [hdetect', reduceCtorEq, and_false, if_false, if_true]
    cases hsize : cfg.indentSize with
    | some n => rw [hunit, hsize]; rfl
    | none =>
      simp only [hsize, Option.isSome_none, Bool.false_eq_true, false_or] at ht' htells
      rw [hsize, Option.getD_none] at hunit
      have hlength : u.length = IndentStyle.sizeOf ((leads t).map List.length) := by
        rw [hunit, List.length_replicate]
      rw [hunit, Option.getD_none, sizeOf_eq (hlength ▸ sizeOf_mem _) (List.mem_map_of_mem htells),
        hlength]
      intro w hw
      obtain ⟨lead, hlead, rfl⟩ := List.mem_map.mp hw
      exact (ht' lead hlead).2

end Settings

end SourceLayout
