import SourceLayout.Proofs.Alphabet
import SourceLayout.Proofs.ImportReadBack

/-! Line breaks. A file is read with plain line feeds and written with one kind of break throughout,
so a file that mixes the two kinds is changed even where there is nothing to lay out. A file whose
breaks are pairs keeps pairs, except for breaks inside the texts that an import block writes uncut:
the labels of its groups and the comments behind its statements. -/

namespace SourceLayout
open Text

namespace Text

/-- Every line feed has a carriage return in front of it. -/
def Paired (t : Text) : Prop := ∀ a b, t = a ++ '\n' :: b → a.getLast? = some '\r'

def OneKind (t : Text) : Prop := hasPairedBreak t = false ∨ Paired t

/-- The text with every line feed written as `lineBreak`. -/
def breakWith (lineBreak t : Text) : Text := t.flatMap fun c => if c = '\n' then lineBreak else [c]

@[simp] theorem breakWith_nil (lineBreak : Text) : breakWith lineBreak [] = [] := rfl

theorem breakWith_cons (lineBreak : Text) (c : Char) (t : Text) :
    breakWith lineBreak (c :: t) = (if c = '\n' then lineBreak else [c]) ++ breakWith lineBreak t :=
  rfl

theorem breakWith_append (lineBreak a b : Text) :
    breakWith lineBreak (a ++ b) = breakWith lineBreak a ++ breakWith lineBreak b :=
  List.flatMap_append

theorem breakWith_of_not_mem (lineBreak : Text) {t : Text} (h : '\n' ∉ t) :
    breakWith lineBreak t = t := by
  induction t with
  | nil => rfl
  | cons c t ih =>
    rw [List.mem_cons, not_or] at h
    rw [breakWith_cons, if_neg (Ne.symm h.1), ih h.2]
    rfl

@[simp] theorem breakWith_newline (t : Text) : breakWith ['\n'] t = t := by
  induction t with
  | nil => rfl
  | cons c t ih =>
    rw [breakWith_cons, ih]
    split
    · next h => rw [h]; rfl
    · rfl

/-! ## Paired breaks -/

theorem paired_of_not_mem {t : Text} (h : '\n' ∉ t) : Paired t := by
  rintro a b rfl
  simp at h

theorem not_paired_newline (t : Text) : ¬Paired ('\n' :: t) := by
  intro h
  simpa using h [] t rfl

/-- A text is cut between two line breaks unless it is cut inside a pair. -/
theorem paired_append {l r : Text} (h : l.getLast? ≠ some '\r' ∨ r.head? ≠ some '\n') :
    Paired (l ++ r) ↔ Paired l ∧ Paired r := by
  constructor
  · intro hp
    constructor
    · rintro a b rfl
      exact hp a (b ++ r) (by simp)
    · rintro a b rfl
      have hlast := hp (l ++ a) b (by simp)
      cases ha : a.getLast? with
      | some c => simpa [List.getLast?_append, ha] using hlast
      | none =>
        obtain rfl := List.getLast?_eq_none_iff.mp ha
        rw [List.append_nil] at hlast
        simp [hlast] at h
  · rintro ⟨hl, hr⟩ a b heq
    rcases List.append_eq_append_iff.mp heq with ⟨c, rfl, rfl⟩ | ⟨c, rfl, hc⟩
    · rw [List.getLast?_append, hr c b rfl, Option.some_or]
    · cases c with
      | nil =>
        obtain rfl : r = '\n' :: b := hc.symm
        exact absurd hr (not_paired_newline b)
      | cons d c =>
        obtain ⟨rfl, -⟩ := List.cons.inj hc
        exact hl a c rfl

@[simp] theorem paired_break : Paired ['\r', '\n'] := by
  rintro a b h
  match a, h with
  | [c], h =>
    obtain ⟨rfl, -⟩ := List.cons.inj h
    rfl
  | [_, d], h => simp at h
  | _ :: _ :: _ :: _, h => simp at h

theorem paired_break_append (t : Text) : Paired (['\r', '\n'] ++ t) ↔ Paired t := by
  rw [paired_append (.inl (by decide))]
  exact and_iff_right paired_break

theorem paired_joinLines (ls : List Text) :
    Paired (joinLines ['\r', '\n'] ls) ↔ ∀ l ∈ ls, Paired l := by
  induction ls with
  | nil => simp [joinLines, List.intercalate, paired_of_not_mem]
  | cons l r ih =>
    cases r with
    | nil => simp
    | cons k r =>
      rw [joinLines_cons_cons, paired_append (.inr (by simp)), paired_break_append, ih]
      simp

/-- Unifying the breaks of a text and pairing them again gives the text
exactly when all are pairs. -/
theorem breakWith_unifyBreaks (t : Text) :
    breakWith ['\r', '\n'] (unifyBreaks t) = t ↔ Paired t := by
  fun_induction unifyBreaks t with
  | case1 => simp [paired_of_not_mem]
  | case2 r ih =>
    rw [show ('\r' :: '\n' :: r) = ['\r', '\n'] ++ r from rfl, paired_break_append, ← ih,
      breakWith_cons, if_pos rfl]
    simp
  | case3 c r hpair ih =>
    by_cases hc : c = '\n'
    · subst hc
      rw [breakWith_cons, if_pos rfl]
      exact iff_of_false (by simp) (not_paired_newline r)
    · have hcut : [c].getLast? ≠ some '\r' ∨ r.head? ≠ some '\n' := by
        by_cases hr : c = '\r'
        · refine .inr fun hhead => ?_
          obtain ⟨x, rfl⟩ := List.head?_eq_some_iff.mp hhead
          exact hpair x hr rfl
        · exact .inl (by simpa using hr)
      have hone : Paired [c] := paired_of_not_mem (by simpa using Ne.symm hc)
      rw [show c :: r = [c] ++ r from rfl, paired_append hcut, breakWith_cons, if_neg hc, ← ih]
      simp [hone]

instance (t : Text) : Decidable (Paired t) := decidable_of_iff _ (breakWith_unifyBreaks t)

instance (t : Text) : Decidable (OneKind t) := inferInstanceAs (Decidable (_ ∨ _))

/-- Pairing the breaks of a text can be taken back. -/
theorem unifyBreaks_breakWith (t : Text) : unifyBreaks (breakWith ['\r', '\n'] t) = t := by
  induction t with
  | nil => rfl
  | cons c t ih =>
    rw [breakWith_cons]
    by_cases hc : c = '\n'
    · rw [if_pos hc, hc, List.cons_append, List.cons_append, unifyBreaks, List.nil_append, ih]
    · -- no line feed begins a text whose breaks are pairs
      have hhead : (breakWith ['\r', '\n'] t).head? ≠ some '\n' := by
        cases t with
        | nil => simp
        | cons d t =>
          rw [breakWith_cons]
          split
          · simp
          · next hd => simpa using hd
      rw [if_neg hc, List.singleton_append, unifyBreaks, ih]
      rintro r - hr
      simp [hr] at hhead

theorem unifyBreaks_eq_self {t : Text} (h : hasPairedBreak t = false) : unifyBreaks t = t := by
  fun_induction unifyBreaks t with
  | case1 => rfl
  | case2 r ih => simp [hasPairedBreak, occursIn] at h
  | case3 c r _ ih =>
    rw [ih]
    simp only [hasPairedBreak, occursIn, Bool.or_eq_false_iff] at h ⊢
    exact h.2

/-! ## Lines -/

theorem joinLines_lines (lineBreak t : Text) :
    joinLines lineBreak (lines t) = breakWith lineBreak t := by
  induction t with
  | nil => simp [lines, splitWhen]
  | cons c t ih =>
    obtain ⟨l, r, hl, hc⟩ := lines_cons c t
    rw [hl] at ih
    rw [hc, breakWith_cons, ← ih]
    split
    · rw [joinLines_cons_cons, List.nil_append]
    · cases r with
      | nil => simp
      | cons k r => simp [joinLines_cons_cons]

end Text

namespace Document

/-- A file whose lines stay as they are, written with its own kind of break. -/
theorem joinLines_contentLines (lineBreak t : Text) :
    joinLines lineBreak (contentLines t) ++ (if t.getLast? = some '\n' then lineBreak else []) =
      breakWith lineBreak t := by
  unfold contentLines
  by_cases h : t.getLast? = some '\n'
  · obtain ⟨ls, hls⟩ := List.getLast?_eq_some_iff.mp (getLast?_lines_of_newline h)
    have hne : ls ≠ [] := by
      rintro rfl
      have ht := unlines_lines t
      rw [hls] at ht
      simp [← ht, unlines] at h
    rw [if_pos (by simp [h]), if_pos h, ← joinLines_lines, hls, List.dropLast_concat,
      joinLines_concat _ hne, List.append_nil]
  · rw [if_neg (by simp [h]), if_neg h, List.append_nil, joinLines_lines]

theorem breakWith_lineBreakOf (source : Text) :
    breakWith (lineBreakOf source) (unifyBreaks source) = source ↔ OneKind source := by
  unfold lineBreakOf OneKind
  cases h : hasPairedBreak source with
  | false => simp [unifyBreaks_eq_self h]
  | true => simp [breakWith_unifyBreaks]

theorem failures_format (cfg : Settings) (rules : List Rule) (path : String) (nodes : List Node)
    (source : Text) :
    (format cfg rules path nodes source).failures =
      rules.filterMap (Rule.failure? cfg (context cfg (unifyBreaks source) nodes).1) :=
  (runRules_spec cfg _ _ rules).2

/-- Without an import block and without declarations a file is written with its own lines, and its
line breaks are the kind that `lineBreakOf` finds. So nothing is changed exactly when all its
breaks are of one kind. -/
theorem format_without_regions {cfg : Settings} {path : String} {nodes : List Node} {source : Text}
    (himports : (context cfg (unifyBreaks source) nodes).1.imports = none)
    (hdecls : (context cfg (unifyBreaks source) nodes).1.declarations = []) :
    let out := format cfg Rule.standard path nodes source
    out.failures = [] ∧
      out.source = breakWith (lineBreakOf source) (unifyBreaks source) ∧
      (out.source = source ↔ OneKind source) ∧
      (out.modified = false ↔ OneKind source) := by
  intro out
  have hedits : Rule.standard.flatMap
      (Rule.editsOf cfg (context cfg (unifyBreaks source) nodes).1) = [] := by
    rw [Rule.flatMap_editsOf_standard, Rule.importEdits, Rule.declarationEdits, himports, hdecls]
    rfl
  have hsource : out.source = breakWith (lineBreakOf source) (unifyBreaks source) := by
    rw [source_format, hedits, Edit.applyAll_nil, ← getLast?_unifyBreaks, joinLines_contentLines]
  have hsame : out.source = source ↔ OneKind source := by rw [hsource, breakWith_lineBreakOf]
  refine ⟨?_, hsource, hsame, ?_⟩
  · exact failures_format cfg Rule.standard path nodes source
  · rw [← hsame, show out.modified = (out.source != source) from rfl, bne_eq_false_iff_eq]

/-- Two calls on lines that end in pairs, the second with a carriage return of its own. -/
theorem format_without_regions_two_calls :
    let source := "call();\r\nmore();\r\r\n".toList
    let nodes : List Node := [
      { kind := .other, start := ⟨0, 0⟩, stop := ⟨0, 7⟩ },
      { kind := .other, start := ⟨1, 0⟩, stop := ⟨1, 7⟩ }]
    OneKind source ∧ (format {} Rule.standard "" nodes source).source = source ∧
      (format {} Rule.standard "" nodes source).modified = false := by
  intro source nodes
  have hkind : OneKind source := by decide +kernel
  obtain ⟨-, -, hsame, hmodified⟩ :=
    @format_without_regions {} "" nodes source (by decide +kernel) (by decide +kernel)
  exact ⟨hkind, hsame.mpr hkind, hmodified.mpr hkind⟩

/-- One pair in a file with plain line feeds turns all of them into pairs. -/
theorem mixed_breaks_rewritten :
    let source := "call();\r\nmore();\n".toList
    let nodes : List Node := [
      { kind := .other, start := ⟨0, 0⟩, stop := ⟨0, 7⟩ },
      { kind := .other, start := ⟨1, 0⟩, stop := ⟨1, 7⟩ }]
    let ctx := (context {} (unifyBreaks source) nodes).1
    let out := format {} Rule.standard "" nodes source
    ctx.imports = none ∧ ctx.declarations = [] ∧ out.source = "call();\r\nmore();\r\n".toList ∧
      out.source ≠ source ∧ out.modified = true := by
  decide +kernel

end Document

/-! ## Files with paired breaks -/

namespace Text

/-- A property of texts that line feeds alone can break, and that is decided on
both sides of a space. -/
structure LineWise (Q : Text → Prop) : Prop where
  free : ∀ {t : Text}, '\n' ∉ t → Q t
  space : ∀ l r : Text, Q (l ++ ' ' :: r) ↔ Q l ∧ Q r

theorem lineWise_paired : LineWise Paired where
  free := paired_of_not_mem
  space l r := by
    rw [paired_append (.inr (by simp)), ← List.singleton_append, paired_append (.inl (by decide))]
    simp [paired_of_not_mem]

theorem lineWise_free : LineWise fun t => '\n' ∉ t where
  free h := h
  space l r := by simp [not_or]

theorem breakWith_joinLines (lineBreak : Text) (ls : List Text) :
    breakWith lineBreak (joinLines ['\n'] ls) =
      joinLines lineBreak (ls.map (breakWith lineBreak)) := by
  induction ls with
  | nil => rfl
  | cons l r ih =>
    cases r with
    | nil => simp
    | cons k r =>
      simp only [List.map_cons] at ih ⊢
      rw [joinLines_cons_cons, joinLines_cons_cons, breakWith_append, breakWith_append, ih]
      simp [breakWith_cons]

theorem length_breakWith (t : Text) :
    (breakWith ['\r', '\n'] t).length = t.length + t.count '\n' := by
  induction t with
  | nil => rfl
  | cons c t ih =>
    rw [breakWith_cons, List.length_append, ih, List.count_cons, List.length_cons]
    by_cases hc : c = '\n'
    · simp [hc]
      omega
    · simp [hc]
      omega

/-- Pairing the breaks inside the lines makes no difference only where there are none. -/
theorem joinLines_breakWith {ls : List Text} :
    joinLines ['\r', '\n'] (ls.map (breakWith ['\r', '\n'])) = joinLines ['\r', '\n'] ls ↔
      ∀ l ∈ ls, '\n' ∉ l := by
  have hlength : (joinLines ['\r', '\n'] (ls.map (breakWith ['\r', '\n']))).length =
      (joinLines ['\r', '\n'] ls).length + ls.flatten.count '\n' := by
    induction ls with
    | nil => rfl
    | cons l r ih =>
      cases r with
      | nil => simp [length_breakWith]
      | cons k r =>
        simp only [List.map_cons] at ih ⊢
        rw [joinLines_cons_cons, joinLines_cons_cons]
        rw [List.flatten_cons, List.count_append]
        simp only [List.length_append, length_breakWith, ih]
        omega
  constructor
  · intro h l hl hmem
    rw [h] at hlength
    have hzero : ls.flatten.count '\n' = 0 := by omega
    exact List.count_eq_zero.mp hzero (List.mem_flatten.mpr ⟨l, hl, hmem⟩)
  · intro h
    rw [List.map_congr_left fun l hl => breakWith_of_not_mem _ (h l hl), List.map_id']

/-- Lines joined by pairs, with or without a break at the end, are paired if each of them is. -/
theorem paired_joinLines_end (ls : List Text) (final : Bool) :
    Paired (joinLines ['\r', '\n'] ls ++ if final then ['\r', '\n'] else []) ↔
      ∀ l ∈ ls, Paired l := by
  have hcut : (if final then ['\r', '\n'] else [] : Text).head? ≠ some '\n' := by
    split <;> decide
  have hend : Paired (if final then ['\r', '\n'] else []) := by
    split
    · exact paired_break
    · exact paired_of_not_mem List.not_mem_nil
  rw [paired_append (.inr hcut), paired_joinLines]
  exact and_iff_left hend

/-- Joining lines by pairs is pairing the breaks of the lines joined by line feeds, unless a line
holds a line feed itself. -/
theorem joinLines_end_eq_breakWith (ls : List Text) (final : Bool) :
    joinLines ['\r', '\n'] ls ++ (if final then ['\r', '\n'] else []) =
        breakWith ['\r', '\n'] (joinLines ['\n'] ls ++ if final then ['\n'] else []) ↔
      ∀ l ∈ ls, '\n' ∉ l := by
  have hend : breakWith ['\r', '\n'] (if final then ['\n'] else []) = if final then
      ['\r', '\n'] else [] := by
    split <;> rfl
  rw [breakWith_append, breakWith_joinLines, hend, List.append_left_inj, eq_comm,
    joinLines_breakWith]

/-- Pairing the breaks of a text gives a paired text exactly from its unified form. -/
theorem breakWith_eq_iff {t source : Text} (hpaired : Paired source) :
    breakWith ['\r', '\n'] t = source ↔ t = unifyBreaks source := by
  constructor
  · intro h
    rw [← h, unifyBreaks_breakWith]
  · intro h
    rw [h, (breakWith_unifyBreaks source).mpr hpaired]

end Text

namespace Header

theorem lineWise_ofGroup {Q : Text → Prop} (hq : LineWise Q) {cfg : Settings}
    (hfill : cfg.headerChar ≠ '\n') (g : Group) : Q (ofGroup cfg g) ↔ Q (trim g.label) := by
  unfold ofGroup render
  split
  · have hpad : Q (List.replicate (cfg.columnWidth - (trim g.label ++ [' ']).length)
        cfg.headerChar) :=
      hq.free fun h => hfill (List.eq_of_mem_replicate h).symm
    rw [padTo, List.append_assoc, List.singleton_append, hq.space]
    exact and_iff_left hpad
  · rfl

end Header

theorem Statement.lineWise_outputLines {Q : Text → Prop} (hq : LineWise Q) (cfg : Settings)
    (s : Statement) : (∀ l ∈ s.outputLines cfg, Q l) ↔ Q s.trailing := by
  obtain ⟨above, last, hlines⟩ := lines_eq_concat (s.rendered cfg)
  have hfree : ∀ l ∈ above ++ [last], Q l :=
    fun l hl => hq.free (not_mem_of_mem_lines (hlines ▸ hl))
  have hleading : ∀ l ∈ s.leading.flatMap lines, Q l := by
    intro l hl
    obtain ⟨c, -, hl⟩ := List.mem_flatMap.mp hl
    exact hq.free (not_mem_of_mem_lines hl)
  obtain ⟨habove, hlast⟩ := List.forall_mem_append.mp hfree
  have hlast : Q last := hlast last List.mem_cons_self
  have htrailing : Q (last ++ if s.trailing.isEmpty then [] else ' ' :: s.trailing) ↔
      Q s.trailing := by
    split
    · next he =>
      rw [List.append_nil, List.isEmpty_iff.mp he]
      exact iff_of_true hlast (hq.free List.not_mem_nil)
    · rw [hq.space]
      exact and_iff_right hlast
  rw [outputLines, hlines, withTrailing_concat]
  simp only [List.forall_mem_append, List.forall_mem_singleton, htrailing]
  exact ⟨fun h => h.2.2, fun h => ⟨hleading, habove, h⟩⟩

namespace Grouping

/-- The texts that an import block writes uncut, whatever line breaks they hold: the labels of the
groups that have statements, and the comments behind the statements. -/
def uncut (cfg : Settings) (statements : List Statement) : List Text :=
  (printedGroups cfg statements).flatMap fun p => trim p.1.label :: p.2.map Statement.trailing

theorem lineWise_layout {Q : Text → Prop} (hq : LineWise Q) {cfg : Settings}
    (hfill : cfg.headerChar ≠ '\n') (statements : List Statement) :
    (∀ l ∈ layout cfg statements, Q l) ↔ ∀ t ∈ uncut cfg statements, Q t := by
  rw [forall_mem_layout (hq.free List.not_mem_nil), uncut, List.forall_mem_flatMap]
  refine forall_congr' fun p => forall_congr' fun _ => ?_
  rw [List.forall_mem_cons, Header.lineWise_ofGroup hq hfill, List.forall_mem_map]
  simp only [Statement.lineWise_outputLines hq]

end Grouping

namespace Context

def uncut (cfg : Settings) (ctx : Context) : List Text :=
  ctx.imports.toList.flatMap fun b => Grouping.uncut (cfg.resolveIndent ctx.source) b.statements

/-- The lines of the edits for a file without line feeds in its lines have a line-wise property
exactly when the texts that are written uncut have it. -/
theorem lineWise_edits {Q : Text → Prop} (hq : LineWise Q) {cfg : Settings}
    (hfill : cfg.headerChar ≠ '\n') {ctx : Context} (hlines : ∀ l ∈ ctx.lines, '\n' ∉ l) :
    (∀ e ∈ Rule.importEdits cfg ctx ++ Rule.declarationEdits cfg ctx, ∀ l ∈ e.lines, Q l) ↔
      ∀ t ∈ ctx.uncut cfg, Q t := by
  have hdecls : ∀ e ∈ Rule.declarationEdits cfg ctx, ∀ l ∈ e.lines, Q l := by
    intro e he l hl
    obtain ⟨r, -, rfl⟩ := List.mem_map.mp he
    have hregion : ∀ k ∈ Rule.regionLines ctx.lines r, Over (· ≠ '\n') k := by
      intro k hk c hc heq
      exact hlines k (List.mem_of_mem_take (List.mem_of_mem_drop hk)) (heq ▸ hc)
    have hadded : Over (· ≠ '\n') added := by simp [added]
    have hover := Declaration.over_format hadded (cfg.resolveIndent ctx.source) hregion l hl
    exact hq.free fun hmem => hover _ hmem rfl
  have hfill' : (cfg.resolveIndent ctx.source).headerChar ≠ '\n' := by
    rwa [Settings.headerChar_resolveIndent]
  have himport : ∀ b, (∀ l ∈ Rule.importLines cfg ctx b, Q l) ↔
      ∀ t ∈ Grouping.uncut (cfg.resolveIndent ctx.source) b.statements, Q t := by
    intro b
    rw [← Grouping.lineWise_layout hq hfill', Rule.importLines, List.forall_mem_append]
    refine and_iff_left ?_
    split
    · simpa using hq.free List.not_mem_nil
    · simp
  rw [List.forall_mem_append, and_iff_left hdecls]
  simp only [Rule.importEdits, uncut, List.forall_mem_map, himport, List.mem_flatMap,
    forall_exists_index, and_imp]
  exact ⟨fun h t b hb ht => h b hb t ht, fun h b hb t ht => h t b hb ht⟩

end Context

namespace Document

section

variable {cfg : Settings} {t : Text} {nodes : List Node} {Q : Text → Prop}

/-- What holds of the texts written uncut holds of every line after layout. -/
theorem lineWise_applied (hq : LineWise Q) (hc : cfg.Accepted)
    (h : ∀ u ∈ (context cfg t nodes).1.uncut cfg, Q u) :
    ∀ l ∈ Edit.applyAll (contentLines t)
      (Rule.standard.flatMap (Rule.editsOf cfg (context cfg t nodes).1)), Q l := by
  have hfill : cfg.headerChar ≠ '\n' := fun he => absurd hc.headerChar (by rw [he]; decide)
  rw [Rule.flatMap_editsOf_standard]
  intro l hl
  rcases Edit.mem_applyAll hl with hl | ⟨e, he, hl⟩
  · exact hq.free (not_mem_of_mem_contentLines hl)
  · exact (Context.lineWise_edits hq hfill fun l hl => not_mem_of_mem_contentLines hl).mpr h e he l
      hl

/-- For nodes as a parser gives them, what holds of every line after layout holds of
the texts written uncut. -/
theorem lineWise_uncut (hq : LineWise Q) (hc : cfg.Accepted)
    (hn : Outline.Placed (Header.isHeader cfg) (lines t) nodes)
    (h : ∀ l ∈ Edit.applyAll (contentLines t)
      (Rule.standard.flatMap (Rule.editsOf cfg (context cfg t nodes).1)), Q l) :
    ∀ u ∈ (context cfg t nodes).1.uncut cfg, Q u := by
  have hfill : cfg.headerChar ≠ '\n' := fun he => absurd hc.headerChar (by rw [he]; decide)
  obtain ⟨-, hd, hw⟩ := @asked_disjoint cfg t nodes hn Rule.standard (.refl _)
  rw [← Context.lineWise_edits hq hfill fun l hl => not_mem_of_mem_contentLines hl,
    ← Rule.flatMap_editsOf_standard]
  intro e he l hl
  exact h l (Edit.subset_applyAll (Edit.droppedFrom_eq_nil hd hw) he hl)

end

/-- A file whose line breaks are all pairs keeps pairs if the texts that its import block writes
uncut do, and then it is laid out as the file with plain line feeds is. For nodes as a parser gives
them these conditions are exact. -/
theorem format_keeps_pairs {cfg : Settings} (hc : cfg.Accepted) {path : String} {nodes : List Node}
    {source : Text} (hpaired : Paired source) (hbreak : hasPairedBreak source = true) :
    let ctx := (context cfg (unifyBreaks source) nodes).1
    let out := format cfg Rule.standard path nodes source
    let plain := format cfg Rule.standard path nodes (unifyBreaks source)
    ((∀ t ∈ ctx.uncut cfg, Paired t) → Paired out.source) ∧
      (hasPairedBreak (unifyBreaks source) = false → (∀ t ∈ ctx.uncut cfg, '\n' ∉ t) →
        out.source = breakWith ['\r', '\n'] plain.source ∧ out.modified = plain.modified ∧
          out.failures = plain.failures) ∧
      (Outline.Placed (Header.isHeader cfg) (lines (unifyBreaks source)) nodes →
        (Paired out.source → ∀ t ∈ ctx.uncut cfg, Paired t) ∧
          (hasPairedBreak (unifyBreaks source) = false →
          out.source = breakWith ['\r', '\n'] plain.source → ∀ t ∈ ctx.uncut cfg, '\n' ∉ t)) := by
  intro ctx out plain
  have hcrlf : lineBreakOf source = ['\r', '\n'] := by rw [lineBreakOf, hbreak]; rfl
  -- both runs apply the same edits to the same lines
  let applied := Edit.applyAll (contentLines (unifyBreaks source))
    (Rule.standard.flatMap (Rule.editsOf cfg ctx))
  let final : Bool := source.getLast? == some '\n'
  have hout : out.source = joinLines ['\r', '\n'] applied ++ if final then
      ['\r', '\n'] else [] := by
    rw [source_format, hcrlf]
    simp [applied, final, ctx]
  have houtPaired : Paired out.source ↔ ∀ l ∈ applied, Paired l := by
    rw [hout, paired_joinLines_end]
  have hplain : hasPairedBreak (unifyBreaks source) = false →
      (out.source = breakWith ['\r', '\n'] plain.source ↔ ∀ l ∈ applied, '\n' ∉ l) := by
    intro hfree
    have hsource : plain.source = joinLines ['\n'] applied ++ if final then ['\n'] else [] := by
      rw [source_format, unifyBreaks_eq_self hfree, getLast?_unifyBreaks, lineBreakOf, hfree]
      simp [applied, final, ctx]
    rw [hsource, hout, joinLines_end_eq_breakWith]
  have hmodified : out.source = breakWith ['\r', '\n'] plain.source →
      out.modified = plain.modified := by
    intro hsame
    rw [Bool.eq_iff_iff, show out.modified = (out.source != source) from rfl,
      show plain.modified = (plain.source != unifyBreaks source) from rfl, bne_iff_ne, bne_iff_ne,
        ne_eq,
      hsame, breakWith_eq_iff hpaired]
  refine ⟨fun h => houtPaired.mpr (lineWise_applied lineWise_paired hc h), ?_, ?_⟩
  · intro hfree h
    have hsame := (hplain hfree).mpr (lineWise_applied lineWise_free hc h)
    refine ⟨hsame, hmodified hsame, ?_⟩
    rw [failures_format, failures_format, unifyBreaks_eq_self hfree]
  · intro hn
    exact ⟨fun h => lineWise_uncut lineWise_paired hc hn (houtPaired.mp h),
      fun hfree h => lineWise_uncut lineWise_free hc hn ((hplain hfree).mp h)⟩

/-- Two groups, comments above and behind statements, and a declaration below the block. -/
theorem format_keeps_pairs_two_groups :
    let cfg : Settings := {
      columnWidth := 12
      groups := [{ label := "// LOCAL".toList, matchers := ["./".toList] }, Group.other] }
    let nodes : List Node := [
      { kind := .importStatement, start := ⟨0, 0⟩, stop := ⟨0, 18⟩ },
      { kind := .comment, start := ⟨0, 19⟩, stop := ⟨0, 26⟩ },
      { kind := .comment, start := ⟨1, 0⟩, stop := ⟨2, 5⟩ },
      { kind := .importStatement, start := ⟨3, 0⟩, stop := ⟨3, 20⟩ },
      { kind := .interfaceDeclaration, start := ⟨4, 0⟩, stop := ⟨4, 25⟩ }]
    let source :=
      "import b from 'b'; // last\r\n/* x\r\n y */\r\nimport a from './a';\r\n".toList ++
        "interface A \x7b x: string \x7d\r\n".toList
    let out := format cfg Rule.standard "" nodes source
    let plain := format cfg Rule.standard "" nodes (unifyBreaks source)
    Paired source ∧ Paired out.source ∧ out.source = breakWith ['\r', '\n'] plain.source ∧
      out.modified = plain.modified ∧ out.failures = plain.failures := by
  intro cfg nodes source out plain
  have hpaired : Paired source := by decide +kernel
  have hc : cfg.Accepted := ⟨[("column_width".toList, .int 12), ("groups".toList, .list [.table [
    ("label".toList, .text "// LOCAL".toList), ("matchers".toList, .list [.text "./".toList])]])],
    rfl⟩
  obtain ⟨hkept, hplain, -⟩ :=
    @format_keeps_pairs cfg hc "" nodes source hpaired (by decide +kernel)
  exact ⟨hpaired, hkept (by decide +kernel), hplain (by decide +kernel) (by decide +kernel)⟩

/-- A comment behind a statement is written as it stands, with plain line feeds inside. -/
theorem comment_behind_keeps_feed :
    let cfg : Settings := {
      columnWidth := 12
      groups := [{ label := "// LOCAL".toList, matchers := ["./".toList] }, Group.other] }
    let nodes : List Node := [
      { kind := .importStatement, start := ⟨0, 0⟩, stop := ⟨0, 18⟩ },
      { kind := .comment, start := ⟨0, 19⟩, stop := ⟨1, 5⟩ },
      { kind := .importStatement, start := ⟨2, 0⟩, stop := ⟨2, 20⟩ }]
    let source := "import b from 'b'; /* x\r\n y */\r\nimport a from './a';\r\n".toList
    let out := format cfg Rule.standard "" nodes source
    Paired source ∧ ¬Paired out.source ∧
      out.source ≠ breakWith ['\r', '\n']
        (format cfg Rule.standard "" nodes (unifyBreaks source)).source := by
  decide +kernel

end Document

end SourceLayout
