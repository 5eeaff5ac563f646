import SourceLayout.Proofs.Indentation.Declaration
import SourceLayout.Proofs.Indentation.Imports

/-! What a file is indented with is told from its own lines, before and after layout. The layout
keeps to whole units, so a file that is indented with whole units throughout still shows its unit
afterwards. Lines indented otherwise are outvoted by those that the layout adds, or outvote them,
and then a second run indents with another unit than the first. -/

namespace SourceLayout
open Text IndentStyle

/-! ## Units -/

namespace Settings

theorem Accepted.indentUnit_ne_nil {cfg : Settings} (hc : cfg.Accepted) (t : Text) :
    (cfg.resolveIndent t).indentUnit ≠ [] := by
  by_cases htabs : cfg.indentKind = some .tabs
  · simp [resolveIndent, indentUnit, htabs]
  rw [indentUnit_resolveIndent htabs]
  split
  · exact List.cons_ne_nil _ _
  · have hdetect : (detect t).kind = .spaces → 1 ≤ (detect t).size := by
      unfold detect ofLeads
      simp only
      split
      · simp
      · exact fun _ => one_le_sizeOf _
    have hsize : 1 ≤ cfg.indentSize.getD (if (detect t).kind = .spaces then
        (detect t).size else defaultSize) := by
      cases hs : cfg.indentSize with
      | some n => exact hc.indentSize n hs
      | none =>
        rw [Option.getD_none]
        split
        · next hk => exact hdetect hk
        · decide
    intro hnil
    have hzero := congrArg List.length hnil
    rw [List.length_replicate, List.length_nil] at hzero
    omega

end Settings

namespace IndentStyle

theorem unifyBreaks_of_flat {t : Text} (h : Over Flat t) : unifyBreaks t = t := by
  have happend := unifyBreaks_append (not_mem_of_flat h) []
  rwa [List.append_nil, unifyBreaks, List.append_nil] at happend

/-- Unifying the breaks of a file does not change what it is indented with. -/
theorem detect_unifyBreaks {source : Text} (h : Over Flat (unifyBreaks source)) :
    detect (unifyBreaks source) = detect source := by
  rw [detect, detect, leads, leads, shownLines, shownLines, unifyBreaks_of_flat h]

theorem led_lines {P : Text → Prop} {source : Text} (h : Over Flat (unifyBreaks source))
    (hp : ∀ lead ∈ leads source, P lead) : ∀ l ∈ lines (unifyBreaks source), Led P l := by
  intro l hl lead hlead
  refine hp lead ?_
  rw [leads_of_flat h]
  exact List.mem_filterMap.mpr ⟨l, hl, hlead⟩

end IndentStyle

/-! ## Regions -/

theorem Node.isLead_of_isAsciiBlank {c : Char} (h : isAsciiBlank c = true) (hc : Inline c) :
    isLead c = true := by
  simp only [isAsciiBlank, Bool.or_eq_true, beq_iff_eq, Bool.and_eq_true, decide_eq_true_eq] at h
  rcases h with rfl | h
  · rfl
  · have htab : c.toNat = 9 := by
      simp only [Inline, isLineBoundary, Bool.or_eq_false_iff, Bool.and_eq_false_iff,
        decide_eq_false_iff_not] at hc
      omega
    obtain rfl : c = '\t' := Char.toNat_inj.mp htab
    rfl

theorem Rule.headD_regionLines (ls : List Text) {r : Region} (h : r.first ≤ r.last) :
    (regionLines ls r).headD [] = ls.getD r.first [] := by
  rw [regionLines, List.headD_eq_head?_getD, List.head?_drop, List.getElem?_take, if_pos (by omega),
    List.getD_eq_getElem?_getD]

namespace Document

variable {P : Text → Prop} {cfg : Settings} {t : Text} {nodes : List Node}

theorem mem_lines_of_mem_contentLines {l : Text} (h : l ∈ contentLines t) : l ∈ lines t := by
  unfold contentLines at h
  split at h
  · exact List.dropLast_subset _ h
  · exact h

/-- Only tabs and spaces stand before a declaration, so what it is indented with counts. -/
theorem margin_of_declaration (hn : Outline.Placed (Header.isHeader cfg) (lines t) nodes)
    (hflat : Over Flat t) (hled : ∀ l ∈ lines t, Led P l) {r : Region}
    (hr : r ∈ (context cfg t nodes).1.declarations)
    (hstar : (trimLeft ((contentLines t).getD r.first [])).head? ≠ some '*') :
    Margin P (indentOf ((contentLines t).getD r.first [])) := by
  obtain ⟨n, hmem, rfl⟩ := List.mem_map.mp hr
  simp only [List.mem_filter, Bool.and_eq_true, Node.ownsRows, List.all_eq_true] at hmem
  obtain ⟨hnode, -, hbefore, -⟩ := hmem
  rw [getD_contentLines] at hstar ⊢
  have hrow := led_getD hled n.start.row
  have hinline : Over Inline ((lines t).getD n.start.row []) :=
    over_getD (fun l hl => inline_of_mem_lines hflat hl) _
  obtain ⟨c, hc, hcb⟩ := hn.first_char hnode
  obtain ⟨x, hx⟩ := List.head?_eq_some_iff.mp (Node.start_char hc hcb)
  have hsplit := takeBytes_append_dropBytes n.start.col ((lines t).getD n.start.row [])
  rw [hx] at hsplit
  generalize takeBytes n.start.col ((lines t).getD n.start.row []) = before at hbefore hsplit
  simp only at hstar ⊢
  rw [← hsplit] at hrow hstar hinline ⊢
  have hleads : ∀ d ∈ before, isLead d = true := fun d hd =>
    Node.isLead_of_isAsciiBlank (hbefore d hd) ((over_append.mp hinline).1 d hd)
  have hblank := isBlankLine_of_leads hleads
  have hindent : indentOf (before ++ c :: x) = before := by
    rw [indentOf, List.takeWhile_append_of_pos (List.all_eq_true.mp hblank)]
    simp [hcb]
  rw [NamedImport.trimLeft_blank_cons hblank hcb] at hstar
  rw [hindent]
  refine ⟨hleads, ?_⟩
  by_cases hne : before = []
  · exact .inl hne
  · exact .inr (hrow before (evidence_front hleads hne hcb (by simpa using hstar) x))

/-- What is asked of a file, and of the settings, so that its layout keeps to what it is indented
with: only line feeds end its lines, every label shows something and takes one line, every parameter
that is written on a line of its own has a name, and no declaration begins with a star. -/
structure Regular (cfg : Settings) (t : Text) (nodes : List Node) : Prop where
  flat : Over Flat t
  labels : ∀ g ∈ cfg.groups, g.OneLine
  named : ∀ r ∈ (context cfg t nodes).1.declarations,
    ∀ x ∈ Declaration.parameterTexts (cfg.resolveIndent t) (Rule.regionLines (contentLines t) r),
      (Parameter.read x).name ≠ []
  unstarred : ∀ r ∈ (context cfg t nodes).1.declarations,
    (trimLeft ((contentLines t).getD r.first [])).head? ≠ some '*'

/-- The lines after layout, before they are joined. -/
def laidOut (cfg : Settings) (t : Text) (nodes : List Node) : List Text :=
  Edit.applyAll (contentLines t) (Rule.standard.flatMap (Rule.editsOf cfg (context cfg t nodes).1))

section

variable (hc : cfg.Accepted) (hn : Outline.Placed (Header.isHeader cfg) (lines t) nodes)
    (hr : Regular cfg t nodes)

include hn hr

theorem Regular.declarationLines (hs : Scale (cfg.resolveIndent t).indentUnit P)
    (hled : ∀ l ∈ lines t, Led P l) {r : Region} (hmem : r ∈ (context cfg t nodes).1.declarations) :
    ∀ l ∈ Rule.declarationLines cfg (context cfg t nodes).1 r, Led P l ∧ Over Inline l := by
  have hrows : ∀ l ∈ Rule.regionLines (contentLines t) r, l ∈ lines t := fun l hl =>
    mem_lines_of_mem_contentLines (List.mem_of_mem_take (List.mem_of_mem_drop hl))
  have hfirst : r.first ≤ r.last := (hn.regions.2 r (List.mem_append_right _ hmem)).1
  have hmargin : Margin P (indentOf ((Rule.regionLines (contentLines t) r).headD [])) := by
    rw [Rule.headD_regionLines _ hfirst]
    exact margin_of_declaration hn hr.flat hled hmem (hr.unstarred r hmem)
  have hadded : Over Inline added := by decide
  intro l hl
  exact ⟨Declaration.led_format hs hmargin (fun k hk => hled k (hrows k hk)) (hr.named r hmem) l hl,
    Declaration.over_format hadded _ (fun k hk => inline_of_mem_lines hr.flat (hrows k hk)) l hl⟩

include hc

/-- Every line after layout is led if every line before it is. -/
theorem Regular.inset (hs : Scale (cfg.resolveIndent t).indentUnit P)
    (hled : ∀ l ∈ lines t, Led P l) : ∀ l ∈ laidOut cfg t nodes, Inset P l := by
  have hrows : ∀ l ∈ lines t, Over Inline l := fun l hl => inline_of_mem_lines hr.flat hl
  intro l hl
  rw [laidOut, Rule.flatMap_editsOf_standard] at hl
  rcases Edit.mem_applyAll hl with hl | ⟨e, he, hl⟩
  · have hl := mem_lines_of_mem_contentLines hl
    exact inset_line (hled l hl) (hrows l hl)
  rcases List.mem_append.mp he with he | he
  · obtain ⟨b, hb, rfl⟩ := List.mem_map.mp he
    have hfound := imports_eq_some_iff.mp (Option.mem_toList.mp hb)
    have hfill : isBlank (cfg.resolveIndent t).headerChar = false := by
      rw [Settings.headerChar_resolveIndent]
      exact hc.headerChar
    have hgroups : ∀ g ∈ (cfg.resolveIndent t).groups, g.OneLine := by
      rw [Settings.groups_resolveIndent]
      exact hr.labels
    rcases List.mem_append.mp hl with hl | hl
    · exact Grouping.inset_layout hs hfill hgroups
        (ImportBlock.insetIn_statements hn hled hrows hfound) l hl
    · split at hl
      · rw [List.mem_singleton.mp hl]
        exact inset_nil
      · cases hl
  · obtain ⟨r, hmem, rfl⟩ := List.mem_map.mp he
    obtain ⟨hl, hinline⟩ := Regular.declarationLines hn hr hs hled (List.mem_filter.mp hmem).1 l hl
    exact inset_line hl hinline

end

section

variable (hn : Outline.Placed (Header.isHeader cfg) (lines t) nodes)

include hn

/-- A row that no edit covers stays. -/
theorem row_mem_laidOut {i : Nat} (hi : i < (contentLines t).length)
    (h : ∀ e ∈ Rule.importEdits cfg (context cfg t nodes).1 ++
      Rule.declarationEdits cfg (context cfg t nodes).1,
      e.covers i = false) : (contentLines t).getD i [] ∈ laidOut cfg t nodes := by
  have hnone : (Rule.importEdits cfg (context cfg t nodes).1 ++
      Rule.declarationEdits cfg (context cfg t nodes).1).find? (·.covers i) = none :=
    List.find?_eq_none.mpr fun e he => by simp [h e he]
  rw [laidOut, applyAll_asked hn (.refl _)]
  refine List.mem_flatMap.mpr ⟨i, List.mem_range.mpr hi, ?_⟩
  simp [Edit.becomes, hnone]

theorem eq_of_common_row {q r : Region} (hq : q ∈ (context cfg t nodes).1.declarations)
    (hr : r ∈ (context cfg t nodes).1.declarations) {i : Nat} (hqi : q.first ≤ i ∧ i ≤ q.last)
    (hri : r.first ≤ i ∧ i ≤ r.last) : q = r := by
  have hpairs : (context cfg t nodes).1.declarations.Pairwise fun a b => a.last < b.first :=
    Region.declarations_pairwise hn
  rw [List.pairwise_iff_getElem] at hpairs
  obtain ⟨j, hj, rfl⟩ := List.mem_iff_getElem.mp hq
  obtain ⟨k, hk, rfl⟩ := List.mem_iff_getElem.mp hr
  rcases Nat.lt_trichotomy j k with hlt | rfl | hlt
  · have hbefore := hpairs j k hj hk hlt
    omega
  · rfl
  · have hbefore := hpairs k j hk hj hlt
    omega

/-- The lines of a declaration after layout are among those of the file,
whether they changed or not. -/
theorem declarationLines_subset {r : Region} (hr : r ∈ (context cfg t nodes).1.declarations) :
    Rule.declarationLines cfg (context cfg t nodes).1 r ⊆ laidOut cfg t nodes := by
  by_cases hsame : Rule.declarationLines cfg (context cfg t nodes).1 r =
    Rule.regionLines (contentLines t) r
  · -- an unchanged declaration asks for no edit, and the edits of other regions do not reach it
    obtain ⟨hle, hlast⟩ := hn.regions.2 r (List.mem_append_right _ hr)
    have hcovers : ∀ i, r.first ≤ i → i ≤ r.last →
      ∀ e ∈ Rule.importEdits cfg (context cfg t nodes).1 ++
        Rule.declarationEdits cfg (context cfg t nodes).1, e.covers i = false := by
      intro i hfirst hlast e he
      rw [Bool.eq_false_iff, ne_eq, Edit.covers_iff]
      intro hcovers
      rcases List.mem_append.mp he with he | he
      · obtain ⟨b, hb, rfl⟩ := List.mem_map.mp he
        have hdisjoint := (List.pairwise_append.mp hn.regions.1).2.2 b.toRegion
          (List.mem_map_of_mem hb) r hr
        simp only [Region.Disjoint] at hdisjoint hcovers
        omega
      · obtain ⟨q, hq, rfl⟩ := List.mem_map.mp he
        obtain ⟨hq, hchanged⟩ := List.mem_filter.mp hq
        simp only at hcovers
        obtain rfl := eq_of_common_row hn hq hr (i := i) (by omega) ⟨hfirst, hlast⟩
        exact bne_iff_ne.mp hchanged hsame
    intro l hl
    rw [hsame] at hl
    obtain ⟨k, hk⟩ := List.mem_iff_getElem?.mp hl
    rw [Rule.regionLines, List.getElem?_drop, List.getElem?_take] at hk
    split at hk
    · have hmem := row_mem_laidOut hn (by omega) (hcovers (r.first + k) (by omega) (by omega))
      rwa [List.getD_eq_getElem?_getD, hk, Option.getD_some] at hmem
    · cases hk
  · obtain ⟨-, hd, hw⟩ := @asked_disjoint cfg t nodes hn Rule.standard (.refl _)
    refine Edit.subset_applyAll (Edit.droppedFrom_eq_nil hd hw)
      (e := ⟨r.first, r.last, Rule.declarationLines cfg (context cfg t nodes).1 r, 0⟩) ?_
    rw [Rule.flatMap_editsOf_standard]
    exact List.mem_append_right
      _ (List.mem_map.mpr ⟨r, List.mem_filter.mpr ⟨hr, bne_iff_ne.mpr hsame⟩, rfl⟩)

end

/-- A file shows the unit where layout does not hide it: on a row outside all regions, or on the
lines of a declaration at the margin that has a member with a name. -/
def Exposes (cfg : Settings) (ctx : Context) (unit : Text) : Prop :=
  (∃ i < ctx.lines.length, (∀ r ∈ ctx.regions, ¬(r.first ≤ i ∧ i ≤ r.last)) ∧
      evidence (ctx.lines.getD i []) = some unit) ∨
    ∃ r ∈ ctx.declarations, indentOf (ctx.lines.getD r.first []) = [] ∧
      ∃ m ∈ Block.members (Declaration.bodyLines (cfg.resolveIndent ctx.source)
        (Rule.regionLines ctx.lines r)), m.isEntry = true

instance (cfg : Settings) (ctx : Context) (unit : Text) : Decidable (Exposes cfg ctx unit) :=
  inferInstanceAs (Decidable (_ ∨ _))

/-- The leads of a file after layout are those of its lines. -/
theorem Regular.leads_format (hc : cfg.Accepted) {path : String} {source : Text}
    (hn : Outline.Placed (Header.isHeader cfg) (lines (unifyBreaks source)) nodes)
    (hr : Regular cfg (unifyBreaks source) nodes) :
    leads (format cfg Rule.standard path nodes source).source =
      (laidOut cfg (unifyBreaks source) nodes).flatMap fun l => (lines l).filterMap evidence := by
  have hinset := hr.inset hc hn (cfg.resolveIndent _).scale_true fun _ _ _ _ => trivial
  have hbreak : lineBreakOf source = ['\n'] ∨ lineBreakOf source = ['\r', '\n'] := by
    unfold lineBreakOf
    split
    · exact .inr rfl
    · exact .inl rfl
  rw [source_format, ← leads_joinLines hbreak (fun l hl => (hinset l hl).flat)
    (source.getLast? == some '\n'), laidOut]
  simp only [beq_iff_eq]

/-- What a file shows where layout does not hide it, it shows after layout. -/
theorem Regular.mem_leads (hc : cfg.Accepted) {path : String} {source : Text}
    (hn : Outline.Placed (Header.isHeader cfg) (lines (unifyBreaks source)) nodes)
    (hr : Regular cfg (unifyBreaks source) nodes) {unit : Text}
    (hunit : (cfg.resolveIndent (unifyBreaks source)).indentUnit = unit)
    (h : Exposes cfg (context cfg (unifyBreaks source) nodes).1 unit) :
    unit ∈ leads (format cfg Rule.standard path nodes source).source := by
  have hline : ∃ l ∈ laidOut cfg (unifyBreaks source) nodes, '\n' ∉ l ∧ evidence l = some unit := by
    rcases h with ⟨i, hi, houtside, he⟩ | ⟨r, hmem, hmargin, m, hm, hentry⟩
    · have hi : i < (contentLines (unifyBreaks source)).length := hi
      have hrow : (contentLines (unifyBreaks source)).getD i [] ∈
          laidOut cfg (unifyBreaks source) nodes := by
        refine row_mem_laidOut hn hi fun e hmem => Bool.eq_false_iff.mpr fun hcovers => ?_
        obtain ⟨r, hr, hfirst, hlast⟩ := Rule.region_of_edit hmem
        rw [Edit.covers_iff] at hcovers
        exact houtside r hr (by omega)
      refine ⟨_, hrow, not_mem_of_mem_contentLines (t := unifyBreaks source) ?_, he⟩
      rw [List.getD_eq_getElem?_getD, List.getElem?_eq_getElem hi]
      exact List.getElem_mem hi
    · have hfirst : r.first ≤ r.last := (hn.regions.2 r (List.mem_append_right _ hmem)).1
      have hbase : indentOf ((Rule.regionLines (contentLines (unifyBreaks source)) r).headD []) =
          [] := by
        rw [Rule.headD_regionLines _ hfirst]
        exact hmargin
      have hshows := @Declaration.shows_format (cfg.resolveIndent (unifyBreaks source))
        (Rule.regionLines (contentLines (unifyBreaks source)) r)
      rw [hbase, List.nil_append, hunit] at hshows
      have hlead := hunit ▸ (cfg.resolveIndent (unifyBreaks source)).scale_true.lead
      obtain ⟨l, hl, he⟩ := hshows hlead (hunit ▸ hc.indentUnit_ne_nil _) hm hentry
      have hinline := (Regular.declarationLines hn hr (cfg.resolveIndent _).scale_true
        (fun _ _ _ _ => trivial) hmem l hl).2
      exact ⟨l, declarationLines_subset hn hmem hl, not_mem_of_inline hinline, he⟩
  obtain ⟨l, hl, hfree, he⟩ := hline
  rw [hr.leads_format hc hn]
  refine List.mem_flatMap.mpr ⟨l, hl, ?_⟩
  rw [lines_of_not_mem hfree]
  simp [he]

/-- A file that is indented with whole units is so after layout. If it shows its unit outside the
regions or in a declaration, or if its unit can be told after layout otherwise, a second run
indents with the same unit. -/
theorem format_keeps_indent_unit {cfg : Settings} (hc : cfg.Accepted) {path : String}
    {nodes : List Node} {source : Text}
    (hn : Outline.Placed (Header.isHeader cfg) (lines (unifyBreaks source)) nodes)
    (hr : Regular cfg (unifyBreaks source) nodes) :
    let ctx := (context cfg (unifyBreaks source) nodes).1
    let unit := (cfg.resolveIndent source).indentUnit
    let out := (format cfg Rule.standard path nodes source).source
    (cfg.indentKind = some .tabs → (cfg.resolveIndent out).indentUnit = unit) ∧
      ((∀ lead ∈ leads source, cfg.Fits unit lead) →
        (∀ lead ∈ leads out, cfg.Fits unit lead) ∧
          (Exposes cfg ctx unit ∨ cfg.Tells unit (leads out) ∨ leads source = [] ∧ leads out = [] →
            (cfg.resolveIndent out).indentUnit = unit)) := by
  intro ctx unit out
  have hunit : (cfg.resolveIndent (unifyBreaks source)).indentUnit = unit := by
    rw [Settings.resolveIndent, detect_unifyBreaks hr.flat]
    rfl
  have hleads : leads out = _ := hr.leads_format hc hn
  refine ⟨fun htabs => ?_, fun hfits => ?_⟩
  · simp [unit, Settings.resolveIndent, htabs]
  have hs : Scale (cfg.resolveIndent (unifyBreaks source)).indentUnit (cfg.Fits unit) :=
    hunit ▸ cfg.scale_fits _
  have hout : ∀ lead ∈ leads out, cfg.Fits unit lead := by
    intro lead hlead
    rw [hleads] at hlead
    obtain ⟨l, hl, hlead⟩ := List.mem_flatMap.mp hlead
    obtain ⟨k, hk, hlead⟩ := List.mem_filterMap.mp hlead
    exact (hr.inset hc hn hs (led_lines hr.flat hfits) l hl).led k hk lead hlead
  refine ⟨hout, fun htold => ?_⟩
  rcases htold with hexposes | htells | ⟨hnone, hnone'⟩
  · exact Settings.indentUnit_of_fits hfits hout
      (Settings.tells_of_mem (hr.mem_leads hc hn hunit hexposes))
  · exact Settings.indentUnit_of_fits hfits hout htells
  · simp only [unit, Settings.resolveIndent, detect, hnone, hnone']

/-- Two spaces throughout, in a declaration over several lines and in a block below it. -/
theorem format_keeps_indent_unit_two_spaces :
    let source :=
      "import b from 'b';\ninterface A \x7b\n  x: string,\n".toList ++
      "      f(a: \x7b n: number \x7d): void \x7d\nif (x) \x7b\n  y();\n\x7d\n".toList
    let nodes : List Node := [
      { kind := .importStatement, start := ⟨0, 0⟩, stop := ⟨0, 18⟩ },
      { kind := .interfaceDeclaration, start := ⟨1, 0⟩, stop := ⟨3, 37⟩ },
      { kind := .other, start := ⟨4, 0⟩, stop := ⟨6, 1⟩ }]
    let out := (format {} Rule.standard "" nodes source).source
    (({} : Settings).resolveIndent source).indentUnit = [' ', ' '] ∧
      (∀ lead ∈ leads source, ({} : Settings).Fits [' ', ' '] lead) ∧
      (∀ lead ∈ leads out, ({} : Settings).Fits [' ', ' '] lead) ∧
      (({} : Settings).resolveIndent out).indentUnit = [' ', ' '] := by
  intro source nodes out
  have hn : Outline.Placed (Header.isHeader {}) (lines (unifyBreaks source)) nodes :=
    ⟨⟨by decide +kernel, by decide +kernel, by decide +kernel⟩, by decide +kernel,
      by decide +kernel⟩
  have hr : Regular {} (unifyBreaks source) nodes :=
    ⟨by decide +kernel, by decide +kernel, by decide +kernel, by decide +kernel⟩
  have hunit : (({} : Settings).resolveIndent source).indentUnit = [' ', ' '] := by decide +kernel
  have hfits : ∀ lead ∈ leads source, ({} : Settings).Fits [' ', ' '] lead := by decide +kernel
  obtain ⟨-, hkept⟩ := @format_keeps_indent_unit {} ⟨[], rfl⟩ "" nodes source hn hr
  rw [hunit] at hkept
  obtain ⟨hout, htold⟩ := hkept hfits
  exact ⟨hunit, hfits, hout, htold (.inl (by decide +kernel))⟩

/-- Six spaces are no unit, so the members of a declaration get four; both
together are taken for twos. -/
theorem mixed_indents_rewritten :
    let source := "interface A \x7b a: string \x7d\nif (x) \x7b\n      y;\n\x7d\n".toList
    let nodes : List Node := [
      { kind := .interfaceDeclaration, start := ⟨0, 0⟩, stop := ⟨0, 25⟩ },
      { kind := .other, start := ⟨1, 0⟩, stop := ⟨3, 1⟩ }]
    let nodes' : List Node := [
      { kind := .interfaceDeclaration, start := ⟨0, 0⟩, stop := ⟨2, 1⟩ },
      { kind := .other, start := ⟨3, 0⟩, stop := ⟨5, 1⟩ }]
    let out := (format {} Rule.standard "" nodes source).source
    (({} : Settings).resolveIndent source).indentUnit = [' ', ' ', ' ', ' '] ∧
      (({} : Settings).resolveIndent out).indentUnit = [' ', ' '] ∧
      out = "interface A \x7b\n    a : string;\n\x7d\nif (x) \x7b\n      y;\n\x7d\n".toList ∧
      (format {} Rule.standard "" nodes' out).source =
        "interface A \x7b\n  a : string;\n\x7d\nif (x) \x7b\n      y;\n\x7d\n".toList := by
  decide +kernel

end Document

end SourceLayout
