import SourceLayout.Proofs.Accepted
import SourceLayout.Proofs.LastLine
import SourceLayout.Proofs.Regions
import SourceLayout.Proofs.Splice

/-! What laying out a file leaves alone. The rules ask for edits of disjoint regions, so all of them
are applied, whatever the order of the rules, and the lines outside the regions stay as and where
they are. A rule that fails adds its failure and nothing else. -/

namespace SourceLayout
open Text

/-! ## The statements of an import block -/

namespace ImportBlock

/-- Reading keeps that every statement shows something, and so does the comment behind it. -/
theorem collect_shown {textOf : Node → Text} {isHeader : Text → Bool} {r r' : Reading}
    {nodes : List Node} {following : Option Node}
    (h : collect textOf isHeader r nodes = .ok (r', following))
    (htext : ∀ n ∈ nodes, isBlankLine (textOf n) = false ∧ EndsShown (textOf n))
    (hr : ∀ s ∈ r.statements, s.Shown) : ∀ s ∈ r'.statements, s.Shown := by
  induction nodes generalizing r with
  | nil =>
    cases h
    exact hr
  | cons n rest ih =>
    obtain ⟨hn, hrest⟩ := List.forall_mem_cons.mp htext
    rcases collect_cons h with ⟨-, h⟩ | ⟨-, h⟩ | ⟨-, rfl, -⟩
    · refine ih h hrest ?_
      intro s hs
      simp only [Reading.addImport, Reading.statements, List.mem_append, List.mem_singleton] at hs
      rcases hs with hs | rfl
      · exact hr s (by simpa [Reading.statements] using hs)
      · exact ⟨hn.1, .inl rfl⟩
    · refine ih h hrest ?_
      intro s hs
      unfold Reading.addComment at hs
      split at hs
      · simp only [Reading.statements, List.mem_append, List.mem_singleton] at hs
        rcases hs with hs | rfl
        · exact hr s (List.mem_append_left _ hs)
        · exact ⟨(hr r.latest (by simp [Reading.statements])).1, .inr hn.2⟩
      · split at hs <;> exact hr s hs
    · exact hr

theorem locate_shown {isHeader : Text → Bool} {textOf : Node → Text} {rows : List Text}
    {nodes : List Node} {b : ImportBlock} (h : locate isHeader textOf rows nodes = .found b)
    (htext : ∀ n ∈ nodes, isBlankLine (textOf n) = false ∧ EndsShown (textOf n)) :
    b.statements ≠ [] ∧ ∀ s ∈ b.statements, s.Shown := by
  obtain ⟨before, n, rest, r, following, rfl, -, -, -, hc, -, -, rfl⟩ := locate_eq_found_iff.mp h
  obtain ⟨hn, hrest⟩ := List.forall_mem_cons.mp (List.forall_mem_append.mp htext).2
  refine ⟨by simp [Reading.statements], collect_shown hc hrest ?_⟩
  intro s hs
  obtain rfl : s = { text := textOf n } := by simpa [Reading.statements] using hs
  exact ⟨hn.1, .inl rfl⟩

end ImportBlock

/-! ## Rules -/

namespace Rule

/-- The edits a rule asks for; a rule that fails asks for none. -/
def editsOf (cfg : Settings) (ctx : Context) (rule : Rule) : List Edit :=
  match (rule.analyze cfg ctx).edits with
  | .ok es => es
  | .error _ => []

def failure? (cfg : Settings) (ctx : Context) (rule : Rule) : Option RuleFailure :=
  match (rule.analyze cfg ctx).edits with
  | .ok _ => none
  | .error why => some ⟨rule.name, why⟩

theorem flatMap_editsOf_filter (cfg : Settings) (ctx : Context) (rules : List Rule) :
    (rules.filter fun r => (failure? cfg ctx r).isNone).flatMap (editsOf cfg ctx) =
      rules.flatMap (editsOf cfg ctx) := by
  induction rules with
  | nil => rfl
  | cons rule rest ih =>
    cases he : (rule.analyze cfg ctx).edits with
    | ok es => simp [failure?, he, ← ih]
    | error why => simp [failure?, editsOf, he, ← ih]

theorem flatMap_editsOf_standard (cfg : Settings) (ctx : Context) :
    standard.flatMap (editsOf cfg ctx) = importEdits cfg ctx ++ declarationEdits cfg ctx := by
  simp [standard, editsOf, imports, declarations]

/-- Beside rules that fail, the standard rules ask for the same edits in any order. -/
theorem flatMap_editsOf_perm {cfg : Settings} {ctx : Context} {rules : List Rule}
    (h : (rules.filter fun r => (failure? cfg ctx r).isNone).Perm standard) :
    (rules.flatMap (editsOf cfg ctx)).Perm (importEdits cfg ctx ++ declarationEdits cfg ctx) := by
  rw [← flatMap_editsOf_filter, ← flatMap_editsOf_standard]
  exact h.flatMap_right _

theorem edits_disjoint {cfg : Settings} {ctx : Context} (h : ctx.regions.Pairwise Region.Disjoint) :
    (importEdits cfg ctx ++ declarationEdits cfg ctx).Pairwise Edit.Disjoint := by
  unfold Context.regions at h
  obtain ⟨himports, hdecls, hcross⟩ := List.pairwise_append.mp h
  refine List.pairwise_append.mpr ⟨?_, ?_, ?_⟩
  · rw [importEdits, List.pairwise_map]
    rw [List.pairwise_map] at himports
    exact himports.imp fun hab => by simpa [Edit.Disjoint, Region.Disjoint] using hab
  · rw [declarationEdits, List.pairwise_map]
    exact (hdecls.filter _).imp fun hab => by simpa [Edit.Disjoint, Region.Disjoint] using hab
  · intro a ha b hb
    obtain ⟨x, hx, rfl⟩ := List.mem_map.mp ha
    obtain ⟨r, hr, rfl⟩ := List.mem_map.mp hb
    have hxr := hcross x.toRegion (List.mem_map_of_mem hx) r (List.mem_filter.mp hr).1
    simpa [Edit.Disjoint, Region.Disjoint] using hxr

theorem importLines_at_end {cfg : Settings} {ctx : Context} {b : ImportBlock}
    (h : ¬b.last + 1 < ctx.lines.length) :
    importLines cfg ctx b = Grouping.layout (cfg.resolveIndent ctx.source) b.statements := by
  simp [importLines, h]

/-- Every edit replaces one of the regions. -/
theorem region_of_edit {cfg : Settings} {ctx : Context} {e : Edit}
    (h : e ∈ importEdits cfg ctx ++ declarationEdits cfg ctx) :
    ∃ r ∈ ctx.regions, e.first = r.first ∧ e.last = r.last := by
  rcases List.mem_append.mp h with h | h
  · obtain ⟨b, hb, rfl⟩ := List.mem_map.mp h
    exact ⟨b.toRegion, List.mem_append_left _ (List.mem_map_of_mem hb), rfl, rfl⟩
  · obtain ⟨r, hr, rfl⟩ := List.mem_map.mp h
    exact ⟨r, List.mem_append_right _ (List.mem_filter.mp hr).1, rfl, rfl⟩

end Rule

namespace Document

theorem runRules_spec (cfg : Settings) (ctx : Context) (shownPath : String) (rules : List Rule) :
    (runRules cfg ctx shownPath rules).1 = rules.flatMap (Rule.editsOf cfg ctx) ∧
      (runRules cfg ctx shownPath rules).2.1 = rules.filterMap (Rule.failure? cfg ctx) := by
  induction rules with
  | nil => exact ⟨rfl, rfl⟩
  | cons rule rest ih =>
    unfold runRules
    rw [List.flatMap_cons, List.filterMap_cons]
    cases he : (rule.analyze cfg ctx).edits with
    | ok es => simp [Rule.editsOf, Rule.failure?, he, ih]
    | error why => simp [Rule.editsOf, Rule.failure?, he, ih]

/-! ## The end of a file -/

theorem getLast?_unifyBreaks (t : Text) : (unifyBreaks t).getLast? = t.getLast? := by
  fun_induction unifyBreaks t with
  | case1 => rfl
  | case2 r ih => simp [List.getLast?_cons, ih]
  | case3 c r _ ih => simp [List.getLast?_cons, ih]

/-- The last of the lines that edits in order leave shows something, if it did before and the
lines of an edit of it do. -/
theorem lastShown_applyFrom {ls : List Text} {es : List Edit} (cursor : Nat)
    (ho : es.Pairwise fun a b => a.last < b.first) (hw : ∀ e ∈ es, e.Within ls.length)
    (hlt : cursor < ls.length) (hc : ∀ e ∈ es, (cursor : Int) ≤ e.first) (hls : LastShown ls)
    (hes : ∀ e ∈ es, e.last + 1 = ls.length → LastShown e.lines) :
    LastShown (Edit.applyFrom ls cursor es) := by
  induction es generalizing cursor with
  | nil =>
    obtain ⟨l, hl, hshown⟩ := hls
    refine ⟨l, ?_, hshown⟩
    rw [Edit.applyFrom, Edit.clamp_nat, Nat.min_eq_left (by omega), List.getLast?_drop,
      if_neg (by omega), hl]
  | cons e r ih =>
    obtain ⟨hafter, hor⟩ := List.pairwise_cons.mp ho
    obtain ⟨hfirst, hle, hlast⟩ := hw e List.mem_cons_self
    have hcursor := hc e List.mem_cons_self
    rw [Edit.applyFrom, if_neg (by omega)]
    by_cases hend : e.last + 1 = ls.length
    · -- nothing is left behind the edit
      have hr : r = [] := by
        cases r with
        | nil => rfl
        | cons d r =>
          have hd := hafter d List.mem_cons_self
          obtain ⟨-, hdle, hdlast⟩ := hw d (List.mem_cons_of_mem _ List.mem_cons_self)
          omega
      have hnil : Edit.applyFrom ls (e.last + 1) r = [] := by
        rw [hr, Edit.applyFrom, hend, Edit.clamp_nat, Nat.min_self, List.drop_length]
      rw [hnil, List.append_nil]
      exact (hes e List.mem_cons_self hend).append _
    · obtain ⟨k, hk⟩ := Int.eq_ofNat_of_zero_le (show 0 ≤ e.last + 1 by omega)
      rw [hk]
      refine (ih _ hor (fun d hd => hw d (List.mem_cons_of_mem _ hd)) (by omega) ?_
        (fun d hd => hes d (List.mem_cons_of_mem _ hd))).append _
      intro d hd
      have := hafter d hd
      omega

theorem source_format (cfg : Settings) (rules : List Rule) (path : String) (nodes : List Node)
    (source : Text) :
    (format cfg rules path nodes source).source =
      joinLines (lineBreakOf source) (Edit.applyAll (contentLines (unifyBreaks source))
        (rules.flatMap (Rule.editsOf cfg (context cfg (unifyBreaks source) nodes).1))) ++
      (if source.getLast? = some '\n' then lineBreakOf source else []) := by
  unfold format
  simp only [(runRules_spec cfg _ _ rules).1, getLast?_unifyBreaks, beq_iff_eq]
  split
  · rfl
  · rw [List.append_nil]
    rfl

section

variable {cfg : Settings} {t : Text} {nodes : List Node}

theorem text_shown (h : Outline.Placed (Header.isHeader cfg) (lines t) nodes) {n : Node}
    (hn : n ∈ nodes) :
    isBlankLine (n.textIn (lines t)) = false ∧ EndsShown (n.textIn (lines t)) := by
  obtain ⟨c, hc, hcb⟩ := h.last_char hn
  exact ⟨isBlankLine_of_mem (List.mem_of_getLast? hc) hcb, endsShown_of_last hc hcb⟩

/-- An edit that reaches the end of a file ends in a line that shows something, if the file does. -/
theorem lastShown_edits (hc : cfg.Accepted)
    (h : Outline.Placed (Header.isHeader cfg) (lines t) nodes) (hls : LastShown (contentLines t)) :
    ∀ e ∈ Rule.importEdits cfg (context cfg t nodes).1 ++
      Rule.declarationEdits cfg (context cfg t nodes).1,
      e.last + 1 = (contentLines t).length → LastShown e.lines := by
  intro e he hlast
  rcases List.mem_append.mp he with he | he
  · obtain ⟨b, hb, rfl⟩ := List.mem_map.mp he
    have hfound := imports_eq_some_iff.mp (Option.mem_toList.mp hb)
    obtain ⟨hne, hshown⟩ := ImportBlock.locate_shown hfound fun n hn => text_shown h hn
    have hcatch : ∃ g ∈ (cfg.resolveIndent (context cfg t nodes).1.source).groups,
        g.isCatchAll = true := by
      rw [Settings.groups_resolveIndent]
      exact hc.catchAll
    have hlayout := Grouping.lastShown_layout hcatch hne hshown
    have hgap : ¬b.last + 1 < (contentLines t).length := by
      simp only at hlast
      omega
    rw [Rule.importLines_at_end hgap]
    exact hlayout
  · obtain ⟨r, hr, rfl⟩ := List.mem_map.mp he
    have hmem : r ∈ (context cfg t nodes).1.regions :=
      List.mem_append_right _ (List.mem_filter.mp hr).1
    have hfirst := (h.regions.2 r hmem).1
    obtain ⟨l, hl, hshown⟩ := hls
    have hlen : r.last + 1 = (contentLines t).length := by
      simp only at hlast
      omega
    refine Declaration.lastShown_format ⟨l, ?_, hshown⟩
    rw [Rule.regionLines, show (context cfg t nodes).1.lines = contentLines t from rfl, hlen,
      List.take_length, List.getLast?_drop, if_neg (by omega), hl]

/-- An empty file has no nodes. -/
theorem nodes_of_empty (h : Outline.Placed (Header.isHeader cfg) (lines []) nodes) :
    nodes = [] := by
  cases nodes with
  | nil => rfl
  | cons n rest =>
    obtain ⟨c, hc, hcb⟩ := h.first_char List.mem_cons_self
    have hmem := Node.start_row hc hcb
    cases hrow : n.start.row <;> simp [lines, splitWhen, hrow] at hmem

/-- With the edits applied, a file ends in a line feed if and only if it did before. -/
theorem getLast?_applied (hc : cfg.Accepted) {source : Text}
    (hn : Outline.Placed (Header.isHeader cfg) (lines (unifyBreaks source)) nodes) {es : List Edit}
    (hd : es.Pairwise Edit.Disjoint)
    (hw : ∀ e ∈ es, e.Within (contentLines (unifyBreaks source)).length)
    (hsub : ∀ e ∈ es, e ∈ Rule.importEdits cfg (context cfg (unifyBreaks source) nodes).1 ++
      Rule.declarationEdits cfg (context cfg (unifyBreaks source) nodes).1) :
    (joinLines (lineBreakOf source) (Edit.applyAll (contentLines (unifyBreaks source)) es) ++
        (if source.getLast? = some '\n' then lineBreakOf source else [])).getLast? = some '\n' ↔
      source.getLast? = some '\n' := by
  cases hsource : source.getLast? with
  | none =>
    -- the empty file stays empty
    obtain rfl : source = [] := List.getLast?_eq_none_iff.mp hsource
    obtain rfl : nodes = [] := nodes_of_empty hn
    obtain rfl : es = [] := by
      rw [List.eq_nil_iff_forall_not_mem]
      intro e he
      simpa [Rule.importEdits, Rule.declarationEdits, context, ImportBlock.locate,
        ImportBlock.Finding.block?, Region.declarations] using hsub e he
    simp [Edit.applyAll, Edit.applyFrom, Edit.clamp, contentLines, unifyBreaks, lines, splitWhen]
  | some c =>
    by_cases hcn : c = '\n'
    · have hbreak : (lineBreakOf source).getLast? = some '\n' := by
        unfold lineBreakOf
        split <;> rfl
      simp [hcn, List.getLast?_append, hbreak]
    · have ht : (unifyBreaks source).getLast? = some c := by rw [getLast?_unifyBreaks, hsource]
      have hrows : contentLines (unifyBreaks source) = lines (unifyBreaks source) := by
        unfold contentLines
        rw [if_neg (by simp [ht, hcn])]
      have hls : LastShown (contentLines (unifyBreaks source)) := by
        rw [hrows]
        exact Statement.lastShown_lines ⟨c, ht, hcn⟩
      have hlen : 0 < (contentLines (unifyBreaks source)).length := by
        rw [hrows]
        exact List.length_pos_iff.mpr (splitWhen_ne_nil _ _)
      have hmem : ∀ e ∈ es.mergeSort Edit.le, e ∈ es :=
        fun e he => (List.mergeSort_perm es Edit.le).mem_iff.mp he
      have happlied : LastShown (Edit.applyAll (contentLines (unifyBreaks source)) es) :=
        lastShown_applyFrom 0 (Edit.mergeSort_sorted hd hw) (fun e he => hw e (hmem e he)) hlen
          (fun e he => (hw e (hmem e he)).1) hls
          (fun e he => lastShown_edits hc hn hls e (hsub e (hmem e he)))
      obtain ⟨l, hl, d, hd, hne⟩ := happlied
      rw [if_neg (by simp [hcn]), List.append_nil, getLast?_joinLines _ hl hd]
      simp [hne, hcn]

/-- The edits that the rules ask for are those of the standard rules, and they are disjoint. -/
theorem asked_disjoint (hn : Outline.Placed (Header.isHeader cfg) (lines t) nodes)
    {rules : List Rule} (hr :
      (rules.filter fun r => (Rule.failure? cfg (context cfg t nodes).1 r).isNone).Perm
      Rule.standard) :
    (rules.flatMap (Rule.editsOf cfg (context cfg t nodes).1)).Perm
        (Rule.importEdits cfg (context cfg t nodes).1 ++
          Rule.declarationEdits cfg (context cfg t nodes).1) ∧
      (rules.flatMap (Rule.editsOf cfg (context cfg t nodes).1)).Pairwise Edit.Disjoint ∧
      ∀ e ∈ rules.flatMap (Rule.editsOf cfg (context cfg t nodes).1),
      e.Within (contentLines t).length := by
  obtain ⟨hdisjoint, hbounds⟩ := hn.regions
  have hperm := Rule.flatMap_editsOf_perm hr
  refine ⟨hperm, (hperm.pairwise_iff Edit.Disjoint.symm).mpr (Rule.edits_disjoint hdisjoint), ?_⟩
  intro e he
  obtain ⟨r, hr, hfirst, hlast⟩ := Rule.region_of_edit (hperm.mem_iff.mp he)
  have hb := hbounds r hr
  exact ⟨by omega, by omega, by omega⟩

/-- The lines after layout, whatever the order of the rules and whatever rules fail beside them. -/
theorem applyAll_asked (hn : Outline.Placed (Header.isHeader cfg) (lines t) nodes)
    {rules : List Rule} (hr :
      (rules.filter fun r => (Rule.failure? cfg (context cfg t nodes).1 r).isNone).Perm
      Rule.standard) :
    Edit.applyAll (contentLines t) (rules.flatMap (Rule.editsOf cfg (context cfg t nodes).1)) =
      (List.range (contentLines t).length).flatMap (Edit.becomes (contentLines t)
        (Rule.importEdits cfg (context cfg t nodes).1 ++
          Rule.declarationEdits cfg (context cfg t nodes).1)) := by
  obtain ⟨hperm, hd, hw⟩ := asked_disjoint hn hr
  rw [Edit.applyAll_eq hd hw, Edit.becomes_perm hperm hd]

theorem becomes_outside {i : Nat}
    (h : ∀ r ∈ (context cfg t nodes).1.regions, ¬(r.first ≤ i ∧ i ≤ r.last)) :
    Edit.becomes (contentLines t) (Rule.importEdits cfg (context cfg t nodes).1 ++
      Rule.declarationEdits cfg (context cfg t nodes).1) i = [(contentLines t).getD i []] := by
  have hnone : (Rule.importEdits cfg (context cfg t nodes).1 ++
      Rule.declarationEdits cfg (context cfg t nodes).1).find? (·.covers i) = none := by
    rw [List.find?_eq_none]
    intro e he hcovers
    obtain ⟨r, hr, hfirst, hlast⟩ := Rule.region_of_edit he
    rw [Edit.covers_iff] at hcovers
    exact h r hr (by omega)
  simp only [Edit.becomes, hnone]

end

/-- What laying out a file leaves alone, for nodes as a parser gives them, and for the
standard rules in any order beside rules that fail: the regions are disjoint, no edit is
dropped, a line outside the regions stays as and where it is, the file ends in a line feed if
and only if it did, the result is that of the standard rules alone, and each rule that fails
adds its failure and nothing else. -/
theorem format_frame {cfg : Settings} (hc : cfg.Accepted) {path : String} {nodes : List Node}
    {source : Text} (hn : Outline.Placed (Header.isHeader cfg) (lines (unifyBreaks source)) nodes)
    {rules : List Rule} (hr : (rules.filter fun r =>
      (Rule.failure? cfg (context cfg (unifyBreaks source) nodes).1 r).isNone).Perm Rule.standard) :
    let ctx := (context cfg (unifyBreaks source) nodes).1
    let edits := Rule.importEdits cfg ctx ++ Rule.declarationEdits cfg ctx
    let alone := format cfg Rule.standard path nodes source
    let out := format cfg rules path nodes source
    ctx.regions.Pairwise Region.Disjoint ∧
      Edit.droppedFrom 0 ((rules.flatMap (Rule.editsOf cfg ctx)).mergeSort Edit.le) = [] ∧
      out.source = joinLines (lineBreakOf source)
          ((List.range ctx.lines.length).flatMap (Edit.becomes ctx.lines edits)) ++
        (if source.getLast? = some '\n' then lineBreakOf source else []) ∧
      (∀ i, (∀ r ∈ ctx.regions, ¬(r.first ≤ i ∧ i ≤ r.last)) →
        Edit.becomes ctx.lines edits i = [ctx.lines.getD i []]) ∧
      (out.source.getLast? = some '\n' ↔ source.getLast? = some '\n') ∧
      (out.source, out.modified) = (alone.source, alone.modified) ∧
      out.failures = rules.filterMap (Rule.failure? cfg ctx) := by
  intro ctx edits alone out
  obtain ⟨hperm, hd, hw⟩ := asked_disjoint hn hr
  have hsource : ∀ rules' : List Rule,
      (rules'.filter fun r => (Rule.failure? cfg ctx r).isNone).Perm Rule.standard →
      (format cfg rules' path nodes source).source = joinLines (lineBreakOf source)
          ((List.range ctx.lines.length).flatMap (Edit.becomes ctx.lines edits)) ++
        (if source.getLast? = some '\n' then lineBreakOf source else []) := by
    intro rules' hr'
    rw [source_format, applyAll_asked hn hr']
    rfl
  have halone : out.source = alone.source :=
    (hsource rules hr).trans (hsource Rule.standard (.refl _)).symm
  refine ⟨hn.regions.1, Edit.droppedFrom_eq_nil hd hw, hsource rules hr, fun i hi =>
    becomes_outside hi, ?_, ?_, (runRules_spec cfg ctx _ rules).2⟩
  · rw [source_format]
    exact getLast?_applied hc hn hd hw fun e he => hperm.mem_iff.mp he
  · have hmodified : out.modified = alone.modified := congrArg (· != source) halone
    rw [halone, hmodified]

/-- An import, a declaration and a call, with the rules in another order and one that fails. -/
theorem format_frame_three_nodes :
    let source := "import b from 'b';\r\ntype A = \x7b x: string \x7d\r\ncall();".toList
    let nodes : List Node := [
      { kind := .importStatement, start := ⟨0, 0⟩, stop := ⟨0, 18⟩ },
      { kind := .typeAlias, start := ⟨1, 0⟩, stop := ⟨1, 22⟩ },
      { kind := .other, start := ⟨2, 0⟩, stop := ⟨2, 7⟩ }]
    let broken : Rule :=
      { code := "F900", name := "broken", analyze := fun _ _ => { edits := .error "no reason" } }
    let rules := [Rule.declarations, broken, Rule.imports]
    (context {} (unifyBreaks source) nodes).1.regions = [⟨0, 0⟩, ⟨1, 1⟩] ∧
      (format {} rules "" nodes source).source.getLast? ≠ some '\n' ∧
      (format {} rules "" nodes source).failures = [⟨"broken", "no reason"⟩] ∧
      (format {} rules "" nodes source).source =
        (format {} Rule.standard "" nodes source).source := by
  intro source nodes broken rules
  have hn : Outline.Placed (Header.isHeader {}) (lines (unifyBreaks source)) nodes :=
    ⟨⟨by decide +kernel, by decide +kernel, by decide +kernel⟩, by decide +kernel,
      by decide +kernel⟩
  have hr : (rules.filter fun r =>
      (Rule.failure? {} (context {} (unifyBreaks source) nodes).1 r).isNone).Perm Rule.standard :=
    .swap ..
  obtain ⟨-, -, -, -, hend, halone, hfailures⟩ :=
    @format_frame {} ⟨[], rfl⟩ "" nodes source hn rules hr
  exact ⟨by decide +kernel, fun h => absurd (hend.mp h) (by decide +kernel), hfailures,
    congrArg Prod.fst halone⟩

end Document

end SourceLayout
