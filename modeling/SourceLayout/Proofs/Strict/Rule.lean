import SourceLayout.Proofs.Accepted
import SourceLayout.Proofs.ImportReadBack
import SourceLayout.Proofs.Strict.Declaration

/-! The rules of a run as rules that can fail. Import statements are sorted by matchers that have a
first character, and headers are filled with one character up to a width that can be held. With
settings that pass the checks neither rule slips. -/

namespace SourceLayout
open Text

namespace Strict

/-! ## Imports -/

/-- Whether a matcher takes a statement, told by its first character. -/
def matcherAccepts (matcher : Text) (s : Statement) : Strict Bool := do
  let c ← first matcher
  pure (Group.matcherAccepts (c :: matcher.tail) s)

def accepts (g : Group) (s : Statement) : Strict Bool :=
  if g.isCatchAll then pure true else g.matchers.anyM (matcherAccepts · s)

def home (s : Statement) : List Group → Strict (Option Nat)
  | [] => pure none
  | g :: gs => do
    if ← accepts g s then pure (some 0)
    else do
      let i ← home s gs
      pure (i.map (· + 1))

/-- The header of a group, of at most `capacity` characters if it is filled up. -/
def header (capacity : Nat) (cfg : Settings) (g : Group) : Strict Text :=
  if Header.hasRoom g.label cfg.columnWidth && capacity < cfg.columnWidth then throw .tooLong
  else demand .badFill (Header.renderWith? g.label [cfg.headerChar] cfg.columnWidth)

def outputLines (cfg : Settings) (s : Statement) : Strict (List Text) :=
  let body := lines (s.rendered cfg)
  if s.trailing.isEmpty then pure (s.leading.flatMap lines ++ body)
  else do
    let l ← last body
    pure (s.leading.flatMap lines ++ (body.dropLast ++ [l ++ ' ' :: s.trailing]))

def layout (capacity : Nat) (cfg : Settings) (statements : List Statement) :
    Strict (List Text) := do
  let headers ← cfg.groups.mapM (header capacity cfg)
  let homes ← (Statement.distinct statements).mapM fun s => do
    let i ← home s cfg.groups
    pure (s, i)
  let blocks ← headers.zipIdx.mapM fun (h, i) => do
    let mine := (homes.filter (·.2 == some i)).map (·.1)
    let rows ← (Statement.sorted cfg mine).mapM (outputLines cfg)
    pure (if mine.isEmpty then [] else h :: rows.flatten)
  pure (Grouping.joinBlocks blocks)

theorem accepts_eq {g : Group} (h : g.Clean) (s : Statement) :
    accepts g s = pure (g.accepts s) := by
  have hmatchers : g.matchers.anyM (matcherAccepts · s) =
      pure (g.matchers.any (Group.matcherAccepts · s)) := by
    refine anyM_pure fun m hm => ?_
    obtain ⟨c, r, rfl⟩ := List.exists_cons_of_ne_nil (h m hm).1
    rfl
  rw [accepts, hmatchers, Group.accepts]
  cases g.isCatchAll <;> rfl

-- A matcher without a character is no matcher: the checks of the settings keep it out.
example (s : Statement) : accepts { label := ['/', '/'], matchers := [[]] } s = throw .noItem := rfl

theorem home_eq {groups : List Group} (h : ∀ g ∈ groups, g.Clean) (s : Statement) :
    home s groups = pure (Grouping.home? groups s) := by
  induction groups with
  | nil => rfl
  | cons g gs ih =>
    obtain ⟨hg, hgs⟩ := List.forall_mem_cons.mp h
    have hcons : Grouping.home? (g :: gs) s =
        if g.accepts s then some 0 else (Grouping.home? gs s).map (· + 1) := List.findIdx?_cons
    rw [home, accepts_eq hg, ih hgs, hcons, pure_bind]
    cases g.accepts s <;> rfl

theorem header_eq {capacity : Nat} {cfg : Settings} (h : cfg.columnWidth ≤ capacity) (g : Group) :
    header capacity cfg g = pure (Header.ofGroup cfg g) := by
  rw [header, if_neg (by simp; omega)]
  rfl

theorem outputLines_eq (cfg : Settings) (s : Statement) :
    outputLines cfg s = pure (s.outputLines cfg) := by
  obtain ⟨above, l, hlines⟩ := lines_eq_concat (s.rendered cfg)
  rw [outputLines, Statement.outputLines, hlines, Statement.withTrailing_concat, last_concat,
    List.dropLast_concat]
  simp only [pure_bind]
  split <;> simp

theorem layout_eq {capacity : Nat} {cfg : Settings} (hw : cfg.columnWidth ≤ capacity)
    (hg : ∀ g ∈ cfg.groups, g.Clean) (statements : List Statement) :
    layout capacity cfg statements = pure (Grouping.layout cfg statements) := by
  have hhomes : ∀ s, (do let i ← home s cfg.groups; pure (s, i)) =
      (pure (s, Grouping.home? cfg.groups s) : Strict (Statement × Option Nat)) := fun s => by
    rw [home_eq hg, pure_bind]
  have hmine : ∀ i, (((Statement.distinct statements).map fun s =>
    (s, Grouping.home? cfg.groups s)).filter
      (·.2 == some i)).map (·.1) =
      Grouping.members cfg.groups (Statement.distinct statements) i := by
    intro i
    rw [List.filter_map, List.map_map, Grouping.members]
    simp [Function.comp_def]
  have hrows : ∀ ss, (Statement.sorted cfg ss).mapM (outputLines cfg) =
      pure ((Statement.sorted cfg ss).map (·.outputLines cfg)) :=
        fun ss => mapM_pure fun s _ => outputLines_eq cfg s
  rw [layout, mapM_pure fun g _ => header_eq hw g, pure_bind, mapM_pure fun s _ => hhomes s,
    pure_bind]
  simp only [hmine, hrows, pure_bind, ← List.flatMap_def]
  refine (mapM_bind fun x _ => rfl).trans ?_
  rw [Grouping.layout, List.zipIdx_map, List.map_map]
  rfl

/-! ## The rules -/

def importEdits (capacity : Nat) (cfg : Settings) (ctx : Context) : Strict (List Edit) :=
  match ctx.imports with
  | none => pure []
  | some b => do
    let cfg ← resolveIndent cfg ctx.source
    let new ← layout capacity cfg b.statements
    let gap := if !new.isEmpty && b.last + 1 < ctx.lines.length then [[]] else []
    pure [{ first := b.first, last := b.last, lines := new ++ gap }]

def declarationEdits (calls : Nat) (cfg : Settings) (ctx : Context) : Strict (List Edit) := do
  let cfg ← resolveIndent cfg ctx.source
  let edits ← ctx.declarations.mapM fun r => do
    let old := Rule.regionLines ctx.lines r
    let new ← declarationLines cfg calls old
    let edit : Edit := { first := r.first, last := r.last, lines := new }
    pure (if new != old then [edit] else [])
  pure edits.flatten

/-- The rules of a normal run, with operations that can fail: headers of at most
`capacity` characters can be filled up, and at most `calls` calls can be nested. A slip is
a failure of the rule. -/
def rules (capacity calls : Nat) : List Rule := [
  { Rule.imports with
    analyze := fun cfg ctx => { edits := (importEdits capacity cfg ctx).mapError Slip.message } },
  { Rule.declarations with
    analyze := fun cfg ctx =>
      { notes := Rule.declarationNotes ctx,
        edits := (declarationEdits calls cfg ctx).mapError Slip.message } }]

theorem importEdits_eq {capacity : Nat} {cfg : Settings} (hw : cfg.columnWidth ≤ capacity)
    (hg : ∀ g ∈ cfg.groups, g.Clean) (ctx : Context) :
    importEdits capacity cfg ctx = pure (Rule.importEdits cfg ctx) := by
  have hwidth : (cfg.resolveIndent ctx.source).columnWidth = cfg.columnWidth := by
    unfold Settings.resolveIndent
    split <;> rfl
  have hlayout : ∀ ss, layout capacity (cfg.resolveIndent ctx.source) ss =
      pure (Grouping.layout (cfg.resolveIndent ctx.source) ss) :=
        layout_eq (by rwa [hwidth]) (by simpa using hg)
  rw [importEdits, Rule.importEdits]
  cases ctx.imports with
  | none => rfl
  | some b =>
    simp only [resolveIndent_eq, hlayout, pure_bind]
    rfl

theorem declarationEdits_eq {calls : Nat} (h : nestingLimit + 1 < calls) (cfg : Settings)
    (ctx : Context) : declarationEdits calls cfg ctx = pure (Rule.declarationEdits cfg ctx) := by
  rw [declarationEdits, resolveIndent_eq, pure_bind, Rule.declarationEdits]
  simp only [declarationLines_eq _ h, pure_bind]
  refine (mapM_bind fun r _ => rfl).trans ?_
  congr 1
  induction ctx.declarations with
  | nil => rfl
  | cons r rs ih =>
    rw [List.map_cons, List.flatten_cons, ih, List.filter_cons, Rule.declarationLines]
    split <;> rfl

end Strict

namespace Document

/-- With accepted settings, headers of a width that can be held, and room for more nested calls than
the limit of nesting, the rules of a normal run have an answer for every file: their operations find
what they work on, and their recursion ends. So no rule fails. -/
theorem format_never_fails {cfg : Settings} (hc : cfg.Accepted) {capacity calls : Nat}
    (hw : cfg.columnWidth ≤ capacity) (hcalls : nestingLimit + 1 < calls) :
    (∀ ctx, Strict.importEdits capacity cfg ctx = .ok (Rule.importEdits cfg ctx) ∧
      Strict.declarationEdits calls cfg ctx = .ok (Rule.declarationEdits cfg ctx)) ∧
    (∀ (s : Scan.State) c, Strict.readCode s c = .ok (s.readCode c)) ∧
    ∀ path nodes source,
      (format cfg (Strict.rules capacity calls) path nodes source).failures = [] ∧
        format cfg (Strict.rules capacity calls) path nodes source =
          format cfg Rule.standard path nodes source := by
  have himports := Strict.importEdits_eq hw hc.sound.groups
  have hdeclarations := Strict.declarationEdits_eq hcalls cfg
  have hrun : ∀ ctx shownPath, runRules cfg ctx shownPath (Strict.rules capacity calls) =
      runRules cfg ctx shownPath Rule.standard := by
    intro ctx shownPath
    simp only [Strict.rules, Rule.standard, runRules, himports, hdeclarations]
    rfl
  refine ⟨fun ctx => ⟨himports ctx, hdeclarations ctx⟩, Strict.readCode_eq, fun path nodes source =>
    ?_⟩
  have hsame : format cfg (Strict.rules capacity calls) path nodes source =
      format cfg Rule.standard path nodes source := by
    simp only [format, hrun]
  exact ⟨by rw [hsame]; rfl, hsame⟩

theorem format_never_fails_nested :
    let cfg : Settings := {
      columnWidth := 12
      groups := [{ label := "// LOCAL".toList, matchers := ["./".toList] }, Group.other] }
    let rows : List Text := ["interface A \x7b", "  f(x: \x7b y: string \x7d): void", "  z: \x7b",
      "    w: number \x7d", "\x7d"].map String.toList
    let nodes : List Node := [
      { kind := .interfaceDeclaration, start := ⟨0, 0⟩, stop := ⟨4, 1⟩ },
      { kind := .importStatement, start := ⟨5, 0⟩, stop := ⟨5, 20⟩ }]
    cfg.Accepted ∧ cfg.columnWidth ≤ 12 ∧ nestingLimit + 1 < 34 ∧
      Strict.declarationEdits 34 cfg ⟨unlines rows, rows, none, [⟨0, 4⟩]⟩ = .ok [{
        first := 0
        last := 4
        lines := ["interface A \x7b", "  f (", "    x : \x7b", "      y : string;", "    \x7d",
          "  ): void;", "  z : \x7b", "    w : number;", "  \x7d", "\x7d"].map String.toList }] ∧
      (format cfg (Strict.rules 12 34) "" nodes
        (unlines (rows ++ ["import a from './a';".toList]))).failures = [] := by
  intro cfg rows nodes
  have hc : cfg.Accepted := ⟨[("column_width".toList, .int 12), ("groups".toList, .list [.table [
    ("label".toList, .text "// LOCAL".toList), ("matchers".toList, .list [.text "./".toList])]])],
    rfl⟩
  have hw : cfg.columnWidth ≤ 12 := by decide
  have hcalls : nestingLimit + 1 < 34 := by decide
  obtain ⟨hedits, -, hformat⟩ := format_never_fails hc hw hcalls
  refine ⟨hc, hw, hcalls, ?_, (hformat "" nodes _).1⟩
  rw [(hedits _).2]
  exact congrArg Except.ok (by decide +kernel)

end Document

end SourceLayout
