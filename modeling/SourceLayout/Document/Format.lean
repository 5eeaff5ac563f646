import SourceLayout.Document.Rule

/-! Laying out a whole file. -/

namespace SourceLayout
open Text

structure RuleFailure where
  rule : String
  message : String
  deriving DecidableEq, Repr

def RuleFailure.text (f : RuleFailure) : String := f.rule ++ ": " ++ f.message

structure Formatted where
  source : Text
  modified : Bool
  failures : List RuleFailure := []
  notes : List Note := []
  deriving DecidableEq, Repr

namespace Document

/-- The lines of a file with plain line breaks. A final line break ends the last line and begins no
other. -/
def contentLines (t : Text) : List Text :=
  if t.getLast? == some '\n' then (lines t).dropLast else lines t

def context (cfg : Settings) (t : Text) (nodes : List Node) : Context × List Note :=
  let rows := contentLines t
  let allRows := lines t
  let finding := ImportBlock.locate (Header.isHeader cfg) (·.textIn allRows) rows nodes
  ({ source := t
     lines := rows
     imports := finding.block?
     declarations := Region.declarations allRows nodes },
   finding.notes ++ Region.declarationNotes nodes)

/-- Runs the rules one after the other: the edits they ask for, the failures, and the notes. -/
def runRules (cfg : Settings) (ctx : Context) (shownPath : String) :
    List Rule → List Edit × List RuleFailure × List Note
  | [] => ([], [], [])
  | rule :: rest =>
    let a := rule.analyze cfg ctx
    let (edits, failures, notes) := runRules cfg ctx shownPath rest
    match a.edits with
    | .ok es => (es ++ edits, failures, a.notes ++ notes)
    | .error why =>
      let warning := s!"Rule {rule.code} ({rule.name}) failed on {shownPath}: {why}"
      (edits, ⟨rule.name, why⟩ :: failures, a.notes ++ ⟨.warning, .engine, warning⟩ :: notes)

def lineBreakOf (source : Text) : Text := if hasPairedBreak source then ['\r', '\n'] else ['\n']

/-- Lays out a file, given its top-level nodes. Its way to end lines and its
final line break are kept. -/
def format (cfg : Settings) (rules : List Rule) (path : String) (nodes : List Node)
    (source : Text) : Formatted :=
  let lineBreak := lineBreakOf source
  let t := unifyBreaks source
  let shownPath := if path.isEmpty then "<string>" else path
  let broken := (Outline.complaints nodes).map fun why =>
    (⟨.debug, .engine, s!"{shownPath}: {why}, formatting intact regions only"⟩ : Note)
  let (ctx, found) := context cfg t nodes
  let (edits, failures, notes) := runRules cfg ctx shownPath rules
  let body := joinLines lineBreak (Edit.applyAll ctx.lines edits)
  let output := if t.getLast? == some '\n' then body ++ lineBreak else body
  { source := output
    modified := output != source
    failures
    notes := broken ++ found ++ notes }

end Document

end SourceLayout
