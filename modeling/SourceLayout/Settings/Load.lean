import SourceLayout.Files.Tree
import SourceLayout.Log
import SourceLayout.Settings.Check
import SourceLayout.Settings.Ini
import SourceLayout.Settings.Toml.Document

/-! Loading the settings that apply to a file: the nearest settings file above it, or else the
nearest project file that has a table for this program. -/

namespace SourceLayout
open Text

namespace Group

/-- The label of the group with a name: upper case, behind a comment sign. -/
def labelOf (name : Text) : Text :=
  let shown := trim name
  let bare := match dropWord? "//" shown with
    | some r => trimLeft r
    | none => shown
  ['/', '/', ' '] ++ upper bare

end Group

namespace Settings

/-- Why settings cannot be loaded. A file that cannot be read otherwise only
falls back to defaults. -/
inductive Obstruction where
  /-- The entry for tools is not something that can have members. -/
  | toolsNotSearchable
  /-- The entry for tools is not a table. -/
  | toolsNotTable
  /-- The entry for this program is not a table, and not a list of pairs either. -/
  | notEntries
  /-- An element in a list of pairs is not a pair. -/
  | notPair
  /-- The first of a pair cannot be a name. -/
  | notName
  /-- The matchers of a group are not a list. -/
  | notMatchers
  | undecodable
  /-- A number has too many digits to be read, or to be shown in a warning. -/
  | hugeNumber
  deriving DecidableEq, Repr

/-- Values for fields, in the order in which they were given. -/
abbrev FieldValues := List (Field × Value)

def groupValue (name : Text) (matchers : List Value) : Value :=
  .table [("label".toList, .text (Group.labelOf name)), ("matchers".toList, .list matchers)]

/-! ### Settings files -/

/-- The options of a settings file and the fields they set. -/
def optionFields : List (String × Field) := [
  ("HEADER_CHAR", .headerChar),
  ("TO_COLUMN_WIDTH", .columnWidth),
  ("EXPAND_METHODS", .expandMethods),
  ("INDENT_TYPE", .indentKind),
  ("INDENT_SIZE", .indentSize),
  ("REFLOW_IMPORTS", .reflowImports)]

/-- Sets a field; one that is there already keeps its place. -/
def putValue (f : Field) (v : Value) : FieldValues → FieldValues
  | [] => [(f, v)]
  | (g, w) :: r => if g = f then (g, v) :: r else (g, w) :: putValue f v r

/-- The field an option sets, its letters in either case. -/
def optionField? (name : Text) : Option Field :=
  optionFields.lookup (String.ofList (upper (trim name)))

/-- The values of the options, and the names of those that set nothing. -/
def optionValues : FieldValues → List (Text × Text) → FieldValues × List Text
  | done, [] => (done, [])
  | done, (name, value) :: r =>
    match optionField? name with
    | some f => optionValues (putValue f (.text (trim value)) done) r
    | none =>
      let (values, unknown) := optionValues done r
      (values, name :: unknown)

/-- A group of a settings file, whose matchers have commas between them. -/
def optionGroup (name value : Text) : Value :=
  groupValue name
    ((((splitWhen (· == ',') value).map trim).filter (!·.isEmpty)).map Value.text)

def isGroupsSection (s : Ini.Section) : Bool :=
  (trim s.name).map Char.toLower == "groups".toList

/-- The values in the sections of a settings file, and the names of options that set nothing. -/
def sectionValues (sections : List Ini.Section) : FieldValues × List Text :=
  let own := sections.filter fun s => s.name == Ini.firstName
  let (values, unknown) := optionValues [] (own.flatMap (·.options))
  let groups := (sections.filter isGroupsSection).flatMap fun s =>
    s.options.map fun (name, value) => optionGroup name value
  (if groups.isEmpty then values else values ++ [(.groups, .list groups)], unknown)

/-! ### Project files -/

/-- The name of this program's table in a project file. -/
def toolName : Text := "serisei".toList

def tools? (doc : List (Text × Value)) : Option Value := doc.lookup "tool".toList

def mentionsTool : Option Value → Except Obstruction Bool
  | none => .ok false
  | some (.table entries) => .ok (entries.any (·.1 == toolName))
  | some (.list items) => .ok (items.any fun | .text t => t == toolName | _ => false)
  | some (.text t) => .ok (occursIn toolName t)
  | some _ => .error .toolsNotSearchable

def pair (v : Value) : Except Obstruction (Value × Value) :=
  match v.members? with
  | some [a, b] => .ok (a, b)
  | some _ => .error .notPair
  | none => .error .notEntries

/-- The text of a value that is a name; other plain values are names of nothing. -/
def nameOf : Value → Except Obstruction (Option Text)
  | .text t => .ok (some t)
  | .list _ => .error .notName
  | .table _ => .error .notName
  | _ => .ok none

/-- The entries that a list of pairs stands for. A later pair replaces an
earlier one of its name. -/
def pairEntries (done : List (Text × Value)) : List Value → Except Obstruction (List (Text × Value))
  | [] => .ok done
  | v :: r => do
    let (k, value) ← pair v
    match (← nameOf k) with
    | none => pairEntries done r
    | some name =>
      if done.any (·.1 == name) then
        pairEntries (done.map fun (n, old) => if n == name then (n, value) else (n, old)) r
      else pairEntries (done ++ [(name, value)]) r

def toolEntries (tools : Option Value) : Except Obstruction (List (Text × Value)) :=
  match tools with
  | none => .ok []
  | some (.table entries) =>
    match entries.lookup toolName with
    | none => .ok []
    | some (.table own) => .ok own
    | some (.list items) => pairEntries [] items
    | some (.text t) => if t.isEmpty then .ok [] else .error .notPair
    | some _ => .error .notEntries
  | some _ => .error .toolsNotTable

def matcherItems (v : Value) : Except Obstruction (List Value) :=
  match v.members? with
  | some items => .ok items
  | none => .error .notMatchers

/-- The values in this program's table. Groups are given as a table of names and matchers; names of
no field are ignored. -/
def tableValues (entries : List (Text × Value)) : Except Obstruction FieldValues := do
  let values := entries.filterMap fun (name, v) =>
    match Field.ofName? name with
    | some .groups => none
    | some f => some (f, v)
    | none => none
  match entries.lookup "groups".toList with
  | some (.table groups) =>
    if groups.isEmpty then return values
    let groups ← groups.mapM fun (name, v) => do return groupValue name (← matcherItems v)
    return values ++ [(.groups, .list groups)]
  | _ => return values

/-! ### Loading -/

/-- The settings that values give: a value that is refused leaves its field at the default and is
warned about. -/
def build (shownPath : String) (s : Settings) :
    FieldValues → Except Obstruction (Settings × List Note)
  | [] => .ok (s, [])
  | (f, v) :: r =>
    match s.setField f v with
    | .ok s => build shownPath s r
    | .error problems =>
      if v.isShowable then do
        let why := (problems.head?.map fun p => p.fault.message).getD ""
        let shown := String.ofList v.render
        let name := f.name
        let warning := s!"{shownPath}: invalid value for {name} ({shown}), using default: {why}"
        let (s, notes) ← build shownPath s r
        return (s, ⟨.warning, .settings, warning⟩ :: notes)
      else .error .hugeNumber

def fileName : String := ".seriseirc"

def projectFileName : String := "pyproject.toml"

def searchPath (tree : FileTree) (start : Path) : List Path :=
  let place := (tree.fromRoot start).resolve
  (if tree.hasDirectory place then place else place.parent).ancestors

def projectEntries? (tree : FileTree) (p : Path) :
    Except Obstruction (Option (List (Text × Value))) :=
  match tree.readBytes p with
  | .error _ => .ok none
  | .ok bytes =>
    match decodeText? bytes with
    | none => .error .undecodable
    | some t =>
      match Toml.read t with
      | .ok entries => .ok (some entries)
      | .error .malformed => .ok none
      | .error .hugeNumber => .error .hugeNumber

def hasToolTable (tree : FileTree) (p : Path) : Except Obstruction Bool := do
  match (← projectEntries? tree p) with
  | some doc => mentionsTool (tools? doc)
  | none => return false

def findProject? (tree : FileTree) : List Path → Except Obstruction (Option Path)
  | [] => .ok none
  | dir :: rest => do
    let p := dir.child projectFileName
    if tree.hasFile p then
      if (← hasToolTable tree p) then return some p else findProject? tree rest
    else findProject? tree rest

def find? (tree : FileTree) (start : Path) : Except Obstruction (Option Path) :=
  let dirs := searchPath tree start
  match (dirs.map (·.child fileName)).find? tree.hasFile with
  | some p => .ok (some p)
  | none => findProject? tree dirs

/-- The sections of a settings file; none if it cannot be read. Its line breaks do not matter. -/
def readSections? (tree : FileTree) (p : Path) : Option (List Ini.Section) := do
  let bytes ← (tree.readBytes p).toOption
  Ini.read? (plainBreaks (← decodeText? bytes))

private def note (level : Level) (message : String) : Note := ⟨level, .settings, message⟩

/-- The values in a file and what is noted about them; none if the file cannot be read. -/
def readValues (tree : FileTree) (p : Path) :
    Except Obstruction (Option (FieldValues × List Note)) := do
  let shown := p.render
  if p.name == projectFileName then
    match (← projectEntries? tree p) with
    | none => return none
    | some doc =>
      let values ← tableValues (← toolEntries (tools? doc))
      return some (values, [])
  else
    return (readSections? tree p).map fun sections =>
      let (values, unknown) := sectionValues sections
      (values, unknown.map fun name =>
        let key := String.ofList name
        note .debug s!"{shown}: ignoring unknown key {key}")

/-- Loads the settings in a file, with what is noted on the way. Why a file cannot be read is left
out. -/
def loadFile (tree : FileTree) (p : Path) : Except Obstruction (Settings × List Note) := do
  let shown := p.render
  match (← readValues tree p) with
  | none => return ({}, [note .warning s!"Error reading {shown}, using defaults"])
  | some (values, notes) =>
    let (s, warnings) ← build shown {} values
    return (s, notes ++ note .debug s!"Using configuration from {shown}" :: warnings)

/-- Loads the settings in the file that was found; without one, all is as it is by default. -/
def loadFound (tree : FileTree) : Option Path → Except Obstruction (Settings × List Note)
  | none => .ok ({}, [])
  | some p => loadFile tree p

def load (tree : FileTree) (start : Path) : Except Obstruction (Settings × List Note) := do
  loadFound tree (← find? tree start)

end Settings

end SourceLayout
