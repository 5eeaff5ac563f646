import SourceLayout.Text.Lines

/-! Settings files with sections in brackets and options `name = value`. A value goes on over lines
that are indented deeper than its first line; comments have lines of their own. -/

namespace SourceLayout.Ini
open Text

/-- Options in the order in which their names first appear, each with the lines of its value. -/
abbrev Options := List (Text × List Text)

/-- Sets an option; one that is there already keeps its place. -/
def put (name value : Text) : Options → Options
  | [] => [(name, [value])]
  | (n, v) :: r => if n == name then (n, [value]) :: r else (n, v) :: put name value r

def extend (name line : Text) (options : Options) : Options :=
  options.map fun (n, v) => if n == name then (n, v ++ [line]) else (n, v)

/-- The name of the section whose options belong to every section. -/
def sharedName : Text := "__none__".toList

/-- The name of the section that options without a header belong to. -/
def firstName : Text := "settings".toList

/-- What is read so far: the sections, the one being read, the option being read, its indentation,
and whether some line was neither a header nor an option. -/
structure Reading where
  sections : List (Text × Options) := [(firstName, [])]
  shared : Options := []
  current : Text := firstName
  option? : Option Text := none
  indent : Nat := 0
  faulty : Bool := false

namespace Reading

def change (r : Reading) (f : Options → Options) : Reading :=
  if r.current == sharedName then { r with shared := f r.shared }
  else { r with sections := r.sections.map fun (n, os) => if n == r.current then
    (n, f os) else (n, os) }

/-- Adds a line to the value being read, if there is one. -/
def addLine (r : Reading) (line : Text) : Reading :=
  match r.option? with
  | some name => r.change (extend name line)
  | none => r

def enter (r : Reading) (name : Text) : Reading :=
  let known := name == sharedName || r.sections.any (·.1 == name)
  { r with
    sections := if known then r.sections else r.sections ++ [(name, [])]
    current := name
    option? := none }

/-- The name in a section header: what stands between the first bracket and the last closing one. -/
def header? (t : Text) : Option Text :=
  match t with
  | '[' :: r =>
    let name := ((r.reverse.dropWhile (· != ']')).drop 1).reverse
    if name.isEmpty then none else some name
  | _ => none

def addOption (r : Reading) (t : Text) : Reading :=
  let name := trimRight (t.takeWhile (· != '='))
  match t.dropWhile (· != '=') with
  | '=' :: value =>
    if name.isEmpty then { r with faulty := true }
    else { r.change (put name (trim value)) with option? := some name }
  | _ => { r with faulty := true }

def readLine (r : Reading) (line : Text) : Reading :=
  let shown := trim line
  let indent := (indentOf line).length
  if shown.head? == some '#' || shown.head? == some ';' then r
  else if shown.isEmpty then r.addLine []
  else if r.option?.isSome && r.indent < indent then r.addLine shown
  else
    let r := { r with indent }
    match header? shown with
    | some name => r.enter name
    | none => r.addOption shown

end Reading

structure Section where
  name : Text
  options : List (Text × Text)

/-- The options of a section: the shared ones first, with the section's own values, then its own. -/
def withShared (shared own : Options) : Options :=
  (shared.map fun (n, v) => (n, (own.lookup n).getD v)) ++ own.filter fun (n, _) =>
    !shared.any (·.1 == n)

/-- The sections of a text; none if a line is neither a header nor an option. -/
def read? (t : Text) : Option (List Section) :=
  let r := (lines t).foldl Reading.readLine {}
  if r.faulty then none
  else some (r.sections.map fun (name, own) =>
    { name, options := (withShared r.shared own).map fun (n, v) => (n, trimRight (unlines v)) })

end SourceLayout.Ini
