import SourceLayout.Import.Statement
import SourceLayout.Scan.Search

/-! Breaking an over-long import of named bindings into one name a line. -/

namespace SourceLayout

/-- An import of named bindings on one line: `import [type] [name,] { names } from "module";`. -/
structure NamedImport where
  typeOnly : Bool
  default? : Option Text
  names : Text
  moduleName : Text
  deriving DecidableEq, Repr

namespace NamedImport
open Text

def afterBlanks? (t : Text) : Option Text := if t.head?.any isBlank then some (trimLeft t) else none

/-- An optional name with a comma, then the opening brace: the name and what follows the brace. -/
def bindings? (t : Text) : Option (Option Text × Text) :=
  match t with
  | '{' :: r => some (none, r)
  | _ =>
    let name := t.takeWhile isNameChar
    match trimLeft (t.dropWhile isNameChar) with
    | ',' :: r =>
      match trimLeft r with
      | '{' :: rest => if name.isEmpty then none else some (some name, rest)
      | _ => none
    | _ => none

def head? (t : Text) : Option (Bool × Option Text × Text) := do
  let r ← (dropWord? "import" t).bind afterBlanks?
  let typed := ((dropWord? "type" r).bind afterBlanks?).bind bindings?
  match typed with
  | some (d, rest) => some (true, d, rest)
  | none => (bindings? r).map fun (d, rest) => (false, d, rest)

def isEnd (t : Text) : Bool := trimLeft t == [] || trimLeft t == [';']

/-- The shortest module name, of one character at least, whose closing quote ends the statement. -/
def closeName? (q : Char) : Text → Option Text
  | [] => none
  | c :: r =>
    if r.head? == some q && isEnd (r.drop 1) then some [c]
    else (closeName? q r).map (c :: ·)

/-- The part after the closing brace: the name of the module. -/
def tail? (t : Text) : Option Text := do
  let r ← dropWord? "from" (trimLeft t)
  match trimLeft r with
  | q :: rest => if q == '"' || q == '\'' then closeName? q rest else none
  | [] => none

/-- The text up to the last closing brace after which the statement ends as it
should, and the module. -/
def body? : Text → Option (Text × Text)
  | [] => none
  | c :: r =>
    match body? r with
    | some (names, m) => some (c :: names, m)
    | none => if c == '}' then (tail? r).map ([], ·) else none

def read? (t : Text) : Option NamedImport := do
  let (typeOnly, default?, rest) ← head? t
  let (names, moduleName) ← body? rest
  return { typeOnly, default?, names, moduleName }

def render (i : NamedImport) (unit : Text) : List Text :=
  let keyword := (if i.typeOnly then "import type " else "import ").toList
  let opening := match i.default? with
    | some name => keyword ++ name ++ [',', ' ', '{']
    | none => keyword ++ ['{']
  opening :: (Scan.splitTop [','] i.names).map (fun name => unit ++ name ++ [',']) ++
    ["\x7d from \"".toList ++ i.moduleName ++ ['"', ';']]

end NamedImport

namespace Statement
open Text

/-- A statement's text, broken into one name a line if it is longer than `width`. Imports without
named bindings stay as written. -/
def reflow (t : Text) (width : Nat) (unit : Text) : Text :=
  if (flatten t).length ≤ width then t
  else match NamedImport.read? (flatten t) with
    | none => t
    | some i => if (Scan.splitTop [','] i.names).isEmpty then t else unlines (i.render unit)

end Statement

end SourceLayout
