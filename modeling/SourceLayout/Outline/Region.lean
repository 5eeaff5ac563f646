import SourceLayout.Import.Header
import SourceLayout.Import.Statement
import SourceLayout.Log
import SourceLayout.Outline.Node

/-! The regions of a file that are laid out anew: the leading import block and the
declarations at the top level. -/

namespace SourceLayout
open Text

structure Region where
  first : Nat
  last : Nat
  deriving DecidableEq, Repr

structure ImportBlock extends Region where
  statements : List Statement
  deriving DecidableEq, Repr

namespace ImportBlock

inductive Obstacle where
  | errorsBefore
  | brokenImport (row : Nat)
  | syntaxError (row : Nat)
  deriving DecidableEq, Repr

def Obstacle.message : Obstacle → String
  | .errorsBefore => "Syntax errors before the first import, skipping imports"
  | .brokenImport row => s!"Import at line {row + 1} has syntax errors, skipping imports"
  | .syntaxError row => s!"Syntax error at line {row + 1} inside the import block, skipping imports"

/-- The imports read so far: the finished ones, the latest, where it ends,
and the comments since. -/
structure Reading where
  done : List Statement := []
  latest : Statement
  endRow : Nat
  pending : List Text := []
  deriving DecidableEq, Repr

namespace Reading

def statements (r : Reading) : List Statement := r.done ++ [r.latest]

def addImport (r : Reading) (t : Text) (endRow : Nat) : Reading :=
  { done := r.statements, latest := { text := t, leading := r.pending }, endRow }

/-- Adds a comment: the first one behind an import belongs to it, headers are dropped, and others
belong to the next import. -/
def addComment (isHeader : Text → Bool) (r : Reading) (row : Nat) (t : Text) : Reading :=
  if row = r.endRow && r.latest.trailing.isEmpty then
    { r with latest := { r.latest with trailing := t } }
  else if isHeader t then r
  else { r with pending := r.pending ++ [t] }

end Reading

/-- Reads nodes up to the first that is neither an import nor a comment, which is given back. -/
def collect (textOf : Node → Text) (isHeader : Text → Bool) (r : Reading) :
    List Node → Except Obstacle (Reading × Option Node)
  | [] => .ok (r, none)
  | n :: rest =>
    match n.kind with
    | .importStatement =>
      if n.hasError then .error (.brokenImport n.start.row)
      else collect textOf isHeader (r.addImport (textOf n) n.stop.row) rest
    | .comment => collect textOf isHeader (r.addComment isHeader n.start.row (textOf n)) rest
    | .syntaxError => .error (.syntaxError n.start.row)
    | _ => .ok (r, some n)

/-- The first row of the block: headers above the first import belong to it, blank
lines between them too. -/
def topRow (isHeader : Text → Bool) (rows : List Text) (start : Nat) : Nat :=
  let above := (rows.take start).reverse.takeWhile fun l => isBlankLine l || isHeader l
  start - (above.reverse.dropWhile isBlankLine).length

/-- The last row of the block: blank lines and headers below the last import belong to it. -/
def bottomRow (isHeader : Text → Bool) (rows : List Text) (stop : Nat) : Nat :=
  stop + ((rows.drop (stop + 1)).takeWhile fun l => isBlankLine l || isHeader l).length

inductive Finding where
  | none
  | skipped (why : Obstacle)
  | found (block : ImportBlock)
  deriving DecidableEq, Repr

/-- Finds the import block, given the nodes of the file, the text of a node, and its rows. A block
that shares a row with another statement is left alone. -/
def locate (isHeader : Text → Bool) (textOf : Node → Text) (rows : List Text) (nodes : List Node) :
    Finding :=
  let before := nodes.takeWhile (·.kind != .importStatement)
  match nodes.dropWhile (·.kind != .importStatement) with
  | [] => .none
  | n :: rest =>
    if before.any (·.hasError) then .skipped .errorsBefore
    else if n.hasError then .skipped (.brokenImport n.start.row)
    else
      match collect textOf isHeader
          { latest := { text := textOf n }, endRow := n.stop.row } rest with
      | .error why => .skipped why
      | .ok (r, following) =>
        if following.any (·.start.row ≤ r.endRow) then .none
        else if before.getLast?.any (n.start.row ≤ ·.stop.row) then .none
        else .found {
          first := topRow isHeader rows n.start.row
          last := bottomRow isHeader rows r.endRow
          statements := r.statements }

def Finding.notes : Finding → List Note
  | .none => []
  | .skipped why => [⟨.debug, .outline, why.message⟩]
  | .found b =>
    let count := b.statements.length
    [⟨.debug, .outline,
      s!"Import block spans lines {b.first + 1}-{b.last + 1} ({count} statements)"⟩]

def Finding.block? : Finding → Option ImportBlock
  | .found b => some b
  | _ => Option.none

end ImportBlock

namespace Node

/-- Whether a node is an interface or type declaration, exported or not. -/
def isDeclaration (n : Node) : Bool :=
  let declared := if n.kind = .exportStatement then n.declares else some n.kind
  declared == some .interfaceDeclaration || declared == some .typeAlias

def isAsciiBlank (c : Char) : Bool := c == ' ' || (9 ≤ c.toNat && c.toNat ≤ 13)

/-- Whether nothing else stands on a node's rows: only blanks before it, and only blanks, semicolons
and a line comment after it. -/
def ownsRows (rows : List Text) (n : Node) : Bool :=
  let before := takeBytes n.start.col (rows.getD n.start.row [])
  let after := dropBytes n.stop.col (rows.getD n.stop.row [])
  let rest := ((after.dropWhile isAsciiBlank).dropWhile (· == ';')).dropWhile isAsciiBlank
  before.all isAsciiBlank && (rest.isEmpty || startsWith rest "//")

end Node

namespace Region

/-- What is noted about the declarations among the nodes: those with syntax errors are skipped. -/
def declarationNotes (nodes : List Node) : List Note :=
  (nodes.filter fun n => n.isDeclaration && n.hasError).map fun n =>
    ⟨.debug, .outline, s!"Declaration at line {n.start.row + 1} has syntax errors, skipping"⟩

/-- The declarations that are laid out: those without syntax errors that own their rows. -/
def declarations (rows : List Text) (nodes : List Node) : List Region :=
  (nodes.filter fun n => n.isDeclaration && !n.hasError && n.ownsRows rows).map fun n =>
    ⟨n.start.row, n.stop.row⟩

end Region

end SourceLayout
