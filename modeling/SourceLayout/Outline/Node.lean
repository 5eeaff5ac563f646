import SourceLayout.Text.Lines

/-! The outline of a file: its statements and comments at the top level, in source order,
as a parser gives them. -/

namespace SourceLayout

/-- A place in a file: a row, and the number of bytes before it in that row. -/
structure Position where
  row : Nat
  col : Nat
  deriving DecidableEq, Repr

inductive NodeKind where
  | importStatement
  | comment
  | interfaceDeclaration
  | typeAlias
  | exportStatement
  | syntaxError
  | other
  deriving DecidableEq, Repr

/-- A node: what it is, where it begins and ends, whether it holds a syntax error, and, for an
export, what it declares. -/
structure Node where
  kind : NodeKind
  start : Position
  stop : Position
  hasError : Bool := false
  declares : Option NodeKind := none
  deriving DecidableEq, Repr

namespace Text

/-- The first characters of a text that begin within its first `n` bytes. -/
def takeBytes : Nat → Text → Text
  | _, [] => []
  | 0, _ => []
  | n + 1, c :: r => c :: takeBytes (n + 1 - c.utf8Size) r

def dropBytes : Nat → Text → Text
  | _, [] => []
  | 0, t => t
  | n + 1, c :: r => dropBytes (n + 1 - c.utf8Size) r

end Text

namespace Node
open Text

def textIn (rows : List Text) (n : Node) : Text :=
  let first := rows.getD n.start.row []
  if n.start.row = n.stop.row then dropBytes n.start.col (takeBytes n.stop.col first)
  else
    let between := (rows.drop (n.start.row + 1)).take (n.stop.row - n.start.row - 1)
    unlines (dropBytes n.start.col first :: between ++
      [takeBytes n.stop.col (rows.getD n.stop.row [])])

end Node

namespace Outline

/-- What is told about a file whose nodes hold a syntax error. -/
def complaints (nodes : List Node) : List String :=
  if nodes.any (·.hasError) then ["source contains syntax errors"] else []

end Outline

end SourceLayout
