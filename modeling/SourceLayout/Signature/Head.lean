import SourceLayout.Scan.Search
import SourceLayout.Text.Word

/-! The head of a call signature, `name?<generics>(`, and its parameters. -/

namespace SourceLayout
open Text

/-- The head of a call signature, and the text from its opening parenthesis on. -/
structure MethodHead where
  name : Text
  optional : Bool
  generics : Text
  rest : Text
  deriving DecidableEq, Repr

namespace MethodHead

/-- An optional question mark with blanks around it: whether it is there, and what follows. -/
def questionMark (t : Text) : Bool × Text :=
  match trimLeft t with
  | '?' :: r => (true, trimLeft r)
  | r => (false, r)

/-- Type parameters between angle brackets, if the text begins with them, and what follows. -/
def generics? (t : Text) : Option (Text × Text) :=
  if t.head? == some '<' then
    (Scan.matching? t).map fun i => (Scan.collapse (t.take (i + 1)), trimLeft (t.drop (i + 1)))
  else some ([], t)

def read? (t : Text) : Option MethodHead := do
  let name := t.takeWhile isNameChar
  let (optional, afterMark) := questionMark (t.dropWhile isNameChar)
  let (generics, rest) ← generics? afterMark
  if !name.isEmpty && rest.head? == some '(' then some { name, optional, generics, rest } else none

/-- The head as it is written in front of the parameters. -/
def token (h : MethodHead) : Text := h.name ++ (if h.optional then ['?'] else []) ++ h.generics

end MethodHead

/-- A parameter of a signature or a member of an object type written on one line. Without a
colon the type is empty. -/
structure Parameter where
  name : Text
  optional : Bool := false
  type : Text := []
  deriving DecidableEq, Repr

namespace Parameter

/-- Reads `name?: type`, cut at the first colon outside brackets. -/
def read (t : Text) : Parameter :=
  match Scan.findTop? [':'] t with
  | none => { name := trim t }
  | some colon =>
    let name := trim (t.take colon)
    let optional := name.getLast? == some '?'
    { name := if optional then trim name.dropLast else name
      optional
      type := trim (t.drop (colon + 1)) }

def readAll (t : Text) : List Parameter := (Scan.splitTop [','] t).map read

end Parameter

/-- A column of names: the width of the longest and whether any of them is optional. -/
structure NameColumn where
  width : Nat
  hasOptional : Bool
  deriving DecidableEq, Repr

namespace NameColumn

def of (names : List (Text × Bool)) : NameColumn where
  width := (names.map (·.1.length)).foldl max 0
  hasOptional := names.any (·.2)

/-- A name padded to the column; if any name is optional, each has room for the question mark. -/
def cell (col : NameColumn) (name : Text) (optional : Bool) : Text :=
  padTo col.width ' ' name ++
    (if col.hasOptional then (if optional then [' ', '?'] else [' ', ' ']) else [])

def cellWidth (col : NameColumn) : Nat := col.width + (if col.hasOptional then 2 else 0)

end NameColumn

end SourceLayout
