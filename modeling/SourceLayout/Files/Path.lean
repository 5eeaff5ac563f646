import SourceLayout.Text.Lines

/-! Paths of files. -/

namespace SourceLayout

/-- A path: whether it begins at the root, and the names on the way. -/
structure Path where
  absolute : Bool
  parts : List String
  deriving DecidableEq, Repr

namespace Path

/-- Reads a path. Empty names and single dots say nothing. -/
def ofString (s : String) : Path where
  absolute := s.toList.head? == some '/'
  parts := ((Text.splitWhen (· == '/') s.toList).filter fun p => p != [] &&
    p != ['.']).map String.ofList

def render (p : Path) : String :=
  let body := "/".intercalate p.parts
  if p.absolute then "/" ++ body else if p.parts.isEmpty then "." else body

/-- The path with another one after it, unless that begins at the root. -/
def append (p q : Path) : Path := if q.absolute then q else { p with parts := p.parts ++ q.parts }

def child (p : Path) (name : String) : Path := { p with parts := p.parts ++ [name] }

def parent (p : Path) : Path := { p with parts := p.parts.dropLast }

def name (p : Path) : String := p.parts.getLast?.getD ""

/-- The ending of the last name, from its last dot on. A name that begins or ends with that dot has
none. -/
def suffix (p : Path) : String :=
  let chars := p.name.toList
  let ending := chars.reverse.takeWhile (· != '.')
  if ending.isEmpty || chars.length ≤ ending.length + 1 then ""
  else String.ofList ('.' :: ending.reverse)

/-- Whether a file may hold markup elements, going by its ending. Only letters of ASCII can make up
these endings. -/
def allowsMarkup (p : Path) : Bool :=
  let ending := p.suffix.toLower
  ending == ".tsx" || ending == ".jsx"

/-- The path with the parts that lead upwards taken back. -/
def resolve (p : Path) : Path :=
  { p with
    parts := (p.parts.foldl
      (fun up part => if part == ".." then up.tail else part :: up) []).reverse }

def ancestors (p : Path) : List Path :=
  (List.range (p.parts.length + 1)).map fun i =>
    { p with parts := p.parts.take (p.parts.length - i) }

end Path

end SourceLayout
