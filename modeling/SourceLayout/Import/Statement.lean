import SourceLayout.Text.Lines
import SourceLayout.Text.Word

/-! Import statements with their comments, and the module they name. -/

namespace SourceLayout

/-- An import statement as written, the comments above it, and the comment
after it (empty if none). -/
structure Statement where
  text : Text
  leading : List Text := []
  trailing : Text := []
  deriving DecidableEq, Repr

namespace Statement
open Text

def flatten (t : Text) : Text := trim (joinWrapped t)

/-- The statement on one line; two statements with the same form are duplicates. -/
def normalized (s : Statement) : Text := flatten s.text

/-- The text between a pair of quotes at the beginning, after blanks. -/
def quotedName? (t : Text) : Option Text :=
  match trimLeft t with
  | [] => none
  | q :: r =>
    if (q == '"' || q == '\'') && r.contains q then some (r.takeWhile (· != q)) else none

/-- The quoted name after the first word `from` that has one; `before` is the character in front. -/
def sourceName? (before : Option Char) : Text → Option Text
  | [] => none
  | c :: r =>
    let here :=
      if isWordEdge before (some c) then (dropWord? "from" (c :: r)).bind quotedName? else none
    here <|> sourceName? (some c) r

/-- The module of an import: the name after `from`, or after `import` if nothing is bound. Empty if
there is none. -/
def moduleName (s : Statement) : Text :=
  let t := s.normalized
  ((sourceName? none t) <|> (dropWord? "import" t).bind quotedName?).getD []

end Statement

end SourceLayout
