import SourceLayout.Scan.Basic
import SourceLayout.Text.Lines

/-! Searching and cutting a text along its marks: brackets, separators and comments are found in
code only, never inside a string or a comment. -/

namespace SourceLayout.Scan
open Text

def Mark.isCode (m : Mark) : Bool := m.kind == .code

def Mark.isComment (m : Mark) : Bool := m.kind == .comment

/-- Code that no bracket of the text encloses. -/
def Mark.isTop (m : Mark) : Bool := m.isCode && m.depth == 0

/-- The marks of code, each with its position in the text. -/
def codeMarks (t : Text) (s : State := {}) : List (Mark × Nat) :=
  (marks t s).zipIdx.filter (·.1.isCode)

/-- The first position from `start` on where one of `targets` stands outside all brackets. -/
def findTop? (targets : List Char) (t : Text) (start : Nat := 0) : Option Nat :=
  ((marks t).zipIdx.find? fun (m, i) => start ≤ i && m.isTop && targets.contains m.char).map (·.2)

def findCode? (target : Char) (t : Text) : Option Nat :=
  (marks t).findIdx? fun m => m.isCode && m.char == target

/-- For a text that begins with an opening bracket, the position of its closing bracket. -/
def matching? (t : Text) : Option Nat :=
  ((marks t).zipIdx.drop 1).find? (fun (m, _) => m.isTop && isCloser m.char) |>.map (·.2)

/-- The text from position `i` on; positions below zero count from its end. -/
def dropFrom (i : Int) (t : Text) : Text :=
  if 0 ≤ i then t.drop i.toNat else t.drop (t.length - i.natAbs)

/-- The position of the bracket that closes the one at `i`, counted as `i` is. -/
def matchingAt? (t : Text) (i : Int) : Option Int := (matching? (dropFrom i t)).map (i + ·)

/-- The text cut at the bracket at position `i` and at the one that closes it: what stands before,
between and after them. -/
def aroundPair? (t : Text) (i : Nat) : Option (Text × Text × Text) :=
  (matching? (t.drop i)).map fun close =>
    (t.take i, (t.drop (i + 1)).take (close - 1), t.drop (i + close + 1))

/-- The pieces between the separators that stand outside all brackets, as written. -/
def piecesTop (separators : List Char) (t : Text) : List Text :=
  (splitWhen (fun m => m.isTop && separators.contains m.char) (marks t)).map (·.map Mark.char)

/-- The pieces between the separators that stand outside all brackets,
trimmed, without empty ones. -/
def splitTop (separators : List Char) (t : Text) : List Text :=
  ((piecesTop separators t).map trim).filter (!·.isEmpty)

def commentStart? (t : Text) (s : State := {}) : Option Nat := (marks t s).findIdx? Mark.isComment

def hasComment (t : Text) : Bool := (commentStart? t).isSome

/-- The text without its comments; line breaks inside a comment stay. -/
def withoutComments (t : Text) (s : State := {}) : Text :=
  ((marks t s).filter fun m => !m.isComment || m.char == '\n').map Mark.char

/-- The marked characters with each run of blanks outside strings written as one space, unless the
character before the run, `last`, is a space already or missing. -/
def collapseFrom (last : Option Char) : List Mark → Text
  | [] => []
  | m :: r =>
    if m.kind != .string && isBlank m.char then
      if last.isNone || last == some ' ' then collapseFrom last r
      else ' ' :: collapseFrom (some ' ') r
    else m.char :: collapseFrom (some m.char) r

/-- The text with every run of blanks outside strings written as one space, and trimmed. -/
def collapse (t : Text) : Text := trim (collapseFrom none (marks t))

end SourceLayout.Scan
