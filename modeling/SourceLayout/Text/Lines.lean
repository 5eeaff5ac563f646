import SourceLayout.Text.Blank

/-! Cutting a text into lines and joining lines again. -/

namespace SourceLayout.Text

/-- The pieces of a list between the elements that satisfy `p`: one more than
there are such elements. -/
def splitWhen {α : Type} (p : α → Bool) : List α → List (List α)
  | [] => [[]]
  | a :: r =>
    if p a then [] :: splitWhen p r
    else match splitWhen p r with
      | [] => [[a]]
      | q :: qs => (a :: q) :: qs

/-- The lines of a text, which are separated by line feeds. -/
def lines (t : Text) : List Text := splitWhen (· == '\n') t

def joinLines (lineBreak : Text) (ls : List Text) : Text := lineBreak.intercalate ls

def unlines (ls : List Text) : Text := joinLines ['\n'] ls

/-- The text with every carriage return and line feed in a row written as a line feed. -/
def unifyBreaks : Text → Text
  | [] => []
  | '\r' :: '\n' :: r => '\n' :: unifyBreaks r
  | c :: r => c :: unifyBreaks r

def hasPairedBreak (t : Text) : Bool := occursIn ['\r', '\n'] t

/-- The text with each of the three ways to end a line written as a line feed. -/
def plainBreaks : Text → Text
  | [] => []
  | '\r' :: '\n' :: r => '\n' :: plainBreaks r
  | c :: r => (if c == '\r' then '\n' else c) :: plainBreaks r

/-- Characters that end a line when a text is shown. -/
def isLineBoundary (c : Char) : Bool :=
  let n := c.toNat
  (10 ≤ n && n ≤ 13) || (28 ≤ n && n ≤ 30) || n == 0x85 || n == 0x2028 || n == 0x2029

/-- The lines of a text as they are shown: any line boundary ends one, and no empty line follows the
last boundary. -/
def shownLines (t : Text) : List Text :=
  let pieces := splitWhen isLineBoundary (unifyBreaks t)
  if pieces.getLast? == some [] then pieces.dropLast else pieces

/-- The text with every run of blanks that holds a line feed replaced by one space. -/
def joinWrapped (t : Text) : Text := go [] t
where
  /-- `run` holds the blanks just read, in reverse. -/
  go (run : Text) : Text → Text
    | [] => release run
    | c :: r => if isBlank c then go (c :: run) r else release run ++ c :: go [] r
  release (run : Text) : Text := if run.contains '\n' then [' '] else run.reverse

end SourceLayout.Text
