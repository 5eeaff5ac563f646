import SourceLayout.Text.Lines

/-! Indentation: what a file is indented with, read off its own lines. -/

namespace SourceLayout

inductive IndentKind where
  | spaces
  | tabs
  deriving DecidableEq, Repr

/-- An indentation style: one tab a level, or `size` spaces. -/
structure IndentStyle where
  kind : IndentKind
  size : Nat
  deriving DecidableEq, Repr

namespace IndentStyle
open Text

def unit (s : IndentStyle) : Text :=
  match s.kind with
  | .tabs => ['\t']
  | .spaces => List.replicate s.size ' '

def defaultSize : Nat := 4

def isLead (c : Char) : Bool := c == ' ' || c == '\t'

/-- The tabs and spaces a line begins with, for lines that count: blank lines and the inner lines of
a block comment do not. -/
def evidence (line : Text) : Option Text :=
  let shown := trim line
  let lead := line.takeWhile isLead
  if shown.isEmpty || shown.head? == some '*' || lead.isEmpty then none else some lead

def leads (source : Text) : List Text := (shownLines source).filterMap evidence

/-- The size of a level, given the widths of the lines indented with spaces: their common divisor,
or the least of them if they have none. Widths beyond eight columns do not count. -/
def sizeOf (widths : List Nat) : Nat :=
  match widths.filter (· ≤ 8) with
  | [] => defaultSize
  | w :: ws =>
    let divisor := ws.foldl Nat.gcd w
    let size := if divisor = 1 then ws.foldl min w else divisor
    if [2, 3, 4, 8].contains size then size else defaultSize

/-- The style that lines show by what they are indented with. Tabs win when more lines have them. -/
def ofLeads (leads : List Text) : IndentStyle :=
  let (tabbed, spaced) := leads.partition (·.contains '\t')
  if tabbed.length > spaced.length then ⟨.tabs, 1⟩
  else ⟨.spaces, sizeOf (spaced.map List.length)⟩

def detect (source : Text) : IndentStyle := ofLeads (leads source)

end IndentStyle

end SourceLayout
