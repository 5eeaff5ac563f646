import SourceLayout.Text.Blank

/-! The character scanner. It reads a text one character at a time, knows the next one, and
marks each character as code, string or comment together with its bracket depth. What it knows
between two lines is a `State`; how far it is inside one line is a `Phase`, which a line break
or the end of a text resets. -/

namespace SourceLayout.Scan
open Text

inductive Kind where
  | code
  | string
  | comment
  deriving DecidableEq, Repr

/-- A character with its bracket depth and its kind. Both brackets of a pair have the depth of what
surrounds them. -/
structure Mark where
  char : Char
  depth : Nat
  kind : Kind
  deriving DecidableEq, Repr

/-- What is carried from one line to the next: the open brackets, innermost first, the quote of
the open string, whether a block comment is open, and the last character of code that was not
blank. -/
structure State where
  stack : List Char := []
  quote : Option Char := none
  inBlock : Bool := false
  previous : Option Char := none
  deriving DecidableEq, Repr

namespace State

def depth (s : State) : Nat := s.stack.length

def settled (s : State) : Bool := s.stack.isEmpty && s.quote.isNone && !s.inBlock

end State

/-- Where the scanner stands within a text: between tokens, in a line comment, behind a backslash in
a string, or before the second character of a sign that begins or ends a block comment. -/
inductive Phase where
  | free
  | line
  | escaped
  | sign
  deriving DecidableEq, Repr

def isQuote (c : Char) : Bool := c == '\'' || c == '"' || c == '`'

def isOpener (c : Char) : Bool := c == '(' || c == '{' || c == '[' || c == '<'

def openerOf : Char → Option Char
  | ')' => some '('
  | '}' => some '{'
  | ']' => some '['
  | '>' => some '<'
  | _ => none

def isCloser (c : Char) : Bool := (openerOf c).isSome

/-- The open brackets after the closer `c` of `o`. An angle bracket closes only the
innermost bracket; the others also close whatever is still open inside their pair. A closer
without partner is ignored. -/
def closeBracket (c o : Char) (stack : List Char) : List Char :=
  if stack.head? = some o then stack.tail
  else if c != '>' && stack.contains o then (stack.dropWhile (· != o)).tail
  else stack

/-- The state after a character of code. An arrow is no closing bracket. -/
def State.readCode (s : State) (c : Char) : State :=
  let stack :=
    if isOpener c then c :: s.stack
    else match openerOf c with
      | some o => if c == '>' && s.previous == some '=' then s.stack else closeBracket c o s.stack
      | none => s.stack
  { s with stack, previous := if isBlank c then s.previous else some c }

/-- One step between tokens: the mark of `c`, the phase and the state after it. -/
def stepFree (s : State) (c : Char) (next : Option Char) : Mark × Phase × State :=
  if s.inBlock then
    if c == '*' && next == some '/' then
      (⟨c, s.depth, .comment⟩, .sign, { s with inBlock := false })
    else (⟨c, s.depth, .comment⟩, .free, s)
  else match s.quote with
    | some q =>
      (⟨c, s.depth, .string⟩,
        if c == '\\' && next.isSome then (.escaped, s)
        else (.free, if c == q then { s with quote := none } else s))
    | none =>
      if isQuote c then (⟨c, s.depth, .string⟩, .free,
        { s with quote := some c, previous := some c })
      else if c == '/' && next == some '/' then (⟨c, s.depth, .comment⟩, .line, s)
      else if c == '/' && next == some '*' then
        (⟨c, s.depth, .comment⟩, .sign, { s with inBlock := true })
      else
        let t := s.readCode c
        (⟨c, min s.depth t.depth, .code⟩, .free, t)

def step (p : Phase) (s : State) (c : Char) (next : Option Char) : Mark × Phase × State :=
  match p with
  | .free => stepFree s c next
  | .line => if c == '\n' then stepFree s c next else (⟨c, s.depth, .comment⟩, .line, s)
  | .escaped => (⟨c, s.depth, .string⟩, .free, s)
  | .sign => (⟨c, s.depth, .comment⟩, .free, s)

/-- The marks of a text read from phase `p` and state `s`. -/
def marksFrom (p : Phase) (s : State) : Text → List Mark
  | [] => []
  | c :: r =>
    let (m, p', s') := step p s c r.head?
    m :: marksFrom p' s' r

def stateFrom (p : Phase) (s : State) : Text → State
  | [] => s
  | c :: r =>
    let (_, p', s') := step p s c r.head?
    stateFrom p' s' r

/-- The marks of a text, one for each of its characters. -/
def marks (t : Text) (s : State := {}) : List Mark := marksFrom .free s t

/-- The state after a text. -/
def feed (s : State) (t : Text) : State := stateFrom .free s t

end SourceLayout.Scan
