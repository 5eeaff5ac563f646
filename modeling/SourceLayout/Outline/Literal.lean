import SourceLayout.Text.Word

/-! Literals of source code that hold quotes or brackets without meaning them: regular expressions,
and templates inside the expressions of other templates. Quotes that open nothing are like them.
Hiding these leaves a text of the same size whose strings and brackets a scanner reads right. -/

namespace SourceLayout.Outline
open Text

/-- Whether code, given in reverse, ends in an arrow, in one of the operators or in one of the
words. The name of a member is no word. -/
def endsIn (operators : List Char) (words : List String) (code : Text) : Bool :=
  match code.dropWhile isBlank with
  | [] => false
  | '>' :: r => r.head? == some '='
  | c :: r =>
    if isNameChar c then
      let before := r.dropWhile isNameChar
      words.contains (String.ofList (c :: r.takeWhile isNameChar).reverse) &&
      before.head? != some '.'
    else operators.contains c

def expectsOperand (code : Text) : Bool :=
  code.all isBlank ||
    endsIn ['=', '(', '[', '{', ',', ';', ':', '!', '&', '|', '?', '+', '-', '*', '%', '^', '~']
      ["return", "typeof", "case", "in", "of", "delete", "void", "instanceof", "new", "throw", "do",
        "else", "yield", "await"] code

/-- Whether a regular expression that is open here closes on its line. Inside brackets a slash
is a plain character. -/
def closesPattern (inClass : Bool) : Text → Bool
  | [] => false
  | '\\' :: c :: r => c != '\n' && closesPattern inClass r
  | c :: r =>
    if c == '\n' then false
    else if c == '/' && !inClass then true
    else closesPattern (c == '[' || (inClass && c != ']')) r

/-- Whether a string that is open here closes on its line, which may go on behind a backslash. -/
def closesQuoted (q : Char) : Text → Bool
  | [] => false
  | '\\' :: _ :: r => closesQuoted q r
  | c :: r => c == q || (c != '\n' && closesQuoted q r)

/-- What a character is part of. Code inside a template counts its open braces. -/
inductive Part where
  | code (braces : Nat)
  | template
  | quoted (q : Char)
  | lineComment
  | blockComment
  | pattern (inClass : Bool)
  deriving DecidableEq, Repr

/-- What is known between two characters: the part being read, the parts around it, whether the next
character belongs to the last one, and the code so far in reverse. -/
structure Literals where
  current : Part := .code 0
  outer : List Part := []
  escaped : Bool := false
  code : Text := []
  deriving DecidableEq, Repr

namespace Literals

def enter (l : Literals) (p : Part) : Literals :=
  { l with current := p, outer := l.current :: l.outer }

/-- Goes back to the part around; `c` stands for the literal in the code. -/
def leave (l : Literals) (c : Char) : Literals :=
  { l with current := l.outer.head?.getD (.code 0), outer := l.outer.tail, code := c :: l.code }

def leaveComment (l : Literals) : Literals := { l.leave ' ' with code := l.code }

def add (l : Literals) (c : Char) : Literals := { l with code := c :: l.code }

/-- Reads a character of code, `rest` being the text after it. -/
def readCode (l : Literals) (braces : Nat) (c : Char) (rest : Text) : Literals :=
  if c == '"' || c == '\'' then (if closesQuoted c rest then l.enter (.quoted c) else l.add c)
  else if c == '`' then l.enter .template
  else if c == '/' && rest.head? == some '/' then l.enter .lineComment
  else if c == '/' && rest.head? == some '*' then { l.enter .blockComment with escaped := true }
  else if c == '/' && expectsOperand l.code && closesPattern false rest then
    l.enter (.pattern false)
  else if c == '{' then { l.add c with current := .code (braces + 1) }
  else if c == '}' && braces = 0 && !l.outer.isEmpty then l.leave c
  else if c == '}' then { l.add c with current := .code (braces - 1) }
  else l.add c

def read (l : Literals) (c : Char) (rest : Text) : Literals :=
  if l.escaped then { l with escaped := false }
  else match l.current with
    | .code braces => l.readCode braces c rest
    | .template =>
      if c == '\\' then { l with escaped := true }
      else if c == '`' then l.leave c
      else if c == '$' && rest.head? == some '{' then
        { (l.enter (.code 0)).add '{' with escaped := true }
      else l
    | .quoted q =>
      if c == '\\' then { l with escaped := true }
      else if c == q then l.leave c
      else l
    | .lineComment => if c == '\n' then l.leaveComment else l
    | .blockComment =>
      if c == '*' && rest.head? == some '/' then { l.leaveComment with escaped := true } else l
    | .pattern inClass =>
      if c == '\\' then { l with escaped := true }
      else if c == '/' && !inClass then l.leave c
      else { l with current := .pattern (c == '[' || (inClass && c != ']')) }

def isPattern : Part → Bool
  | .pattern _ => true
  | _ => false

def isCode : Part → Bool
  | .code _ => true
  | _ => false

/-- Whether the character `c`, read between `l` and `next`, is hidden: in a regular
expression each one of ASCII, inside a template the marks that would end it, and in code a
quote that opens no string. -/
def hides (l next : Literals) (c : Char) : Bool :=
  ((isPattern l.current || isPattern next.current) && c.toNat < 128) ||
    (l.outer.contains .template && (c == '`' || c == '\\')) ||
    (isCode l.current && isCode next.current && (c == '"' || c == '\''))

end Literals

def hideFrom (l : Literals) : Text → Text
  | [] => []
  | c :: r =>
    let next := l.read c r
    (if l.hides next c then 'x' else c) :: hideFrom next r

/-- The text with its regular expressions and inner templates hidden. -/
def hideLiterals (t : Text) : Text := hideFrom {} t

end SourceLayout.Outline
