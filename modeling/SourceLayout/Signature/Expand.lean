import SourceLayout.Settings.Basic
import SourceLayout.Signature.Head

/-! Call signatures and object types written out over several lines: one parameter or member a line,
names in one column. -/

namespace SourceLayout
open Text

/-- How many levels of braces may open inside each other before text is passed through. -/
def nestingLimit : Nat := 32

def openBrace (t : Text) : Text :=
  match t.getLast? with
  | none => ['{']
  | some c => if c == '<' || c == '(' || c == '[' then t ++ ['{'] else t ++ [' ', '{']

/-- What follows a closing brace, set off by a space unless it is punctuation. -/
def afterBrace (t : Text) : Text :=
  match t.head? with
  | none => []
  | some c => if ['[', ']', '>', ')', ',', ';'].contains c then t else ' ' :: t

namespace Parameter

def column (ps : List Parameter) : NameColumn := .of (ps.map fun p => (p.name, p.optional))

/-- The first object type in a text: what stands before it, the texts of its members, and what
stands after it. None if it has no members. -/
def objectTexts? (t : Text) : Option (Text × List Text × Text) := do
  let opener ← Scan.findCode? '{' t
  let (before, inside, after) ← Scan.aroundPair? t opener
  let members := Scan.splitTop [';', ','] inside
  if members.isEmpty then none
  else some (trim before, members, trim after)

/-- The lines of a parameter in the column `col`, the last of them ending in `trailing`. `object?`
writes out the object type in its type behind the given text. -/
def lines (col : NameColumn) (indent trailing : Text) (object? : Text → Option (List Text))
    (p : Parameter) : List Text :=
  let cell := indent ++ col.cell p.name p.optional
  if p.type.isEmpty then [trimRight cell ++ trailing]
  else
    let start := cell ++ [' ', ':', ' ']
    (object? start).getD [start ++ p.type ++ trailing]

/-- The first object type of `type` with one member a line, at most `room` levels deep.
`head` is the text in front of the type, `indent` the indentation of that line, `trailing`
what ends the last line. -/
def expandObject (unit : Text) : Nat → (type head indent trailing : Text) → Option (List Text)
  | 0, _, _, _, _ => none
  | room + 1, type, head, indent, trailing =>
    (objectTexts? type).map fun (before, texts, after) =>
      let members := texts.map read
      let inner := indent ++ unit
      let memberLines (m : Parameter) : List Text :=
        m.lines (column members) inner [';'] fun start =>
          expandObject unit room m.type start inner [';']
      (head ++ openBrace before) :: members.flatMap memberLines ++
        [indent ++ '}' :: afterBrace after ++ trailing]

/-- The lines of a parameter list; every parameter but the last ends in a comma. -/
def expandAll (unit : Text) (room : Nat) (indent : Text) (ps : List Parameter) : List Text :=
  let last := ps.length - 1
  ps.zipIdx.flatMap fun (p, i) =>
    let comma := if i < last then [','] else []
    p.lines (column ps) indent comma fun start => expandObject unit room p.type start indent comma

end Parameter

/-- A construct kept as written: the first line as given, the others one level deeper, without blank
lines. -/
def keepLines (cfg : Settings) (indent first : Text) (ls : List Text) : List Text :=
  trimRight first ::
    ((ls.drop 1).filter (!isBlankLine ·)).map fun l => indent ++ cfg.indentUnit ++ trim l

/-- A call signature in its parts: its parameters, its result type, and the comment at its end. -/
structure Signature where
  parameters : Text
  result : Text
  comment : Text
  deriving DecidableEq, Repr

namespace Signature

/-- Reads the lines of a signature. Comments are allowed at the end of the last line only; the
result type must be there. -/
def read? (ls : List Text) : Option Signature := do
  let last ← ls.getLast?
  if ls.dropLast.any Scan.hasComment then none
  let cut := (Scan.commentStart? last).getD last.length
  let text := Scan.collapse ([' '].intercalate (ls.dropLast.map trim ++ [trim (last.take cut)]))
  let head ← MethodHead.read? text
  let (_, parameters, after) ← Scan.aroundPair? head.rest 0
  match trim after with
  | ':' :: r =>
    let written := trim r
    let result :=
      if written.getLast? == some ';' || written.getLast? == some ',' then
        trimRight written.dropLast
      else written
    if result.isEmpty then none
    else some { parameters, result, comment := trim (last.drop cut) }
  | _ => none

/-- The signature with one parameter a line behind `head`. -/
def expand (sig : Signature) (cfg : Settings) (room : Nat) (indent head : Text) : List Text :=
  let closing := indent ++ [')', ':', ' '] ++ sig.result ++ [';'] ++
    (if sig.comment.isEmpty then [] else ' ' :: sig.comment)
  (indent ++ head ++ [' ', '(']) ::
    Parameter.expandAll cfg.indentUnit room (indent ++ cfg.indentUnit)
      (Parameter.readAll sig.parameters) ++
    [closing]

/-- The lines of a member that is a call signature: expanded if the settings ask for it and it can
be read, else kept. `room` bounds the depth of object types in the parameters. -/
def format (cfg : Settings) (room : Nat) (indent head : Text) (ls : List Text) : List Text :=
  let body := ls.filter (!isBlankLine ·)
  let kept := keepLines cfg indent (indent ++ trim (body.headD [])) body
  if !cfg.expandMethods then kept
  else match read? body with
    | none => kept
    | some sig => sig.expand cfg room indent head

/-- The lines of a call signature; none if no line shows anything. -/
def format? (cfg : Settings) (room : Nat) (indent head : Text) (ls : List Text) :
    Option (List Text) :=
  if ls.all isBlankLine then none else some (format cfg room indent head ls)

end Signature

end SourceLayout
