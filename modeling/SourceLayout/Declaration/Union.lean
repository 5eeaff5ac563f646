import SourceLayout.Member.Block

/-! Object types on one line, and type aliases whose members are separated by bars. -/

namespace SourceLayout
open Text

def isTypeAlias (line : Text) : Bool :=
  let skip (w : String) (t : Text) : Text :=
    match dropWord? w t with
    | some r => if r.head?.any isBlank then trimLeft r else t
    | none => t
  let t := skip "declare" (skip "export" (trimLeft line))
  (dropWord? "type" t).any fun r => r.head?.any isBlank

namespace Block

/-- The pair of braces at `opener`: the text before it, its content and the text after it, trimmed
but for the first. None if there is no content. -/
def braceParts? (t : Text) (opener : Nat) : Option (Text × Text × Text) := do
  let (before, inside, after) ← Scan.aroundPair? t opener
  if (trim inside).isEmpty then none
  else some (before, trim inside, trim after)

def formatOneLine (cfg : Settings) (room : Nat) (base line : Text) : List Text :=
  match (Scan.findTop? ['{'] line).bind (braceParts? line) with
  | none => [line]
  | some (before, content, after) =>
    trimRight (before ++ ['{']) ::
      format cfg room base [base ++ cfg.indentUnit ++ Member.terminate content] ++
      [base ++ '}' :: afterBrace after]

end Block

namespace Union

/-- The position of the equals sign of an assignment: outside brackets and not part of an arrow. -/
def assignment? (line : Text) : Option Nat :=
  ((Scan.codeMarks line).find? fun (m, i) =>
    m.isTop && m.char == '=' && (line.drop (i + 1)).head? != some '>').map (·.2)

/-- The lines before the first line with an assignment, that line, the position of the equals sign,
and the lines after it. -/
def assignmentLine? : List Text → Option (List Text × Text × Nat × List Text)
  | [] => none
  | l :: r =>
    match assignment? l with
    | some i => some ([], l, i, r)
    | none => (assignmentLine? r).map fun (before, x) => (l :: before, x)

def startsBar (t : Text) : Bool := (trimLeft t).head? == some '|'

/-- Whether the lines are a type alias whose value begins with a bar. -/
def isUnion (ls : List Text) : Bool :=
  ls.head?.any isTypeAlias &&
    match assignmentLine? ls with
    | none => false
    | some (_, line, i, after) => startsBar (line.drop (i + 1)) || after.head?.any startsBar

/-- The lines of each member; `current` holds those of the member being read, in reverse. A member
begins with a bar or is a comment of its own. -/
def membersFrom (s : Scan.State) (current : List Text) : List Text → List (List Text)
  | [] => if current.isEmpty then [] else [current.reverse]
  | l :: r =>
    let shown := trim l
    if shown.isEmpty then membersFrom s current r
    else
      let t := Scan.feed s shown
      let commentOnly := isBlankLine (Scan.withoutComments shown)
      if s.settled && (current.isEmpty || shown.head? == some '|' || commentOnly) then
        (if current.isEmpty then [] else [current.reverse]) ++ membersFrom t [l] r
      else membersFrom t (l :: current) r

def members (ls : List Text) : List (List Text) := membersFrom {} [] ls

/-- The object type of a member, which its first line opens and its last line closes: the
text before its brace, the lines between its braces at indentation `deeper`, and the text
from the closing brace on. -/
def object? (deeper : Text) (ls : List Text) : Option (Text × List Text × Text) :=
  if ls.length = 1 then
    let first := trim (ls.headD [])
    ((Scan.findCode? '{' first).bind (Block.braceParts? first)).map fun (before, content, after) =>
      (before, [deeper ++ Member.terminate content], '}' :: afterBrace after)
  else
    (ObjectSpan.read? ls).map fun span => (span.before, span.content deeper, span.closing)

/-- The lines of one member. Object types are laid out if there is room for another level. -/
def memberLines (cfg : Settings) (room : Nat) (indent : Text) (ls : List Text) : List Text :=
  let first := trim (ls.headD [])
  match if 1 < room then object? (indent ++ cfg.indentUnit) ls else none with
  | some (before, content, closing) =>
    (indent ++ openBrace (trim before)) ::
      Block.format cfg (room - 1) indent content ++ [indent ++ closing]
  | none => if ls.length = 1 then [indent ++ first] else keepLines cfg indent (indent ++ first) ls

/-- A type alias cut into the lines up to its equals sign and the lines of its members. -/
def cut? (base : Text) (ls : List Text) : Option (List Text × List Text) :=
  (assignmentLine? ls).map fun (before, line, i, after) =>
    let value := trim (line.drop (i + 1))
    if value.head? == some '|' then
      (before ++ [trimRight (line.take (i + 1))], (base ++ value) :: after)
    else (before ++ [trimRight line], after)

/-- A type alias with each of its members on lines of its own, one level deeper. -/
def format (cfg : Settings) (room : Nat) (base : Text) (ls : List Text) : List Text :=
  match cut? base ls with
  | none => ls
  | some (head, rest) =>
    head ++ (members rest).flatMap (memberLines cfg room (base ++ cfg.indentUnit))

end Union

end SourceLayout
