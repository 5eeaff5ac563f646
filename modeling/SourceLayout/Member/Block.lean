import SourceLayout.Member.Split
import SourceLayout.Signature.Expand

/-! The layout of the members between a pair of braces: fields aligned on one colon column, call
signatures expanded and set off by an empty line, comments re-indented. -/

namespace SourceLayout
open Text

/-- How many levels of blocks may open from nesting depth `depth` on. -/
def roomAt (depth : Int) : Nat := ((nestingLimit : Int) + 1 - depth).toNat

namespace Member

/-- A line of a comment, re-indented; the inner lines of a block comment are set off by a space. -/
def commentLine (indent : Text) (x : Text × Nat) : Text :=
  let shown := trim x.1
  if 0 < x.2 && shown.head? == some '*' then indent ++ ' ' :: shown else indent ++ shown

def commentLines (indent : Text) (ls : List Text) : List Text :=
  (ls.zipIdx.filter (!isBlankLine ·.1)).map (commentLine indent)

def plainLines (indent : Text) (ls : List Text) : List Text :=
  (ls.filter (!isBlankLine ·)).map fun l => indent ++ trim l

/-- The object type over several lines that is the value of a field, and what stands between the
head of the field and its brace. -/
def nestedSpan? (head : FieldHead) (ls : List Text) : Option (Text × ObjectSpan) := do
  let span ← ObjectSpan.read? ls
  let start := (trim (ls.headD [])).length - head.value.length
  if span.before.length < start then none
  else some (trim (span.before.drop start), span)

/-- A field whose value is an object type over several lines. `inner` lays out the lines between its
braces. -/
def nestedField? (cfg : Settings) (inner : Text → List Text → List Text) (indent label : Text)
    (head : FieldHead) (ls : List Text) : Option (List Text) :=
  (nestedSpan? head ls).map fun (before, span) =>
    (label ++ ' ' :: before ++ ['{']) ::
      inner indent (span.content (indent ++ cfg.indentUnit)) ++ [indent ++ span.closing]

def fieldLines (cfg : Settings) (inner : Text → List Text → List Text) (indent : Text)
    (col : NameColumn) (head : FieldHead) (ls : List Text) : List Text :=
  let label := indent ++ col.cell head.key head.optional ++ [' ', ':']
  let body := ls.filter (!isBlankLine ·)
  let first := label ++ ' ' :: head.value
  if body.length = 1 then [trimRight first]
  else (nestedField? cfg inner indent label head body).getD (keepLines cfg indent first body)

def column (ms : List Member) : NameColumn :=
  .of ((ms.filterMap field?).map fun head => (head.key, head.optional))

/-- What is written so far: the finished lines, and the run of comments that nothing follows yet. -/
structure Layout where
  done : List Text := []
  comments : List Text := []

/-- The finished lines with an empty line after them, unless there is none or one already. -/
def setOff (done : List Text) : List Text :=
  match done.getLast? with
  | none => []
  | some l => if l.isEmpty then done else done ++ [[]]

/-- Adds a member. An empty line stands above a call signature and the
comments that belong to it. -/
def place (cfg : Settings) (room : Nat) (inner : Text → List Text → List Text) (indent : Text)
    (col : NameColumn) (out : Layout) (m : Member) : Layout :=
  match m.kind with
  | .comment => { out with comments := out.comments ++ commentLines indent m.lines }
  | .method head =>
    { done := setOff out.done ++ out.comments ++
        Signature.format cfg room indent (padTo col.cellWidth ' ' head.token) m.lines }
  | .field head =>
    { done := out.done ++ out.comments ++ fieldLines cfg inner indent col head m.lines }
  | .unknown => { done := out.done ++ out.comments ++ plainLines indent m.lines }

end Member

namespace Block

def members (ls : List Text) : List Member :=
  (Member.delimit (Member.expandLines ls)).map Member.ofLines

/-- The lines between a pair of braces, one level deeper than `base`. When no room is left the lines
are only re-indented. -/
def format (cfg : Settings) : Nat → (base : Text) → List Text → List Text
  | 0, base, ls => Member.plainLines (base ++ cfg.indentUnit) ls
  | room + 1, base, ls =>
    let ms := members ls
    let out := ms.foldl
      (Member.place cfg room (format cfg room) (base ++ cfg.indentUnit) (Member.column ms)) {}
    out.done ++ out.comments

end Block

end SourceLayout
