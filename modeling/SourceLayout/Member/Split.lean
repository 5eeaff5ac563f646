import SourceLayout.Member.Basic

/-! The lines between a pair of braces, cut into members. -/

namespace SourceLayout
open Text

/-- An object type whose brace opens on the first line and closes on the last: the text before the
brace, after it, the lines between, the text before the closing brace, and the text from it on. -/
structure ObjectSpan where
  before : Text
  afterOpen : Text
  middle : List Text
  beforeClose : Text
  closing : Text
  deriving DecidableEq, Repr

namespace ObjectSpan

/-- The open braces, innermost first, each with its position and depth, after one more character of
code. -/
def braceStep (stack : List (Nat × Nat)) (x : Scan.Mark × Nat) : List (Nat × Nat) :=
  if x.1.char == '{' then (x.2, x.1.depth) :: stack
  else if x.1.char == '}' then stack.tail
  else stack

def openBraces (line : Text) : List (Nat × Nat) := (Scan.codeMarks line).foldl braceStep []

/-- The position of the first brace that closes at `depth`, read from state `s`. -/
def closing? (depth : Nat) (s : Scan.State) (line : Text) : Option Nat :=
  (Scan.marks line s).findIdx? fun m => m.isCode && m.char == '}' && m.depth == depth

/-- The state after the lines, unless one of them closes a brace at `depth`. -/
def pass? (depth : Nat) (s : Scan.State) : List Text → Option Scan.State
  | [] => some s
  | l :: r => if (closing? depth s l).isSome then none else pass? depth (Scan.feed s l) r

def read? (ls : List Text) : Option ObjectSpan := do
  let firstLine ← ls.head?
  let first := trim firstLine
  let last := trim (← ls.tail.getLast?)
  let middle := ls.tail.dropLast
  let (opener, depth) ← (openBraces first).head?
  let s ← pass? depth (Scan.feed {} first) middle
  let closer ← closing? depth s last
  return {
    before := first.take opener
    afterOpen := trim (first.drop (opener + 1))
    middle
    beforeClose := trim (last.take closer)
    closing := trim (last.drop closer) }

def loose (indent t : Text) : List Text := if t.isEmpty then [] else [indent ++ Member.terminate t]

/-- The lines between the braces, what stands beside a brace on its own line. -/
def content (o : ObjectSpan) (indent : Text) : List Text :=
  loose indent o.afterOpen ++ o.middle ++ loose indent o.beforeClose

end ObjectSpan

namespace Member

/-- The pieces of a line, each ending in a semicolon outside brackets but for the last. -/
def semicolonPieces (t : Text) : List Text :=
  go (Scan.marks t)
where
  go : List Scan.Mark → List Text
    | [] => [[]]
    | m :: r =>
      if m.isTop && m.char == ';' then [m.char] :: go r
      else match go r with
        | [] => [[m.char]]
        | p :: ps => (m.char :: p) :: ps

/-- The members on one line. A comment after the last semicolon stays with the member before it, and
a lone semicolon is no member. -/
def onLine (t : Text) : List Text :=
  let pieces := (semicolonPieces t).map trim
  let closed := pieces.dropLast
  let rest := pieces.getLast?.getD []
  let parts :=
    if rest.isEmpty then closed
    else if Scan.commentStart? rest == some 0 then
      match closed.getLast? with
      | some l => closed.dropLast ++ [l ++ ' ' :: rest]
      | none => [rest]
    else closed ++ [rest]
  parts.filter fun p => !p.isEmpty && p != [';']

/-- The lines that one line becomes; `carried` says that it begins inside a string or a comment. -/
def expandLine (carried : Bool) (line : Text) : List Text :=
  let shown := trim line
  if carried || shown.isEmpty || startsWith shown "//" || startsWith shown "/*" ||
    startsWith shown "*" then
    [line]
  else
    let parts := onLine shown
    if parts.length < 2 then [line] else parts.map (indentOf line ++ ·)

/-- The lines with every member that ends in a semicolon on its own line, read from state `s`. -/
def expandFrom (s : Scan.State) : List Text → List Text
  | [] => []
  | l :: r => expandLine (s.inBlock || s.quote.isSome) l ++ expandFrom (Scan.feed s l) r

def expandLines (ls : List Text) : List Text := expandFrom {} ls

/-- Whether the next line that shows something begins a member; true if there is none. -/
def nextStarts (ls : List Text) : Bool :=
  match ls.find? (!isBlankLine ·) with
  | some l => starts (trim l)
  | none => true

/-- Whether the lines read so far are a whole member, `following` being the lines after them. -/
def isWhole (ls following : List Text) : Bool :=
  let code := trim (Scan.withoutComments (unlines ls))
  code.isEmpty || endsSeparated code || (!endsOpen code && nextStarts following)

/-- The lines of each member. `current` holds the lines of the member being read, in reverse. Blank
lines outside strings are dropped. -/
def delimitFrom (s : Scan.State) (current : List Text) : List Text → List (List Text)
  | [] => if current.isEmpty then [] else [current.reverse]
  | l :: r =>
    if isBlankLine l && s.quote.isNone then delimitFrom s current r
    else
      let t := Scan.feed s l
      if t.settled && isWhole (l :: current).reverse r then
        (l :: current).reverse :: delimitFrom t [] r
      else delimitFrom t (l :: current) r

def delimit (ls : List Text) : List (List Text) := delimitFrom {} [] ls

end Member

end SourceLayout
