import SourceLayout.Outline.Literal
import SourceLayout.Outline.Node
import SourceLayout.Scan.Search

/-! Finding the top-level nodes of a well-formed file. Each statement is read from its first word to
where its kind of statement ends; whatever is neither an import nor a declaration only has to be
passed over, so it ends with a semicolon, a closing brace or the line. -/

namespace SourceLayout.Outline
open Text Scan

def hasWord (w : String) (t : Text) : Bool :=
  (dropWord? w t).any fun r => !r.head?.any isNameChar

/-- The text after the word `w` and the blanks that follow it. -/
def afterWord? (w : String) (t : Text) : Option Text :=
  if hasWord w t then (dropWord? w t).map trimLeft else none

def namesSomething (w : String) (t : Text) : Bool :=
  (afterWord? w t).any fun r => r.head?.any isNameChar

/-! ### Lengths

Each of these reads a text from its beginning with the scanner, no further than it has to. -/

def lengthWhile (q : Mark → Bool) (p : Phase) (s : State) : Text → Nat
  | [] => 0
  | c :: r =>
    let (m, p', s') := step p s c r.head?
    if q m then 1 + lengthWhile q p' s' r else 0

def afterGap (t : Text) : Text :=
  t.drop (lengthWhile (fun m => m.isComment || isBlank m.char) .free {} t)

/-- The round, square and curly brackets open after a character of code,
`depth` being open before. -/
def plainDepth (depth : Nat) (c : Char) : Nat :=
  if c == '(' || c == '[' || c == '{' then depth + 1
  else if c == ')' || c == ']' || c == '}' then depth - 1
  else depth

/-- The length of a statement that ends with a semicolon, a closing brace or the line. -/
def plainLength (depth : Nat) (p : Phase) (s : State) : Text → Nat
  | [] => 0
  | c :: r =>
    let (m, p', s') := step p s c r.head?
    if !m.isCode then 1 + plainLength depth p' s' r
    else if depth = 0 && c == '\n' then 0
    else if depth = 0 && c == ';' then 1
    else if depth ≤ 1 && c == '}' then 1
    else 1 + plainLength (plainDepth depth c) p' s' r

/-- The length of what still belongs to a statement that could end here: its semicolon and what
stands before it, or else the comments on the rest of the line. -/
def closingLength (t : Text) : Nat :=
  let n := lengthWhile (fun m => m.isComment || (isBlank m.char && m.char != '\n')) .free {} t
  let rest := t.drop n
  let next := afterGap rest
  if next.head? == some ';' then t.length - next.length + 1
  else if rest.head?.all (· == '\n') then n
  else 0

/-! ### Imports -/

/-- The length of the attributes of an import, with the blanks before them;
zero if there are none. -/
def attributesLength (t : Text) : Nat :=
  let r := trimLeft t
  if hasWord "with" r || hasWord "assert" r then
    match findCode? '{' r with
    | none => 0
    | some i => ((matching? (r.drop i)).map fun j => t.length - r.length + i + j + 1).getD 0
  else 0

/-- The length of an import up to the end of the module's name, which is the first string outside
brackets; none if the statement ends or assigns before it. -/
def moduleLength? (depth : Nat) (inName : Bool) (p : Phase) (s : State) : Text → Option Nat
  | [] => if inName then some 0 else none
  | c :: r =>
    let (m, p', s') := step p s c r.head?
    if inName then
      if m.kind == .string then (moduleLength? depth true p' s' r).map (· + 1) else some 0
    else if m.kind == .string && depth = 0 then (moduleLength? depth true p' s' r).map (· + 1)
    else if m.isCode && depth = 0 && (c == ';' || c == '=') then none
    else (moduleLength? (if m.isCode then plainDepth depth c else depth) false p' s' r).map (· + 1)

/-- Whether an import statement begins here, and not a call of `import` or a
use of its properties. -/
def startsImport (t : Text) : Bool :=
  (afterWord? "import" t).any fun r => !r.head?.any ['(', '.'].contains

/-- Whether an import assigns what `require` gives. Other assignments only name something anew. -/
def requires (t : Text) : Bool :=
  match t.dropWhile (· != '=') with
  | [] => false
  | _ :: r => hasWord "require" (trimLeft r)

/-- The kind of an import and its length. -/
def readImport (t : Text) : NodeKind × Nat :=
  match moduleLength? 0 false .free {} t with
  | some n =>
    let m := n + attributesLength (t.drop n)
    (.importStatement, m + closingLength (t.drop m))
  | none =>
    let n := plainLength 0 .free {} t
    (if requires (t.take n) then .importStatement else .other, n)

/-! ### Declarations -/

def bodyLength? (opened : Bool) (p : Phase) (s : State) : Text → Option Nat
  | [] => none
  | c :: r =>
    let (m, p', s') := step p s c r.head?
    if opened && m.isTop && isCloser c then some 1
    else (bodyLength? (opened || (m.isTop && c == '{')) p' s' r).map (· + 1)

/-- Whether a type, given in reverse, lacks an operand at its end. -/
def lacksOperand (code : Text) : Bool :=
  endsIn ['=', '|', '&', ':', '?', ',', '.']
    ["type", "keyof", "typeof", "readonly", "unique", "infer", "extends", "new", "abstract", "is",
      "asserts", "import"] code

/-- Whether a type, given by its marks in reverse, goes on after a line break because it is not
complete: an operand is missing, or the parameters after the type parameters of a function. -/
def isUnfinished (read : List Mark) : Bool :=
  lacksOperand (read.map Mark.char) ||
    match read.dropWhile (isBlank ·.char) with
    | [] => false
    | m :: r =>
      m.isCode && m.char == '>' &&
        let before := r.dropWhile fun k => !(k.isCode && k.char == '<' && k.depth == m.depth)
        !before.isEmpty && lacksOperand ((before.drop 1).map Mark.char)

/-- Whether a text goes on with a type or an assignment that stands before it. -/
def continues (t : Text) : Bool :=
  (afterGap t).head?.any
    ['|', '&', ':', '?', '=', '.', ',', ';', '<', '>', '*', '%', '^', '/', '`'].contains

/-- The length of a type alias: up to its semicolon, or to the end of the line that completes it.
`read` holds what was read of it but the comments, in reverse. -/
def aliasLength (read : List Mark) (p : Phase) (s : State) : Text → Nat
  | [] => 0
  | c :: r =>
    let (m, p', s') := step p s c r.head?
    if m.isTop && c == ';' then 1
    else if m.isTop && c == '\n' && !isUnfinished read && !continues r then 0
    else 1 + aliasLength (if m.isComment then read else m :: read) p' s' r

/-- The kind of the declaration that a text begins with, and its length. -/
def declaration? (t : Text) : Option (NodeKind × Nat) :=
  if namesSomething "interface" t then
    some (.interfaceDeclaration, (bodyLength? false .free {} t).getD (plainLength 0 .free {} t))
  else if namesSomething "type" t then some (.typeAlias, aliasLength [] .free {} t)
  else none

/-! ### Nodes -/

/-- The kind of the node that a text begins with, what it declares, and its length. -/
def first (t : Text) : NodeKind × Option NodeKind × Nat :=
  if startsWith t "//" || startsWith t "/*" then
    (.comment, none, lengthWhile Mark.isComment .free {} t)
  else if startsImport t then
    let (kind, n) := readImport t
    (kind, none, n)
  else match declaration? t with
    | some (kind, n) => (kind, none, n)
    | none =>
      match afterWord? "export" t with
      | none => (.other, none, plainLength 0 .free {} t)
      | some r =>
        let r := (afterWord? "default" r).getD r
        match declaration? r with
        | some (kind, n) => (.exportStatement, some kind, t.length - r.length + n)
        | none => (.exportStatement, none, plainLength 0 .free {} t)

/-- Characters between nodes: the blanks and the characters without width
that may stand with them. -/
def isGap (c : Char) : Bool := isBlank c || [0x200B, 0x2060, 0xFEFF].contains c.toNat

def shownLength (t : Text) : Nat := (trimRight t).length

/-- The place after a text that begins at `p`. -/
def move (p : Position) : Text → Position
  | [] => p
  | c :: r => move (if c == '\n' then ⟨p.row + 1, 0⟩ else ⟨p.row, p.col + c.utf8Size⟩) r

/-- The nodes of a text that begins at `p`. Every node has at least one character, so the length of
the text bounds their number. -/
def nodesFrom : Nat → Position → Text → List Node
  | 0, _, _ => []
  | bound + 1, p, t =>
    let gap := t.takeWhile isGap
    let start := move p gap
    match t.drop gap.length with
    | [] => []
    | c :: r =>
      let t := c :: r
      let (kind, declares, n) := first t
      let n := max 1 (shownLength (t.take n))
      let stop := move start (t.take n)
      { kind, start, stop, declares } :: nodesFrom bound stop (t.drop n)

def find (source : Text) : List Node := nodesFrom source.length ⟨0, 0⟩ (hideLiterals source)

end SourceLayout.Outline
