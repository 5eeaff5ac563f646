import SourceLayout.Settings.Toml.Scalar

/-! TOML documents: arrays, tables, and which tables may still be added to. -/

namespace SourceLayout.Toml
open Text

/-- A table's entries in the order in which they were first written. -/
abbrev Entries := List (Text × Value)

/-- Changes the entries of the table at `path`, making tables on the way. In a list of tables the
last one is meant, if lists are entered at all. -/
def changeAt (enterLists : Bool) (f : Entries → Except Fault Entries) :
    List Text → Entries → Except Fault Entries
  | [], es => f es
  | k :: path, es =>
    match es.lookup k with
    | none => do return es ++ [(k, .table (← changeAt enterLists f path []))]
    | some (.table sub) => do
      let sub ← changeAt enterLists f path sub
      return es.map fun (n, v) => if n == k then (n, .table sub) else (n, v)
    | some (.list items) =>
      if enterLists then
        match items.getLast? with
        | some (.table sub) => do
          let sub ← changeAt enterLists f path sub
          return es.map fun (n, v) =>
            if n == k then (n, .list (items.dropLast ++ [.table sub])) else (n, v)
        | _ => .error .malformed
      else .error .malformed
    | some _ => .error .malformed

def addNew (k : Text) (v : Value) (es : Entries) : Except Fault Entries :=
  if es.any (·.1 == k) then .error .malformed else .ok (es ++ [(k, v)])

def addTable (k : Text) (es : Entries) : Except Fault Entries :=
  match es.lookup k with
  | none => .ok (es ++ [(k, .list [.table []])])
  | some (.list items) =>
    .ok (es.map fun (n, v) => if n == k then (n, .list (items ++ [.table []])) else (n, v))
  | some _ => .error .malformed

def isNest : Value → Bool
  | .table _ => true
  | .list _ => true
  | _ => false

/-- Whether a name lies at or below one of the closed ones. -/
def isClosed (closed : List (List Text)) (k : List Text) : Bool := closed.any (·.isPrefixOf k)

/-- Adds `key = value` to an inline table. -/
def addInline (closed : List (List Text)) (k : List Text) (v : Value) (es : Entries) :
    Except Fault Entries :=
  if isClosed closed k then .error .malformed
  else changeAt false (addNew (k.getLast?.getD []) v) k.dropLast es

/-- Blanks, line breaks and comments inside an array; `bound` is at least the
number of lines left. -/
def skipArraySpace : Nat → Text → Except Fault Text
  | 0, t => .ok t
  | bound + 1, t =>
    match t.dropWhile fun c => isSpace c || c == '\n' with
    | '#' :: r => do skipArraySpace bound (← skipComment ('#' :: r))
    | r => .ok r

def skipArray (t : Text) : Except Fault Text := skipArraySpace (t.length + 1) t

mutual

/-- A value. `bound` limits how many values and entries are read; every value has a character. -/
def value : Nat → Text → Except Fault (Value × Text)
  | 0, _ => .error .malformed
  | bound + 1, t =>
    match t with
    | '"' :: _ => do let (s, r) ← string t; return (.text s, r)
    | '\'' :: _ => do let (s, r) ← string t; return (.text s, r)
    | '[' :: r => do items bound [] (← skipArray r)
    | '{' :: r =>
      match skipSpace r with
      | '}' :: r => .ok (.table [], r)
      | r => inlineEntries bound [] [] r
    | _ => scalar t

/-- The values of an array after those in `done`, up to its closing bracket. -/
def items : Nat → List Value → Text → Except Fault (Value × Text)
  | 0, _, _ => .error .malformed
  | bound + 1, done, t =>
    match t with
    | ']' :: r => .ok (.list done, r)
    | _ => do
      let (v, r) ← value bound t
      match (← skipArray r) with
      | ']' :: r => return (.list (done ++ [v]), r)
      | ',' :: r => items bound (done ++ [v]) (← skipArray r)
      | _ => .error .malformed

/-- The entries of an inline table after those in `done`, up to its closing brace. -/
def inlineEntries : Nat → List (List Text) → Entries → Text → Except Fault (Value × Text)
  | 0, _, _, _ => .error .malformed
  | bound + 1, closed, done, t => do
    let (k, r) ← key t
    match r with
    | '=' :: r =>
      let (v, r) ← value bound (skipSpace r)
      let es ← addInline closed k v done
      match skipSpace r with
      | '}' :: r => return (.table es, r)
      | ',' :: r => inlineEntries bound (if isNest v then k :: closed else closed) es (skipSpace r)
      | _ => .error .malformed
    | _ => .error .malformed

end

/-- A document while it is read: its entries, the table being written to, the names
whose values are closed, the names that no table header may open again, and those that
join them at the next header. -/
structure Reading where
  root : Entries := []
  header : List Text := []
  closed : List (List Text) := []
  opened : List (List Text) := []
  pending : List (List Text) := []

namespace Reading

def settle (d : Reading) : Reading := { d with opened := d.pending ++ d.opened, pending := [] }

def enterTable (d : Reading) (k : List Text) : Except Fault Reading := do
  if d.opened.contains k || isClosed d.closed k then .error .malformed
  else
    let root ← changeAt true .ok k d.root
    return { d with root, header := k, opened := k :: d.opened }

/-- Enters a new table of the list of tables named by a header. -/
def enterListed (d : Reading) (k : List Text) : Except Fault Reading := do
  if isClosed d.closed k then .error .malformed
  else
    let root ← changeAt true (addTable (k.getLast?.getD [])) k.dropLast d.root
    return { d with
      root
      header := k
      closed := d.closed.filter (!k.isPrefixOf ·)
      opened := k :: d.opened.filter (!k.isPrefixOf ·) }

/-- The tables that a dotted name goes through, below the header. -/
def passed (d : Reading) (k : List Text) : List (List Text) :=
  (List.range (k.length - 1)).map fun i => d.header ++ k.take (i + 1)

def addEntry (d : Reading) (k : List Text) (v : Value) : Except Fault Reading := do
  let through := d.passed k
  let table := d.header ++ k.dropLast
  if through.any d.opened.contains || isClosed d.closed table then .error .malformed
  else
    let root ← changeAt true (addNew (k.getLast?.getD []) v) table d.root
    return { d with
      root
      pending := through ++ d.pending
      closed := if isNest v then (d.header ++ k) :: d.closed else d.closed }

def readHeader (d : Reading) (t : Text) : Except Fault (Reading × Text) := do
  let listed := startsWith t "[["
  let (k, r) ← key (skipSpace (t.drop (if listed then 2 else 1)))
  let d ← if listed then d.settle.enterListed k else d.settle.enterTable k
  match dropWord? (if listed then "]]" else "]") r with
  | some r => return (d, r)
  | none => .error .malformed

def readEntry (d : Reading) (t : Text) : Except Fault (Reading × Text) := do
  match (← key t) with
  | (k, '=' :: r) =>
    let (v, r) ← value (2 * r.length + 2) (skipSpace r)
    return (← d.addEntry k v, r)
  | _ => .error .malformed

/-- Reads the statements of a document. Every statement has a character, so the length of the text
bounds their number. -/
def readAll : Nat → Reading → Text → Except Fault Reading
  | 0, d, _ => .ok d
  | bound + 1, d, t =>
    match skipSpace t with
    | [] => .ok d
    | '\n' :: r => readAll bound d r
    | c :: r => do
      let t := c :: r
      let (d, r) ←
        if c == '[' then d.readHeader t
        else if c == '#' then .ok (d, t)
        else if isBareKeyChar c || c == '"' || c == '\'' then d.readEntry t
        else .error .malformed
      match (← skipComment (skipSpace r)) with
      | [] => return d
      | '\n' :: r => readAll bound d r
      | _ => .error .malformed

end Reading

def read (t : Text) : Except Fault Entries := do
  let t := unifyBreaks t
  return (← Reading.readAll (t.length + 1) {} t).root

end SourceLayout.Toml
