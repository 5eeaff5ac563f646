import SourceLayout.Settings.Value
import SourceLayout.Text.Lines

/-! Names, strings, numbers and dates of TOML documents. Each reader takes the text from its first
character on and gives what it read and the rest. -/

namespace SourceLayout.Toml
open Text

/-- Why a document cannot be read. A number can also have more digits than are read. -/
inductive Fault where
  | malformed
  | hugeNumber
  deriving DecidableEq, Repr

def isSpace (c : Char) : Bool := c == ' ' || c == '\t'

def skipSpace (t : Text) : Text := t.dropWhile isSpace

/-- Control characters, which nothing but a string over several lines may hold, a tab apart. -/
def isControl (c : Char) : Bool := (c.toNat < 32 || c.toNat == 127) && c != '\t'

def isBareKeyChar (c : Char) : Bool := c.isAlphanum || c == '-' || c == '_'

def isHexDigit (c : Char) : Bool := c.isDigit || ('a' ≤ c && c ≤ 'f') || ('A' ≤ c && c ≤ 'F')

def digitValue (c : Char) : Nat :=
  if c.isDigit then c.toNat - '0'.toNat
  else if 'a' ≤ c && c ≤ 'f' then c.toNat - 'a'.toNat + 10
  else c.toNat - 'A'.toNat + 10

def ofDigits (base : Nat) (ds : Text) : Nat := ds.foldl (fun n d => base * n + digitValue d) 0

/-- A comment up to the end of its line, if there is one here. -/
def skipComment (t : Text) : Except Fault Text :=
  match t with
  | '#' :: r =>
    if (r.takeWhile (· != '\n')).any isControl then .error .malformed
    else .ok (r.dropWhile (· != '\n'))
  | _ => .ok t

/-! ### Strings -/

/-- A character given by `width` hexadecimal digits. -/
def hexChar (width : Nat) (t : Text) : Except Fault (Text × Text) :=
  let ds := t.take width
  let n := ofDigits 16 ds
  if ds.length != width || !ds.all isHexDigit || !(n < 0xD800 || (0xE000 ≤ n && n < 0x110000)) then
    .error .malformed
  else .ok ([Char.ofNat n], t.drop width)

/-- What a backslash stands for together with the text after it. In a string over several lines it
may take back a line break and the blanks around it. -/
def escape (multiline : Bool) (t : Text) : Except Fault (Text × Text) :=
  match t with
  | 'b' :: r => .ok (['\x08'], r)
  | 't' :: r => .ok (['\t'], r)
  | 'n' :: r => .ok (['\n'], r)
  | 'f' :: r => .ok (['\x0c'], r)
  | 'r' :: r => .ok (['\r'], r)
  | '"' :: r => .ok (['"'], r)
  | '\\' :: r => .ok (['\\'], r)
  | 'u' :: r => hexChar 4 r
  | 'U' :: r => hexChar 8 r
  | c :: _ =>
    if multiline && (isSpace c || c == '\n') then
      match skipSpace t with
      | [] => .ok ([], [])
      | '\n' :: r => .ok ([], r.dropWhile fun c => isSpace c || c == '\n')
      | _ => .error .malformed
    else .error .malformed
  | [] => .error .malformed

/-- The body of a string in double quotes; `bound` is at least the number of characters left. -/
def basicBody (multiline : Bool) : Nat → Text → Except Fault (Text × Text)
  | 0, _ => .error .malformed
  | _ + 1, [] => .error .malformed
  | bound + 1, c :: r =>
    if c == '"' && (!multiline || startsWith r "\"\"") then
      .ok ([], if multiline then r.drop 2 else r)
    else if c == '\\' then do
      let (chars, r) ← escape multiline r
      let (more, r) ← basicBody multiline bound r
      return (chars ++ more, r)
    else if isControl c && !(multiline && c == '\n') then .error .malformed
    else do
      let (more, r) ← basicBody multiline bound r
      return (c :: more, r)

/-- The body of a string in single quotes. -/
def literalBody (multiline : Bool) : Text → Except Fault (Text × Text)
  | [] => .error .malformed
  | c :: r =>
    if c == '\'' && (!multiline || startsWith r "''") then
      .ok ([], if multiline then r.drop 2 else r)
    else if isControl c && !(multiline && c == '\n') then .error .malformed
    else do
      let (more, r) ← literalBody multiline r
      return (c :: more, r)

/-- Up to two quotes may stand before the three that end a string over several lines. -/
def extraQuotes (q : Char) (body : Text) (t : Text) : Text × Text :=
  let extra := (t.take 2).takeWhile (· == q)
  (body ++ extra, t.drop extra.length)

/-- The text after a line break directly behind the opening quotes. -/
def dropFirstBreak : Text → Text
  | '\n' :: r => r
  | t => t

def lineString (t : Text) : Except Fault (Text × Text) :=
  match t with
  | '"' :: r => basicBody false (r.length + 1) r
  | '\'' :: r => literalBody false r
  | _ => .error .malformed

def string (t : Text) : Except Fault (Text × Text) :=
  if startsWith t "\"\"\"" then do
    let r := dropFirstBreak (t.drop 3)
    let (body, r) ← basicBody true (r.length + 1) r
    return extraQuotes '"' body r
  else if startsWith t "'''" then do
    let (body, r) ← literalBody true (dropFirstBreak (t.drop 3))
    return extraQuotes '\'' body r
  else lineString t

/-! ### Names -/

def keyPart (t : Text) : Except Fault (Text × Text) :=
  match t.head? with
  | some c =>
    if isBareKeyChar c then .ok (t.takeWhile isBareKeyChar, t.dropWhile isBareKeyChar)
    else lineString t
  | none => .error .malformed

/-- A name of one or more parts with dots between them. Every part has a character, so the length of
the text bounds their number. -/
def keyFrom : Nat → Text → Except Fault (List Text × Text)
  | 0, _ => .error .malformed
  | bound + 1, t => do
    let (part, r) ← keyPart t
    match skipSpace r with
    | '.' :: r =>
      let (more, r) ← keyFrom bound (skipSpace r)
      return (part :: more, r)
    | r => return ([part], r)

def key (t : Text) : Except Fault (List Text × Text) := keyFrom (t.length + 1) t

/-! ### Numbers -/

/-- Digits with single underscores between them: the digits and the rest. -/
def digitRun (isDigit : Char → Bool) : Text → Text × Text
  | '_' :: d :: r =>
    if isDigit d then let (ds, rest) := digitRun isDigit r; (d :: ds, rest) else ([], '_' :: d :: r)
  | c :: r =>
    if isDigit c then let (ds, rest) := digitRun isDigit r; (c :: ds, rest) else ([], c :: r)
  | [] => ([], [])

def digits? (isDigit : Char → Bool) (t : Text) : Option (Text × Text) :=
  if t.head?.any isDigit then some (digitRun isDigit t) else none

/-- A number in base 16, 2 or 8. -/
def basedNumber? (t : Text) : Option (Value × Text) :=
  let read (base : Nat) (isDigit : Char → Bool) (r : Text) : Option (Value × Text) :=
    (digits? isDigit r).map fun (ds, rest) => (.int (ofDigits base ds), rest)
  match t with
  | '0' :: 'x' :: r => read 16 isHexDigit r
  | '0' :: 'b' :: r => read 2 (fun c => c == '0' || c == '1') r
  | '0' :: 'o' :: r => read 8 (fun c => '0' ≤ c && c ≤ '7') r
  | _ => none

def sign (t : Text) : Bool × Text :=
  match t with
  | '-' :: r => (true, r)
  | '+' :: r => (false, r)
  | _ => (false, t)

/-- The whole part of a decimal number, which begins with zero only if it is zero. -/
def wholePart? (t : Text) : Option (Text × Text) :=
  match t with
  | '0' :: r => some (['0'], r)
  | _ => digits? Char.isDigit t

def fraction (t : Text) : Text × Text :=
  match t with
  | '.' :: r => (digits? Char.isDigit r).getD ([], t)
  | _ => ([], t)

def exponent (t : Text) : Option Int × Text :=
  match t with
  | e :: r =>
    if e == 'e' || e == 'E' then
      let (negative, r) := sign r
      match digits? Char.isDigit r with
      | some (ds, rest) =>
        let n : Int := ofDigits 10 ds
        (some (if negative then -n else n), rest)
      | none => (none, t)
    else (none, t)
  | [] => (none, t)

/-- A decimal number: a whole number, unless it has a fraction or an exponent. -/
def decimalNumber? (t : Text) : Option (Except Fault (Value × Text)) :=
  let (negative, r) := sign t
  (wholePart? r).map fun (whole, r) =>
    let (frac, r) := fraction r
    let (power?, r) := exponent r
    if frac.isEmpty && power?.isNone then
      if Value.digitLimit < whole.length then .error .hugeNumber
      else
        let n : Int := ofDigits 10 whole
        .ok (.int (if negative then -n else n), r)
    else
      .ok (.real
        (.ofDecimal negative (ofDigits 10 (whole ++ frac)) (power?.getD 0 - frac.length)), r)

def specialNumber? (t : Text) : Option (Value × Text) :=
  let (negative, r) := sign t
  match dropWord? "inf" r with
  | some rest => some (.real (.infinite negative), rest)
  | none => (dropWord? "nan" r).map fun rest => (.real .nan, rest)

/-! ### Dates and times -/

/-- A number of exactly `width` digits between `lo` and `hi`. -/
def fixedNumber? (width lo hi : Nat) (t : Text) : Option (Nat × Text) :=
  let ds := t.take width
  let n := ofDigits 10 ds
  if ds.length = width && ds.all Char.isDigit && lo ≤ n && n ≤ hi then some (n, t.drop width)
  else none

def after? (c : Char) (t : Text) : Option Text :=
  if t.head? == some c then some (t.drop 1) else none

/-- A day as it is written, whether the calendar has it or not. -/
def writtenDay? (t : Text) : Option (Day × Text) := do
  let (year, r) ← fixedNumber? 4 0 9999 t
  let (month, r) ← (after? '-' r).bind (fixedNumber? 2 1 12)
  let (day, r) ← (after? '-' r).bind (fixedNumber? 2 1 31)
  return (⟨year, month, day⟩, r)

/-- The fraction of a second in millionths; further digits are dropped. -/
def secondFraction (t : Text) : Nat × Text :=
  match t with
  | '.' :: r =>
    let ds := r.takeWhile Char.isDigit
    if ds.isEmpty then (0, t) else (ofDigits 10 (padTo 6 '0' (ds.take 6)), r.drop ds.length)
  | _ => (0, t)

def clock? (t : Text) : Option (Clock × Text) := do
  let (hour, r) ← fixedNumber? 2 0 23 t
  let (minute, r) ← (after? ':' r).bind (fixedNumber? 2 0 59)
  let (second, r) ← (after? ':' r).bind (fixedNumber? 2 0 59)
  let (micro, r) := secondFraction r
  return (⟨hour, minute, second, micro⟩, r)

/-- An offset from universal time in minutes. -/
def offset? (t : Text) : Option (Int × Text) :=
  match t with
  | c :: r =>
    if c == 'Z' || c == 'z' then some (0, r)
    else if c == '+' || c == '-' then do
      let (hour, r) ← fixedNumber? 2 0 23 r
      let (minute, r) ← (after? ':' r).bind (fixedNumber? 2 0 59)
      let n : Int := (60 * hour + minute : Nat)
      return (if c == '-' then -n else n, r)
    else none
  | [] => none

def inCalendar (d : Day) : Bool :=
  let leap := d.year % 4 == 0 && (d.year % 100 != 0 || d.year % 400 == 0)
  let length :=
    if d.month == 2 then (if leap then 29 else 28)
    else if [4, 6, 9, 11].contains d.month then 30 else 31
  0 < d.year && d.day ≤ length

/-- A date, with a time of day and an offset if they follow. -/
def date? (t : Text) : Option (Except Fault (Value × Text)) := do
  let (day, r) ← writtenDay? t
  let timed := match r with
    | c :: rest => if c == 'T' || c == 't' || c == ' ' then clock? rest else none
    | [] => none
  let (value, rest) := match timed with
    | none => (Value.day day, r)
    | some (clock, rest) =>
      match offset? rest with
      | some (minutes, rest) => (.instant day clock (some minutes), rest)
      | none => (.instant day clock none, rest)
  return if inCalendar day then .ok (value, rest) else .error .malformed

/-- A value that is no string, array or table. -/
def scalar (t : Text) : Except Fault (Value × Text) :=
  if startsWith t "true" then .ok (.bool true, t.drop 4)
  else if startsWith t "false" then .ok (.bool false, t.drop 5)
  else match date? t with
    | some result => result
    | none =>
      match clock? t with
      | some (c, r) => .ok (.clock c, r)
      | none =>
        match basedNumber? t with
        | some (v, r) => .ok (v, r)
        | none =>
          match decimalNumber? t with
          | some result => result
          | none => (specialNumber? t).elim (.error .malformed) .ok

end SourceLayout.Toml
