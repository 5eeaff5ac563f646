import SourceLayout.Number.Binary64
import SourceLayout.Text.Printable

/-! Raw settings values, as a settings file or a caller gives them, before they are checked. -/

namespace SourceLayout

structure Day where
  year : Nat
  month : Nat
  day : Nat
  deriving DecidableEq, Repr

structure Clock where
  hour : Nat
  minute : Nat
  second : Nat
  micro : Nat
  deriving DecidableEq, Repr

/-- A raw value. Instants may have an offset from universal time, in minutes. -/
inductive Value where
  | null
  | bool (b : Bool)
  | int (i : Int)
  | real (x : Binary64)
  | text (t : Text)
  | list (items : List Value)
  | table (entries : List (Text × Value))
  | day (d : Day)
  | clock (c : Clock)
  | instant (d : Day) (c : Clock) (offset : Option Int)

namespace Value
open Text

private def hexDigits (width n : Nat) : Text :=
  let ds := Nat.toDigits 16 n
  List.replicate (width - ds.length) '0' ++ ds

def quoteChar (q c : Char) : Text :=
  if c == q || c == '\\' then ['\\', c]
  else if c == '\n' then ['\\', 'n']
  else if c == '\r' then ['\\', 'r']
  else if c == '\t' then ['\\', 't']
  else if isPrintable c then [c]
  else if c.toNat < 0x100 then '\\' :: 'x' :: hexDigits 2 c.toNat
  else if c.toNat < 0x10000 then '\\' :: 'u' :: hexDigits 4 c.toNat
  else '\\' :: 'U' :: hexDigits 8 c.toNat

/-- A text in quotes: single ones, unless it holds single quotes and no double ones. -/
def quoted (t : Text) : Text :=
  let q := if t.contains '\'' && !t.contains '"' then '"' else '\''
  q :: t.flatMap (quoteChar q) ++ [q]

private def number (n : Nat) : Text := Nat.toDigits 10 n

private def commaList (items : List Text) : Text := [',', ' '].intercalate items

private def dayParts (d : Day) : List Text := [number d.year, number d.month, number d.day]

/-- Seconds are left out when they and the fraction are zero, the fraction when it is zero. -/
private def clockParts (c : Clock) : List Text :=
  [number c.hour, number c.minute] ++
    (if c.second = 0 && c.micro = 0 then [] else [number c.second]) ++
    (if c.micro = 0 then [] else [number c.micro])

private def call (name : String) (parts : List Text) : Text :=
  name.toList ++ '(' :: commaList parts ++ [')']

/-- An offset as a number of days, negative for offsets to the west, and seconds. -/
private def offsetText (minutes : Int) : Text :=
  if minutes = 0 then "datetime.timezone.utc".toList
  else
    let span :=
      if minutes < 0 then
        ["days=-1".toList, "seconds=".toList ++ number (86400 + minutes * 60).toNat]
      else ["seconds=".toList ++ number (minutes * 60).toNat]
    call "datetime.timezone" [call "datetime.timedelta" span]

mutual

def render : Value → Text
  | .null => "None".toList
  | .bool b => (if b then "True" else "False").toList
  | .int i => (toString i).toList
  | .real x => x.render.toList
  | .text t => quoted t
  | .list items => '[' :: commaList (renderItems items) ++ [']']
  | .table entries => '{' :: commaList (renderEntries entries) ++ ['}']
  | .day d => call "datetime.date" (dayParts d)
  | .clock c => call "datetime.time" (clockParts c)
  | .instant d c offset =>
    call "datetime.datetime" (dayParts d ++ clockParts c ++
      (offset.map fun m => "tzinfo=".toList ++ offsetText m).toList)

def renderItems : List Value → List Text
  | [] => []
  | v :: r => render v :: renderItems r

def renderEntries : List (Text × Value) → List Text
  | [] => []
  | (k, v) :: r => (quoted k ++ [':', ' '] ++ render v) :: renderEntries r

end

/-- The most digits of a number that is read from decimal digits or shown in them. -/
def digitLimit : Nat := 4300

mutual

def isShowable : Value → Bool
  | .int i => i.natAbs < Nat.pow 10 digitLimit
  | .list items => areShowable items
  | .table entries => entriesShowable entries
  | _ => true

def areShowable : List Value → Bool
  | [] => true
  | v :: r => isShowable v && areShowable r

def entriesShowable : List (Text × Value) → Bool
  | [] => true
  | (_, v) :: r => isShowable v && entriesShowable r

end

/-- What is met when a value is gone through: the items of a list, the characters of a
text, the keys of a table. -/
def members? : Value → Option (List Value)
  | .list items => some items
  | .text t => some (t.map fun c => .text [c])
  | .table entries => some (entries.map fun (k, _) => .text k)
  | _ => none

def get? (v : Value) (key : Text) : Option Value :=
  match v with
  | .table entries => entries.lookup key
  | _ => none

end Value

end SourceLayout
