import SourceLayout.Settings.Basic
import SourceLayout.Settings.Value

/-! Checking raw values. A value of another type is accepted where its meaning is plain: `"40"` and
`40.0` are the number 40, `"off"` is false. Every fault says where it stands and why. -/

namespace SourceLayout
open Text

inductive Fault where
  | notText
  | notOneChar
  | notNumber
  | unreadableNumber
  | hugeNumber
  | fraction
  | notFinite
  | notAbove (bound : Nat)
  | notAtLeast (bound : Nat)
  | notAtMost (bound : Nat)
  | notTruth
  | unreadableTruth
  | notIndentKind
  | notList
  | notGroup
  | missing
  deriving DecidableEq, Repr

namespace Fault

def message : Fault → String
  | .notText => "Input should be a valid string"
  | .notOneChar => "Value error, header_char must be a single character"
  | .notNumber => "Input should be a valid integer"
  | .unreadableNumber => "Input should be a valid integer, unable to parse string as an integer"
  | .hugeNumber => "Unable to parse input string as an integer, exceeded maximum size"
  | .fraction => "Input should be a valid integer, got a number with a fractional part"
  | .notFinite => "Input should be a finite number"
  | .notAbove bound => s!"Input should be greater than {bound}"
  | .notAtLeast bound => s!"Input should be greater than or equal to {bound}"
  | .notAtMost bound => s!"Input should be less than or equal to {bound}"
  | .notTruth => "Input should be a valid boolean"
  | .unreadableTruth => "Input should be a valid boolean, unable to interpret input"
  | .notIndentKind => "Input should be 'spaces' or 'tabs'"
  | .notList => "Input should be a valid list"
  | .notGroup => "Input should be a valid dictionary or instance of ImportGroup"
  | .missing => "Field required"

end Fault

inductive Place where
  | field (name : String)
  | index (i : Nat)
  deriving DecidableEq, Repr

structure Problem where
  place : List Place
  fault : Fault
  deriving DecidableEq, Repr

namespace Value

/-- White space around a number, which the information separators are not. -/
private def isNumberSpace (c : Char) : Bool := isBlank c && !(28 ≤ c.toNat && c.toNat ≤ 31)

private def trimNumber (t : Text) : Text :=
  ((t.dropWhile isNumberSpace).reverse.dropWhile isNumberSpace).reverse

/-- The text without the zeros in front and the underscores among them; a lone zero stays. It must
begin with a digit, and a minus may follow the zeros. -/
private def dropLeadingZeros (t : Text) : Option Text :=
  match t with
  | '0' :: r =>
    let skipped := r.takeWhile fun c => c == '0' || c == '_'
    let last := ('0' :: skipped).getLast?.getD '0'
    match r.dropWhile fun c => c == '0' || c == '_' with
    | [] => some [last]
    | '.' :: rest => some (last :: '.' :: rest)
    | c :: rest => if c.isDigit || c == '-' then some (c :: rest) else none
  | c :: _ => if c.isDigit then some t else none
  | [] => none

/-- The number without a fraction of zeros, of which there is at least one. -/
private def dropZeroFraction (t : Text) : Text :=
  match t.dropWhile (· != '.') with
  | '.' :: fraction =>
    if !fraction.isEmpty && fraction.all (· == '0') then t.takeWhile (· != '.') else t
  | _ => t

private def dropUnderscores (t : Text) : Text :=
  if t.head? == some '_' || t.getLast? == some '_' || occursIn ['_', '_'] t then t
  else t.filter (· != '_')

private def plainUnsigned (t : Text) : Option Text :=
  (dropLeadingZeros t).map fun ds => dropUnderscores (dropZeroFraction ds)

/-- A number in its plain form: a minus if it is negative, and digits. A digit
must follow the sign. -/
private def plainNumber (t : Text) : Option Text :=
  match t with
  | '+' :: r => plainUnsigned r
  | '-' :: r => (plainUnsigned r).map ('-' :: ·)
  | _ => plainUnsigned t

private def digitsValue (ds : Text) : Nat := ds.foldl (fun n d => 10 * n + (d.toNat - '0'.toNat)) 0

private def plainNat? (ds : Text) : Option Nat :=
  if ds.isEmpty || !ds.all Char.isDigit || (ds.head? == some '0' && ds.length > 1) then none
  else some (digitsValue ds)

private def readPlain (t : Text) : Except Fault Int :=
  let (negative, ds) := match t with
    | '-' :: r => (true, r)
    | _ => (false, t)
  if ds.head? != some '0' && digitLimit < (ds.takeWhile Char.isDigit).length then .error .hugeNumber
  else match plainNat? ds with
    | some n => .ok (if negative then -(n : Int) else n)
    | none => .error .unreadableNumber

/-- The number a text stands for: digits after an optional sign, with blanks around them, zeros in
front, underscores between digits and a fraction of zeros allowed. -/
def intOfText (t : Text) : Except Fault Int :=
  match plainNumber (trimNumber t) with
  | some plain => readPlain plain
  | none => .error .unreadableNumber

private def wordBound : Nat := 9223372036854775808

def intOfReal (x : Binary64) : Except Fault Int :=
  if !x.isFinite then .error .notFinite
  else match x.toInt? with
    | none => .error .fraction
    | some i => if i.natAbs < wordBound then .ok i else .error .hugeNumber

def asInt : Value → Except Fault Int
  | .int i => .ok i
  | .bool b => .ok (if b then 1 else 0)
  | .real x => intOfReal x
  | .text t => intOfText t
  | _ => .error .notNumber

def asText : Value → Except Fault Text
  | .text t => .ok t
  | _ => .error .notText

private def truthOfInt (i : Int) : Except Fault Bool :=
  if i = 0 then .ok false else if i = 1 then .ok true else .error .unreadableTruth

def asTruth : Value → Except Fault Bool
  | .bool b => .ok b
  | .int i => if -(wordBound : Int) ≤ i && i < wordBound then truthOfInt i else .error .notTruth
  | .real x =>
    match intOfReal x with
    | .ok i => truthOfInt i
    | .error _ => .error .notTruth
  | .text t =>
    let word := String.ofList (t.map Char.toLower)
    if ["0", "off", "f", "false", "n", "no"].contains word then .ok false
    else if ["1", "on", "t", "true", "y", "yes"].contains word then .ok true
    else .error .unreadableTruth
  | _ => .error .notTruth

def asList : Value → Except Fault (List Value)
  | .list items => .ok items
  | _ => .error .notList

end Value

namespace Settings

/-- The fields in the order in which they are checked. -/
inductive Field where
  | headerChar
  | columnWidth
  | indentKind
  | indentSize
  | expandMethods
  | reflowImports
  | groups
  deriving DecidableEq, Repr

namespace Field

def all : List Field :=
  [.headerChar, .columnWidth, .indentKind, .indentSize, .expandMethods, .reflowImports, .groups]

def name : Field → String
  | .headerChar => "header_char"
  | .columnWidth => "column_width"
  | .indentKind => "indent_type"
  | .indentSize => "indent_size"
  | .expandMethods => "expand_methods"
  | .reflowImports => "reflow_imports"
  | .groups => "groups"

def ofName? (n : Text) : Option Field := all.find? fun f => f.name.toList == n

end Field

def checkHeaderChar (v : Value) : Except Fault Char := do
  match trim (← v.asText) with
  | [c] => .ok c
  | _ => .error .notOneChar

def checkColumnWidth (v : Value) : Except Fault Nat := do
  let i ← v.asInt
  if 0 < i then .ok i.toNat else .error (.notAbove 0)

private def checkIndentKind : Value → Except Fault (Option IndentKind)
  | .null => .ok none
  | .text t =>
    if t == "spaces".toList then .ok (some .spaces)
    else if t == "tabs".toList then .ok (some .tabs)
    else .error .notIndentKind
  | _ => .error .notIndentKind

def checkIndentSize : Value → Except Fault (Option Nat)
  | .null => .ok none
  | v => do
    let i ← v.asInt
    if i > 8 then .error (.notAtMost 8)
    else if i < 1 then .error (.notAtLeast 1)
    else .ok (some i.toNat)

/-- The results of checking, or all problems in order. -/
def gather {α : Type} : List (Except (List Problem) α) → Except (List Problem) (List α)
  | [] => .ok []
  | r :: rs =>
    match r, gather rs with
    | .ok a, .ok as => .ok (a :: as)
    | .ok _, .error ps => .error ps
    | .error ps, .ok _ => .error ps
    | .error ps, .error qs => .error (ps ++ qs)

def located {α : Type} (place : List Place) : Except Fault α → Except (List Problem) α
  | .ok a => .ok a
  | .error f => .error [⟨place, f⟩]

def checkMatchers (place : List Place) (v : Value) : Except (List Problem) (List Text) := do
  let items ← located place v.asList
  let texts ← gather (items.zipIdx.map fun (item, i) => located (place ++ [.index i]) item.asText)
  return (texts.map trim).filter (!·.isEmpty)

/-- A group given as a table with a label and, if it is not a catch-all, matchers. -/
def checkGroup (place : List Place) (entries : List (Text × Value)) : Except (List Problem) Group :=
  let labelPlace := place ++ [.field "label"]
  let label : Except (List Problem) Text := match entries.lookup "label".toList with
    | none => .error [⟨labelPlace, .missing⟩]
    | some v => located labelPlace v.asText
  let matchers : Except (List Problem) (List Text) := match entries.lookup "matchers".toList with
    | none => .ok []
    | some v => checkMatchers (place ++ [.field "matchers"]) v
  match label, matchers with
  | .ok label, .ok matchers => .ok { label, matchers }
  | .ok _, .error ps => .error ps
  | .error ps, .ok _ => .error ps
  | .error ps, .error qs => .error (ps ++ qs)

def checkGroupValue (place : List Place) : Value → Except (List Problem) Group
  | .table entries => checkGroup place entries
  | _ => .error [⟨place, .notGroup⟩]

def checkGroups (place : List Place) (v : Value) : Except (List Problem) (List Group) := do
  let items ← located place v.asList
  gather (items.zipIdx.map fun (item, i) => checkGroupValue (place ++ [.index i]) item)

def setField (s : Settings) (f : Field) (v : Value) : Except (List Problem) Settings :=
  let place := [Place.field f.name]
  match f with
  | .headerChar => do return { s with headerChar := ← located place (checkHeaderChar v) }
  | .columnWidth => do return { s with columnWidth := ← located place (checkColumnWidth v) }
  | .indentKind => do return { s with indentKind := ← located place (checkIndentKind v) }
  | .indentSize => do return { s with indentSize := ← located place (checkIndentSize v) }
  | .expandMethods => do return { s with expandMethods := ← located place v.asTruth }
  | .reflowImports => do return { s with reflowImports := ← located place v.asTruth }
  | .groups => do return { s with groups := closeGroups (← checkGroups place v) }

/-- Settings from named values: fields without a value keep their default, unknown names are
ignored, and all faulty fields are reported. -/
def ofValues (entries : List (Text × Value)) : Except (List Problem) Settings :=
  go {} Field.all
where
  go (s : Settings) : List Field → Except (List Problem) Settings
    | [] => .ok s
    | f :: rest =>
      match entries.lookup f.name.toList with
      | none => go s rest
      | some v =>
        match setField s f v with
        | .ok s => go s rest
        | .error ps =>
          match go s rest with
          | .ok _ => .error ps
          | .error qs => .error (ps ++ qs)

end Settings

end SourceLayout
