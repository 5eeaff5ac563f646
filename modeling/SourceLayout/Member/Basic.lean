import SourceLayout.Signature.Head

/-! Members of an object type: fields, call signatures, comments, and lines
that are none of these. -/

namespace SourceLayout
open Text

/-- The head of a field, `readonly name?:`, and the value after it. -/
structure FieldHead where
  key : Text
  optional : Bool
  value : Text
  deriving DecidableEq, Repr

namespace FieldHead

/-- A name up to the character `close`, the brackets or quotes included. -/
def enclosed? (close : Char) (allowEmpty : Bool) (t : Text) : Option (Text × Text) :=
  match t with
  | [] => none
  | o :: r =>
    let inner := r.takeWhile (· != close)
    match r.dropWhile (· != close) with
    | [] => none
    | c :: rest => if inner.isEmpty && !allowEmpty then none else some (o :: inner ++ [c], rest)

/-- The name of a field: a word, a quoted text or an index in brackets; and what follows it. -/
def name? (t : Text) : Option (Text × Text) :=
  match t.head? with
  | none => none
  | some '[' => enclosed? ']' false t
  | some '"' => enclosed? '"' true t
  | some '\'' => enclosed? '\'' true t
  | some c => if isNameChar c then some (t.takeWhile isNameChar, t.dropWhile isNameChar) else none

/-- The value of a field: the rest of the line after the blanks. Only a final
line break may follow. -/
def value? (t : Text) : Option Text :=
  let r := trimLeft t
  let rest := r.dropWhile (· != '\n')
  if rest == [] || rest == ['\n'] then some (r.takeWhile (· != '\n')) else none

/-- A name, an optional question mark, a colon and the value; `lead` is in front of the name. -/
def after? (lead t : Text) : Option FieldHead := do
  let (name, rest) ← name? t
  let (optional, afterMark) := MethodHead.questionMark rest
  match afterMark with
  | ':' :: r => (value? r).map fun value => { key := lead ++ name, optional, value }
  | _ => none

/-- The word `readonly` with the blanks after it, and the rest of the text. -/
def readonly? (t : Text) : Option (Text × Text) :=
  (dropWord? "readonly" t).bind fun r =>
    if r.head?.any isBlank then some ("readonly".toList ++ indentOf r, trimLeft r) else none

def read? (t : Text) : Option FieldHead :=
  ((readonly? t).bind fun (lead, rest) => after? lead rest) <|> after? [] t

end FieldHead

namespace Member

def goesOn (marks : List Char) (t : Text) : Bool :=
  (MethodHead.questionMark t).2.head?.any marks.contains

/-- Whether a member begins here, apart from a leading `readonly`. -/
def startsPlain (t : Text) : Bool :=
  match t.head? with
  | none => false
  | some '[' => true
  | some '"' => (FieldHead.enclosed? '"' true t).any fun (_, r) => goesOn [':'] r
  | some '\'' => (FieldHead.enclosed? '\'' true t).any fun (_, r) => goesOn [':'] r
  | some '/' => startsWith t "//" || startsWith t "/*"
  | some c => isNameChar c && goesOn [':', '(', '<'] (t.dropWhile isNameChar)

/-- Whether a line, without the blanks at its ends, begins with a member or a comment. -/
def starts (t : Text) : Bool :=
  ((FieldHead.readonly? t).any fun (_, r) => startsPlain r) || startsPlain t

def endsSeparated (code : Text) : Bool :=
  code.getLast?.any [';', '}', ','].contains

/-- Whether code ends in a token that the next line has to continue. -/
def endsOpen (code : Text) : Bool :=
  code.getLast?.any [':', '|', '&', '=', '?', '.'].contains || endsWith code "=>"

/-- A member that lacks its separator, with a semicolon after its code. -/
def terminate (t : Text) : Text :=
  let code := trimRight (Scan.withoutComments t)
  if code.isEmpty || endsSeparated code || endsOpen code then t
  else if !(Scan.feed {} t).settled then t
  else if (FieldHead.read? t).isNone && (MethodHead.read? t).isNone then t
  else match Scan.commentStart? t with
    | none => t ++ [';']
    | some cut => trimRight (t.take cut) ++ [';', ' '] ++ t.drop cut

end Member

inductive MemberKind where
  | comment
  | method (head : MethodHead)
  | field (head : FieldHead)
  | unknown
  deriving DecidableEq, Repr

structure Member where
  lines : List Text
  kind : MemberKind
  deriving DecidableEq, Repr

namespace Member

def kindOf (ls : List Text) : MemberKind :=
  let first := trim (ls.headD [])
  if (trim (Scan.withoutComments (unlines ls))).isEmpty then .comment
  else match MethodHead.read? first with
    | some head => .method head
    | none =>
      match FieldHead.read? first with
      | some head => .field { head with value := trim head.value }
      | none => .unknown

def ofLines (ls : List Text) : Member := { lines := ls, kind := kindOf ls }

def ofLines? (ls : List Text) : Option Member := if ls.isEmpty then none else some (ofLines ls)

def field? (m : Member) : Option FieldHead :=
  match m.kind with
  | .field head => some head
  | _ => none

end Member

end SourceLayout
