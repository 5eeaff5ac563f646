import SourceLayout.Declaration.Union

/-! Interface and type declarations. -/

namespace SourceLayout.Declaration
open Text

/-- The row and column of the first character of code that satisfies `p`, read from state `s`. -/
def findMark? (p : Scan.Mark → Bool) (s : Scan.State) : List Text → Option (Nat × Nat)
  | [] => none
  | l :: r =>
    match (Scan.marks l s).findIdx? fun m => m.isCode && p m with
    | some col => some (0, col)
    | none => (findMark? p (Scan.feed s l) r).map fun (row, col) => (row + 1, col)

/-- Where the body opens: the first brace outside all brackets. -/
def bodyBrace? (ls : List Text) : Option (Nat × Nat) :=
  findMark? (fun m => m.char == '{' && m.depth == 0) {} ls

def closingBrace? (ls : List Text) (row col : Nat) : Option (Nat × Nat) :=
  match ls.drop row with
  | [] => none
  | l :: r =>
    (findMark? (fun m => m.char == '}' && m.depth == 0) {} (l.drop col :: r)).map fun (r, c) =>
      (row + r, if r = 0 then col + c else c)

inductive Shape where
  /-- A type alias with members separated by bars. -/
  | union
  /-- No body, or a type that is more than one object: left as written. -/
  | plain
  /-- A body that does not close on the last line: left as written. -/
  | unclosed
  /-- A body on the last line, which is line `row`. -/
  | oneLine (row : Nat)
  /-- A body from `row` and `col` to column `close` of the last line. -/
  | body (row col close : Nat)
  deriving DecidableEq, Repr

def shape (ls : List Text) : Shape :=
  if Union.isUnion ls then .union
  else match bodyBrace? ls with
    | none => .plain
    | some (row, col) =>
      let head := unlines (ls.take row ++ [(ls.getD row []).take col])
      if ls.head?.any isTypeAlias &&
        (trimRight (Scan.withoutComments head)).getLast? != some '=' then
        .plain
      else match closingBrace? ls row col with
        | none => .unclosed
        | some (closeRow, close) =>
          if closeRow + 1 != ls.length then .unclosed
          else if row + 1 == ls.length then .oneLine row
          else .body row col close

/-- The lines of a body from `row` and `col` to column `close` of the last line. -/
def bodySpan (ls : List Text) (row col close : Nat) : ObjectSpan :=
  let opening := ls.getD row []
  let last := ls.getLast?.getD []
  { before := opening.take col
    afterOpen := trim (opening.drop (col + 1))
    middle := (ls.drop (row + 1)).dropLast
    beforeClose := trim (last.take close)
    closing := trim (last.drop close) }

def formatBody (cfg : Settings) (base : Text) (ls : List Text) (row col close : Nat) : List Text :=
  let span := bodySpan ls row col close
  ls.take row ++ trimRight (span.before ++ ['{']) ::
    Block.format cfg (roomAt 0) base (span.content (base ++ cfg.indentUnit)) ++
      [base ++ span.closing]

/-- The lines of a declaration, laid out. A declaration whose body cannot be told from
the rest stays as it is. -/
def format (cfg : Settings) (ls : List Text) : List Text :=
  let base := indentOf (ls.headD [])
  match shape ls with
  | .union => Union.format cfg (roomAt 0) base ls
  | .plain => ls
  | .unclosed => ls
  | .oneLine row => ls.take row ++ Block.formatOneLine cfg (roomAt 0) base (ls.getD row [])
  | .body row col close => formatBody cfg base ls row col close

/-- What is noted about a declaration that stays as it is. -/
def note? (ls : List Text) : Option String :=
  if shape ls = .unclosed then
    some ("Body of '" ++ String.ofList (trim (ls.headD [])) ++
      "' does not close on its last line, keeping it")
  else none

end SourceLayout.Declaration
