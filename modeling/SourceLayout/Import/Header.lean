import SourceLayout.Settings.Basic

/-! Group headers: a label padded to the column width. -/

namespace SourceLayout.Header
open Text

def hasRoom (label : Text) (width : Nat) : Bool := (trim label).length + 1 < width

/-- The label padded with `fill` up to `width`; a label that leaves no room for it stays alone. -/
def render (label : Text) (fill : Char) (width : Nat) : Text :=
  if hasRoom label width then padTo width fill (trim label ++ [' ']) else trim label

/-- The label padded with a text; none if that text is needed and is not one character. -/
def renderWith? (label fill : Text) (width : Nat) : Option Text :=
  match fill with
  | [c] => some (render label c width)
  | _ => if hasRoom label width then none else some (trim label)

def ofGroup (s : Settings) (g : Group) : Text := render g.label s.headerChar s.columnWidth

/-- Whether a line is a comment that a run with these settings writes as a header. -/
def isHeader (s : Settings) (line : Text) : Bool :=
  let shown := trim line
  startsWith shown "//" && s.groups.any fun g => shown == ofGroup s g

end SourceLayout.Header
