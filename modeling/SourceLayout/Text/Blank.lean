/-! Source text as a list of characters, blank characters, and the trimming and padding of lines. -/

namespace SourceLayout

/-- A piece of source text: a line, a member, a statement or a whole file. -/
abbrev Text := List Char

namespace Text

/-- Blank characters: the Unicode white space and the four information separators. -/
def isBlank (c : Char) : Bool :=
  let n := c.toNat
  (9 ≤ n && n ≤ 13) || (28 ≤ n && n ≤ 32) || n == 0x85 || n == 0xA0 || n == 0x1680 ||
    (0x2000 ≤ n && n ≤ 0x200A) || n == 0x2028 || n == 0x2029 || n == 0x202F ||
    n == 0x205F || n == 0x3000

def isBlankLine (t : Text) : Bool := t.all isBlank

def indentOf (t : Text) : Text := t.takeWhile isBlank

def trimLeft (t : Text) : Text := t.dropWhile isBlank

def trimRight (t : Text) : Text := (t.reverse.dropWhile isBlank).reverse

/-- The text without the blanks at its two ends. -/
def trim (t : Text) : Text := trimRight (trimLeft t)

/-- The text followed by as many `fill` characters as it needs to reach `width`. -/
def padTo (width : Nat) (fill : Char) (t : Text) : Text :=
  t ++ List.replicate (width - t.length) fill

def startsWith (t : Text) (w : String) : Bool := w.toList.isPrefixOf t

def endsWith (t : Text) (w : String) : Bool := w.toList.isSuffixOf t

def dropWord? (w : String) (t : Text) : Option Text :=
  if startsWith t w then some (t.drop w.length) else none

def occursIn (w : Text) : Text → Bool
  | [] => w.isEmpty
  | c :: r => w.isPrefixOf (c :: r) || occursIn w r

end Text

end SourceLayout
