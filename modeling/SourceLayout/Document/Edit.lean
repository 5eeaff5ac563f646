import SourceLayout.Text.Blank

/-! Edits of a list of lines. An edit replaces the lines `first` to `last`, both included. -/

namespace SourceLayout

/-- Replaces the lines `first` to `last` by others. Of edits with the same range the one with the
least priority is applied. -/
structure Edit where
  first : Int
  last : Int
  lines : List Text
  priority : Int := 0
  deriving DecidableEq, Repr

namespace Edit

def le (a b : Edit) : Bool :=
  a.first < b.first || (a.first == b.first &&
    (a.last < b.last || (a.last == b.last && a.priority ≤ b.priority)))

/-- A position in a list of length `n`: positions below zero count from its end. -/
def clamp (n : Nat) (i : Int) : Nat :=
  if i < 0 then n - i.natAbs else min i.toNat n

def window (ls : List Text) (lo hi : Int) : List Text :=
  (ls.take (clamp ls.length hi)).drop (clamp ls.length lo)

/-- Applies edits that are in order, from line `cursor` on. An edit that begins before the cursor
overlaps an earlier one and is dropped. -/
def applyFrom (ls : List Text) (cursor : Int) : List Edit → List Text
  | [] => ls.drop (clamp ls.length cursor)
  | e :: r =>
    if e.first < cursor then applyFrom ls cursor r
    else window ls cursor e.first ++ e.lines ++ applyFrom ls (e.last + 1) r

def applyAll (ls : List Text) (edits : List Edit) : List Text := applyFrom ls 0 (edits.mergeSort le)

end Edit

end SourceLayout
