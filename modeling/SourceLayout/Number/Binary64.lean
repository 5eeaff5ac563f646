/-! Floating-point numbers of 64 bits, held exactly. A finite number is a sign and `m · 2 ^ q`,
where `m < 2 ^ 53`, `-1074 ≤ q ≤ 971`, and `q` is the least exponent that allows such an `m`. -/

namespace SourceLayout

inductive Binary64 where
  | nan
  | infinite (negative : Bool)
  | finite (negative : Bool) (m : Nat) (q : Int)
  deriving DecidableEq, Repr

namespace Binary64

def twoTo (n : Nat) : Nat := Nat.pow 2 n

def tenTo (n : Nat) : Nat := Nat.pow 10 n

/-- `num / den` rounded to the nearest natural number, a half to the even neighbour. -/
def roundQuotient (num den : Nat) : Nat :=
  let floor := num / den
  let twice := 2 * (num % den)
  if twice < den then floor
  else if twice > den then floor + 1
  else floor + floor % 2

/-- `num / (den · 2 ^ q)` as a numerator and a denominator. -/
def scaled (num den : Nat) (q : Int) : Nat × Nat :=
  if q < 0 then (num * twoTo q.natAbs, den) else (num, den * twoTo q.natAbs)

/-- The number nearest to the positive quotient `num / den`. -/
def ofQuotient (negative : Bool) (num den : Nat) : Binary64 :=
  let guess : Int := (Nat.log2 num : Int) - (Nat.log2 den : Int) - 52
  let fits (q : Int) : Bool := let (a, b) := scaled num den q; a / b < twoTo 53
  let least := if fits (guess - 1) then guess - 1 else if fits guess then guess else guess + 1
  let q := max least (-1074)
  let (a, b) := scaled num den q
  let m := roundQuotient a b
  let (m, q) := if m = twoTo 53 then (twoTo 52, q + 1) else (m, q)
  if q > 971 then .infinite negative else .finite negative m q

/-- The number nearest to `digits · 10 ^ exponent`. Exponents far outside the range of the finite
numbers are not computed with. -/
def ofDecimal (negative : Bool) (digits : Nat) (exponent : Int) : Binary64 :=
  let top := exponent + (Nat.log2 digits : Int) / 4
  if digits = 0 then .finite negative 0 (-1074)
  else if exponent > 400 || top > 400 then .infinite negative
  else if exponent + (Nat.log2 digits : Int) < -400 then .finite negative 0 (-1074)
  else if exponent < 0 then ofQuotient negative digits (tenTo exponent.natAbs)
  else ofQuotient negative (digits * tenTo exponent.natAbs) 1

/-- The whole number that a finite number is equal to, if it is one. -/
def toInt? : Binary64 → Option Int
  | .finite negative m q =>
    let sign (n : Nat) : Int := if negative then -(n : Int) else n
    if 0 ≤ q then some (sign (m * twoTo q.natAbs))
    else if m % twoTo q.natAbs = 0 then some (sign (m / twoTo q.natAbs))
    else none
  | _ => none

def isFinite : Binary64 → Bool
  | .finite .. => true
  | _ => false

/-- The fewest digits `d`, with the exponent `e`, for which `d · 10 ^ e` has `m · 2 ^ q` as its
nearest number; of several such `d` the closest to it. Among grids of 1, 2, … digits the first that
has a point in the interval of what rounds to `m · 2 ^ q` wins. -/
def shortest (m : Nat) (q : Int) : Nat × Int :=
  let (num, den) := if q < 0 then (m, twoTo q.natAbs) else (m * twoTo q.natAbs, 1)
  let size := decimalSize num den
  let candidates := (List.range 17).filterMap fun (k : Nat) => pick num den (size - k - 1)
  let (d, e) := candidates.headD (0, 0)
  dropZeros 20 d e
where
  /-- The number of digits before the decimal point of `num / den`, or minus the
  number of zeros after it. -/
  decimalSize (num den : Nat) : Int :=
    if den ≤ num then ((Nat.toDigits 10 (num / den)).length : Int)
    else
      let zeros := ((List.range 400).find? fun z => den ≤ num * tenTo (z + 1)).getD 0
      Int.neg zeros
  /-- Of the two neighbours of `num / den` on the grid of multiples of `10 ^ e`, the nearest that
  reads back as the same number. -/
  pick (num den : Nat) (e : Int) : Option (Nat × Int) :=
    let (a, b) := if e < 0 then (num * tenTo e.natAbs, den) else (num, den * tenTo e.natAbs)
    let low := a / b
    let near := roundQuotient a b
    let far := if near = low then low + 1 else low
    let target := ofQuotient false num den
    let readsBack (d : Nat) : Bool := d != 0 && ofDecimal false d e == target
    if readsBack near then some (near, e) else if readsBack far then some (far, e) else none
  /-- Moves the zeros at the end of the digits into the exponent. -/
  dropZeros : Nat → Nat → Int → Nat × Int
    | 0, d, e => (d, e)
    | fuel + 1, d, e => if d != 0 && d % 10 == 0 then dropZeros fuel (d / 10) (e + 1) else (d, e)

/-- The text of a number: the fewest digits that read back, with a decimal point when the
leading digit stands for at most `10 ^ 15` and at least `10 ^ -4`, else with an exponent
of two digits or more. -/
def render : Binary64 → String
  | .nan => "nan"
  | .infinite negative => if negative then "-inf" else "inf"
  | .finite negative m q =>
    let sign := if negative then "-" else ""
    if m = 0 then sign ++ "0.0"
    else
      let (d, e) := shortest m q
      let digits := Nat.toDigits 10 d
      let size : Int := digits.length
      let lead := size + e - 1
      let body :=
        if -4 ≤ lead && lead < 16 then
          if 0 ≤ e then digits ++ List.replicate e.natAbs '0' ++ ['.', '0']
          else if 0 ≤ lead then
            let whole := (lead + 1).toNat
            digits.take whole ++ '.' :: digits.drop whole
          else ['0', '.'] ++ List.replicate ((-lead).toNat - 1) '0' ++ digits
        else
          let fraction := if digits.length = 1 then [] else '.' :: digits.drop 1
          let power := Nat.toDigits 10 lead.natAbs
          let power := if power.length = 1 then '0' :: power else power
          digits.take 1 ++ fraction ++ 'e' :: (if lead < 0 then '-' else '+') :: power
      sign ++ String.ofList body

end Binary64

end SourceLayout
