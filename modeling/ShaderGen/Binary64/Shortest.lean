import ShaderGen.Binary64.Basic

/-! # Shortest decimal text of a binary64 number

The decimal numbers that read back as a given finite number form an interval around it. The text
is the decimal of the interval with the fewest digits, the one nearest to the number among those,
the upper of two that are equally near. It is always written out in positions, never with an
exponent, and always has a decimal point.

All of it is exact arithmetic on natural numbers: a number and the two ends of its interval are
first brought to one decimal exponent, as `Interval`. -/

namespace ShaderGen

/-- The decimal number `coefficient * 10 ^ exponent`. -/
structure Decimal where
  coefficient : Nat
  exponent : Int
deriving DecidableEq, Repr

namespace Decimal

/-- Positional text: at least one digit before the decimal point and one after it. -/
def text (d : Decimal) : String :=
  let digits := Nat.toDigits 10 d.coefficient
  if 0 ≤ d.exponent then
    String.ofList (digits ++ List.replicate d.exponent.toNat '0' ++ ['.', '0'])
  else
    let places := (-d.exponent).toNat
    let padded := List.replicate (places + 1 - digits.length) '0' ++ digits
    let whole := padded.length - places
    String.ofList (padded.take whole ++ '.' :: padded.drop whole)

end Decimal

/-- A value between two bounds, each times `10 ^ exponent`. The bounds themselves belong to the
    interval if it is `closed`. -/
structure Interval where
  lower : Nat
  value : Nat
  upper : Nat
  exponent : Int
  closed : Bool
deriving DecidableEq, Repr

namespace Interval

/-- Whether a coefficient lies in the interval. -/
def contains (i : Interval) (c : Nat) : Bool :=
  if i.closed then i.lower ≤ c && c ≤ i.upper else i.lower < c && c < i.upper

/-- Among the multiples of `10 ^ places` next to the value, the nearer one that lies in the
    interval, divided by that power; the upper one if both are equally near. -/
def neighbour? (i : Interval) (places : Nat) : Option Nat :=
  let step := Nat.pow 10 places
  let below := i.value / step
  let above := below + 1
  match i.contains (below * step), i.contains (above * step) with
  | false, false => none
  | true, false => some below
  | false, true => some above
  | true, true =>
    if i.value - below * step < above * step - i.value then some below else some above

/-- The coarsest decimal grid of at most `places` dropped places that has a point in the interval
    next to the value, with that point. The finest grid holds the value itself. -/
def coarsest (i : Interval) : Nat → Decimal
  | 0 => ⟨i.value, i.exponent⟩
  | places + 1 =>
    match i.neighbour? (places + 1) with
    | some c => ⟨c, i.exponent + (places + 1 : Nat)⟩
    | none => i.coarsest places

/-- The point of the interval with the fewest digits. No point has more digits than the upper
    bound, so no grid that drops more places needs a look. -/
def shortest (i : Interval) : Decimal := i.coarsest (Nat.toDigits 10 i.upper).length

end Interval

namespace Binary64

/-- The numbers whose nearest binary64 number is the magnitude of `v`. In quarters of the last
    binary place the value is four significands, the gap to either side is halved at two, and a
    narrowed gap at one; halfway points belong to even significands. -/
def roundingInterval (v : Binary64) : Interval :=
  let scale (n : Nat) : Nat :=
    if 2 ≤ v.exponent then n * Nat.pow 2 (v.exponent - 2).toNat
    else n * Nat.pow 5 (2 - v.exponent).toNat
  { lower := scale (4 * v.significand - if v.gapNarrowsBelow then 1 else 2)
    value := scale (4 * v.significand)
    upper := scale (4 * v.significand + 2)
    exponent := min (v.exponent - 2) 0
    closed := v.significand % 2 == 0 }

/-- The decimal with the fewest digits that reads back as the magnitude of a finite number. -/
def shortest (v : Binary64) : Decimal :=
  if v.significand = 0 then ⟨0, 0⟩ else v.roundingInterval.shortest

/-- Text of the magnitude. -/
def magnitudeText (v : Binary64) : String :=
  if v.isNaN then "NaN" else if v.isFinite then v.shortest.text else "inf"

/-- Text with the sign. NaNs show none. -/
def text (v : Binary64) : String :=
  if v.isNegative && !v.isNaN then "-" ++ v.magnitudeText else v.magnitudeText

end Binary64

end ShaderGen
