/-
Decimals for a binary64 number: the fewest digits that read back, one significant digit, and a
fixed number of places.

All three look at the number on a decimal grid, which is an exact quotient of natural numbers. The
shortest decimal needs no theory of intervals: a candidate is good when reading it gives the number
again, and on each grid only the two neighbours of the number are asked. Grids are tried from the
coarsest, the one of the leading digit; the seventeenth always has a good candidate.
-/
import Metrology.Decimal.Basic
set_option autoImplicit false

namespace Metrology

namespace Decimal

/-- A count of quanta over the decimal place `10 ^ place`, as numerator and denominator. -/
def overPlace (quanta : Nat) (place : Int) : Nat × Nat :=
  (quanta * 10 ^ (-place).toNat, Binary64.perUnit * 10 ^ place.toNat)

/-- A place below which no number of the format starts: one quantum is more than
`10 ^ -lowestPlace`. -/
def lowestPlace : Nat := 324

/-- The exponent of the leading decimal digit of a positive count of quanta. -/
def leadExponent (quanta : Nat) : Int :=
  let atLowest := overPlace quanta (-lowestPlace)
  (digits (atLowest.1 / atLowest.2)).length - 1 - (lowestPlace : Int)

/-! ## 1. The fewest digits that read back -/

/-- Reading the decimal gives the number. -/
def readsBackTo (d : Decimal) (x : Binary64) : Bool := d.toBinary64 false == x

/-- The good neighbour of `x` on the grid of `place`, the nearer one if both are, the upper one if
they are equally near. -/
def onGrid? (x : Binary64) (place : Int) : Option Decimal :=
  let (num, den) := overPlace x.quanta place
  let lower : Decimal := ⟨num / den, place⟩
  let upper : Decimal := ⟨num / den + 1, place⟩
  match lower.readsBackTo x, upper.readsBackTo x with
  | true, true => if 2 * (num % den) < den then some lower else some upper
  | true, false => some lower
  | false, true => some upper
  | false, false => none

/-- The first grid with a good candidate, from `place` down over `more` further places; failing
all of them, the truncation on the last one. -/
def shortestFrom (x : Binary64) (place : Int) : Nat → Decimal
  | 0 => (onGrid? x place).getD
      ⟨(overPlace x.quanta place).1 / (overPlace x.quanta place).2, place⟩
  | more + 1 => (onGrid? x place).getD (shortestFrom x (place - 1) more)

/-- Digits that always suffice. -/
def mostDigits : Nat := 17

/-- The shortest decimal that reads back to the positive number `x`. -/
def shortest (x : Binary64) : Decimal :=
  shortestFrom x (leadExponent x.quanta) (mostDigits - 1)

/-! ## 2. One significant digit -/

/-- The positive count of quanta rounded to one significant digit, a half to the even digit: the
digit and its place. Rounding nine and a half up moves to the next place. -/
def oneDigit (quanta : Nat) : Decimal :=
  let place := leadExponent quanta
  let (num, den) := overPlace quanta place
  let digit := nearestEven num den
  if digit = 10 then ⟨1, place + 1⟩ else ⟨digit, place⟩

end Decimal

/-! ## 3. A number of decimal places -/

/-- The number rounded to `places` decimal places (`round_to_places`). To the right of the point the
exact value is rounded as a decimal, which is then read; a negative count, tens or hundreds, divides
by the power of ten, rounds to a whole number and multiplies back, each of them rounded as
arithmetic is. -/
def Binary64.roundToPlaces (x : Binary64) (places : Int) : Binary64 :=
  if places < 0 then
    let scale := (Binary64.ofNat 10).pow (-places)
    (x.div scale).roundEven.mul scale
  else
    match x with
    | .finite s n _ =>
      let (num, den) := Decimal.overPlace n (-places)
      Decimal.toBinary64 s ⟨nearestEven num den, -places⟩
    | x => x

end Metrology
