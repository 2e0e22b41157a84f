/-
Decimals `coefficient * 10 ^ exponent`, and the way from a decimal to the nearest binary64 number.

Reading is correct rounding of the exact quotient, whatever the number of digits. Exponents are
unbounded here, so the powers of ten are formed only where the leading digit lies within a few
decades of the binary64 range; past either end the answer is known from the place of that digit
alone.
-/
import Metrology.Binary64.Arithmetic
set_option autoImplicit false

namespace Metrology

/-- A decimal without sign. -/
structure Decimal where
  coefficient : Nat
  exponent : Int
  deriving DecidableEq, Repr

namespace Decimal

/-- The decimal digits of a number, leading one first; `0` has the one digit `0`. -/
def digits (n : Nat) : List Char := Nat.toDigits 10 n

/-- The number that a run of digits denotes. -/
def ofDigits (ds : List Char) : Nat := Nat.ofDigitChars 10 ds 0

/-- The digits of a number are read back as that number. -/
theorem ofDigits_digits (n : Nat) : ofDigits (digits n) = n := Nat.ofDigitChars_ten_toDigits

/-- One more than the exponent of the leading digit: the decimal lies below ten to this power. -/
def topExponent (d : Decimal) : Int := (digits d.coefficient).length + d.exponent

/-- Decimals at or above ten to this power round to infinity, those below ten to its negative
round to zero; the exact bounds are 309 and 324. -/
def decadeLimit : Int := 400

/-- The nearest binary64 number of the given sign, by the exact quotient of quanta. -/
def nearest (negative : Bool) (d : Decimal) : Binary64 :=
  Binary64.ofRatio negative
    (d.coefficient * 10 ^ d.exponent.toNat * Binary64.perUnit) (10 ^ (-d.exponent).toNat)

/-- The nearest binary64 number, out of range without forming the power of ten. -/
def toBinary64 (negative : Bool) (d : Decimal) : Binary64 :=
  if d.coefficient = 0 then Binary64.zero negative
  else if decadeLimit < d.topExponent then .infinite negative
  else if d.topExponent < -decadeLimit then Binary64.zero negative
  else d.nearest negative

end Decimal

end Metrology
