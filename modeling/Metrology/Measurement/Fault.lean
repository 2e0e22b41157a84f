/-
Why an operation on measured values has no result.
-/
import Metrology.Decimal.Numeral
set_option autoImplicit false

namespace Metrology

/-- The causes for which arithmetic on measured values fails (`MeasureError`). Only a magnitude can
have one; uncertainties never fail. -/
inductive ArithmeticFault where
  /-- A divisor of magnitude zero. -/
  | divisionByZero
  /-- A zero raised to a negative power. -/
  | zeroToNegativePower (exponent : Int)
  /-- A magnitude outside the domain of the operation. -/
  | outsideDomain (operation : String) (magnitude : Binary64)
  /-- An average of nothing. -/
  | emptySample
  deriving DecidableEq

/-- The wording of a cause; a magnitude is written plainly, never with an exponent. -/
def ArithmeticFault.message : ArithmeticFault → String
  | .divisionByZero => "division by zero"
  | .zeroToNegativePower n =>
    "zero raised to negative power " ++ String.ofList (Decimal.integer n)
  | .outsideDomain operation x =>
    operation ++ " is undefined for magnitude " ++ String.ofList (x.numeral .plain)
  | .emptySample => "cannot average an empty set of measurements"

end Metrology
