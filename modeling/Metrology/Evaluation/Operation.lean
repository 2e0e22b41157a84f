/-
Operators on values.

Numbers take every operator; a text or list can only be joined to its like, by `+`. A power needs an
integer exponent, which is read off the exact magnitude of the right operand; its uncertainty plays
no part.
-/
import Metrology.Evaluation.Interrupt
set_option autoImplicit false

namespace Metrology.Operation

/-- The largest size of an exponent, the greatest signed integer of 32 bits. -/
def largestExponent : Nat := 2147483647

variable [Numerics]

/-- The integer that a magnitude is; none for a fraction, an infinity, NaN or a size past
`largestExponent` (`integral_exponent`). -/
def exponent? (x : Binary64) : Option Int :=
  if Numerics.eq (Numerics.trunc x) x &&
      !Numerics.lt (Numerics.ofNat largestExponent) (Numerics.abs x) then
    some (Numerics.toInt x)
  else none

/-- `left ^ right` for measured values (the `Pow` case of `eval_number_binary`). -/
def power (left right : Measurement) : Outcome Value :=
  match exponent? right.magnitude with
  | some n => .ofArithmetic (left.pow n)
  | none =>
    .fail (.typeMismatch "integral exponent" (String.ofList (right.magnitude.numeral .plain)))

/-- An operator between two measured values (`eval_number_binary`). -/
def onNumbers (op : BinaryOperator) (left right : Measurement) : Outcome Value :=
  match op with
  | .add => .ok (.number (left + right))
  | .sub => .ok (.number (left - right))
  | .mul => .ok (.number (left * right))
  | .div => .ofArithmetic (left.div right)
  | .pow => power left right

/-- An operator between two values; texts and lists take `+` only, and only with their like
(`evaluate_binary`, `concat_lists`). -/
def binary (op : BinaryOperator) (left right : Value) : Outcome Value :=
  match op, left, right with
  | op, .number a, .number b => onNumbers op a b
  | .add, .text a, .text b => .ok (.text (a ++ b))
  | .add, .list a, .list b => .ok (.list (a ++ b))
  -- the operator is named as it is written, and both operands by their types
  | op, left, right => .fail (.operandMismatch op left.typeName right.typeName)

/-- An operator before a value; only numbers take one (`evaluate_unary`). -/
def unary (op : UnaryOperator) (v : Value) : Outcome Value :=
  match op, v with
  | .negate, .number m => .ok (.number (-m))
  | .keep, .number m => .ok (.number m)
  | _, v => .fail (.typeMismatch "number" v.typeName)

end Metrology.Operation
