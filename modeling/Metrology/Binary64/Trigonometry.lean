/-
Sine, cosine, arcsine and arctangent of binary64 numbers, each the fixed-point value of the exact
argument, rounded once.

The odd functions are computed on the magnitude and take the sign of the argument, so a zero keeps
its sign. Outside the domain, and for the angle of an infinity, the result is NaN.
-/
import Metrology.Binary64.Arithmetic
import Metrology.FixedPoint
set_option autoImplicit false

namespace Metrology.Binary64

/-- Binary places of the fixed-point scale below one quantum. -/
def guardBits : Nat := FixedPoint.scaleBits - quantumExponent

/-- The exact fixed-point value of a count of quanta. -/
def toFixed (n : Nat) : Nat := n * 2 ^ guardBits

/-- The number nearest to a fixed-point value, with `flip` deciding whether the sign is turned. -/
def ofFixed (flip : Bool) (v : Int) : Binary64 :=
  ofRatio (flip != decide (v < 0)) v.natAbs (2 ^ guardBits)

/-- The sine of an angle in radians. -/
def sin : Binary64 → Binary64
  | .finite s n h =>
    if n = 0 then .finite s n h else ofFixed s (FixedPoint.sine (toFixed n))
  | _ => .nan

/-- The cosine of an angle in radians. -/
def cos : Binary64 → Binary64
  | .finite _ n _ => ofFixed false (FixedPoint.cosine (toFixed n))
  | _ => .nan

/-- The angle whose sine is given. -/
def arcsin : Binary64 → Binary64
  | .finite s n h =>
    if n = 0 then .finite s n h
    else if perUnit < n then .nan
    else ofFixed s (FixedPoint.arcsin (toFixed n))
  | _ => .nan

/-- The angle whose tangent is given; a quarter turn at the infinities. -/
def arctan : Binary64 → Binary64
  | .finite s n h =>
    if n = 0 then .finite s n h else ofFixed s (FixedPoint.arctan (toFixed n))
  | .infinite s => ofFixed s FixedPoint.quarterTurn
  | .nan => .nan

end Metrology.Binary64
