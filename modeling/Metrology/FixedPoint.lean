/-
Fixed-point values of the trigonometric functions.

A real number `v` is kept as the integer nearest below `v * 2 ^ scaleBits`, up to a few units. The
scale is one for all arguments and is chosen from the two ends of the binary64 range. At the small
end a result of one quantum still has more than three hundred bits below it; at the large end
taking up to `2 ^ 1024` quarter turns off an argument multiplies the error of `quarterTurn` by
that, which leaves as many. Both are far more than the spacing of binary64 numbers, so rounding a
value from here is rounding the function.

Every series runs a number of steps fixed in advance, enough for its slowest argument; a step past
the last useful one adds zero.
-/
import Metrology.Rounding
set_option autoImplicit false

namespace Metrology.FixedPoint

/-- Binary places of a fixed-point value. -/
def scaleBits : Nat := 1400

/-- The fixed-point value of `1`. -/
def unit : Nat := 2 ^ scaleBits

/-- The product of two fixed-point values. -/
def mul (x y : Int) : Int := (x * y) >>> scaleBits

/-! ## 1. The quarter turn -/

/-- The summands of `arctan (1 / k)`: `± 1 / (i * k ^ i)` for odd `i`, of which `power` is
`± 1 / k ^ i` for the current one. -/
def arctanInverseLoop : Nat → Int → Int → Int → Int → Int
  | 0, _, _, _, total => total
  | steps + 1, square, power, i, total =>
    arctanInverseLoop steps square (-power / square) (i + 2) (total + power / i)

/-- The angle whose tangent is `1 / k`, for `k` of five or more: each step gains four bits. -/
def arctanInverse (k : Nat) : Int :=
  arctanInverseLoop (scaleBits / 4) (k * k : Nat) (unit / k : Nat) 1 0

/-- A quarter turn, half of pi, as eight angles of tangent `1 / 5` less two of tangent
`1 / 239`. -/
def quarterTurn : Int := 8 * arctanInverse 5 - 2 * arctanInverse 239

/-! ## 2. Sine and cosine -/

/-- The alternating series whose summands grow from `term` by `- x² / ((i + 1) (i + 2))`, where
`square` is `x²`. It is the sine from `x` at `i = 1` and the cosine from `1` at `i = 0`. -/
def powerSeries : Nat → Int → Int → Int → Int → Int
  | 0, _, _, _, total => total
  | steps + 1, square, term, i, total =>
    powerSeries steps square (-(mul term square) / ((i + 1) * (i + 2))) (i + 2) (total + term)

/-- Steps after which a summand of an argument below `1` has left the scale. -/
def powerSeriesSteps : Nat := 125

/-- The sine of an angle of at most half a quarter turn. -/
def sineNearZero (x : Int) : Int := powerSeries powerSeriesSteps (mul x x) x 1 0

/-- The cosine of an angle of at most half a quarter turn. -/
def cosineNearZero (x : Int) : Int := powerSeries powerSeriesSteps (mul x x) unit 0 0

/-- The sine of `x` ahead by `turns` quarter turns. Whole quarter turns are taken off to the
nearest one; what is left is the angle of a series, and the count decides which series and which
sign. -/
def sineAhead (x : Int) (turns : Int) : Int :=
  let count := (2 * x + quarterTurn) / (2 * quarterTurn)
  let rest := x - count * quarterTurn
  match (count + turns) % 4 with
  | 0 => sineNearZero rest
  | 1 => cosineNearZero rest
  | 2 => -sineNearZero rest
  | _ => -cosineNearZero rest

/-- The sine. -/
def sine (x : Int) : Int := sineAhead x 0

/-- The cosine is the sine a quarter turn ahead. -/
def cosine (x : Int) : Int := sineAhead x 1

/-! ## 3. Arctangent and arcsine -/

/-- The series of the arctangent whose summands grow from `term` by `ratio * i / (i + 1)` over
even `i`. -/
def arctanLoop : Nat → Int → Int → Int → Int → Int
  | 0, _, _, _, total => total
  | steps + 1, ratio, term, i, total =>
    arctanLoop steps ratio (mul term ratio * i / (i + 1)) (i + 2) (total + term)

/-- The arctangent of an argument from zero to `1`. The first summand is `x / (1 + x²)` and the
ratio `x² / (1 + x²)`, at most a half, so each step gains a bit. -/
def arctanToUnit (x : Int) : Int :=
  let square := mul x x
  arctanLoop scaleBits (square * unit / (unit + square)) (x * unit / (unit + square)) 2 0

/-- The arctangent of an argument from zero up; past `1` it is a quarter turn less that of the
reciprocal. -/
def arctan (x : Nat) : Int :=
  if x ≤ unit then arctanToUnit x
  else quarterTurn - arctanToUnit (unit * unit / x : Nat)

/-- The arcsine of an argument from zero to `1`: twice the arctangent of `x / (1 + √(1 - x²))`,
which unlike the tangent of the angle itself stays within `1`. -/
def arcsin (x : Nat) : Int :=
  let root := floorSqrt (scaleBits + 1) (unit * unit - x * x)
  2 * arctanToUnit (x * unit / (unit + root) : Nat)

end Metrology.FixedPoint
