/-
Measured values: a magnitude with two uncertainties that are carried separately.

The *reading error* is the resolution of one reading, the *standard error* the spread of repeated
ones. Each operation gives a magnitude and then treats the two channels by one rule, so a channel of
the result depends on the magnitudes and on the same channel of the operands, never on the other
one. `Measurement.perChannel` is that shape and most operations are instances of it.

To first order an uncertainty is scaled by the slope of the operation. Sums combine the channels of
two operands in quadrature; products and quotients combine relative uncertainties the same way,
where a term relative to a magnitude of zero counts as zero instead of spoiling the result.

Throughout the library a name in code font in brackets at the end of a comment is what the script
engine calls the item that is described: `Measurement` is its `MeasuredValue`.
-/
import Metrology.Binary64.Numerics
import Metrology.Measurement.Fault
set_option autoImplicit false

namespace Metrology

/-- A magnitude with its reading and standard error (`MeasuredValue`). -/
structure Measurement where
  magnitude : Binary64
  readingError : Binary64
  standardError : Binary64
  deriving DecidableEq, Inhabited

namespace Measurement

/-! ## 1. Making and reading a value -/

/-- A value free of uncertainty, which is what a bare number is promoted to (`exact`). -/
def exact (magnitude : Binary64) : Measurement := ⟨magnitude, 0, 0⟩

/-- A single reading: no standard error (`with_reading_error`). -/
def reading (magnitude readingError : Binary64) : Measurement := ⟨magnitude, readingError, 0⟩

/-- The larger of the two uncertainties, as sizes (`error`). -/
def error (m : Measurement) : Binary64 := m.readingError.abs.larger m.standardError.abs

/-- Equality of all three numbers as arithmetic has it, so a value holding NaN differs from
itself. -/
def eq (m n : Measurement) : Bool :=
  m.magnitude.eq n.magnitude && m.readingError.eq n.readingError &&
    m.standardError.eq n.standardError

/-- A value with the given magnitude whose channels are each `rule` of the same channel of `m`
(`propagate`). -/
def perChannel (m : Measurement) (magnitude : Binary64) (rule : Binary64 → Binary64) :
    Measurement :=
  ⟨magnitude, rule m.readingError, rule m.standardError⟩

/-- A value with the given magnitude whose channels are each `rule` of the same channels of `m`
and `n`. -/
def perChannels (m n : Measurement) (magnitude : Binary64)
    (rule : Binary64 → Binary64 → Binary64) : Measurement :=
  ⟨magnitude, rule m.readingError n.readingError, rule m.standardError n.standardError⟩

/-! ## 2. Channel rules -/

variable [Numerics]

/-- `num / den`, but zero over a zero of either sign (`safe_div`). A relative uncertainty would be
infinite or NaN there, and the sum it enters with it. -/
def relative (num den : Binary64) : Binary64 := if Numerics.isZero den then 0 else num / den

/-- Independent uncertainties combined: the root of the sum of their squares (`quadrature`). -/
def quadrature (e f : Binary64) : Binary64 :=
  Numerics.sqrt (Numerics.square e + Numerics.square f)

/-- The uncertainty of a product or quotient: the size of the result times the relative
uncertainties of the operands `x` and `y`, combined (`relative_channel`). -/
def relativeRule (result x y e f : Binary64) : Binary64 :=
  Numerics.abs result * quadrature (relative e x) (relative f y)

/-- Where sums can be taken in either order, so can this one. -/
theorem quadrature_comm (h : ∀ x y : Binary64, x + y = y + x) (e f : Binary64) :
    quadrature e f = quadrature f e := by
  rw [quadrature, h, quadrature]

/-! ## 3. Arithmetic -/

/-- The sum. -/
def add (m n : Measurement) : Measurement :=
  m.perChannels n (m.magnitude + n.magnitude) quadrature

/-- The difference; its uncertainty is that of the sum. -/
def sub (m n : Measurement) : Measurement :=
  m.perChannels n (m.magnitude - n.magnitude) quadrature

/-- The product (`product`). -/
def mul (m n : Measurement) : Measurement :=
  let magnitude := m.magnitude * n.magnitude
  m.perChannels n magnitude (relativeRule magnitude m.magnitude n.magnitude)

/-- The quotient by a value of magnitude other than zero (`checked_div`). -/
def div (m n : Measurement) : Except ArithmeticFault Measurement :=
  if Numerics.isZero n.magnitude then .error .divisionByZero
  else
    let magnitude := m.magnitude / n.magnitude
    .ok (m.perChannels n magnitude (relativeRule magnitude m.magnitude n.magnitude))

/-- Negation is the product with an exact `-1`, so a value of magnitude zero loses its relative
uncertainty with its sign (`neg`). -/
def neg (m : Measurement) : Measurement := m.mul (exact (Binary64.ofInt (-1)))

/-- The magnitude without sign; the channels stay (`abs`). -/
def abs (m : Measurement) : Measurement := { m with magnitude := Numerics.abs m.magnitude }

/-- Exponents of a power are signed integers of 32 bits, of which this is the least. -/
def lowestExponent : Int := -2147483648

/-- An integer power (`pow`). Its slope is `n * x ^ (n - 1)`, with `n - 1` held at `lowestExponent`.
The zeroth power is exactly `1`, whatever the base. -/
def pow (m : Measurement) (n : Int) : Except ArithmeticFault Measurement :=
  if n < 0 ∧ Numerics.isZero m.magnitude then .error (.zeroToNegativePower n)
  else
    let magnitude := Numerics.pow m.magnitude n
    if n = 0 then .ok (exact magnitude)
    else
      let slope := Numerics.ofInt n * Numerics.pow m.magnitude (max (n - 1) lowestExponent)
      .ok (m.perChannel magnitude fun e => Numerics.abs (slope * e))

instance : Add Measurement := ⟨add⟩
instance : Sub Measurement := ⟨sub⟩
instance : Mul Measurement := ⟨mul⟩
instance : Neg Measurement := ⟨neg⟩

/- A bare number beside a measured value, on either side, is taken as exact. -/

instance : HAdd Measurement Binary64 Measurement := ⟨fun m x => m.add (exact x)⟩
instance : HSub Measurement Binary64 Measurement := ⟨fun m x => m.sub (exact x)⟩
instance : HMul Measurement Binary64 Measurement := ⟨fun m x => m.mul (exact x)⟩
instance : HAdd Binary64 Measurement Measurement := ⟨fun x m => (exact x).add m⟩
instance : HSub Binary64 Measurement Measurement := ⟨fun x m => (exact x).sub m⟩
instance : HMul Binary64 Measurement Measurement := ⟨fun x m => (exact x).mul m⟩

/-! ## 4. Trigonometry -/

/-- The sine of an angle in radians (`sine`). -/
def sine (m : Measurement) : Measurement :=
  let slope := Numerics.cos m.magnitude
  m.perChannel (Numerics.sin m.magnitude) fun e => Numerics.abs (e * slope)

/-- The cosine of an angle in radians (`cosine`). -/
def cosine (m : Measurement) : Measurement :=
  let slope := Numerics.sin m.magnitude
  m.perChannel (Numerics.cos m.magnitude) fun e => Numerics.abs (e * slope)

/-- The tangent, as the quotient of sine and cosine with the quotient's uncertainty (`tangent`). -/
def tangent (m : Measurement) : Except ArithmeticFault Measurement := m.sine.div m.cosine

/-- The arcsine, defined from `-1` to `1` (`arcsin`). At the two ends the slope is infinite and the
uncertainty counts as zero. -/
def arcsine (m : Measurement) : Except ArithmeticFault Measurement :=
  let x := m.magnitude
  if Numerics.le (Binary64.ofInt (-1)) x ∧ Numerics.le x Binary64.one then
    let slope := Numerics.sqrt (Binary64.one - Numerics.square x)
    .ok (m.perChannel (Numerics.arcsin x) fun e => relative e slope)
  else .error (.outsideDomain "arcsin" x)

/-- The arctangent (`arctan`). -/
def arctangent (m : Measurement) : Measurement :=
  let slope := Binary64.one + Numerics.square m.magnitude
  m.perChannel (Numerics.arctan m.magnitude) fun e => e / slope

end Measurement

end Metrology
