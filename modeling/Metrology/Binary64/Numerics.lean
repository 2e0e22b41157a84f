/-
The numerics that measured values are computed with.

A computation on measured values is a formula over a short list of functions on binary64 numbers:
the four operations, roots, powers, trigonometry, comparisons and conversions. `Numerics` is that
list and nothing about it, and the formulas are written over it. Whoever runs the library gets the
functions of `Arithmetic` and `Trigonometry`, exact and rounded once, because theirs is the one
instance.

The point is what can be said of a formula. A statement for every `Numerics` holds whatever the
functions compute, so it is about where the arguments of the formula go and cannot rest on a
property of rounding; a law that is needed, such as commutativity, is a hypothesis there.

Reading and writing numerals is no part of the list: both are exact, and no formula depends on them.
-/
import Metrology.Binary64.Trigonometry
set_option autoImplicit false

namespace Metrology

/-! ## 1. The functions -/

/-- The functions on binary64 numbers that measured values are computed with. -/
class Numerics where
  add : Binary64 → Binary64 → Binary64
  sub : Binary64 → Binary64 → Binary64
  mul : Binary64 → Binary64 → Binary64
  div : Binary64 → Binary64 → Binary64
  abs : Binary64 → Binary64
  sqrt : Binary64 → Binary64
  /-- An integer power. -/
  pow : Binary64 → Int → Binary64
  sin : Binary64 → Binary64
  cos : Binary64 → Binary64
  arcsin : Binary64 → Binary64
  arctan : Binary64 → Binary64
  /-- The fraction dropped. -/
  trunc : Binary64 → Binary64
  toInt : Binary64 → Int
  ofInt : Int → Binary64
  ofNat : Nat → Binary64
  eq : Binary64 → Binary64 → Bool
  lt : Binary64 → Binary64 → Bool
  le : Binary64 → Binary64 → Bool

/-- The numerics of the library. -/
instance Numerics.rounded : Numerics where
  add := Binary64.add
  sub := Binary64.sub
  mul := Binary64.mul
  div := Binary64.div
  abs := Binary64.abs
  sqrt := Binary64.sqrt
  pow := Binary64.pow
  sin := Binary64.sin
  cos := Binary64.cos
  arcsin := Binary64.arcsin
  arctan := Binary64.arctan
  trunc := Binary64.trunc
  toInt := Binary64.toInt
  ofInt := Binary64.ofInt
  ofNat := Binary64.ofNat
  eq := Binary64.eq
  lt := Binary64.lt
  le := Binary64.le

/-! ## 2. Shorthands -/

section
variable [Numerics]

instance : Add Binary64 := ⟨Numerics.add⟩
instance : Sub Binary64 := ⟨Numerics.sub⟩
instance : Mul Binary64 := ⟨Numerics.mul⟩
instance : Div Binary64 := ⟨Numerics.div⟩

/-- Equal to zero, so of either sign. -/
def Numerics.isZero (x : Binary64) : Bool := Numerics.eq x 0

/-- The square is the second power. -/
def Numerics.square (x : Binary64) : Binary64 := Numerics.pow x 2

/-- The sum from the left, starting at `-0`, which alone leaves every first summand as it is. -/
def Numerics.sum (xs : List Binary64) : Binary64 := xs.foldl (· + ·) (Binary64.zero true)

end

/-- In the library's numerics the comparison with zero looks at the count of quanta. -/
@[simp] theorem Numerics.isZero_rounded (x : Binary64) : Numerics.isZero x = x.isZero :=
  Binary64.eq_zero_eq_isZero x

end Metrology
