/-
Operands that change places.

Whether sums and products of measured values are the same from either side is a question about where
the arguments of the channel rules go, not about what is computed with them. If numbers can be added
and multiplied in either order, so can measured values, down to the last bit of both channels: the
rule of sums is symmetric, and in that of products the two relative uncertainties are taken apart,
each with its own test for a magnitude of zero, before they are combined. So nothing has to be said
of zeros, infinities or NaN. A difference turns its magnitude with its operands and nothing else.
-/
import Metrology.Measurement.Basic
set_option autoImplicit false

namespace Metrology

/-! ## 1. Channel rules -/

/-- Sums and products of numbers can be taken in either order. -/
structure Numerics.Commutative [Numerics] : Prop where
  add_comm : ∀ x y : Binary64, x + y = y + x
  mul_comm : ∀ x y : Binary64, x * y = y * x

/-- Exact sums and products are the same from either side, and each is rounded once. -/
theorem Numerics.commutative_rounded : Numerics.Commutative where
  add_comm := Binary64.add_comm
  mul_comm := Binary64.mul_comm

namespace Measurement

/-- The two channels are the same, whatever the magnitudes are. -/
structure SameUncertainty (m n : Measurement) : Prop where
  reading : m.readingError = n.readingError
  standard : m.standardError = n.standardError

variable [Numerics]

/-- The relative uncertainties of two factors are combined to the same, whichever comes first. -/
theorem relativeRule_comm (h : Numerics.Commutative) (result x y e f : Binary64) :
    relativeRule result x y e f = relativeRule result y x f e := by
  rw [relativeRule, quadrature_comm h.add_comm, relativeRule]

/-! ## 2. Sums, differences and products -/

/-- Sums can be taken in either order, channel by channel. -/
theorem add_comm_of (h : Numerics.Commutative) (m n : Measurement) : m + n = n + m := by
  show m.add n = n.add m
  rw [add, add, perChannels, perChannels, h.add_comm m.magnitude,
    quadrature_comm h.add_comm m.readingError, quadrature_comm h.add_comm m.standardError]

/-- Products can be taken in either order, each factor with its own relative uncertainty. -/
theorem mul_comm_of (h : Numerics.Commutative) (m n : Measurement) : m * n = n * m := by
  show m.mul n = n.mul m
  -- the product as the result, and then each relative uncertainty on its own side
  rw [mul, mul, perChannels, perChannels, h.mul_comm m.magnitude,
    relativeRule_comm h _ m.magnitude, relativeRule_comm h _ m.magnitude]

/-- A difference is as uncertain as the sum. -/
theorem sameUncertainty_sub_add (m n : Measurement) : (m - n).SameUncertainty (m + n) := ⟨rfl, rfl⟩

/-- Sums and products of measured values are the same from either side, a difference is as uncertain
as the sum whichever way it is taken, and a bare number on either side stands for an exact value.
Nothing is asked of the numerics but that numbers can be added and multiplied in either order. -/
theorem operands_change_places (h : Numerics.Commutative) (m n : Measurement) (x : Binary64) :
    m + n = n + m ∧ m * n = n * m ∧
      (m - n).SameUncertainty (m + n) ∧ (n - m).SameUncertainty (m + n) ∧
      (m + x = m + exact x ∧ m - x = m - exact x ∧ m * x = m * exact x) ∧
      (x + m = exact x + m ∧ x - m = exact x - m ∧ x * m = exact x * m) ∧
      x + m = m + x ∧ x * m = m * x ∧ (x - m).SameUncertainty (m + x) := by
  have hturned : ∀ a b : Measurement, (b - a).SameUncertainty (a + b) := by
    intro a b
    rw [add_comm_of h a b]
    exact sameUncertainty_sub_add b a
  refine ⟨add_comm_of h m n, mul_comm_of h m n, sameUncertainty_sub_add m n, hturned m n,
    ⟨rfl, rfl, rfl⟩, ⟨rfl, rfl, rfl⟩, add_comm_of h (exact x) m, mul_comm_of h (exact x) m, ?_⟩
  exact hturned m (exact x)

end Measurement

/-- A zero with an infinite uncertainty beside an infinity with a channel below zero: the product is
NaN from either side. -/
theorem Measurement.operands_change_places_around_nan :
    let m : Measurement := ⟨.zero true, .infinite false, .nan⟩
    let n : Measurement := ⟨.infinite true, .ofInt (-1), 0⟩
    Numerics.Commutative ∧ (m * n).magnitude = .nan ∧ m + n = n + m ∧ m * n = n * m ∧
      (n - m).SameUncertainty (m + n) ∧ Binary64.nan * m = m * Binary64.nan := by
  intro m n
  obtain ⟨hadd, hmul, -, hsub, -, -, -, hbare, -⟩ :=
    operands_change_places Numerics.commutative_rounded m n .nan
  exact ⟨Numerics.commutative_rounded, by decide +kernel, hadd, hmul, hsub, hbare⟩

end Metrology
