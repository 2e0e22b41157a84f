/-
Angles stay finite.

Fixed-point values of the trigonometric functions are a few thousand units at most, for every
argument: no summand of a series is larger than the one before, the number of summands is fixed, and
the argument of a series is at most one. The finite numbers go far beyond that, so that rounding a
value never leaves them.
-/
import Metrology.Proofs.Nearest
import Mathlib.Algebra.Order.Ring.Int
import Mathlib.Algebra.Order.Group.Int
set_option autoImplicit false

namespace Metrology

namespace FixedPoint

/-! ## 1. Series

The functions are computed with integers that stand for fractions of a unit. Each bound below is one
on the integer, in units. -/

theorem unit_pos : (0 : ℤ) < unit := Nat.cast_pos.2 (Nat.two_pow_pos scaleBits)

/-- A quotient of integers is within the bound that the dividend keeps times the divisor. -/
theorem abs_ediv_le {a b c : ℤ} (hb : 0 < b) (h : |a| ≤ c * b) : |a / b| ≤ c := by
  obtain ⟨hlow, hhigh⟩ := abs_le.1 h
  rw [abs_le]
  constructor
  · rw [Int.le_ediv_iff_mul_le hb, neg_mul]
    exact hlow
  · exact Int.ediv_le_of_le_mul hb hhigh

/-- A product of fixed-point numbers is that of the integers over a unit. -/
theorem mul_eq (x y : ℤ) : mul x y = x * y / unit := Int.shiftRight_eq_div_pow _ _

/-- A product with a number from zero to one is no larger. -/
theorem abs_mul_le {x y : ℤ} (hy : 0 ≤ y) (hunit : y ≤ unit) : |mul x y| ≤ |x| := by
  rw [mul_eq]
  refine abs_ediv_le unit_pos ?_
  rw [abs_mul, abs_of_nonneg hy]
  exact mul_le_mul_of_nonneg_left hunit (abs_nonneg x)

/-- The square of a number of at most a unit is between zero and a unit. -/
theorem mul_self_bounds {x : ℤ} (h : |x| ≤ unit) : 0 ≤ mul x x ∧ mul x x ≤ unit := by
  rw [mul_eq]
  refine ⟨Int.ediv_nonneg (mul_self_nonneg x) unit_pos.le, Int.ediv_le_of_le_mul unit_pos ?_⟩
  rw [← abs_mul_abs_self x]
  exact mul_le_mul h h (abs_nonneg x) unit_pos.le

/-- One more summand, where the next one is no larger. -/
theorem abs_add_le_of_next {total term next : ℤ} (steps : Nat) (hnext : |next| ≤ |term|) :
    |total + term| + steps * |next| ≤ |total| + (steps + 1 : Nat) * |term| := by
  calc |total + term| + steps * |next| ≤ |total| + |term| + steps * |term| :=
        add_le_add (abs_add_le total term)
          (mul_le_mul_of_nonneg_left hnext (Int.natCast_nonneg steps))
    _ = |total| + (steps + 1 : Nat) * |term| := by
        push_cast
        ring

/-- A power series stays within what it begins with and its number of steps times the first
summand. -/
theorem abs_powerSeries_le (steps : Nat) {square term total i : ℤ} (hsquare : 0 ≤ square)
    (hunit : square ≤ unit) :
    |powerSeries steps square term i total| ≤ |total| + steps * |term| := by
  induction steps generalizing term total i with
  | zero => simp [powerSeries]
  | succ steps ih =>
    -- the next summand has one more square for a factor and a larger divisor
    have hnext : |-(mul term square) / ((i + 1) * (i + 2))| ≤ |term| := by
      refine (Int.abs_ediv_le_abs _ _).trans ?_
      rw [abs_neg]
      exact abs_mul_le hsquare hunit
    exact ih.trans (abs_add_le_of_next steps hnext)

/-- The series of the arctangent stays within what it begins with and its number of steps times the
first summand. -/
theorem abs_arctanLoop_le (steps : Nat) {ratio term total i : ℤ} (hratio : 0 ≤ ratio)
    (hunit : ratio ≤ unit) (hi : 0 ≤ i) :
    |arctanLoop steps ratio term i total| ≤ |total| + steps * |term| := by
  induction steps generalizing term total i with
  | zero => simp [arctanLoop]
  | succ steps ih =>
    -- the factor from summand to summand is a ratio below one, and `i / (i + 1)`
    have hnext : |mul term ratio * i / (i + 1)| ≤ |term| := by
      refine abs_ediv_le (by omega) ?_
      rw [abs_mul, abs_of_nonneg hi]
      exact mul_le_mul (abs_mul_le hratio hunit) (by omega) hi (abs_nonneg term)
    exact (ih (by omega)).trans (abs_add_le_of_next steps hnext)

/-- A quarter turn lies between one and two. -/
theorem quarterTurn_bounds : (unit : ℤ) ≤ quarterTurn ∧ quarterTurn ≤ 2 * unit := by
  decide +kernel

/-- The sine of an angle of at most a unit is within the steps of its series. -/
theorem abs_sineNearZero_le {x : ℤ} (h : |x| ≤ unit) :
    |sineNearZero x| ≤ powerSeriesSteps * unit := by
  obtain ⟨hsquare, hunit⟩ := mul_self_bounds h
  calc |sineNearZero x| ≤ |(0 : ℤ)| + powerSeriesSteps * |x| := abs_powerSeries_le _ hsquare hunit
    _ ≤ powerSeriesSteps * unit := by
        rw [abs_zero, zero_add]
        exact mul_le_mul_of_nonneg_left h (Int.natCast_nonneg _)

/-- The cosine of an angle of at most a unit is within the steps of its series. -/
theorem abs_cosineNearZero_le {x : ℤ} (h : |x| ≤ unit) :
    |cosineNearZero x| ≤ powerSeriesSteps * unit := by
  obtain ⟨hsquare, hunit⟩ := mul_self_bounds h
  calc |cosineNearZero x| ≤ |(0 : ℤ)| + powerSeriesSteps * |(unit : ℤ)| :=
        abs_powerSeries_le _ hsquare hunit
    _ = powerSeriesSteps * unit := by rw [abs_zero, zero_add, abs_of_pos unit_pos]

/-- What is left of an angle is half a quarter turn at most. -/
theorem abs_sineAhead_le (x turns : ℤ) : |sineAhead x turns| ≤ powerSeriesSteps * unit := by
  obtain ⟨hlow, hhigh⟩ := quarterTurn_bounds
  have hpos : 0 < 2 * quarterTurn := by
    have := unit_pos
    omega
  have hrest : |x - (2 * x + quarterTurn) / (2 * quarterTurn) * quarterTurn| ≤ unit := by
    have hdiv := Int.mul_ediv_add_emod (2 * x + quarterTurn) (2 * quarterTurn)
    have hnonneg := Int.emod_nonneg (2 * x + quarterTurn) hpos.ne'
    have hlt := Int.emod_lt_of_pos (2 * x + quarterTurn) hpos
    -- twice the rest is the remainder of this division less a quarter turn
    generalize (2 * x + quarterTurn) / (2 * quarterTurn) = count at *
    rw [mul_assoc, mul_comm quarterTurn] at hdiv
    rw [abs_le]
    constructor <;> omega
  unfold sineAhead
  dsimp only
  split
  · exact abs_sineNearZero_le hrest
  · exact abs_cosineNearZero_le hrest
  · rw [abs_neg]
    exact abs_sineNearZero_le hrest
  · rw [abs_neg]
    exact abs_cosineNearZero_le hrest

/-- The arctangent of a number of at most a unit is within the steps of its series. -/
theorem abs_arctanToUnit_le {x : ℤ} (h : 0 ≤ x) (hunit : x ≤ unit) :
    |arctanToUnit x| ≤ scaleBits * unit := by
  obtain ⟨hsquare, -⟩ := mul_self_bounds ((abs_of_nonneg h).trans_le hunit)
  have hpos : 0 < unit + mul x x := add_pos_of_pos_of_nonneg unit_pos hsquare
  have hwider : (unit : ℤ) ≤ unit + mul x x := le_add_of_nonneg_right hsquare
  have hratio : 0 ≤ mul x x * unit / (unit + mul x x) ∧
      mul x x * unit / (unit + mul x x) ≤ unit := by
    refine ⟨Int.ediv_nonneg (mul_nonneg hsquare unit_pos.le) hpos.le, ?_⟩
    refine Int.ediv_le_of_le_mul hpos ?_
    rw [mul_comm]
    exact mul_le_mul_of_nonneg_left (le_add_of_nonneg_left unit_pos.le) unit_pos.le
  have hterm : |x * unit / (unit + mul x x)| ≤ x := by
    refine abs_ediv_le hpos ?_
    rw [abs_of_nonneg (mul_nonneg h unit_pos.le)]
    exact mul_le_mul_of_nonneg_left hwider h
  calc |arctanToUnit x|
      ≤ |(0 : ℤ)| + scaleBits * |x * unit / (unit + mul x x)| :=
        abs_arctanLoop_le _ hratio.1 hratio.2 (by decide)
    _ ≤ scaleBits * unit := by
        rw [abs_zero, zero_add]
        exact mul_le_mul_of_nonneg_left (hterm.trans hunit) (Int.natCast_nonneg _)

/-- The arctangent of any number is within those and a quarter turn. -/
theorem abs_arctan_le (x : Nat) : |arctan x| ≤ (scaleBits + 2) * unit := by
  unfold arctan
  split
  · have hle := abs_arctanToUnit_le (Int.natCast_nonneg x) (Int.ofNat_le.2 ‹_›)
    exact hle.trans (mul_le_mul_of_nonneg_right (by decide) unit_pos.le)
  · have hturn : |quarterTurn| ≤ 2 * unit := by
      rw [abs_of_nonneg (unit_pos.le.trans quarterTurn_bounds.1)]
      exact quarterTurn_bounds.2
    -- beyond a unit it is taken of the reciprocal, which is at most a unit
    have hreciprocal : unit * unit / x ≤ unit :=
      Nat.div_le_of_le_mul (Nat.mul_le_mul_right _ (Nat.le_of_not_le ‹_›))
    have hle := abs_arctanToUnit_le (Int.natCast_nonneg _) (Int.ofNat_le.2 hreciprocal)
    calc |quarterTurn - arctanToUnit (unit * unit / x : Nat)|
        ≤ |quarterTurn| + |arctanToUnit (unit * unit / x : Nat)| := abs_sub _ _
      _ ≤ 2 * unit + scaleBits * unit := add_le_add hturn hle
      _ = (scaleBits + 2) * unit := by ring

/-- The arcsine in its domain is twice an arctangent of at most a unit. -/
theorem abs_arcsin_le {x : Nat} (h : x ≤ unit) : |arcsin x| ≤ 2 * scaleBits * unit := by
  have hhalf : ∀ root : Nat, x * unit / (unit + root) ≤ unit := fun root =>
    (Nat.div_le_of_le_mul (by
      rw [Nat.mul_comm]
      exact Nat.mul_le_mul_right _ (Nat.le_add_right _ _))).trans h
  unfold arcsin
  rw [abs_mul, abs_two, mul_assoc]
  exact mul_le_mul_of_nonneg_left
    (abs_arctanToUnit_le (Int.natCast_nonneg _) (Int.ofNat_le.2 (hhalf _))) (by decide)

/-- Units that no fixed-point value of an angle or a function of one gets beyond. -/
def reach : Nat := 4096

end FixedPoint

namespace Binary64

variable {x : Binary64}

/-- The fixed-point unit is that of the format with some bits more. -/
theorem unit_eq : FixedPoint.unit = perUnit * 2 ^ guardBits := by
  have hbits : FixedPoint.scaleBits = quantumExponent + guardBits := rfl
  rw [FixedPoint.unit, hbits, Nat.pow_add, perUnit]

/-- The fixed-point values are far below the end of the range. -/
theorem reach_lt_roundingLimit : FixedPoint.reach * perUnit < roundingLimit := by
  have hreach : FixedPoint.reach = 2 ^ 12 := rfl
  have hexponent : 12 + quantumExponent < halfStepExponent := by decide
  rw [roundingLimit_eq, hreach, perUnit, ← Nat.pow_add]
  calc 2 ^ (12 + quantumExponent) < 2 ^ halfStepExponent :=
        Nat.pow_lt_pow_right (by decide) hexponent
    _ ≤ (2 ^ (precision + 1) - 1) * 2 ^ halfStepExponent :=
        Nat.le_mul_of_pos_left _ (by decide)

/-- The finite numbers go far beyond the fixed-point values. -/
theorem isFinite_ofFixed (flip : Bool) {v : ℤ} (h : |v| ≤ FixedPoint.reach * FixedPoint.unit) :
    (ofFixed flip v).isFinite = true := by
  have hpow := Nat.two_pow_pos guardBits
  rw [ofFixed, isFinite_ofRatio_iff hpow]
  have hnat : v.natAbs ≤ FixedPoint.reach * FixedPoint.unit := by
    rw [Int.abs_eq_natAbs] at h
    exact_mod_cast h
  calc v.natAbs ≤ FixedPoint.reach * perUnit * 2 ^ guardBits := by
        rwa [Nat.mul_assoc, ← unit_eq]
    _ < roundingLimit * 2 ^ guardBits := Nat.mul_lt_mul_of_pos_right reach_lt_roundingLimit hpow

theorem isFinite_ofFixed_of_units (flip : Bool) {v units : ℤ} (h : |v| ≤ units * FixedPoint.unit)
    (hreach : units ≤ FixedPoint.reach) : (ofFixed flip v).isFinite = true :=
  isFinite_ofFixed flip (h.trans (mul_le_mul_of_nonneg_right hreach FixedPoint.unit_pos.le))

/-- A sine is finite. -/
theorem isFinite_sin (hx : x.isFinite = true) : (sin x).isFinite = true := by
  obtain ⟨s, n, h, rfl⟩ := exists_finite hx
  rw [sin]
  split
  · rfl
  · exact isFinite_ofFixed_of_units s (FixedPoint.abs_sineAhead_le _ 0) (by decide)

theorem isFinite_cos (hx : x.isFinite = true) : (cos x).isFinite = true := by
  obtain ⟨s, n, h, rfl⟩ := exists_finite hx
  exact isFinite_ofFixed_of_units false (FixedPoint.abs_sineAhead_le _ 1) (by decide)

/-- An arctangent is finite. -/
theorem isFinite_arctan (hx : x.isFinite = true) : (arctan x).isFinite = true := by
  obtain ⟨s, n, h, rfl⟩ := exists_finite hx
  rw [arctan]
  split
  · rfl
  · exact isFinite_ofFixed_of_units s (FixedPoint.abs_arctan_le _) (by decide)

/-- The arcsine is finite where it is defined. -/
theorem isFinite_arcsin (hx : x.isFinite = true) (hdomain : x.quanta ≤ perUnit) :
    (arcsin x).isFinite = true := by
  obtain ⟨s, n, h, rfl⟩ := exists_finite hx
  have hdomain : n ≤ perUnit := hdomain
  have hunit : toFixed n ≤ FixedPoint.unit := by
    rw [toFixed, unit_eq]
    exact Nat.mul_le_mul_right _ hdomain
  rw [arcsin, if_neg (Nat.not_lt.2 hdomain)]
  split
  · rfl
  · exact isFinite_ofFixed_of_units s (FixedPoint.abs_arcsin_le hunit) (by decide)

end Binary64

end Metrology
