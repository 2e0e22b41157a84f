/-
The error of one rounding.

Without its sign a product or a quotient is the number nearest to the exact one. From the least
normal number on that is off by one part in `2 ^ 53` at most; below it the grid gets no finer, and
the bound is half a quantum whatever the number is. That half is also what decides about zero: a
number is rounded to zero just if it is not above half a quantum.
-/
import Metrology.Proofs.Display.Rounding
import Mathlib.Tactic.NormNum
set_option autoImplicit false

namespace Metrology

namespace Binary64

variable {x y : Binary64} {q : ℚ}

/-! ## 1. Sizes

Signs are looked at elsewhere; here numbers are compared by their sizes. -/

/-- Dropping the sign makes no zero and loses none. -/
theorem isZero_abs (x : Binary64) : x.abs.isZero = x.isZero := by
  cases x <;> rfl

/-- A number without a negative sign is not below zero. -/
theorem value_nonneg_of_not_negative (hx : x.isNegative = false) : 0 ≤ x.value := by
  rw [value_of_not_negative hx]
  exact div_nonneg (Nat.cast_nonneg _) perUnit_cast_pos.le

theorem quanta_abs (x : Binary64) : x.abs.quanta = x.quanta := by
  cases x <;> rfl

theorem value_abs (x : Binary64) : x.abs.value = |x.value| := by
  rw [value_of_not_negative (isNegative_abs x), abs_value, quanta_abs]

theorem isFinite_of_isZero (h : x.isZero = true) : x.isFinite = true := by
  obtain ⟨s, rfl⟩ := isZero_iff.1 h
  rfl

/-- A number without a negative sign is its own size. -/
theorem abs_of_not_negative (h : x.isNegative = false) : x.abs = x := by
  cases x with
  | finite s n hn =>
    obtain rfl : s = false := h
    rfl
  | infinite s =>
    obtain rfl : s = false := h
    rfl
  | nan => rfl

/-- The sign plays no part in rounding. -/
theorem abs_ofRatio (s : Bool) (num den : Nat) :
    (ofRatio s num den).abs = ofRatio false num den := by
  unfold ofRatio
  split <;> rfl

/-- A product without its sign is the rounding of the exact one. -/
theorem abs_mul_eq_nearestTo (hx : x.isFinite = true) (hy : y.isFinite = true) :
    (mul x y).abs = nearestTo |x.value * y.value| := by
  rw [abs_mul, abs_value, abs_value]
  obtain ⟨s, m, hm, rfl⟩ := exists_finite hx
  obtain ⟨t, n, hn, rfl⟩ := exists_finite hy
  rw [mul, abs_ofRatio, quanta, quanta, div_mul_div_comm, ← Nat.cast_mul, nearestTo_div perUnit_pos]

/-- And so is a quotient. -/
theorem abs_div_eq_nearestTo (hx : x.isFinite = true) (hy : y.isFinite = true)
    (hzero : y.isZero = false) : (div x y).abs = nearestTo |x.value / y.value| := by
  rw [abs_div, abs_value, abs_value]
  obtain ⟨s, m, hm, rfl⟩ := exists_finite hx
  obtain ⟨t, n, hn, rfl⟩ := exists_finite hy
  have hn : n ≠ 0 := ne_of_beq_false hzero
  have hunit := perUnit_cast_pos
  have hexact : (m / perUnit : ℚ) / (n / perUnit) = (m * perUnit : Nat) / (n * perUnit) := by
    rw [Nat.cast_mul, div_div_div_cancel_right₀ hunit.ne', mul_div_mul_right _ _ hunit.ne']
  rw [div, if_neg hn, abs_ofRatio, quanta, quanta, hexact, nearestTo_div (Nat.pos_of_ne_zero hn)]

/-! ## 2. Half a quantum

The least positive number is one quantum. Below it lies half of one, which is as near to zero as to
the quantum and goes to zero by the rule for halves. -/

/-- Half of the least positive number. -/
def halfQuantum : ℚ := 1 / 2 ^ (quantumExponent + 1)

theorem halfQuantum_pos : 0 < halfQuantum := by
  unfold halfQuantum
  positivity

theorem two_mul_halfQuantum : 2 * halfQuantum = 1 / perUnit := by
  rw [halfQuantum, perUnit, cast_natPow, pow_succ, Nat.cast_ofNat]
  field_simp

/-- What is rounded to zero is half a quantum at most, and half goes to zero, which is even. -/
theorem isZero_ofRatio_iff {s : Bool} {num den : Nat} (hden : 0 < den) :
    (ofRatio s num den).isZero = true ↔ 2 * num ≤ den := by
  constructor
  · intro hzero
    have hcount : roundedQuanta num den = 0 := by
      rw [ofRatio] at hzero
      split at hzero
      · exact beq_iff_eq.1 hzero
      · cases hzero
    have hlow : num < den := by
      by_contra hle
      have hquantum : Representable 1 :=
        representable_mul_two_pow 1 0 (by decide) (Nat.one_lt_two_pow (by decide))
      have hone : 1 ≤ roundedQuanta num den :=
        le_roundedQuanta hden hquantum (by rw [Nat.one_mul]; exact Nat.le_of_not_lt hle)
      omega
    -- below one quantum the grid is that of single quanta
    have hhalf :
        2 * distance (roundedQuanta num den * den) num ≤ den * 2 ^ gridExponent (num / den) :=
      two_mul_distance_roundedQuanta_le hden
    have hgrid : 2 ^ gridExponent (num / den) = 1 := by
      rw [Nat.div_eq_of_lt hlow]
      rfl
    rw [hcount, hgrid, distance] at hhalf
    omega
  · intro hle
    have hcount : roundedQuanta num den = 0 := by
      have hdiv : num / den = 0 := Nat.div_eq_of_lt (by omega)
      have hmod : num % den = num := Nat.mod_eq_of_lt (by omega)
      have hgrid : den * 2 ^ gridExponent 0 = den := Nat.mul_one den
      -- a half of one quantum goes to zero as well, by the tie
      rw [roundedQuanta, hdiv, hgrid, nearestEven, hdiv, hmod,
        if_neg (by omega : ¬ den < 2 * num), Nat.zero_mod, ite_self, Nat.zero_mul]
    rw [ofRatio, dif_pos (hcount.symm ▸ overflow_pos)]
    exact beq_iff_eq.2 hcount

/-- A rational number is rounded to zero just if it is not above half a quantum. -/
theorem isZero_nearestTo_iff (hq : 0 ≤ q) : (nearestTo q).isZero = true ↔ q ≤ halfQuantum := by
  have hunit := perUnit_cast_pos
  have hden : (0 : ℚ) < q.den := Nat.cast_pos.2 q.den_pos
  have hhalf : halfQuantum = 1 / (perUnit * 2) := by
    rw [← div_div, ← two_mul_halfQuantum, mul_div_cancel_left₀ _ two_ne_zero]
  -- the number over its denominator, with the unit brought to the other side
  have hexact := div_perUnit_eq hq
  rw [nearestTo, isZero_ofRatio_iff q.den_pos]
  generalize q.num.toNat * perUnit = num at *
  generalize q.den = den at *
  rw [← hexact, hhalf, div_le_div_iff₀ (mul_pos hden hunit) (mul_pos hunit two_pos), one_mul,
    Rat.mul_comm perUnit, ← mul_assoc, mul_le_mul_iff_left₀ hunit, Rat.mul_comm num]
  exact_mod_cast Iff.rfl

/-- A finite number other than zero is at least a quantum in size. -/
theorem two_mul_halfQuantum_le (hx : x.isFinite = true) (hzero : x.isZero = false) :
    2 * halfQuantum ≤ |x.value| := by
  have hpos : 1 ≤ x.quanta := Nat.pos_of_ne_zero (quanta_ne_zero hx hzero)
  rw [two_mul_halfQuantum, abs_value, div_le_div_iff_of_pos_right perUnit_cast_pos]
  exact_mod_cast hpos

theorem abs_value_pos (hx : x.isFinite = true) (hzero : x.isZero = false) : 0 < |x.value| :=
  (mul_pos two_pos halfQuantum_pos).trans_le (two_mul_halfQuantum_le hx hzero)

/-! ## 3. The error

From the least normal number on the grid is as fine as the number is small, which gives a bound in
proportion; below it the grid stays the same, which gives a fixed one. -/

/-- The least number with all its bits. -/
def leastNormal : ℚ := 2 ^ precision * halfQuantum

theorem leastNormal_pos : 0 < leastNormal := mul_pos (by positivity) halfQuantum_pos

/-- Half a quantum is far below the normal numbers. -/
theorem halfQuantum_lt_leastNormal : halfQuantum < leastNormal :=
  lt_mul_of_one_lt_left halfQuantum_pos (one_lt_pow₀ one_lt_two (by decide))

/-- Half a quantum or one part in `2 ^ 53`. -/
theorem abs_value_sub_le (hq : 0 ≤ q) (hx : x.isFinite = true) (h : nearestTo q = x) :
    |x.value - q| ≤ max halfQuantum (q / 2 ^ precision) := by
  have hnear := two_mul_abs_value_sub_le hq hx h
  have hstep : q / 2 ^ (precision - 1) = 2 * (q / 2 ^ precision) := by
    norm_num [precision]
    ring
  rw [← two_mul_halfQuantum, hstep, ← mul_max_of_nonneg _ _ zero_le_two] at hnear
  linarith

/-- From the least normal number on the error is at most one part in `2 ^ 53`. -/
theorem abs_value_sub_le_of_normal (hq : leastNormal ≤ q) (hx : x.isFinite = true)
    (h : nearestTo q = x) : |x.value - q| ≤ q / 2 ^ precision := by
  have hpart : halfQuantum ≤ q / 2 ^ precision := by
    rw [le_div_iff₀' (by positivity)]
    exact hq
  have hle := abs_value_sub_le (leastNormal_pos.le.trans hq) hx h
  rwa [max_eq_right hpart] at hle

/-- What is rounded to twice the least normal number, or more, is a normal number itself. -/
theorem leastNormal_le (hq : 0 ≤ q) (hx : x.isFinite = true) (h : nearestTo q = x)
    (hlarge : 2 * leastNormal ≤ x.value) : leastNormal ≤ q := by
  by_contra hsmall
  -- on the finest grid rounding moves by half a quantum, which does not reach that far
  have hpart : q / 2 ^ precision ≤ halfQuantum := by
    rw [div_le_iff₀' (by positivity)]
    exact (not_le.1 hsmall).le
  have hle := (abs_le.1 (abs_value_sub_le hq hx h)).2
  rw [max_eq_left hpart] at hle
  linarith [halfQuantum_lt_leastNormal]

/-- Squares are off by three times as much at most. -/
theorem abs_sq_sub_le {r : ℚ} (hq : 0 ≤ q) (h : |r - q| ≤ q / 2 ^ precision) :
    |r ^ 2 - q ^ 2| ≤ 3 * q ^ 2 / 2 ^ precision := by
  have hpart : q / 2 ^ precision ≤ q := div_le_self hq (one_le_pow₀ one_le_two)
  have hsum : |r + q| ≤ 3 * q := by
    obtain ⟨hlow, hhigh⟩ := abs_le.1 h
    rw [abs_le]
    constructor <;> linarith
  calc |r ^ 2 - q ^ 2| = |r - q| * |r + q| := by rw [← abs_mul, sq_sub_sq, Rat.mul_comm]
    _ ≤ q / 2 ^ precision * (3 * q) :=
      mul_le_mul h hsum (abs_nonneg _) (div_nonneg hq (by positivity))
    _ = 3 * q ^ 2 / 2 ^ precision := by ring

/-! ## 4. The end of the range

The bound is compared with the powers of two next to it. That is enough to see that what is of
middling size, and the square of it, is in range. -/

/-- A finite number is at least one below the place where rounding goes to infinity. -/
theorem abs_value_add_one_le (x : Binary64) : |x.value| + 1 ≤ roundingBound := by
  have hunit := perUnit_cast_pos
  have hstep : perUnit ≤ 2 ^ halfStepExponent := Nat.pow_le_pow_right (by decide) (by decide)
  have hquanta := (representable_quanta x).add_halfStep_le
  have hsum : (x.quanta : ℚ) + perUnit ≤ roundingLimit := by
    exact_mod_cast (Nat.add_le_add_left hstep _).trans hquanta
  rw [abs_value, ← mul_le_mul_iff_left₀ hunit, roundingBound_mul, add_mul, one_mul,
    div_mul_cancel₀ _ hunit.ne']
  exact hsum

/-- The bound is just under `2 ^ 1024`, by half of the last step below it. -/
theorem roundingBound_eq : roundingBound = 2 ^ (rangeExponent - 1) * (2 - 1 / 2 ^ precision) := by
  have hhalf : (2 : ℚ) ^ rangeExponent = 2 ^ (rangeExponent - 1) * 2 := by
    rw [← pow_succ]
    rfl
  have hstep :
      (2 : ℚ) ^ (rangeExponent - 1) = 2 ^ (rangeExponent - precision - 1) * 2 ^ precision := by
    rw [← pow_add]
    rfl
  rw [roundingBound, hhalf, mul_sub, mul_one_div, hstep, mul_div_cancel_right₀ _ (by positivity)]

/-- One and two are in range. -/
theorem two_le_roundingBound : 2 ≤ roundingBound := by
  have hone := abs_value_add_one_le one
  rw [value_one, abs_one] at hone
  linarith

theorem halfQuantum_lt_roundingBound : halfQuantum < roundingBound := by
  have hone : halfQuantum ≤ 1 := div_le_self zero_le_one (one_le_pow₀ one_le_two)
  linarith [two_le_roundingBound]

/-- The lower half of the range and half of that again are in range. -/
theorem three_halves_lt_roundingBound : 3 / 2 * 2 ^ (rangeExponent - 1) < roundingBound := by
  have hpos : (0 : ℚ) < 2 ^ (rangeExponent - 1) := by positivity
  rw [roundingBound_eq, Rat.mul_comm]
  apply mul_lt_mul_of_pos_left _ hpos
  norm_num [precision]

/-- The least normal number is a square, that of `2 ^ -511`. -/
theorem leastNormal_eq : leastNormal = (1 / 2 ^ 511) ^ 2 := by
  have hexponent : quantumExponent + 1 = precision + 511 * 2 := rfl
  rw [leastNormal, halfQuantum, hexponent, pow_add, pow_mul, div_pow, one_pow, mul_one_div,
    div_mul_cancel_left₀ (by positivity), one_div]

/-- The square of `2 ^ 511` is in range. -/
theorem sq_lt_roundingBound : (2 ^ 511) ^ 2 < roundingBound := by
  have hhalf : ((2 : ℚ) ^ 511) ^ 2 ≤ 2 ^ (rangeExponent - 1) := by
    rw [← pow_mul]
    exact pow_le_pow_right₀ one_le_two (by decide)
  have hmore : (2 : ℚ) ^ (rangeExponent - 1) ≤ 3 / 2 * 2 ^ (rangeExponent - 1) :=
    le_mul_of_one_le_left (by positivity) (by norm_num)
  exact hhalf.trans_lt (hmore.trans_lt three_halves_lt_roundingBound)

/-! ## 5. Products and squares

A product with a fixed factor, and a product of a number with itself, for all other factors there
are. Both are needed where relative uncertainties are squared, and there infinities and NaN occur.
-/

/-- A product with a finite number other than zero is finite just if the other factor and the exact
product are in range. -/
theorem isFinite_nonzero_mul_iff (hx : x.isFinite = true) (hzero : x.isZero = false) :
    (mul x y).isFinite = true ↔ y.isFinite = true ∧ |x.value * y.value| < roundingBound := by
  obtain ⟨s, n, h, rfl⟩ := exists_finite hx
  cases y with
  | nan => simp [mul, isFinite]
  | infinite t => simp [mul, isFinite, ne_of_beq_false hzero]
  | finite t k hk => rw [isFinite_mul_iff rfl rfl, isFinite, and_iff_right rfl]

/-- And it is zero just if the exact product is rounded to zero; a factor of infinity does not meet
a zero here. -/
theorem isZero_nonzero_mul_iff (hx : x.isFinite = true) (hzero : x.isZero = false) :
    (mul x y).isZero = true ↔ y.isFinite = true ∧ |x.value * y.value| ≤ halfQuantum := by
  obtain ⟨s, n, h, rfl⟩ := exists_finite hx
  cases y with
  | nan => simp [mul, isFinite, isZero]
  | infinite t => simp [mul, isFinite, isZero, ne_of_beq_false hzero]
  | finite t k hk =>
    rw [← isZero_abs, abs_mul_eq_nearestTo rfl rfl, isZero_nearestTo_iff (abs_nonneg _), isFinite,
      and_iff_right rfl]

/-- Rounding never gives NaN. -/
theorem ofRatio_ne_nan {s : Bool} {num den : Nat} : ofRatio s num den ≠ nan := by
  intro h
  rw [ofRatio] at h
  split at h
  · cases h
  · cases h

/-- A quotient of finite numbers is NaN for a zero divisor only. -/
theorem div_ne_nan (hx : x.isFinite = true) (hy : y.isFinite = true) (hzero : y.isZero = false) :
    div x y ≠ nan := by
  obtain ⟨s, n, h, rfl⟩ := exists_finite hx
  obtain ⟨t, k, hk, rfl⟩ := exists_finite hy
  rw [div, if_neg (ne_of_beq_false hzero)]
  exact ofRatio_ne_nan

/-- A product with a finite number other than zero is NaN only if the other factor is. -/
theorem mul_ne_nan (hx : x.isFinite = true) (hzero : x.isZero = false) (hy : y ≠ nan) :
    mul x y ≠ nan := by
  obtain ⟨s, n, h, rfl⟩ := exists_finite hx
  cases y with
  | nan => exact absurd rfl hy
  | infinite t => simp [mul, ne_of_beq_false hzero]
  | finite t k hk => exact ofRatio_ne_nan

theorem isNegative_mul_self (x : Binary64) : (mul x x).isNegative = false := isNegative_mul rfl

/-- A square is the rounding of the exact one. -/
theorem mul_self_eq_nearestTo (hx : x.isFinite = true) : mul x x = nearestTo (x.value ^ 2) := by
  have hsquare := abs_mul_eq_nearestTo hx hx
  rwa [abs_of_not_negative (isNegative_mul_self x), abs_mul_self, ← sq] at hsquare

/-- A square is finite just if the number and the exact square are in range. -/
theorem isFinite_mul_self_iff (x : Binary64) :
    (mul x x).isFinite = true ↔ x.isFinite = true ∧ x.value ^ 2 < roundingBound := by
  cases x with
  | nan => simp [mul, isFinite]
  | infinite s => simp [mul, isFinite]
  | finite s n h =>
    rw [mul_self_eq_nearestTo rfl, isFinite_nearestTo_iff (sq_nonneg _), isFinite,
      and_iff_right rfl]

/-- A square is zero just if the exact one is not above half a quantum. -/
theorem isZero_mul_self_iff (x : Binary64) :
    (mul x x).isZero = true ↔ x.isFinite = true ∧ x.value ^ 2 ≤ halfQuantum := by
  cases x with
  | nan => simp [mul, isFinite, isZero]
  | infinite s => simp [mul, isFinite, isZero]
  | finite s n h =>
    rw [mul_self_eq_nearestTo rfl, isZero_nearestTo_iff (sq_nonneg _), isFinite, and_iff_right rfl]

/-- Only the square of NaN is NaN. -/
theorem mul_self_ne_nan (hx : x ≠ nan) : mul x x ≠ nan := by
  cases x with
  | nan => exact hx
  | infinite s => simp [mul]
  | finite s n h => exact ofRatio_ne_nan

end Binary64

end Metrology
