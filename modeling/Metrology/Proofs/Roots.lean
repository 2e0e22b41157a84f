/-
How near a root is.

The root of a rational number is not rational, so a root is compared with its number through its
square. It is computed from the leading base-four digits of the square, with a half in place of the
rest; what that changes is less than one part in `2 ^ 54` of the square, and the rounding that
follows adds what every rounding does. The root of the least number is normal already, so there is
one bound for all numbers; only zero has a root of zero, and every finite number has a finite one.
-/
import Metrology.Proofs.RoundingError
set_option autoImplicit false

namespace Metrology

namespace Binary64

variable {x : Binary64} {n : Nat}

/-! ## 1. The digits of a root

A root of 56 bits is taken from the leading 111 or 112 bits of the square. Whether anything was cut
off is remembered as half a unit behind the last bit, so that the rounding sees on which side of the
exact root it stands. -/

/-- The digits that a root is computed from are as many as it takes, and not more. -/
theorem sqrt_digits {square : Nat} (h : 4 ^ (sqrtSteps - 1) ≤ square) :
    let j := (square.log2 - (2 * sqrtSteps - 2)) / 2
    4 ^ (sqrtSteps - 1) ≤ square / 4 ^ j ∧ square / 4 ^ j < 4 ^ sqrtSteps := by
  intro j
  have hpow (k : Nat) : 4 ^ k = 2 ^ (2 * k) := (Nat.pow_mul 2 2 k).symm
  have hsquare : square ≠ 0 := by
    rintro rfl
    exact absurd h (Nat.not_le_of_lt (Nat.pow_pos (by decide)))
  rw [hpow] at h
  have hfull := (Nat.le_log2 hsquare).2 h
  -- what stays has 111 or 112 bits, since they are dropped in pairs
  have hlog : 2 * (sqrtSteps - 1) + 2 * j ≤ square.log2 ∧
      square.log2 + 1 ≤ 2 * sqrtSteps + 2 * j := by
    unfold j sqrtSteps at *
    omega
  constructor
  · rw [Nat.le_div_iff_mul_le (Nat.pow_pos (by decide)), hpow, hpow, ← Nat.pow_add]
    exact Nat.le_trans (Nat.pow_le_pow_right (by decide) hlog.1) (Nat.log2_self_le hsquare)
  · rw [Nat.div_lt_iff_lt_mul (Nat.pow_pos (by decide)), hpow, hpow, ← Nat.pow_add]
    exact Nat.lt_of_lt_of_le Nat.lt_log2_self (Nat.pow_le_pow_right (by decide) hlog.2)

/-- A root of as many digits, and a half for what is cut off, give the square up to one part in
`2 ^ 54`. Here `unit` is the unit of the last digit of the square. -/
theorem distance_square_le {root unit square : Nat} (hroot : 2 ^ (sqrtSteps - 1) ≤ root)
    (hlow : root * root * unit ≤ square) (hhigh : square < (root + 1) * (root + 1) * unit) :
    2 ^ (precision + 1) * distance ((2 * root + 1) * (2 * root + 1) * unit) (4 * square) ≤
      4 * square := by
  have hhalves : (2 * root + 1) * (2 * root + 1) * unit =
      4 * (root * root * unit) + 4 * (root * unit) + unit := by ring
  have hnext : (root + 1) * (root + 1) * unit =
      root * root * unit + 2 * (root * unit) + unit := by ring
  -- the unit is small beside the root, and the root beside the square
  have hunit : 2 ^ (sqrtSteps - 1) * unit ≤ root * unit := Nat.mul_le_mul_right unit hroot
  have hsquare : 2 ^ (sqrtSteps - 1) * (root * unit) ≤ root * root * unit := by
    rw [Nat.mul_assoc]
    exact Nat.mul_le_mul_right _ hroot
  rw [hnext] at hhigh
  rw [hhalves]
  generalize root * root * unit = a at *
  generalize root * unit = b at *
  unfold distance
  unfold sqrtSteps at hunit hsquare
  unfold precision
  omega

/-- A root is the rounding of half a count of quanta whose square is off by as little. -/
theorem exists_halves (hn : n ≠ 0) : ∃ k : Nat, sqrtQuanta n = ofRatio false k 2 ∧
    2 ^ (precision + 1) * distance (k * k) (4 * (n * perUnit)) ≤ 4 * (n * perUnit) := by
  have hfull : 4 ^ (sqrtSteps - 1) ≤ n * perUnit := by
    apply Nat.le_trans _ (Nat.le_mul_of_pos_left _ (Nat.pos_of_ne_zero hn))
    exact Nat.le_trans (by decide)
      (Nat.pow_le_pow_right (by decide) (by decide : 110 ≤ quantumExponent))
  obtain ⟨hlow, hhigh⟩ := sqrt_digits hfull
  refine ⟨_, rfl, ?_⟩
  generalize ((n * perUnit).log2 - (2 * sqrtSteps - 2)) / 2 = j at *
  generalize n * perUnit = square at *
  obtain ⟨hroot, hnext⟩ := floorSqrt_bounds _ _ hhigh
  generalize floorSqrt sqrtSteps (square / 4 ^ j) = root at *
  have hunit : 2 ^ j * 2 ^ j = 4 ^ j := (Nat.mul_pow 2 2 j).symm
  have hpos : 0 < 4 ^ j := Nat.pow_pos (by decide)
  rw [Nat.mul_mul_mul_comm, hunit]
  split
  · next hexact =>
    -- nothing is cut off
    have hzero : (2 * root + 0) * (2 * root + 0) * 4 ^ j = 4 * square := by
      rw [← hexact]
      ring
    rw [hzero, distance, Nat.sub_self, Nat.zero_add, Nat.mul_zero]
    exact Nat.zero_le _
  · -- a shorter root would have the square of the next number below the digits
    have hlong : 2 ^ (sqrtSteps - 1) ≤ root := by
      by_contra hshort
      have hsmall : (root + 1) * (root + 1) ≤ 4 ^ (sqrtSteps - 1) :=
        Nat.le_trans (Nat.mul_le_mul (Nat.lt_of_not_le hshort) (Nat.lt_of_not_le hshort))
          (by decide)
      omega
    exact distance_square_le hlong ((Nat.le_div_iff_mul_le hpos).1 hroot)
      ((Nat.div_lt_iff_lt_mul hpos).1 hnext)

/-- The exact square of what is rounded is off by one part in `2 ^ 54` of the number at most. -/
theorem exists_root (hn : n ≠ 0) : ∃ r : ℚ, 0 ≤ r ∧ sqrtQuanta n = nearestTo r ∧
    |r ^ 2 - n / perUnit| ≤ n / perUnit / 2 ^ (precision + 1) := by
  obtain ⟨k, hk, hclose⟩ := exists_halves hn
  have hunit := perUnit_cast_pos
  have hhalf : (0 : ℚ) ≤ k / ((2 : Nat) * perUnit) :=
    div_nonneg k.cast_nonneg (mul_nonneg (Nat.cast_nonneg 2) hunit.le)
  refine ⟨_, hhalf, hk.trans (nearestTo_div two_pos).symm, ?_⟩
  have hsquare : ((k : ℚ) / ((2 : Nat) * perUnit)) ^ 2 - n / perUnit =
      ((k * k : Nat) - (4 * (n * perUnit) : Nat)) / (4 * perUnit ^ 2) := by
    rw [Nat.cast_mul, Nat.cast_mul, Nat.cast_mul, Nat.cast_ofNat, Nat.cast_ofNat]
    field_simp
    ring
  have hnumber : (n : ℚ) / perUnit / 2 ^ (precision + 1) =
      (4 * (n * perUnit) : Nat) / 2 ^ (precision + 1) / (4 * perUnit ^ 2) := by
    rw [Nat.cast_mul, Nat.cast_mul, Nat.cast_ofNat]
    field_simp
  have hscale : (0 : ℚ) < 4 * perUnit ^ 2 := mul_pos four_pos (pow_pos hunit 2)
  have hcount : (2 : ℚ) ^ (precision + 1) * (distance (k * k) (4 * (n * perUnit)) : Nat) ≤
      (4 * (n * perUnit) : Nat) := by
    exact_mod_cast hclose
  rw [hsquare, hnumber, abs_div, abs_of_pos hscale, div_le_div_iff_of_pos_right hscale,
    ← cast_distance, le_div_iff₀' (by positivity)]
  exact hcount

/-! ## 2. The rounded root

Squares are compared in place of roots: a relative error of the root counts twice in the square.
That no root is subnormal is why one bound serves all numbers. -/

/-- The square of a number that small is far below half a quantum. -/
theorem sq_two_mul_leastNormal_le : (2 * leastNormal) ^ 2 ≤ halfQuantum := by
  have hsmall : 2 ^ (precision + 1) * 2 ^ (precision + 1) * halfQuantum ≤ 1 := by
    rw [halfQuantum, mul_one_div, div_le_one (by positivity), ← pow_add]
    exact pow_le_pow_right₀ one_le_two (by decide)
  calc (2 * leastNormal) ^ 2 =
        2 ^ (precision + 1) * 2 ^ (precision + 1) * halfQuantum * halfQuantum := by
        rw [leastNormal]
        ring
    _ ≤ 1 * halfQuantum := mul_le_mul_of_nonneg_right hsmall halfQuantum_pos.le
    _ = halfQuantum := one_mul _

/-- A number whose square is above half a quantum is normal, with room to spare. -/
theorem two_mul_leastNormal_le {r : ℚ} (hr : 0 ≤ r) (h : halfQuantum ≤ r ^ 2) :
    2 * leastNormal ≤ r :=
  le_of_sq_le_sq (sq_two_mul_leastNormal_le.trans h) hr

/-- A root is finite, and its square is the number up to one part in `2 ^ 51`. -/
theorem sqrtQuanta_close (hn : n ≠ 0) (hrep : Representable n) :
    (sqrtQuanta n).isFinite = true ∧
      |(sqrtQuanta n).value ^ 2 - n / perUnit| ≤ n / perUnit / 2 ^ (precision - 2) := by
  obtain ⟨r, hr, hroot, hclose⟩ := exists_root hn
  have hrange : (n : ℚ) / perUnit + 1 ≤ roundingBound := by
    have h := abs_value_add_one_le (finite false n hrep)
    rwa [abs_value] at h
  have hquantum : 2 * halfQuantum ≤ n / perUnit := by
    have h := two_mul_halfQuantum_le (x := finite false n hrep) rfl (beq_false_of_ne hn)
    rwa [abs_value] at h
  generalize (n : ℚ) / perUnit = q at *
  have hhalf := halfQuantum_pos
  norm_num [precision] at hclose ⊢
  obtain ⟨hlow, hhigh⟩ := abs_le.1 hclose
  -- past the bound, which is two at least, its square would be further past it
  have hbound : r < roundingBound := by
    apply lt_of_pow_lt_pow_left₀ 2 roundingBound_pos.le
    have htwo := mul_le_mul_of_nonneg_right two_le_roundingBound roundingBound_pos.le
    rw [sq roundingBound]
    linarith
  have hfinite : (sqrtQuanta n).isFinite = true := by rwa [hroot, isFinite_nearestTo_iff hr]
  have hnormal : leastNormal ≤ r := by
    have hlarge := two_mul_leastNormal_le hr (by linarith)
    linarith [leastNormal_pos]
  have herror := abs_sq_sub_le hr (abs_value_sub_le_of_normal hnormal hfinite hroot.symm)
  norm_num [precision] at herror
  refine ⟨hfinite, (abs_sub_le _ (r ^ 2) _).trans ?_⟩
  linarith

/-- The root of a positive number is computed from its count of quanta. -/
theorem sqrt_eq_sqrtQuanta {h : Representable n} (hn : n ≠ 0) :
    sqrt (finite false n h) = sqrtQuanta n := by
  rw [sqrt, if_neg hn, if_neg Bool.false_ne_true]

/-- The root of a number that is not negative is finite with it, and its square is the number up to
one part in `2 ^ 51`. -/
theorem sqrt_close (hx : x.isFinite = true) (hs : x.isNegative = false) :
    (sqrt x).isFinite = true ∧ |(sqrt x).value ^ 2 - x.value| ≤ x.value / 2 ^ (precision - 2) := by
  obtain ⟨s, n, h, rfl⟩ := exists_finite hx
  obtain rfl : s = false := hs
  by_cases hn : n = 0
  · subst hn
    have hzero : (finite false 0 h).value = 0 := value_of_isZero rfl
    rw [sqrt, if_pos rfl, hzero, zero_div, zero_pow two_ne_zero, sub_zero, abs_zero]
    exact ⟨rfl, le_refl 0⟩
  · rw [sqrt_eq_sqrtQuanta hn, value_positive]
    exact sqrtQuanta_close hn h

/-- Without a sign a root is finite exactly if its number is. -/
theorem isFinite_sqrt (hs : x.isNegative = false) : (sqrt x).isFinite = x.isFinite := by
  cases x with
  | nan => rfl
  | infinite s =>
    obtain rfl : s = false := hs
    rfl
  | finite s n h => exact (sqrt_close rfl hs).1

/-- Only a zero has a root of zero. -/
theorem isZero_sqrt (x : Binary64) : (sqrt x).isZero = x.isZero := by
  cases x with
  | nan => rfl
  | infinite s => cases s <;> rfl
  | finite s n h =>
    by_cases hn : n = 0
    · rw [sqrt, if_pos hn]
    · rw [isZero, beq_false_of_ne hn, sqrt, if_neg hn]
      split
      · rfl
      · obtain ⟨-, hclose⟩ := sqrtQuanta_close hn h
        rw [← Bool.not_eq_true]
        intro hzero
        have hpos : (0 : ℚ) < n / perUnit :=
          div_pos (Nat.cast_pos.2 (Nat.pos_of_ne_zero hn)) perUnit_cast_pos
        rw [value_of_isZero hzero, zero_pow two_ne_zero, zero_sub, abs_neg,
          abs_of_pos hpos] at hclose
        exact not_lt.2 hclose (div_lt_self hpos (one_lt_pow₀ one_lt_two (by decide)))

/-- The root of a number without a sign is a number. -/
theorem sqrt_ne_nan (hnan : x ≠ nan) (hsign : x.isNegative = false) : sqrt x ≠ nan := by
  cases x with
  | nan => exact absurd rfl hnan
  | infinite s =>
    obtain rfl : s = false := hsign
    exact hnan
  | finite s n h =>
    obtain rfl : s = false := hsign
    rw [sqrt, if_neg Bool.false_ne_true]
    split
    · exact hnan
    · exact ofRatio_ne_nan

end Binary64

end Metrology
