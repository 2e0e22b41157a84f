/-
The number nearest to a decimal.

A decimal denotes a rational number, and the number it is rounded to depends on that alone: not on
how many digits are written, nor on how they are shared between coefficient and exponent. Where the
leading digit lies far outside the range the power of ten is never formed; `toBinary64_eq_nearest`
says that this is a shortcut and no other answer.
-/
import Metrology.Decimal.Basic
import Metrology.Proofs.Nearest
set_option autoImplicit false

namespace Metrology.Decimal

/-! ## 1. The leading digit

A decimal lies in the decade of its leading digit, which is found by counting the digits of the
coefficient. -/

/-- A coefficient is below the power of ten of its number of digits. -/
theorem coefficient_lt (d : Decimal) : d.coefficient < 10 ^ (digits d.coefficient).length :=
  (Nat.length_toDigits_le_iff (by decide) Nat.length_toDigits_pos).1 (Nat.le_refl _)

/-- A coefficient other than zero has a leading digit, so it is not below the power of ten of one
digit less. -/
theorem le_coefficient {d : Decimal} (h : d.coefficient ≠ 0) :
    10 ^ ((digits d.coefficient).length - 1) ≤ d.coefficient := by
  rcases Nat.eq_zero_or_pos ((digits d.coefficient).length - 1) with hone | hmore
  · rw [hone]
    exact Nat.pos_of_ne_zero h
  · by_contra hlt
    have hshort := (Nat.length_toDigits_le_iff (by decide) hmore).2 (Nat.lt_of_not_le hlt)
    unfold digits at *
    omega

/-- Eight is less than ten. -/
theorem two_pow_le_ten_pow {m n : Nat} (h : m ≤ 3 * n) : 2 ^ m ≤ 10 ^ n := by
  calc 2 ^ m ≤ 2 ^ (3 * n) := Nat.pow_le_pow_right (by decide) h
    _ = (2 ^ 3) ^ n := Nat.pow_mul 2 3 n
    _ ≤ 10 ^ n := Nat.pow_le_pow_left (by decide) n

/-! ## 2. The shortcuts

Both ends of the range are a safe distance away from `10 ^ 400` and `10 ^ -400`: eight is less than
ten, so four hundred decades are more than twelve hundred powers of two. -/

/-- A decimal of more than four hundred places before the point is past the finite numbers. -/
theorem nearest_of_lt_topExponent {d : Decimal} (hd : d.coefficient ≠ 0)
    (h : decadeLimit < d.topExponent) (s : Bool) : d.nearest s = .infinite s := by
  have hlong := le_coefficient hd
  obtain ⟨decades, hdecades⟩ : ∃ n : Nat, (n : Int) = decadeLimit := ⟨400, rfl⟩
  rw [← hdecades, topExponent] at h
  have henough : Binary64.rangeExponent ≤ 3 * decades := by
    unfold decadeLimit at hdecades
    unfold Binary64.rangeExponent
    omega
  apply Binary64.ofRatio_of_ge (Nat.pow_pos (by decide))
  calc Binary64.roundingLimit * 10 ^ (-d.exponent).toNat
      ≤ Binary64.overflow * 10 ^ (-d.exponent).toNat := Nat.mul_le_mul_right _ (Nat.sub_le _ _)
    _ = 2 ^ Binary64.rangeExponent * 10 ^ (-d.exponent).toNat * Binary64.perUnit := by
        rw [Binary64.overflow, Nat.pow_add, Nat.mul_right_comm, Binary64.perUnit]
    _ ≤ 10 ^ decades * 10 ^ (-d.exponent).toNat * Binary64.perUnit := by
        apply Nat.mul_le_mul_right
        exact Nat.mul_le_mul_right _ (two_pow_le_ten_pow henough)
    _ ≤ 10 ^ ((digits d.coefficient).length - 1) * 10 ^ d.exponent.toNat * Binary64.perUnit := by
        apply Nat.mul_le_mul_right
        rw [← Nat.pow_add, ← Nat.pow_add]
        exact Nat.pow_le_pow_right (by decide) (by omega)
    _ ≤ d.coefficient * 10 ^ d.exponent.toNat * Binary64.perUnit := by
        apply Nat.mul_le_mul_right
        exact Nat.mul_le_mul_right _ hlong

/-- A decimal whose first four hundred places behind the point are zeros is below half a quantum. -/
theorem nearest_of_topExponent_lt {d : Decimal} (h : d.topExponent < -decadeLimit) (s : Bool) :
    d.nearest s = Binary64.zero s := by
  have hlong := d.coefficient_lt
  obtain ⟨decades, hdecades⟩ : ∃ n : Nat, (n : Int) = decadeLimit := ⟨400, rfl⟩
  rw [← hdecades, topExponent] at h
  have henough : Binary64.quantumExponent + 1 ≤ 3 * decades := by
    unfold decadeLimit at hdecades
    unfold Binary64.quantumExponent
    omega
  have hnone : d.exponent.toNat = 0 := by omega
  apply Binary64.ofRatio_of_lt_half
  calc 2 * (d.coefficient * 10 ^ d.exponent.toNat * Binary64.perUnit)
      = d.coefficient * 2 ^ (Binary64.quantumExponent + 1) := by
        rw [hnone, Nat.pow_zero, Nat.mul_one, Nat.pow_succ, Nat.mul_comm 2, Nat.mul_assoc,
          Binary64.perUnit]
    _ < 10 ^ (digits d.coefficient).length * 2 ^ (Binary64.quantumExponent + 1) :=
        Nat.mul_lt_mul_of_pos_right hlong (Nat.two_pow_pos _)
    _ ≤ 10 ^ (digits d.coefficient).length * 10 ^ decades :=
        Nat.mul_le_mul_left _ (two_pow_le_ten_pow henough)
    _ ≤ 10 ^ (-d.exponent).toNat := by
        rw [← Nat.pow_add]
        exact Nat.pow_le_pow_right (by decide) (by omega)

/-- The number of a decimal is the nearest one, however it is found. -/
theorem toBinary64_eq_nearest (d : Decimal) (s : Bool) : d.toBinary64 s = d.nearest s := by
  unfold toBinary64
  by_cases hzero : d.coefficient = 0
  · rw [if_pos hzero, nearest, hzero, Nat.zero_mul, Nat.zero_mul]
    exact (Binary64.ofRatio_of_lt_half (Nat.pow_pos (by decide)) s).symm
  rw [if_neg hzero]
  by_cases hlarge : decadeLimit < d.topExponent
  · rw [if_pos hlarge, nearest_of_lt_topExponent hzero hlarge]
  rw [if_neg hlarge]
  by_cases hsmall : d.topExponent < -decadeLimit
  · rw [if_pos hsmall, nearest_of_topExponent_lt hsmall]
  · rw [if_neg hsmall]

/-! ## 3. The value

With the rational number the two exponents disappear, and two decimals can be compared that have
nothing in common but their value. -/

/-- The rational number that a decimal denotes. -/
def value (d : Decimal) : ℚ := d.coefficient * 10 ^ d.exponent

/-- The quotient that is rounded is the value, in quanta. -/
theorem quotient_eq_value (d : Decimal) :
    ((d.coefficient * 10 ^ d.exponent.toNat * Binary64.perUnit : Nat) : ℚ) /
      ((10 ^ (-d.exponent).toNat : Nat) * Binary64.perUnit) = d.value := by
  rw [Nat.cast_mul, mul_div_mul_right _ _ Binary64.perUnit_cast_pos.ne', Nat.cast_mul,
    Binary64.cast_natPow, Binary64.cast_natPow, value]
  -- one of the two powers of ten is `1`
  obtain ⟨n, hn | hn⟩ := d.exponent.eq_nat_or_neg
  · rw [hn]
    simp
  · rw [hn]
    simp [div_eq_mul_inv]

/-- The number of a decimal is finite while the value is less than half-way from the largest finite
number to the next power of two. -/
theorem isFinite_toBinary64_iff (d : Decimal) (s : Bool) :
    (d.toBinary64 s).isFinite = true ↔ d.value < Binary64.roundingBound := by
  rw [toBinary64_eq_nearest, nearest, Binary64.isFinite_ofRatio_iff_lt (Nat.pow_pos (by decide)),
    quotient_eq_value]

end Metrology.Decimal
