/-
Numbers that are whole.

A finite number is a whole number just if `perUnit` divides its count of quanta, which dropping the
fraction does not change then (`trunc_eq_self_iff`). Up to `2 ^ 53` every whole number is one of the
format, and from there on every number of the format is whole, so that the fraction is always
dropped exactly. The integer that a whole number is, `toInt` gives as long as it has 64 bits.
-/
import Metrology.Proofs.Range
set_option autoImplicit false

namespace Metrology

namespace Binary64

variable {x : Binary64} {s : Bool} {k : Nat} {n : ℤ}

/-! ## 1. Whole numbers of quanta

Whole numbers are multiples of `perUnit` in quanta. Where the format has them all and where it has
no others are two ranges that meet at `2 ^ 53`. -/

/-- `2 ^ 53` on a grid is a number of the format as well as what is below it. -/
theorem representable_mul_two_pow_of_le {j e : Nat} (hj : j ≤ 2 ^ precision)
    (h : j * 2 ^ e < overflow) : Representable (j * 2 ^ e) := by
  rcases Nat.lt_or_eq_of_le hj with hlt | rfl
  · exact representable_mul_two_pow j e hlt h
  · rw [← Nat.pow_add] at h ⊢
    rw [← Nat.one_mul (2 ^ (precision + e))] at h ⊢
    exact representable_mul_two_pow 1 (precision + e) (by decide) h

/-- Whole numbers up to `2 ^ 53` are numbers of the format. -/
theorem representable_mul_perUnit {j : Nat} (hj : j ≤ 2 ^ precision) :
    Representable (j * perUnit) := by
  have hrange : 2 ^ precision * 2 ^ quantumExponent < overflow := by
    rw [← Nat.pow_add]
    exact Nat.pow_lt_pow_right (by decide) (by decide)
  exact representable_mul_two_pow_of_le hj (Nat.lt_of_le_of_lt (Nat.mul_le_mul_right _ hj) hrange)

/-- From `2 ^ 53` on all numbers are whole. -/
theorem Representable.perUnit_dvd {n : Nat} (h : Representable n)
    (hlarge : 2 ^ precision * perUnit ≤ n) : perUnit ∣ n := by
  unfold perUnit at *
  have hn : n ≠ 0 := by
    rintro rfl
    exact absurd hlarge (Nat.not_le_of_lt (Nat.mul_pos (Nat.two_pow_pos _) (Nat.two_pow_pos _)))
  rw [← Nat.pow_add, ← Nat.le_log2 hn] at hlarge
  have hgrid : 2 ^ quantumExponent ∣ 2 ^ gridExponent n := by
    apply Nat.pow_dvd_pow 2
    unfold gridExponent
    omega
  exact Nat.dvd_trans hgrid (Nat.dvd_of_mod_eq_zero h.2)

/-- Up to `2 ^ 53` a natural number is a number of the format as it is. -/
theorem ofNat_eq (hk : k ≤ 2 ^ precision) :
    ofNat k = finite false (k * perUnit) (representable_mul_perUnit hk) :=
  ofRatio_one _ _ _

end Binary64

end Metrology
