/-
Rounding a quotient of natural numbers, and the floor of a square root.

Everything that rounds in this library rounds a quotient `num / den` to a whole number of some
unit, and always the same way: to the nearest one, a half to the even neighbour. So the rule is
stated once, over natural numbers, and the callers choose the unit: a quantum of the binary64
grid, a decimal place, one significant digit.

The laws come in pairs. "Nearest" alone cannot see what happens to a half, so `nearestEven_tie` says
it; "an exact quotient is kept" is what makes grids nest.
-/
set_option autoImplicit false

namespace Metrology

/- Powers of natural numbers are those of the core library throughout the namespace, also in the
modules where Mathlib brings another instance. -/
attribute [scoped instance (2000)] instPowNat

/-! ## The nearest whole number -/

/-- The whole number nearest to `num / den`; halfway between two it is the even one. -/
def nearestEven (num den : Nat) : Nat :=
  let q := num / den
  let r := num % den
  if 2 * r < den then q
  else if den < 2 * r then q + 1
  else q + q % 2

/-- Rounding never goes below the floor. -/
theorem div_le_nearestEven (num den : Nat) : num / den ≤ nearestEven num den := by
  unfold nearestEven
  dsimp only
  split
  · exact Nat.le_refl _
  · split <;> omega

/-- Rounding never goes above the number after the floor. -/
theorem nearestEven_le_succ (num den : Nat) : nearestEven num den ≤ num / den + 1 := by
  unfold nearestEven
  dsimp only
  split
  · omega
  · split <;> omega

/-- A quotient that is exact is not moved. -/
theorem nearestEven_mul (q den : Nat) (h : 0 < den) : nearestEven (q * den) den = q := by
  simp [nearestEven, Nat.mul_div_cancel q h, h]

/-- The rounded quotient lies at most half a unit above the exact one. -/
theorem nearestEven_upper (num den : Nat) (h : 0 < den) :
    2 * (nearestEven num den * den) ≤ 2 * num + den := by
  have hq : den * (num / den) + num % den = num := Nat.div_add_mod num den
  have hr : num % den < den := Nat.mod_lt num h
  have hc : num / den * den = den * (num / den) := Nat.mul_comm _ _
  unfold nearestEven
  dsimp only
  split
  · omega
  · split
    · rw [Nat.add_mul]; omega
    · -- an exact half: the even neighbour is the floor or the number after it
      rcases Nat.mod_two_eq_zero_or_one (num / den) with he | ho
      · simp only [he, Nat.add_zero]; omega
      · simp only [ho, Nat.add_mul]; omega

/-- The rounded quotient lies at most half a unit below the exact one. -/
theorem nearestEven_lower (num den : Nat) (h : 0 < den) :
    2 * num ≤ 2 * (nearestEven num den * den) + den := by
  have hq : den * (num / den) + num % den = num := Nat.div_add_mod num den
  have hr : num % den < den := Nat.mod_lt num h
  have hc : num / den * den = den * (num / den) := Nat.mul_comm _ _
  unfold nearestEven
  dsimp only
  split
  · omega
  · split
    · rw [Nat.add_mul]; omega
    · -- an exact half: the even neighbour is the floor or the number after it
      rcases Nat.mod_two_eq_zero_or_one (num / den) with he | ho
      · simp only [he, Nat.add_zero]; omega
      · simp only [ho, Nat.add_mul]; omega

/-- On an exact half the result is even. -/
theorem nearestEven_tie (num den : Nat) (h : 2 * (num % den) = den) :
    nearestEven num den % 2 = 0 := by
  unfold nearestEven
  dsimp only
  rw [if_neg (by omega), if_neg (by omega)]
  omega

/-- No whole number is nearer to the quotient than the rounded one. Distances are taken times `den`,
and one of the two differences in each is zero. -/
theorem nearestEven_nearest (num den k : Nat) (h : 0 < den) :
    (nearestEven num den * den - num) + (num - nearestEven num den * den) ≤
      (k * den - num) + (num - k * den) := by
  have hup := nearestEven_upper num den h
  have hlow := nearestEven_lower num den h
  generalize nearestEven num den = c at *
  -- any other whole number is a whole unit away from `c`, and `num` is within half of one
  rcases Nat.lt_trichotomy k c with hk | hk | hk
  · have hstep : (k + 1) * den ≤ c * den := Nat.mul_le_mul_right den hk
    rw [Nat.add_mul, Nat.one_mul] at hstep
    omega
  · subst hk
    exact Nat.le_refl _
  · have hstep : (c + 1) * den ≤ k * den := Nat.mul_le_mul_right den hk
    rw [Nat.add_mul, Nat.one_mul] at hstep
    omega

/-! ## The floor of a square root

One binary digit of the root per step, so that the number of steps is plain data and the
definition computes by structural recursion. -/

/-- The floor of the square root of `n`, given that `n < 4 ^ steps`. -/
def floorSqrt : Nat → Nat → Nat
  | 0, _ => 0
  | steps + 1, n =>
    let r := 2 * floorSqrt steps (n / 4)
    if (r + 1) * (r + 1) ≤ n then r + 1 else r

/-- `floorSqrt` is the floor of the root: its square is at most `n` and that of the next number
is not. The step doubles the root of `n / 4`, which is short by at most one. -/
theorem floorSqrt_bounds (steps n : Nat) (h : n < 4 ^ steps) :
    floorSqrt steps n * floorSqrt steps n ≤ n ∧
      n < (floorSqrt steps n + 1) * (floorSqrt steps n + 1) := by
  induction steps generalizing n with
  | zero => simp [floorSqrt] at *; omega
  | succ steps ih =>
    have hq : n / 4 < 4 ^ steps := by
      rw [Nat.pow_succ] at h
      omega
    obtain ⟨hlo, hhi⟩ := ih (n / 4) hq
    generalize hs : floorSqrt steps (n / 4) = s at hlo hhi
    have e1 : (2 * s) * (2 * s) = 4 * (s * s) := by
      rw [Nat.mul_mul_mul_comm]
    have e2 : (2 * s + 1 + 1) * (2 * s + 1 + 1) = 4 * ((s + 1) * (s + 1)) := by
      rw [show 2 * s + 1 + 1 = 2 * (s + 1) by omega, Nat.mul_mul_mul_comm]
    simp only [floorSqrt, hs]
    split
    · exact ⟨by assumption, by omega⟩
    · exact ⟨by omega, by omega⟩

end Metrology
