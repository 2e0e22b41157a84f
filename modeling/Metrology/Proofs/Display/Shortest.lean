/-
The fewest digits that read back.

Printing goes through the decimal grids from the one of the leading digit down and takes the first
one that has a decimal near the number which is read as the number. Two things are to be known of
it: that there is such a grid among those that are tried, and that no coarser one is passed over.
With both, a number that is the rounding of some multiple of a power of ten is printed as a multiple
of that power. The one grid above that of the leading digit is never tried; a number that is rounded
from there is printed as ten of its leading places.
-/
import Metrology.Decimal.Shortest
import Metrology.Proofs.Display.Rounding
import Mathlib.Algebra.Order.Field.Power
set_option autoImplicit false

namespace Metrology.Decimal

open Binary64

variable {x : Binary64} {d : Decimal} {place : ℤ} {n : Nat}

/-! ## 1. The decimal grids

A grid is the multiples of one place. A number is counted on it as a quotient of natural numbers,
which is exact, and the grid of the leading digit is found by counting the digits of that quotient
on the lowest grid of all. -/

/-- Every decimal place is worth more than zero. Products with a place are compared by it all
through this module. -/
theorem ten_zpow_pos (e : ℤ) : (0 : ℚ) < 10 ^ e := by positivity

/-- A decimal has no sign of its own, so its value is never below zero. -/
theorem value_nonneg (d : Decimal) : 0 ≤ d.value := by
  unfold value
  positivity

/-- A decimal with its last digit further left is a multiple of all places further right. -/
theorem value_multiple (h : place ≤ d.exponent) : ∃ j : Nat, d.value = j * 10 ^ place := by
  refine ⟨d.coefficient * 10 ^ (d.exponent - place).toNat, ?_⟩
  have hsum : d.exponent = ((d.exponent - place).toNat : ℤ) + place := by omega
  rw [value, Nat.cast_mul, cast_natPow, mul_assoc, ← zpow_natCast, Nat.cast_ofNat,
    ← zpow_add₀ (by norm_num), ← hsum]

/-- The denominator of a count over a place is positive, so that a division by it means
something. -/
theorem overPlace_pos (n : Nat) (place : ℤ) : 0 < (overPlace n place).2 :=
  Nat.mul_pos perUnit_pos (Nat.pow_pos (by decide))

/-- A count over a place is its value in units of the place. -/
theorem overPlace_div (n : Nat) (place : ℤ) :
    ((overPlace n place).1 : ℚ) / (overPlace n place).2 = n / perUnit / 10 ^ place := by
  unfold overPlace
  rw [Nat.cast_mul, Nat.cast_mul, cast_natPow, cast_natPow]
  generalize (perUnit : ℚ) = unit
  -- one of the two powers of ten is `1`
  obtain ⟨e, rfl | rfl⟩ := place.eq_nat_or_neg
  · simp [div_div]
  · simp [div_eq_mul_inv, mul_right_comm]

/-- Over the lowest place the count is multiplied by the whole power of ten and the denominator
stays that of one unit. -/
theorem overPlace_lowestPlace (n : Nat) :
    overPlace n (-lowestPlace) = (n * 10 ^ lowestPlace, perUnit) := by
  simp [overPlace]

/-- The lowest place is below one quantum. Every count other than zero has a digit there or further
left. -/
theorem perUnit_le_ten_pow : perUnit ≤ 10 ^ lowestPlace := by decide +kernel

/-- The leading digit of a number other than zero stands at its leading exponent. -/
theorem leadExponent_bounds (hn : n ≠ 0) :
    (10 : ℚ) ^ leadExponent n ≤ n / perUnit ∧ (n / perUnit : ℚ) < 10 ^ (leadExponent n + 1) := by
  have hten : (10 : ℚ) ≠ 0 := by norm_num
  have hone : perUnit ≤ n * 10 ^ lowestPlace :=
    perUnit_le_ten_pow.trans (Nat.le_mul_of_pos_left _ (Nat.pos_of_ne_zero hn))
  have hlow : n * 10 ^ lowestPlace / perUnit ≠ 0 := (Nat.div_pos hone perUnit_pos).ne'
  have hbelow := le_coefficient (d := ⟨n * 10 ^ lowestPlace / perUnit, 0⟩) hlow
  have habove := coefficient_lt ⟨n * 10 ^ lowestPlace / perUnit, 0⟩
  have hlength : 0 < (digits (n * 10 ^ lowestPlace / perUnit)).length := Nat.length_toDigits_pos
  unfold leadExponent
  simp only [overPlace_lowestPlace] at *
  generalize (digits (n * 10 ^ lowestPlace / perUnit)).length = len at *
  -- both sides times the power of ten of the lowest place
  have hshift : ∀ e : ℤ, (10 : ℚ) ^ (e - lowestPlace) = 10 ^ e / 10 ^ lowestPlace := by
    intro e
    rw [zpow_sub₀ hten, zpow_natCast]
  have hpower : (0 : ℚ) < 10 ^ lowestPlace := by positivity
  have hexact :
      (n : ℚ) / perUnit = (n * 10 ^ lowestPlace : Nat) / (perUnit : ℚ) / 10 ^ lowestPlace := by
    rw [Nat.cast_mul, cast_natPow, Nat.cast_ofNat, div_right_comm,
      mul_div_cancel_right₀ _ hpower.ne']
  constructor
  · have hlead : (10 : ℚ) ^ ((len : ℤ) - 1) = (10 ^ (len - 1) : Nat) := by
      rw [cast_natPow, ← zpow_natCast, Nat.cast_pred hlength, Nat.cast_ofNat]
    rw [Nat.le_div_iff_mul_le perUnit_pos] at hbelow
    rw [hshift, hexact, div_le_div_iff_of_pos_right hpower, le_div_iff₀ perUnit_cast_pos, hlead]
    exact_mod_cast hbelow
  · have hnext : (len : ℤ) - 1 - lowestPlace + 1 = len - lowestPlace := by omega
    rw [Nat.div_lt_iff_lt_mul perUnit_pos] at habove
    rw [hnext, hshift, hexact, div_lt_div_iff_of_pos_right hpower, div_lt_iff₀ perUnit_cast_pos,
      zpow_natCast]
    exact_mod_cast habove

/-! ## 2. The candidates of a grid

Only the two multiples next to the number are asked whether they read back. That is enough: reading
is monotone, so where any multiple of the place reads back, the next one on its side of the number
does (`onGrid?_isSome`). -/

/-- The multiple of the place next to the number from below. -/
def lower (x : Binary64) (place : ℤ) : Decimal :=
  ⟨(overPlace x.quanta place).1 / (overPlace x.quanta place).2, place⟩

/-- The multiple of the place next to the number from above. -/
def upper (x : Binary64) (place : ℤ) : Decimal :=
  ⟨(overPlace x.quanta place).1 / (overPlace x.quanta place).2 + 1, place⟩

/-- The test of a candidate, in terms of the exact rounding of its value. -/
theorem readsBackTo_iff : d.readsBackTo x = true ↔ nearestTo d.value = x := by
  unfold readsBackTo
  rw [beq_iff_eq, toBinary64_eq_nearestTo]

/-- Only zero is read from a decimal without digits. -/
theorem coefficient_ne_zero (h : nearestTo d.value = x) (hpos : x.quanta ≠ 0) :
    d.coefficient ≠ 0 := by
  intro hzero
  apply hpos
  rw [← h, ← toBinary64_eq_nearestTo, toBinary64, if_pos hzero]
  rfl

/-- What a grid gives is one of its candidates, and is read as the number. -/
theorem onGrid?_eq_some (h : onGrid? x place = some d) :
    d.exponent = place ∧ nearestTo d.value = x := by
  unfold onGrid? at h
  dsimp only at h
  -- the four answers of the two candidates; where both read back, the nearer one is taken
  split at h
  · rename_i hlower hupper
    split at h
    · obtain rfl := Option.some.inj h
      exact ⟨rfl, readsBackTo_iff.1 hlower⟩
    · obtain rfl := Option.some.inj h
      exact ⟨rfl, readsBackTo_iff.1 hupper⟩
  · rename_i hlower hupper
    obtain rfl := Option.some.inj h
    exact ⟨rfl, readsBackTo_iff.1 hlower⟩
  · rename_i hlower hupper
    obtain rfl := Option.some.inj h
    exact ⟨rfl, readsBackTo_iff.1 hupper⟩
  · cases h

/-- A grid gives something as soon as one of the two candidates is read as the number. -/
theorem onGrid?_isSome_of_candidate
    (h : nearestTo (lower x place).value = x ∨ nearestTo (upper x place).value = x) :
    (onGrid? x place).isSome = true := by
  rw [← readsBackTo_iff, ← readsBackTo_iff] at h
  unfold onGrid?
  dsimp only
  unfold lower upper at h
  split
  · split <;> rfl
  · rfl
  · rfl
  · simp_all

/-- From half-way between the candidates on the upper one is taken, if it is read as the number. -/
theorem onGrid?_eq_upper (hupper : nearestTo (upper x place).value = x)
    (hhalf : (overPlace x.quanta place).2 ≤
      2 * ((overPlace x.quanta place).1 % (overPlace x.quanta place).2)) :
    onGrid? x place = some (upper x place) := by
  rw [← readsBackTo_iff] at hupper
  unfold onGrid?
  dsimp only
  unfold upper at hupper ⊢
  rw [hupper]
  split
  · rw [if_neg (Nat.not_lt.2 hhalf)]
  · rename_i heq
    cases heq
  · rfl
  · rename_i heq
    cases heq

section

variable (hx : x.isFinite = true) (hs : x.isNegative = false)

include hs in
/-- A number that is not negative is its count over a place times the place, whatever the place. -/
theorem value_eq_overPlace (place : ℤ) :
    x.value = (overPlace x.quanta place).1 / (overPlace x.quanta place).2 * 10 ^ place := by
  rw [overPlace_div, value_of_not_negative hs, div_mul_cancel₀ _ (ten_zpow_pos place).ne']

include hs in
/-- The lower candidate is not above the number. -/
theorem lower_le (place : ℤ) : (lower x place).value ≤ x.value := by
  rw [value_eq_overPlace hs place, value, lower]
  apply mul_le_mul_of_nonneg_right _ (ten_zpow_pos place).le
  exact Nat.cast_div_le

include hs in
/-- The upper candidate is above the number, also where the number is a multiple of the place. -/
theorem lt_upper (place : ℤ) : x.value < (upper x place).value := by
  have hden : (0 : ℚ) < (overPlace x.quanta place).2 := Nat.cast_pos.2 (overPlace_pos _ _)
  rw [value_eq_overPlace hs place, value, upper]
  apply mul_lt_mul_of_pos_right _ (ten_zpow_pos place)
  rw [div_lt_iff₀' hden]
  exact_mod_cast Nat.lt_mul_div_succ _ (overPlace_pos x.quanta place)

include hx hs in
/-- If any multiple of the place is read as the number, the next one on its side is. -/
theorem onGrid?_isSome {k : Nat} (h : nearestTo (value ⟨k, place⟩) = x) :
    (onGrid? x place).isSome = true := by
  have hplace := (ten_zpow_pos place).le
  apply onGrid?_isSome_of_candidate
  -- the multiple that reads back is above the number or not above it, and the candidate of that
  -- side lies between the two
  rcases Nat.lt_or_ge ((overPlace x.quanta place).1 / (overPlace x.quanta place).2) k with hlt | hge
  · right
    apply nearestTo_eq_of_between ((value_nonneg _).trans (lower_le hs place))
      (lt_upper hs place).le ?_ hx (nearestTo_value hx hs) h
    exact mul_le_mul_of_nonneg_right (Nat.cast_le.2 hlt) hplace
  · left
    apply nearestTo_eq_of_between (value_nonneg _) ?_ (lower_le hs place) hx h
      (nearestTo_value hx hs)
    exact mul_le_mul_of_nonneg_right (Nat.cast_le.2 hge) hplace

/-! ## 3. The search

The search is bounded by the seventeenth digit, and `onGrid?_last` is the reason that it never runs
out. The bound is the usual one between decimal and binary precision, in the form that the module
needs: a relative distance below the half-step of the format. -/

/-- The search stops at the first grid that gives something, so at no later one than the one known
of. -/
theorem shortestFrom_spec (x : Binary64) (place : ℤ) (more j : Nat) (hj : j ≤ more)
    (h : (onGrid? x (place - j)).isSome = true) :
    ∃ i : Nat, i ≤ j ∧ onGrid? x (place - i) = some (shortestFrom x place more) := by
  induction more generalizing place j with
  | zero =>
    obtain rfl : j = 0 := by omega
    rw [Nat.cast_zero, sub_zero] at h
    obtain ⟨d, hd⟩ := Option.isSome_iff_exists.1 h
    refine ⟨0, Nat.le_refl 0, ?_⟩
    simp [shortestFrom, hd]
  | succ more ih =>
    by_cases hfirst : (onGrid? x place).isSome = true
    · obtain ⟨d, hd⟩ := Option.isSome_iff_exists.1 hfirst
      refine ⟨0, Nat.zero_le j, ?_⟩
      simp [shortestFrom, hd]
    · have hnone : onGrid? x place = none := by simpa using hfirst
      have hlater : j ≠ 0 := by
        rintro rfl
        rw [Nat.cast_zero, sub_zero] at h
        exact hfirst h
      have hstep : place - 1 - ((j - 1 : Nat) : ℤ) = place - j := by omega
      obtain ⟨i, hi, hgrid⟩ := ih (place - 1) (j - 1) (by omega) (by rwa [hstep])
      have hplace : place - 1 - (i : ℤ) = place - ((i + 1 : Nat) : ℤ) := by omega
      refine ⟨i + 1, by omega, ?_⟩
      rw [← hplace, hgrid]
      simp [shortestFrom, hnone]

/-- What is half a step away at most is nearest, since whole numbers are a whole step apart. -/
theorem abs_sub_le_of_le_half {r : ℚ} {c : Nat} (h : |(c : ℚ) - r| ≤ 1 / 2) (j : Nat) :
    |(c : ℚ) - r| ≤ |(j : ℚ) - r| := by
  by_cases hj : j = c
  · rw [hj]
  · have hstep : (1 : ℚ) ≤ |(j : ℚ) - c| := by
      have hne : (j : ℤ) - c ≠ 0 := by omega
      exact_mod_cast Int.one_le_abs hne
    have htriangle := abs_sub_le (j : ℚ) r c
    rw [abs_sub_comm r] at htriangle
    linarith

/-- A quotient is half a step at most from the whole number it is rounded to. -/
theorem abs_nearestEven_sub_le (num : Nat) {den : Nat} (hden : 0 < den) :
    |(nearestEven num den : ℚ) - num / den| ≤ 1 / 2 := by
  have hden' : (0 : ℚ) < den := Nat.cast_pos.2 hden
  have hup : (2 * (nearestEven num den * den) : ℚ) ≤ 2 * num + den := by
    exact_mod_cast nearestEven_upper num den hden
  have hlow : (2 * num : ℚ) ≤ 2 * (nearestEven num den * den) + den := by
    exact_mod_cast nearestEven_lower num den hden
  have hexact : (num / den : ℚ) * den = num := div_mul_cancel₀ _ hden'.ne'
  rw [← mul_le_mul_iff_left₀ hden', ← abs_of_pos hden', ← abs_mul, abs_of_pos hden', sub_mul,
    hexact, abs_le]
  constructor
  · linarith
  · linarith

variable (hpos : x.quanta ≠ 0)

include hs hpos in
/-- A number lies between the power of ten of its leading exponent and the next one. -/
theorem lead_bounds :
    (10 : ℚ) ^ leadExponent x.quanta ≤ x.value ∧ x.value < 10 ^ (leadExponent x.quanta + 1) := by
  rw [value_of_not_negative hs]
  exact leadExponent_bounds hpos

include hx hs hpos in
/-- Seventeen digits always suffice: half a unit of the last of them is less than one part in
`2 ^ 54` of the number. -/
theorem onGrid?_last :
    (onGrid? x (leadExponent x.quanta - (mostDigits - 1 : Nat))).isSome = true := by
  have hden := overPlace_pos x.quanta (leadExponent x.quanta - (mostDigits - 1 : Nat))
  have hvalue := value_eq_overPlace hs (leadExponent x.quanta - (mostDigits - 1 : Nat))
  have hlead := (lead_bounds hs hpos).1
  have hten : (10 : ℚ) ^ leadExponent x.quanta =
      10 ^ (leadExponent x.quanta - (mostDigits - 1 : Nat)) * 10 ^ (mostDigits - 1) := by
    rw [← zpow_natCast, ← zpow_add₀ (by norm_num), sub_add_cancel]
  generalize leadExponent x.quanta - (mostDigits - 1 : Nat) = last at *
  generalize (overPlace x.quanta last).1 = num at *
  generalize (overPlace x.quanta last).2 = den at *
  have hplace := ten_zpow_pos last
  apply onGrid?_isSome hx hs (k := nearestEven num den)
  apply nearestTo_eq_of_close hx hs (value_nonneg _)
  have hhalf := abs_nearestEven_sub_le num hden
  calc |value ⟨nearestEven num den, last⟩ - x.value|
      = |(nearestEven num den : ℚ) - num / den| * 10 ^ last := by
        rw [value, hvalue, ← sub_mul, abs_mul, abs_of_pos hplace]
    _ ≤ 1 / 2 * 10 ^ last := mul_le_mul_of_nonneg_right hhalf hplace.le
    _ < x.value / 2 ^ (precision + 1) := by
        rw [lt_div_iff₀ (by positivity)]
        rw [hten] at hlead
        norm_num [precision, mostDigits] at hlead ⊢
        linarith

include hx hs hpos in
/-- The shortest decimal is what its grid gives, which is one of those that are tried. -/
theorem shortest_onGrid :
    ∃ i : Nat, i ≤ mostDigits - 1 ∧
      onGrid? x (leadExponent x.quanta - i) = some (shortest x) :=
  shortestFrom_spec x _ _ _ (Nat.le_refl _) (onGrid?_last hx hs hpos)

include hx hs hpos in
/-- What is printed is read as the number that was printed. This is the round trip that the text of
`display_parts` relies on. -/
theorem nearestTo_shortest : nearestTo (shortest x).value = x := by
  obtain ⟨i, -, hgrid⟩ := shortest_onGrid hx hs hpos
  exact (onGrid?_eq_some hgrid).2

/-! ## 4. No coarser grid is passed over

The search starts at the leading digit of the number, and a coarser grid is not asked. It could hold
a decimal that reads back in one way only: the number lies so close below a power of ten that this
power is rounded down to it. Then the grid of the leading digit gives ten of its steps, which is
that power (`onGrid?_carry`). -/

include hs hpos in
/-- No number other than zero is below one quantum. -/
theorem quantum_le : 1 / (perUnit : ℚ) ≤ x.value := by
  rw [value_of_not_negative hs]
  apply div_le_div_of_nonneg_right _ perUnit_cast_pos.le
  exact_mod_cast Nat.pos_of_ne_zero hpos

include hx hs hpos in
/-- No rounding leads from two places above the leading digit down to the number. -/
theorem not_nearestTo_ten_zpow : nearestTo (10 ^ (leadExponent x.quanta + 2)) ≠ x := by
  intro h
  have htop := (lead_bounds hs hpos).2
  have hnext : (10 : ℚ) ^ (leadExponent x.quanta + 2) = 10 ^ (leadExponent x.quanta + 1) * 10 := by
    have hplace : leadExponent x.quanta + 2 = leadExponent x.quanta + 1 + 1 := by omega
    rw [hplace, zpow_add_one₀ (by norm_num)]
  have hpower := ten_zpow_pos (leadExponent x.quanta + 1)
  have hquantum := quantum_le hs hpos
  rw [hnext] at h
  generalize (10 : ℚ) ^ (leadExponent x.quanta + 1) = w at *
  have hw : 0 ≤ w * 10 := by positivity
  -- a rounding moves a number by half a quantum or by its relative precision, and this is more than
  -- nine tenths
  have hfar := two_mul_abs_value_sub_le hw hx h
  rw [abs_sub_comm, abs_of_pos (by linarith)] at hfar
  rcases le_max_iff.1 hfar with hfine | hcoarse
  · linarith
  · norm_num [precision] at hcoarse
    linarith

/-- A quantum is a little less than five of the place `-324`. -/
theorem lowest_bounds :
    (10 : ℚ) ^ (-324 : ℤ) ≤ 1 / perUnit ∧ 1 / (perUnit : ℚ) ≤ 10 ^ (-323 : ℤ) ∧
      19 * (10 : ℚ) ^ (-324 : ℤ) ≤ 4 / perUnit := by
  have hcounts : 0 < 10 ^ 323 ∧ perUnit ≤ 10 ^ 323 * 10 ∧ 10 ^ 323 ≤ perUnit ∧
      19 * perUnit ≤ 4 * (10 ^ 323 * 10) := by
    decide +kernel
  have hplace : (10 : ℚ) ^ (-323 : ℤ) = 1 / (10 ^ 323 : Nat) := by
    rw [cast_natPow, one_div, ← zpow_natCast, ← zpow_neg]
    rfl
  have hlowest : (10 : ℚ) ^ (-324 : ℤ) = 1 / ((10 ^ 323 : Nat) * 10) := by
    rw [← div_div, ← hplace, div_eq_mul_inv, ← zpow_sub_one₀ (by norm_num)]
    rfl
  have hunit := perUnit_cast_pos
  rw [hplace, hlowest]
  generalize 10 ^ 323 = t at *
  obtain ⟨h0, h1, h2, h3⟩ := hcounts
  have ht : (0 : ℚ) < t := Nat.cast_pos.2 h0
  have h1 : (perUnit : ℚ) ≤ t * 10 := by exact_mod_cast h1
  have h2 : (t : ℚ) ≤ perUnit := by exact_mod_cast h2
  have h3 : (19 * perUnit : ℚ) ≤ 4 * (t * 10) := by exact_mod_cast h3
  refine ⟨one_div_le_one_div_of_le hunit h1, one_div_le_one_div_of_le ht h2, ?_⟩
  rw [mul_one_div, div_le_div_iff₀ (mul_pos ht (by norm_num)) hunit]
  exact h3

include hx hs hpos in
/-- If the power of ten above the leading digit is rounded to the number, the number is at least
nine and a half of its leading place. Only where that power is below ten quanta this is not plain
from the size of the rounding, and there it is two quanta. -/
theorem nineteen_mul_le (h : nearestTo (10 ^ (leadExponent x.quanta + 1)) = x) :
    19 * (10 : ℚ) ^ leadExponent x.quanta ≤ 2 * x.value := by
  obtain ⟨hlow, htop⟩ := lead_bounds hs hpos
  have hquantum := quantum_le hs hpos
  have hpower := ten_zpow_pos (leadExponent x.quanta)
  have hnext : (10 : ℚ) ^ (leadExponent x.quanta + 1) = 10 ^ leadExponent x.quanta * 10 :=
    zpow_add_one₀ (by norm_num) _
  by_cases hsize : 10 / (perUnit : ℚ) ≤ 10 ^ (leadExponent x.quanta + 1)
  · have hfar := two_mul_abs_value_sub_le (ten_zpow_pos _).le hx h
    rw [abs_sub_comm, abs_of_pos (by linarith)] at hfar
    rw [hnext] at *
    rcases le_max_iff.1 hfar with hfine | hcoarse
    · have hten : 10 / (perUnit : ℚ) = 10 * (1 / perUnit) := by ring
      linarith
    · norm_num [precision] at hcoarse
      linarith
  · obtain ⟨h1, h2, h3⟩ := lowest_bounds
    -- below ten quanta there is one power of ten left to look at
    have hplace : leadExponent x.quanta + 1 = -323 := by
      have habove : (10 : ℚ) ^ (-324 : ℤ) < 10 ^ (leadExponent x.quanta + 1) := by linarith
      have hbelow : (10 : ℚ) ^ (leadExponent x.quanta + 1) < 10 ^ (-322 : ℤ) := by
        have hten : 10 / (perUnit : ℚ) = 10 * (1 / perUnit) := by ring
        have hup : (10 : ℚ) ^ (-322 : ℤ) = 10 ^ (-323 : ℤ) * 10 :=
          zpow_add_one₀ (by norm_num) (-323)
        linarith
      rw [zpow_lt_zpow_iff_right₀ (by norm_num)] at habove hbelow
      omega
    have hcount : x.quanta = 2 := by
      have hone : value ⟨1, -323⟩ = (10 : ℚ) ^ (-323 : ℤ) := by simp [value]
      rw [← h, hplace, ← hone, ← toBinary64_eq_nearestTo]
      decide +kernel
    have hvalue := value_of_not_negative hs
    have hlead : leadExponent x.quanta = -324 := by omega
    rw [hlead, hvalue, hcount]
    refine h3.trans (le_of_eq ?_)
    rw [Nat.cast_ofNat]
    ring

include hx hs hpos in
/-- A number that is rounded from the power of ten above its leading digit is printed as ten of its
leading place. -/
theorem onGrid?_carry (h : nearestTo (10 ^ (leadExponent x.quanta + 1)) = x) :
    onGrid? x (leadExponent x.quanta) = some ⟨10, leadExponent x.quanta⟩ := by
  have hnine := nineteen_mul_le hx hs hpos h
  have htop := (lead_bounds hs hpos).2
  have hvalue := value_eq_overPlace hs (leadExponent x.quanta)
  have hpower := ten_zpow_pos (leadExponent x.quanta)
  have hnext : (10 : ℚ) ^ (leadExponent x.quanta + 1) = 10 * 10 ^ leadExponent x.quanta := by
    rw [zpow_add_one₀ (by norm_num), Rat.mul_comm]
  have hden := overPlace_pos x.quanta (leadExponent x.quanta)
  have hden' : (0 : ℚ) < (overPlace x.quanta (leadExponent x.quanta)).2 := Nat.cast_pos.2 hden
  -- nine and a half of the leading place at least, and less than ten
  have hcounts : 19 * (overPlace x.quanta (leadExponent x.quanta)).2 ≤
        2 * (overPlace x.quanta (leadExponent x.quanta)).1 ∧
      (overPlace x.quanta (leadExponent x.quanta)).1 <
        10 * (overPlace x.quanta (leadExponent x.quanta)).2 := by
    rw [hvalue, ← mul_assoc, mul_le_mul_iff_left₀ hpower, ← mul_div_assoc,
      le_div_iff₀ hden'] at hnine
    rw [hvalue, hnext, mul_lt_mul_iff_left₀ hpower, div_lt_iff₀ hden'] at htop
    exact ⟨by exact_mod_cast hnine, by exact_mod_cast htop⟩
  have hdiv : (overPlace x.quanta (leadExponent x.quanta)).1 /
      (overPlace x.quanta (leadExponent x.quanta)).2 = 9 := by
    rw [Nat.div_eq_iff hden]
    omega
  have hten : upper x (leadExponent x.quanta) = ⟨10, leadExponent x.quanta⟩ := by
    rw [upper, hdiv]
  rw [onGrid?_eq_upper, hten]
  · rw [hten, value, Nat.cast_ofNat, ← hnext, h]
  · have hsum := Nat.div_add_mod (overPlace x.quanta (leadExponent x.quanta)).1
      (overPlace x.quanta (leadExponent x.quanta)).2
    rw [hdiv] at hsum
    omega

include hx hs hpos in
/-- A multiple of a place above the leading digit can be rounded to the number only at the very next
place, and then so is the power of ten. -/
theorem carry_of_lt {k : Nat} (h : nearestTo (value ⟨k, place⟩) = x)
    (habove : leadExponent x.quanta < place) :
    place = leadExponent x.quanta + 1 ∧ nearestTo (10 ^ (leadExponent x.quanta + 1)) = x := by
  have htop := (lead_bounds hs hpos).2
  have hk : k ≠ 0 := coefficient_ne_zero h hpos
  have hle : (10 : ℚ) ^ place ≤ value ⟨k, place⟩ := by
    have hone : (1 : ℚ) ≤ k := by exact_mod_cast Nat.pos_of_ne_zero hk
    rw [value]
    exact le_mul_of_one_le_left (ten_zpow_pos place).le hone
  -- the powers of ten from there up to the place lie between the number and the multiple
  have hread : ∀ e, leadExponent x.quanta + 1 ≤ e → e ≤ place → nearestTo (10 ^ e) = x := by
    intro e hlow hhigh
    have hleft : (10 : ℚ) ^ (leadExponent x.quanta + 1) ≤ 10 ^ e :=
      zpow_le_zpow_right₀ (by norm_num) hlow
    have hright : (10 : ℚ) ^ e ≤ 10 ^ place := zpow_le_zpow_right₀ (by norm_num) hhigh
    exact nearestTo_eq_of_between ((value_nonneg _).trans (lower_le hs place))
      (htop.le.trans hleft) (hright.trans hle) hx (nearestTo_value hx hs) h
  refine ⟨?_, hread _ (le_refl _) habove⟩
  by_contra hne
  exact not_nearestTo_ten_zpow hx hs hpos (hread _ (by omega) (by omega))

include hx hs hpos in
/-- The grid of a multiple that is rounded to the number is one of those that are tried, or finer
than all of them. -/
theorem exists_onGrid {k : Nat} (h : nearestTo (value ⟨k, place⟩) = x)
    (hbelow : place ≤ leadExponent x.quanta) :
    ∃ j : Nat, j ≤ mostDigits - 1 ∧ place ≤ leadExponent x.quanta - j ∧
      (onGrid? x (leadExponent x.quanta - j)).isSome = true := by
  by_cases hfine : leadExponent x.quanta - place ≤ (mostDigits - 1 : Nat)
  · have hexact : leadExponent x.quanta - ((leadExponent x.quanta - place).toNat : ℤ) = place := by
      omega
    refine ⟨(leadExponent x.quanta - place).toNat, by omega, by omega, ?_⟩
    rw [hexact]
    exact onGrid?_isSome hx hs h
  · exact ⟨mostDigits - 1, Nat.le_refl _, by omega, onGrid?_last hx hs hpos⟩

include hx hs hpos in
/-- A number that is the rounding of a multiple of some power of ten is printed as a multiple of
it. -/
theorem shortest_multiple {k : Nat} (h : nearestTo (value ⟨k, place⟩) = x) :
    ∃ j : Nat, (shortest x).value = j * 10 ^ place := by
  rcases lt_or_ge (leadExponent x.quanta) place with habove | hbelow
  · obtain ⟨rfl, hcarry⟩ := carry_of_lt hx hs hpos h habove
    have hfirst : shortest x = ⟨10, leadExponent x.quanta⟩ := by
      rw [shortest, mostDigits, shortestFrom, onGrid?_carry hx hs hpos hcarry, Option.getD_some]
    refine ⟨1, ?_⟩
    rw [hfirst, value, Nat.cast_ofNat, zpow_add_one₀ (by norm_num), Rat.mul_comm, Nat.cast_one,
      one_mul]
  · obtain ⟨j, hj, hplace, hgrid⟩ := exists_onGrid hx hs hpos h hbelow
    obtain ⟨i, hi, hshortest⟩ := shortestFrom_spec x _ (mostDigits - 1) j hj hgrid
    have hexponent := (onGrid?_eq_some hshortest).1
    apply value_multiple
    rw [shortest, hexponent]
    omega

end

/-! ## 5. One digit

The error of a measurement is printed with one digit, which is a rounding and has nothing to do with
reading back. What can be said of it is that no other decimal of one digit is nearer. -/

/-- The digits of the leading place, rounded; ten if they carry. -/
def leadDigit (n : Nat) : Nat :=
  nearestEven (overPlace n (leadExponent n)).1 (overPlace n (leadExponent n)).2

/-- The branch of `oneDigit` on a carry, with its digit under a name of its own. -/
theorem oneDigit_eq (n : Nat) :
    oneDigit n =
      if leadDigit n = 10 then ⟨1, leadExponent n + 1⟩ else ⟨leadDigit n, leadExponent n⟩ := rfl

/-- The carry to the next place keeps the value. -/
theorem value_oneDigit (n : Nat) : (oneDigit n).value = leadDigit n * 10 ^ leadExponent n := by
  rw [oneDigit_eq]
  by_cases hten : leadDigit n = 10
  · rw [if_pos hten, hten, value, Nat.cast_one, one_mul, zpow_add_one₀ (by norm_num), Rat.mul_comm,
      Nat.cast_ofNat]
  · rw [if_neg hten, value]

/-- Rounding to the leading place moves a number by half of that place at most. -/
theorem abs_leadDigit_sub_le (n : Nat) :
    |(leadDigit n : ℚ) - n / perUnit / 10 ^ leadExponent n| ≤ 1 / 2 := by
  rw [← overPlace_div]
  exact abs_nearestEven_sub_le _ (overPlace_pos n _)

/-- The rounded leading digit is not zero, and ten at most. -/
theorem leadDigit_bounds (hn : n ≠ 0) : 1 ≤ leadDigit n ∧ leadDigit n ≤ 10 := by
  have hpower := ten_zpow_pos (leadExponent n)
  obtain ⟨hlow, htop⟩ := leadExponent_bounds hn
  have hhalf := abs_le.1 (abs_leadDigit_sub_le n)
  rw [zpow_add_one₀ (by norm_num), ← div_lt_iff₀' hpower] at htop
  rw [← one_le_div hpower] at hlow
  -- the quotient is from `1` up to below `10`, and the rounding moves it by `1 / 2` at most
  generalize leadDigit n = digit at *
  constructor
  · have hpos : (0 : ℚ) < digit := by linarith
    exact_mod_cast hpos
  · have hlt : (digit : ℚ) < 11 := by linarith
    have hlt : digit < 11 := by exact_mod_cast hlt
    omega

/-- One digit is one of `1` to `9`. -/
theorem oneDigit_coefficient (hn : n ≠ 0) :
    1 ≤ (oneDigit n).coefficient ∧ (oneDigit n).coefficient ≤ 9 := by
  have hdigit := leadDigit_bounds hn
  rw [oneDigit_eq]
  generalize leadDigit n = digit at *
  by_cases hten : digit = 10
  · simp [hten]
  · simp [hten]
    omega

/-- No decimal of one digit is nearer to a number than the one it is rounded to. -/
theorem oneDigit_nearest (hn : n ≠ 0) {k : Nat} (hk : k ≤ 9) (e : ℤ) :
    |(oneDigit n).value - n / perUnit| ≤ |value ⟨k, e⟩ - n / perUnit| := by
  have hpower := ten_zpow_pos (leadExponent n)
  obtain ⟨hlow, -⟩ := leadExponent_bounds hn
  have hgrid : ∀ j : Nat, |(oneDigit n).value - n / perUnit| ≤
      |(j : ℚ) * 10 ^ leadExponent n - n / perUnit| := by
    intro j
    have hexact : (n / perUnit : ℚ) = n / perUnit / 10 ^ leadExponent n * 10 ^ leadExponent n :=
      (div_mul_cancel₀ _ hpower.ne').symm
    rw [value_oneDigit, hexact, ← sub_mul, ← sub_mul, abs_mul, abs_mul]
    exact mul_le_mul_of_nonneg_right (abs_sub_le_of_le_half (abs_leadDigit_sub_le n) j)
      (abs_nonneg _)
  rcases lt_or_ge e (leadExponent n) with hbelow | habove
  · -- what has its digit further right is below the power of ten of the leading place
    have hsmall : value ⟨k, e⟩ ≤ 10 ^ leadExponent n := by
      calc value ⟨k, e⟩ ≤ 10 * 10 ^ e := by
            apply mul_le_mul_of_nonneg_right _ (ten_zpow_pos e).le
            exact_mod_cast hk.trans (by norm_num)
        _ = 10 ^ (e + 1) := by rw [zpow_add_one₀ (by norm_num), Rat.mul_comm]
        _ ≤ 10 ^ leadExponent n := zpow_le_zpow_right₀ (by norm_num) hbelow
    refine (hgrid 1).trans ?_
    rw [Nat.cast_one, one_mul, abs_sub_comm, abs_sub_comm (value _), abs_of_nonneg (by linarith),
      abs_of_nonneg (by linarith)]
    linarith
  · obtain ⟨j, hj⟩ := value_multiple (d := ⟨k, e⟩) habove
    rw [hj]
    exact hgrid j

end Metrology.Decimal
