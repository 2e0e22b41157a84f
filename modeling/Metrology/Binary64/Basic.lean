/-
Binary64 numbers as exact values.

Every finite binary64 number is a whole multiple of `2 ^ -1074`, the least positive one. Call that
amount a *quantum*. A finite number is then a sign and a natural number of quanta, and all
arithmetic on it is exact arithmetic on natural numbers followed by one rounding. The sign stands
apart because `0` and `-0` are two numbers. There is a single NaN: nothing in this library looks at
the payload of one.

Which counts of quanta are numbers of the format is `Representable`: at most 53 significant bits,
below `2 ^ 1024`. The type carries that as a proof, so two finite numbers are equal exactly when
their signs and counts are, and no second normal form is needed.

The one rounding is `ofRatio`. Its grid at a quotient is the power of two that leaves 53 bits, and
one quantum below that; `nearestEven` does the rest.
-/
import Metrology.Rounding
set_option autoImplicit false

namespace Metrology

namespace Binary64

/-! ## 1. Which counts of quanta are numbers -/

/-- Significant bits of a number. -/
def precision : Nat := 53

/-- A quantum is two to the power of minus this. -/
def quantumExponent : Nat := 1074

/-- Finite numbers lie below two to this power. -/
def rangeExponent : Nat := 1024

/-- The number of quanta in `1`. -/
def perUnit : Nat := 2 ^ quantumExponent

theorem perUnit_pos : 0 < perUnit := Nat.two_pow_pos quantumExponent

/-- The first count of quanta past the finite numbers. -/
def overflow : Nat := 2 ^ (rangeExponent + quantumExponent)

theorem overflow_pos : 0 < overflow := Nat.two_pow_pos (rangeExponent + quantumExponent)

/-- The exponent of the grid at a count of quanta: the number of its bits beyond the significant
ones. Counts of at most 53 bits lie on the finest grid, that of single quanta. -/
def gridExponent (n : Nat) : Nat := n.log2 + 1 - precision

/-- A count of quanta is a finite number of the format: it is in range and has no bit beyond its
53 significant ones. -/
def Representable (n : Nat) : Prop := n < overflow ∧ n % 2 ^ gridExponent n = 0

instance (n : Nat) : Decidable (Representable n) :=
  inferInstanceAs (Decidable (_ ∧ _))

/-- A whole number of 53 bits on any grid is representable while it is in range. -/
theorem representable_mul_two_pow (m e : Nat) (hm : m < 2 ^ precision) (h : m * 2 ^ e < overflow) :
    Representable (m * 2 ^ e) := by
  refine ⟨h, ?_⟩
  by_cases h0 : m = 0
  · simp [h0]
  have hne : m * 2 ^ e ≠ 0 := Nat.mul_ne_zero h0 (Nat.ne_of_gt (Nat.two_pow_pos e))
  have hlog : (m * 2 ^ e).log2 < precision + e := by
    rw [Nat.log2_lt hne, Nat.pow_add]
    exact Nat.mul_lt_mul_of_pos_right hm (Nat.two_pow_pos e)
  have hd : 2 ^ gridExponent (m * 2 ^ e) ∣ 2 ^ e :=
    Nat.pow_dvd_pow 2 (by unfold gridExponent; omega)
  exact Nat.mod_eq_zero_of_dvd (Nat.dvd_trans hd (Nat.dvd_mul_left _ _))

theorem representable_zero : Representable 0 :=
  ⟨overflow_pos, Nat.zero_mod _⟩

/-- Conversely a representable count is 53 bits on its grid. -/
theorem Representable.significand_lt {n : Nat} (_ : Representable n) :
    n / 2 ^ gridExponent n < 2 ^ precision := by
  rw [Nat.div_lt_iff_lt_mul (Nat.two_pow_pos _), ← Nat.pow_add]
  refine Nat.lt_of_lt_of_le (Nat.lt_log2_self (n := n)) (Nat.pow_le_pow_right (by decide) ?_)
  unfold gridExponent
  omega

end Binary64

/-! ## 2. The type -/

/-- A binary64 number: a sign and a count of quanta, an infinity, or NaN. -/
inductive Binary64 where
  | finite (negative : Bool) (quanta : Nat) (representable : Binary64.Representable quanta)
  | infinite (negative : Bool)
  | nan
  deriving DecidableEq

namespace Binary64

/-- The zero of the given sign. -/
def zero (negative : Bool) : Binary64 := .finite negative 0 representable_zero

instance : Inhabited Binary64 := ⟨zero false⟩

instance : OfNat Binary64 0 := ⟨zero false⟩

/-! ## 3. Rounding a quotient -/

/-- A rounded count of quanta: the nearest multiple of the grid at `num / den`. -/
def roundedQuanta (num den : Nat) : Nat :=
  let e := gridExponent (num / den)
  nearestEven num (den * 2 ^ e) * 2 ^ e

/-- On its grid a quotient is a whole number of 53 bits, and rounding up gives at most the next one
after those. -/
theorem nearestEven_grid_le (num den : Nat) :
    nearestEven num (den * 2 ^ gridExponent (num / den)) ≤ 2 ^ precision := by
  refine Nat.le_trans (nearestEven_le_succ _ _) ?_
  rw [← Nat.div_div_eq_div_mul]
  have h : num / den / 2 ^ gridExponent (num / den) < 2 ^ precision := by
    rw [Nat.div_lt_iff_lt_mul (Nat.two_pow_pos _), ← Nat.pow_add]
    refine Nat.lt_of_lt_of_le (Nat.lt_log2_self (n := num / den))
      (Nat.pow_le_pow_right (by decide) ?_)
    unfold gridExponent
    omega
  omega

/-- Rounding up past 53 bits steps onto the next grid, so the rounded count has 53 bits again. -/
theorem representable_roundedQuanta (num den : Nat) (h : roundedQuanta num den < overflow) :
    Representable (roundedQuanta num den) := by
  unfold roundedQuanta at *
  dsimp only at *
  have hle := nearestEven_grid_le num den
  generalize gridExponent (num / den) = e at *
  generalize nearestEven num (den * 2 ^ e) = c at *
  rcases Nat.lt_or_ge c (2 ^ precision) with hlt | hge
  · exact representable_mul_two_pow c e hlt h
  · have hc : c = 2 ^ precision := Nat.le_antisymm hle hge
    have hs : c * 2 ^ e = 1 * 2 ^ (precision + e) := by rw [hc, Nat.one_mul, Nat.pow_add]
    rw [hs] at h ⊢
    exact representable_mul_two_pow 1 (precision + e) (by decide) h

/-- The binary64 number nearest to `num / den` quanta with the given sign, a half going to the even
significand, infinite when the rounded count is out of range. A zero keeps the sign. -/
def ofRatio (negative : Bool) (num den : Nat) : Binary64 :=
  if h : roundedQuanta num den < overflow then
    .finite negative (roundedQuanta num den) (representable_roundedQuanta num den h)
  else .infinite negative

/-- A representable count is its own rounding. -/
theorem roundedQuanta_of_representable (n : Nat) (h : Representable n) :
    roundedQuanta n 1 = n := by
  have hp := Nat.two_pow_pos (gridExponent n)
  obtain ⟨c, hc⟩ : 2 ^ gridExponent n ∣ n := Nat.dvd_of_mod_eq_zero h.2
  simp only [roundedQuanta, Nat.div_one, Nat.one_mul]
  generalize 2 ^ gridExponent n = g at *
  subst hc
  rw [Nat.mul_comm g c, nearestEven_mul c g hp]

/-- A count that is representable is kept as it is. -/
theorem ofRatio_one (negative : Bool) (n : Nat) (h : Representable n) :
    ofRatio negative n 1 = .finite negative n h := by
  have hr := roundedQuanta_of_representable n h
  unfold ofRatio
  rw [dif_pos (by rw [hr]; exact h.1)]
  simp only [hr]

/-- The nearest number to a natural number. -/
def ofNat (n : Nat) : Binary64 := ofRatio false (n * perUnit) 1

/-- The nearest number to an integer. -/
def ofInt (n : Int) : Binary64 := ofRatio (decide (n < 0)) (n.natAbs * perUnit) 1

/-! ## 4. Reading a number -/

/-- The sign, which zeros and infinities have too. NaN counts as positive. -/
def isNegative : Binary64 → Bool
  | .finite s _ _ => s
  | .infinite s => s
  | .nan => false

/-- The count of quanta without the sign; zero where there is none. -/
def quanta : Binary64 → Nat
  | .finite _ n _ => n
  | _ => 0

/-- Neither infinite nor NaN. -/
def isFinite : Binary64 → Bool
  | .finite .. => true
  | _ => false

/-- A finite number is a sign and a count of quanta. -/
theorem exists_finite {x : Binary64} (hx : x.isFinite = true) :
    ∃ s n h, x = .finite s n h := by
  cases x with
  | finite s n h => exact ⟨s, n, h, rfl⟩
  | infinite s => cases hx
  | nan => cases hx

/-- The place of a number on the line, in quanta, with the infinities just outside the finite
numbers. NaN has no place, and both zeros have the same. -/
def place : Binary64 → Option Int
  | .finite s n _ => some (if s then -(n : Int) else n)
  | .infinite s => some (if s then -(overflow : Int) else overflow)
  | .nan => none

/-- Equality as arithmetic has it: NaN differs from everything and the two zeros are equal. This
is not `=`, which tells all numbers of the type apart. -/
def eq (x y : Binary64) : Bool :=
  match x.place, y.place with
  | some a, some b => a == b
  | _, _ => false

/-- Strictly below; false as soon as one side is NaN. -/
def lt (x y : Binary64) : Bool :=
  match x.place, y.place with
  | some a, some b => decide (a < b)
  | _, _ => false

/-- Below or equal; false as soon as one side is NaN. -/
def le (x y : Binary64) : Bool :=
  match x.place, y.place with
  | some a, some b => decide (a ≤ b)
  | _, _ => false

/-- A zero of either sign. -/
def isZero : Binary64 → Bool
  | .finite _ n _ => n == 0
  | _ => false

/-- A number counts as zero exactly when it is one of the two. -/
theorem isZero_iff {x : Binary64} : x.isZero = true ↔ ∃ s, x = zero s := by
  constructor
  · intro h
    cases x with
    | finite s n hn =>
      obtain rfl : n = 0 := beq_iff_eq.1 h
      exact ⟨s, rfl⟩
    | infinite s => cases h
    | nan => cases h
  · rintro ⟨s, rfl⟩
    rfl

/-- Equality of arithmetic is symmetric. -/
theorem eq_comm (x y : Binary64) : x.eq y = y.eq x := by
  unfold eq
  cases x.place <;> cases y.place <;> simp [Bool.beq_comm]

theorem place_zero : (0 : Binary64).place = some 0 := rfl

/-- Comparing with zero asks for a zero of either sign: an infinity has a place other than that of
zero, and NaN has none. -/
theorem eq_zero_eq_isZero (x : Binary64) : x.eq 0 = x.isZero := by
  have hpos : (0 : Int) < overflow := Int.ofNat_lt.2 overflow_pos
  unfold eq
  rw [place_zero]
  cases x with
  | finite s n _ =>
    rw [Bool.eq_iff_iff]
    cases s with
    | false =>
      exact ⟨fun h => by simpa [place, isZero] using h, fun h => by simpa [place, isZero] using h⟩
    | true =>
      exact ⟨fun h => by simpa [place, isZero] using h, fun h => by simpa [place, isZero] using h⟩
  | infinite s =>
    -- each infinity stands outside the finite numbers, hence not at the place of zero
    have hne : ∀ s : Bool, ((if s then -(overflow : Int) else overflow) == 0) = false := by
      intro s
      rw [beq_eq_false_iff_ne]
      cases s
      · exact fun h => by rw [if_neg Bool.false_ne_true] at h; omega
      · exact fun h => by rw [if_pos rfl] at h; omega
    exact hne s
  | nan => rfl

end Binary64

end Metrology
