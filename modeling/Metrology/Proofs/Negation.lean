/-
Uncertainties after a change of sign.

Negation is the product with an exact `-1`, so an uncertainty goes through the rule of products: it
is taken relative to the magnitude, squared, and what comes back is the magnitude times the root of
the square. In exact arithmetic that is the uncertainty again, and `ComesBack.close` says how near
it is in the numbers of the format. But the square has twice the exponent. Where it is rounded to
zero the uncertainty is lost, and where it is rounded to infinity so is what comes back, however
ordinary the three numbers were. These are the only ways to lose it (`ComesBack.kept_iff`), since
between the two the uncertainty comes back up to half its size even where the square has hardly a
bit left.
-/
import Metrology.Evaluation.Operation
import Metrology.Proofs.Roots
set_option autoImplicit false

namespace Metrology

namespace Binary64

variable {x y e : Binary64}

/-! ## 1. Steps that change nothing

Negation is written as a product (`neg`). Of the steps that product takes, these three do nothing to
the number, which leaves one quotient, one square, one root and one product. -/

/-- One is neutral. -/
theorem one_mul_eq (x : Binary64) : mul one x = x := by
  rw [one_eq]
  cases x with
  | nan => rfl
  | infinite t => rw [mul, if_neg perUnit_pos.ne', Bool.false_bne]
  | finite t n h =>
    have hcancel : perUnit * n * 1 = n * perUnit := by rw [Nat.mul_one, Nat.mul_comm]
    rw [mul, Bool.false_bne, ofRatio_eq perUnit_pos Nat.one_pos hcancel, ofRatio_one t n h]

/-- The product with `-1` only turns the sign. -/
theorem mul_ofInt_neg_one (x : Binary64) : mul x (ofInt (-1)) = neg x := by
  rw [ofInt_neg_one]
  cases x with
  | nan => rfl
  | infinite s => rw [mul, if_neg perUnit_pos.ne', Bool.bne_true, neg]
  | finite s n h =>
    have hcancel : n * perUnit * 1 = n * perUnit := Nat.mul_one _
    rw [mul, Bool.bne_true, ofRatio_eq perUnit_pos Nat.one_pos hcancel, ofRatio_one (!s) n h, neg]

/-- A positive zero adds nothing to a number without a negative sign. -/
theorem add_positive_zero (hx : x.isNegative = false) : add x (zero false) = x := by
  cases x with
  | nan => rfl
  | infinite s => rfl
  | finite s n h =>
    obtain rfl : s = false := hx
    rw [zero, add, if_pos rfl, Nat.add_zero, ofRatio_one false n h]

theorem pow_two_eq (x : Binary64) : pow x 2 = mul x x := by
  rw [pow_two, one_mul_eq]

theorem abs_neg_eq (x : Binary64) : x.neg.abs = x.abs := by
  cases x <;> rfl

/-! ## 2. What comes back

`relativeRoot` and `rescaled` are the steps that are left, on one channel: divide, square, take the
root, multiply. -/

/-- The exact uncertainty relative to `x`. -/
def relativeSize (x e : Binary64) : ℚ := |e.value / x.value|

theorem relativeSize_nonneg (x e : Binary64) : 0 ≤ relativeSize x e := abs_nonneg _

/-- The root of the square of the rounded one. -/
def relativeRoot (x e : Binary64) : Binary64 := sqrt (mul (div e x) (div e x))

/-- What the root comes back to. -/
def rescaled (x e : Binary64) : Binary64 := mul x.abs (relativeRoot x e)

theorem isNegative_relativeRoot (x e : Binary64) : (relativeRoot x e).isNegative = false :=
  isNegative_sqrt (isNegative_mul_self _)

theorem isNegative_rescaled (x e : Binary64) : (rescaled x e).isNegative = false :=
  isNegative_mul ((isNegative_abs x).trans (isNegative_relativeRoot x e).symm)

/-! ## 3. Roots of rounded squares

Here `a` is a relative uncertainty, `q` the rounded one, `k` its rounded square and `s` the root. -/

section
variable {a q k s : ℚ}

/-- A square that is off by half leaves the root within half. -/
theorem root_between (ha : 0 < a) (hq : |q - a| ≤ a / 2 ^ precision) (hlow : 2 * q ^ 2 ≤ 3 * k)
    (hhigh : k ≤ 2 * q ^ 2) (hs : 0 ≤ s) (hroot : |s ^ 2 - k| ≤ k / 2 ^ (precision - 2)) :
    a / 2 < s ∧ s < 3 / 2 * a := by
  have hsquare := abs_le.1 (abs_sq_sub_le ha.le hq)
  have hpos : 0 < a ^ 2 := pow_pos ha 2
  rw [abs_le] at hroot
  norm_num [precision] at hsquare hroot
  -- the bounds are linear in the squares, so it is the squares that are compared
  constructor
  · apply lt_of_pow_lt_pow_left₀ 2 hs
    linarith [div_pow a 2 2]
  · apply lt_of_pow_lt_pow_left₀ 2 (by positivity)
    linarith [mul_pow (3 / 2) a 2]

/-- A square that is off by a rounding leaves the root within a few roundings. -/
theorem abs_root_sub_le (ha : 0 < a) (hq : |q - a| ≤ a / 2 ^ precision)
    (hk : |k - q ^ 2| ≤ q ^ 2 / 2 ^ precision) (hs : 0 ≤ s)
    (hroot : |s ^ 2 - k| ≤ k / 2 ^ (precision - 2)) : |s - a| ≤ a / 2 ^ (precision - 3) := by
  have hsquare := abs_le.1 (abs_sq_sub_le ha.le hq)
  have hpos : 0 < a ^ 2 := pow_pos ha 2
  rw [abs_le] at hroot hk
  have hhalf : a / 2 < s := by
    norm_num [precision] at hk
    exact (root_between ha hq (by linarith [sq_nonneg q]) (by linarith [sq_nonneg q]) hs
      (abs_le.2 hroot)).1
  have hfar : |s ^ 2 - a ^ 2| ≤ a / 2 ^ (precision - 3) * (3 / 2 * a) := by
    rw [abs_le]
    norm_num [precision] at hsquare hroot hk ⊢
    constructor <;> linarith [sq a]
  -- the sum of the two is at least three halves of one
  have hsum : 3 / 2 * a ≤ s + a := by linarith
  have hpart : 0 ≤ a / 2 ^ (precision - 3) := div_nonneg ha.le (by positivity)
  apply le_of_mul_le_mul_right _ (by linarith : 0 < s + a)
  calc |s - a| * (s + a) = |s ^ 2 - a ^ 2| := by
        rw [sq_sub_sq, abs_mul, abs_of_pos (by linarith : 0 < s + a), Rat.mul_comm]
    _ ≤ a / 2 ^ (precision - 3) * (3 / 2 * a) := hfar
    _ ≤ a / 2 ^ (precision - 3) * (s + a) := mul_le_mul_of_nonneg_left hsum hpart

end

/-! ## 4. The size of what comes back

The question is where the square lies: rounded to zero, rounded to infinity, or in between. In
between it is compared with the exact relative uncertainty. -/

/-- The exact product of the last step, without its signs. -/
theorem abs_value_mul_relativeRoot (x e : Binary64) :
    |x.abs.value * (relativeRoot x e).value| = |x.value| * (relativeRoot x e).value := by
  rw [value_abs, abs_mul, abs_abs,
    abs_of_nonneg (value_nonneg_of_not_negative (isNegative_relativeRoot x e))]

/-- The root is finite just if the quotient is and its square is in range. -/
theorem isFinite_relativeRoot_iff (x e : Binary64) : (relativeRoot x e).isFinite = true ↔
    (div e x).isFinite = true ∧ (div e x).value ^ 2 < roundingBound := by
  rw [relativeRoot, isFinite_sqrt (isNegative_mul_self _), isFinite_mul_self_iff]

/-- The root is zero just if the square is rounded to zero. -/
theorem isZero_relativeRoot_iff (x e : Binary64) : (relativeRoot x e).isZero = true ↔
    (div e x).isFinite = true ∧ (div e x).value ^ 2 ≤ halfQuantum := by
  rw [relativeRoot, isZero_sqrt, isZero_mul_self_iff]

/-- With a finite root what comes back is the rounding of the exact product. -/
theorem rescaled_eq_nearestTo (hx : x.isFinite = true)
    (hroot : (relativeRoot x e).isFinite = true) :
    rescaled x e = nearestTo (|x.value| * (relativeRoot x e).value) := by
  have hproduct := abs_mul_eq_nearestTo ((isFinite_abs x).trans hx) hroot
  rw [← rescaled, abs_of_not_negative (isNegative_rescaled x e)] at hproduct
  rw [hproduct, abs_value_mul_relativeRoot]

section
variable (hx : x.isFinite = true) (hzero : x.isZero = false) (he : e.isFinite = true)
include hx hzero

/-- What comes back is finite just if each of the three steps is in range. -/
theorem isFinite_rescaled_iff : (rescaled x e).isFinite = true ↔
    (div e x).isFinite = true ∧ (div e x).value ^ 2 < roundingBound ∧
      |x.value| * (relativeRoot x e).value < roundingBound := by
  rw [rescaled, isFinite_nonzero_mul_iff ((isFinite_abs x).trans hx) ((isZero_abs x).trans hzero),
    abs_value_mul_relativeRoot, isFinite_relativeRoot_iff, and_assoc]

/-- The relative uncertainty times the magnitude is the uncertainty. -/
theorem abs_value_mul_relativeSize : |x.value| * relativeSize x e = |e.value| := by
  rw [relativeSize, abs_div, mul_div_cancel₀]
  exact (abs_value_pos hx hzero).ne'

/-- The quotient is the rounding of the relative uncertainty. -/
theorem nearestTo_relativeSize (he : e.isFinite = true) :
    nearestTo (relativeSize x e) = (div e x).abs :=
  (abs_div_eq_nearestTo he hx hzero).symm

include he

/-- A relative uncertainty whose square is not rounded to zero is a normal number, so its rounding
is off by one part in `2 ^ 53`. -/
theorem abs_div_close (hfinite : (div e x).isFinite = true)
    (hlow : halfQuantum ≤ (div e x).value ^ 2) : 0 < relativeSize x e ∧
      |(div e x).abs.value - relativeSize x e| ≤ relativeSize x e / 2 ^ precision := by
  have hnearest := nearestTo_relativeSize hx hzero he
  have hfinite' : (div e x).abs.isFinite = true := (isFinite_abs _).trans hfinite
  have hlarge : 2 * leastNormal ≤ (div e x).abs.value := by
    rw [← sq_abs] at hlow
    rw [value_abs]
    exact two_mul_leastNormal_le (abs_nonneg _) hlow
  have hnormal := leastNormal_le (relativeSize_nonneg x e) hfinite' hnearest hlarge
  exact ⟨leastNormal_pos.trans_le hnormal, abs_value_sub_le_of_normal hnormal hfinite' hnearest⟩

/-- Where the square is rounded neither to zero nor to infinity, at least half of the uncertainty
comes back, and at most three halves of it. -/
theorem rescaled_between (hfinite : (div e x).isFinite = true)
    (hlow : halfQuantum < (div e x).value ^ 2) (hhigh : (div e x).value ^ 2 < roundingBound) :
    |e.value| / 2 < |x.value| * (relativeRoot x e).value ∧
      |x.value| * (relativeRoot x e).value < 3 / 2 * |e.value| := by
  obtain ⟨hpos, hclose⟩ := abs_div_close hx hzero he hfinite hlow.le
  have hsquare : (mul (div e x) (div e x)).isFinite = true :=
    (isFinite_mul_self_iff _).2 ⟨hfinite, hhigh⟩
  have hsome : (mul (div e x) (div e x)).isZero = false := by
    rw [← Bool.not_eq_true, isZero_mul_self_iff]
    exact fun h => not_le.2 hlow h.2
  have hquantum := two_mul_halfQuantum_le hsquare hsome
  have herror := abs_value_sub_le (sq_nonneg _) hsquare (mul_self_eq_nearestTo hfinite).symm
  have hroot := (sqrt_close hsquare (isNegative_mul_self _)).2
  have hs := value_nonneg_of_not_negative (isNegative_relativeRoot x e)
  rw [abs_of_nonneg (value_nonneg_of_not_negative (isNegative_mul_self _))] at hquantum
  rw [← sq_abs, ← value_abs] at hlow herror
  rw [← relativeRoot] at hroot
  generalize (mul (div e x) (div e x)).value = k at *
  generalize (div e x).abs.value = q at *
  -- a square of one quantum is the worst case: it may stand for anything from half of it to one and
  -- a half
  have hwithin : 2 * q ^ 2 ≤ 3 * k ∧ k ≤ 2 * q ^ 2 := by
    rw [abs_le] at herror
    rcases max_choice halfQuantum (q ^ 2 / 2 ^ precision) with hmax | hmax
    · rw [hmax] at herror
      constructor <;> linarith
    · rw [hmax] at herror
      norm_num [precision] at herror
      constructor <;> linarith [sq_nonneg q]
  obtain ⟨hhalf, hmore⟩ := root_between hpos hclose hwithin.1 hwithin.2 hs hroot
  have hsize := abs_value_pos hx hzero
  rw [← abs_value_mul_relativeSize hx hzero]
  constructor
  · rw [mul_div_assoc]
    exact mul_lt_mul_of_pos_left hhalf hsize
  · rw [mul_left_comm]
    exact mul_lt_mul_of_pos_left hmore hsize

/-- Nothing comes back just if the square is rounded to zero. -/
theorem isZero_rescaled_iff : (rescaled x e).isZero = true ↔
    (div e x).isFinite = true ∧ (div e x).value ^ 2 ≤ halfQuantum := by
  rw [rescaled, isZero_nonzero_mul_iff ((isFinite_abs x).trans hx) ((isZero_abs x).trans hzero),
    abs_value_mul_relativeRoot, isFinite_relativeRoot_iff]
  constructor
  · rintro ⟨⟨hfinite, hhigh⟩, hsmall⟩
    refine ⟨hfinite, not_lt.1 fun hlow => ?_⟩
    -- then half of the uncertainty would be below half a quantum
    have hhalf := (rescaled_between hx hzero he hfinite hlow hhigh).1
    have hexact : e.isZero = false := by
      rw [← Bool.not_eq_true]
      intro hnone
      have hpos := (abs_div_close hx hzero he hfinite hlow.le).1
      rw [relativeSize, value_of_isZero hnone, zero_div, abs_zero] at hpos
      exact lt_irrefl 0 hpos
    have hquantum := two_mul_halfQuantum_le he hexact
    linarith
  · rintro ⟨hfinite, hsmall⟩
    have hroot := (isZero_relativeRoot_iff x e).2 ⟨hfinite, hsmall⟩
    rw [value_of_isZero hroot, mul_zero]
    exact ⟨⟨hfinite, hsmall.trans_lt halfQuantum_lt_roundingBound⟩, halfQuantum_pos.le⟩

/-- In the lower half of the range only the square can be rounded to infinity. -/
theorem isFinite_rescaled_iff_of_le (hle : |e.value| ≤ 2 ^ (rangeExponent - 1)) :
    (rescaled x e).isFinite = true ↔
      (div e x).isFinite = true ∧ (div e x).value ^ 2 < roundingBound := by
  rw [isFinite_rescaled_iff hx hzero, ← and_assoc]
  refine and_iff_left_of_imp fun ⟨hfinite, hhigh⟩ => ?_
  rcases le_or_gt ((div e x).value ^ 2) halfQuantum with hsmall | hlow
  · have hroot : (relativeRoot x e).isZero = true :=
      (isZero_sqrt _).trans ((isZero_mul_self_iff _).2 ⟨hfinite, hsmall⟩)
    rw [value_of_isZero hroot, mul_zero]
    exact roundingBound_pos
  · have hmore := (rescaled_between hx hzero he hfinite hlow hhigh).2
    have hhalf := three_halves_lt_roundingBound
    linarith

/-- An exact number stays exact. -/
theorem isZero_rescaled_of_isZero (hnone : e.isZero = true) : (rescaled x e).isZero = true := by
  have hquotient : (div e x).isZero = true := by
    rw [← isZero_abs, ← nearestTo_relativeSize hx hzero he,
      isZero_nearestTo_iff (relativeSize_nonneg x e), relativeSize, value_of_isZero hnone, zero_div,
      abs_zero]
    exact halfQuantum_pos.le
  rw [isZero_rescaled_iff hx hzero he, value_of_isZero hquotient, zero_pow two_ne_zero]
  exact ⟨isFinite_of_isZero hquotient, halfQuantum_pos.le⟩

/-- So in the lower half of the range an uncertainty is kept just if there is none or its relative
square is rounded neither to zero nor to infinity. -/
theorem rescaled_kept_iff (hle : |e.value| ≤ 2 ^ (rangeExponent - 1)) :
    (rescaled x e).isFinite = true ∧ ((rescaled x e).isZero = true ↔ e.isZero = true) ↔
      e.isZero = true ∨ (div e x).isFinite = true ∧ halfQuantum < (div e x).value ^ 2 ∧
        (div e x).value ^ 2 < roundingBound := by
  by_cases hnone : e.isZero = true
  · have hback := isZero_rescaled_of_isZero hx hzero he hnone
    exact iff_of_true ⟨isFinite_of_isZero hback, iff_of_true hback hnone⟩ (.inl hnone)
  · rw [isFinite_rescaled_iff_of_le hx hzero he hle, isZero_rescaled_iff hx hzero he,
      or_iff_right hnone, iff_false_right hnone, not_and, not_le]
    constructor
    · rintro ⟨⟨hfinite, hhigh⟩, hlow⟩
      exact ⟨hfinite, hlow hfinite, hhigh⟩
    · rintro ⟨hfinite, hlow, hhigh⟩
      exact ⟨⟨hfinite, hhigh⟩, fun _ => hlow⟩

/-- Where the square is a normal number, its root is the relative uncertainty up to a few
roundings. -/
theorem relativeRoot_close (hfinite : (div e x).isFinite = true)
    (hlow : leastNormal ≤ (div e x).value ^ 2) (hhigh : (div e x).value ^ 2 < roundingBound) :
    |(relativeRoot x e).value - relativeSize x e| ≤ relativeSize x e / 2 ^ (precision - 3) := by
  obtain ⟨hpos, hclose⟩ :=
    abs_div_close hx hzero he hfinite (halfQuantum_lt_leastNormal.le.trans hlow)
  have hsquare : (mul (div e x) (div e x)).isFinite = true :=
    (isFinite_mul_self_iff _).2 ⟨hfinite, hhigh⟩
  have herror := abs_value_sub_le_of_normal hlow hsquare (mul_self_eq_nearestTo hfinite).symm
  have hroot := (sqrt_close hsquare (isNegative_mul_self _)).2
  rw [← sq_abs, ← value_abs] at herror
  rw [← relativeRoot] at hroot
  exact abs_root_sub_le hpos hclose herror
    (value_nonneg_of_not_negative (isNegative_relativeRoot x e)) hroot

/-- So what comes back is the uncertainty, up to a few roundings. -/
theorem rescaled_close (hfinite : (div e x).isFinite = true)
    (hlow : leastNormal ≤ (div e x).value ^ 2) (hin : (rescaled x e).isFinite = true) :
    |(rescaled x e).value - e.abs.value| ≤ |e.value| / 2 ^ (precision - 4) + halfQuantum := by
  obtain ⟨-, hhigh, -⟩ := (isFinite_rescaled_iff hx hzero).1 hin
  have hroot := relativeRoot_close hx hzero he hfinite hlow hhigh
  have hlast := abs_value_sub_le (mul_nonneg (abs_nonneg _)
    (value_nonneg_of_not_negative (isNegative_relativeRoot x e))) hin
    (rescaled_eq_nearestTo hx ((isFinite_relativeRoot_iff x e).2 ⟨hfinite, hhigh⟩)).symm
  have hsize := abs_nonneg x.value
  have hexact : 0 ≤ |x.value| * relativeSize x e := mul_nonneg hsize (relativeSize_nonneg x e)
  rw [value_abs, ← abs_value_mul_relativeSize hx hzero (e := e)]
  generalize (relativeRoot x e).value = s at *
  generalize |x.value| = size at *
  generalize relativeSize x e = a at *
  have hscaled : |size * s - size * a| ≤ size * a / 2 ^ (precision - 3) := by
    rw [← mul_sub, abs_mul, abs_of_nonneg hsize, mul_div_assoc]
    exact mul_le_mul_of_nonneg_left hroot hsize
  obtain ⟨-, hscaled'⟩ := abs_le.1 hscaled
  -- one error comes with the root, the other one from the last product
  refine (abs_sub_le _ (size * s) _).trans ?_
  rcases max_choice halfQuantum (size * s / 2 ^ precision) with hmax | hmax
  · rw [hmax] at hlast
    norm_num [precision] at *
    linarith
  · rw [hmax] at hlast
    norm_num [precision] at *
    linarith [halfQuantum_pos]

end

/-! ## 5. In terms of the exact uncertainty -/

/-- A relative uncertainty between `2 ^ -510` and `2 ^ 510` has a square that is a normal number. -/
theorem sq_div_between (hx : x.isFinite = true) (hzero : x.isZero = false) (he : e.isFinite = true)
    (hlow : 1 / 2 ^ 510 ≤ relativeSize x e) (hhigh : relativeSize x e ≤ 2 ^ 510) :
    (div e x).isFinite = true ∧ leastNormal ≤ (div e x).value ^ 2 ∧
      (div e x).value ^ 2 < roundingBound := by
  have hnearest := nearestTo_relativeSize hx hzero he
  have hleast := leastNormal_eq
  have hmost := sq_lt_roundingBound
  have hsmall : (1 : ℚ) / 2 ^ 511 ≤ 1 := div_le_self zero_le_one (one_le_pow₀ one_le_two)
  have hlarge : (1 : ℚ) ≤ 2 ^ 511 := one_le_pow₀ one_le_two
  have hlow' : 2 * (1 / 2 ^ 511) ≤ relativeSize x e := by
    rw [pow_succ, ← div_div, mul_div_cancel₀ _ two_ne_zero]
    exact hlow
  have hhigh' : 2 * relativeSize x e ≤ 2 ^ 511 := by
    rw [pow_succ']
    exact mul_le_mul_of_nonneg_left hhigh zero_le_two
  have hpos : (0 : ℚ) < 1 / 2 ^ 511 := by positivity
  clear hlow hhigh
  generalize (1 : ℚ) / 2 ^ 511 = least at *
  generalize (2 : ℚ) ^ 511 = most at *
  have hfinite : (div e x).abs.isFinite = true := by
    rw [← hnearest, isFinite_nearestTo_iff (relativeSize_nonneg x e)]
    linarith [le_self_pow₀ hlarge two_ne_zero]
  have hnormal : leastNormal ≤ relativeSize x e := by
    rw [hleast]
    linarith [pow_le_of_le_one hpos.le hsmall two_ne_zero]
  -- rounding moves it by less than half
  have herror := abs_le.1 (abs_value_sub_le_of_normal hnormal hfinite hnearest)
  norm_num only [precision] at herror
  rw [value_abs] at herror
  rw [← sq_abs, hleast]
  refine ⟨(isFinite_abs _).symm.trans hfinite, ?_, ?_⟩
  · apply pow_le_pow_left₀ hpos.le
    linarith
  · apply lt_of_le_of_lt _ hmost
    apply pow_le_pow_left₀ (abs_nonneg _)
    linarith

/-- What comes back is not NaN. -/
theorem rescaled_ne_nan (hx : x.isFinite = true) (hzero : x.isZero = false)
    (he : e.isFinite = true) :
    rescaled x e ≠ nan := by
  have hroot : relativeRoot x e ≠ nan :=
    sqrt_ne_nan (mul_self_ne_nan (div_ne_nan he hx hzero)) (isNegative_mul_self _)
  exact mul_ne_nan ((isFinite_abs x).trans hx) ((isZero_abs x).trans hzero) hroot

/-- What an uncertainty `e` of `x` comes back as. It is kept as long as the square of the relative
uncertainty is in range, and `isZero_iff` and `isFinite_iff` say what happens elsewhere. -/
structure ComesBack (x e e' : Binary64) : Prop where
  isNegative : e'.isNegative = false
  ne_nan : e' ≠ nan
  isZero_iff : e'.isZero = true ↔ (div e x).isFinite = true ∧ (div e x).value ^ 2 ≤ halfQuantum
  isFinite_iff : e'.isFinite = true ↔
    (div e x).isFinite = true ∧ (div e x).value ^ 2 < roundingBound ∧
      |x.value| * (relativeRoot x e).value < roundingBound
  kept_iff : |e.value| ≤ 2 ^ 1023 →
    (e'.isFinite = true ∧ (e'.isZero = true ↔ e.isZero = true) ↔
      e.isZero = true ∨ (div e x).isFinite = true ∧ halfQuantum < (div e x).value ^ 2 ∧
        (div e x).value ^ 2 < roundingBound)
  close : |e.value| ≤ 2 ^ 1023 → 1 / 2 ^ 510 ≤ |e.value / x.value| → |e.value / x.value| ≤ 2 ^ 510 →
    e'.isFinite = true ∧ e'.isZero = false ∧
      |e'.value - e.abs.value| ≤ |e.value| / 2 ^ 49 + halfQuantum

/-- What the steps come to is what an uncertainty comes back as. -/
theorem comesBack_rescaled (hx : x.isFinite = true) (hzero : x.isZero = false)
    (he : e.isFinite = true) : ComesBack x e (rescaled x e) where
  isNegative := isNegative_rescaled x e
  ne_nan := rescaled_ne_nan hx hzero he
  isZero_iff := isZero_rescaled_iff hx hzero he
  isFinite_iff := isFinite_rescaled_iff hx hzero
  kept_iff := rescaled_kept_iff hx hzero he
  close := by
    intro hle hlow hhigh
    obtain ⟨hfinite, hnormal, hsquare⟩ := sq_div_between hx hzero he hlow hhigh
    have hin := (isFinite_rescaled_iff_of_le hx hzero he hle).2 ⟨hfinite, hsquare⟩
    refine ⟨hin, ?_, rescaled_close hx hzero he hfinite hnormal hin⟩
    rw [← Bool.not_eq_true, isZero_rescaled_iff hx hzero he]
    exact fun h => not_le.2 (halfQuantum_lt_leastNormal.trans_le hnormal) h.2

end Binary64

namespace Measurement

open Binary64 (rescaled ComesBack)
open Decimal (toBinary64)

/-- The rule of products on one channel, in terms of arithmetic (`relative_channel`). -/
theorem relativeRule_rounded (result x y e f : Binary64) : relativeRule result x y e f =
    result.abs.mul (Binary64.sqrt (((relative e x).pow 2).add ((relative f y).pow 2))) := by
  have hmul (a b : Binary64) : a * b = a.mul b := rfl
  have hadd (a b : Binary64) : a + b = a.add b := rfl
  rw [relativeRule, quadrature, Numerics.square, Numerics.square, hmul, hadd]
  rfl

/-- Relative to what is not zero, an uncertainty is a quotient (`safe_div`). -/
theorem relative_of_not_zero {x e : Binary64} (hzero : x.isZero = false) :
    relative e x = e.div x := by
  rw [relative, Numerics.isZero_rounded, hzero, if_neg Bool.false_ne_true]
  rfl

/-- Negation turns the magnitude, and takes each channel there and back. The exact factor has no
uncertainty to add. -/
theorem neg_eq {m : Measurement} (hzero : m.magnitude.isZero = false) :
    -m = m.perChannel m.magnitude.neg (rescaled m.magnitude) := by
  have hmagnitude : m.magnitude * Binary64.ofInt (-1) = m.magnitude.neg :=
    Binary64.mul_ofInt_neg_one m.magnitude
  have hexact : (relative 0 (Binary64.ofInt (-1))).pow 2 = .zero false := by decide +kernel
  have hrule (e : Binary64) : relativeRule m.magnitude.neg m.magnitude (Binary64.ofInt (-1)) e 0 =
      rescaled m.magnitude e := by
    rw [relativeRule_rounded, hexact, Binary64.add_positive_zero (Binary64.isNegative_pow_two _),
      Binary64.pow_two_eq, relative_of_not_zero hzero, Binary64.abs_neg_eq, rescaled,
      Binary64.relativeRoot]
  show m.mul (exact (Binary64.ofInt (-1))) = _
  rw [mul, perChannels, exact, perChannel]
  dsimp only
  rw [hmagnitude, hrule, hrule]

/-- Negation turns the magnitude, by operator or by unary minus, and of each channel gives what
comes back of it: zero if the channel is zero or the square of the relative uncertainty is rounded
to zero, and no finite number if that square is rounded to infinity. A channel of at most `2 ^ 1023`
is finite again in all other cases, and one whose relative uncertainty lies between `2 ^ -510` and
`2 ^ 510` is kept up to one part in `2 ^ 49`. -/
theorem negation_keeps_uncertainty_in_range {m : Measurement}
    (hfinite : m.magnitude.isFinite = true)
    (hzero : m.magnitude.isZero = false) (hreading : m.readingError.isFinite = true)
    (hstandard : m.standardError.isFinite = true) :
    Operation.unary .negate (.number m) = .ok (.number (-m)) ∧
      (-m).magnitude = m.magnitude.neg ∧
      ComesBack m.magnitude m.readingError (-m).readingError ∧
      ComesBack m.magnitude m.standardError (-m).standardError := by
  rw [neg_eq hzero]
  exact ⟨by rw [Operation.unary, neg_eq hzero], rfl,
    Binary64.comesBack_rescaled hfinite hzero hreading,
    Binary64.comesBack_rescaled hfinite hzero hstandard⟩

/-- `2 ± 0.5`: the reading error stays up to a rounding, and no standard error appears. -/
theorem negation_of_two :
    let m := reading (toBinary64 false ⟨2, 0⟩) (toBinary64 false ⟨5, -1⟩)
    (-m).magnitude = toBinary64 true ⟨2, 0⟩ ∧ (-m).readingError.isFinite = true ∧
      (-m).readingError.isZero = false ∧ (-m).standardError.isZero = true := by
  intro m
  have hsize : |m.readingError.value| ≤ 2 ^ 1023 := by decide +kernel
  have hlow : 1 / 2 ^ 510 ≤ |m.readingError.value / m.magnitude.value| := by decide +kernel
  have hhigh : |m.readingError.value / m.magnitude.value| ≤ 2 ^ 510 := by decide +kernel
  obtain ⟨-, hmagnitude, hreading, hstandard⟩ := negation_keeps_uncertainty_in_range (m := m)
    (by decide +kernel) (by decide +kernel) (by decide +kernel) rfl
  obtain ⟨hfinite, hzero, -⟩ := hreading.close hsize hlow hhigh
  obtain ⟨-, hexact⟩ := (hstandard.kept_iff (by decide +kernel)).2 (.inl rfl)
  exact ⟨hmagnitude.trans (by decide +kernel), hfinite, hzero, hexact.2 rfl⟩

/-- `1e200 ± 1` loses its uncertainty with the change of sign, and that of `1 ± 1e200` becomes
infinite: in both the square of the relative uncertainty is out of range. -/
theorem uncertainty_lost_by_negation :
    let x := toBinary64 false ⟨1, 200⟩
    x.isFinite = true ∧ x.isZero = false ∧ Binary64.one.isFinite = true ∧
      Binary64.one.isZero = false ∧
      Operation.unary .negate (.number (reading x .one)) = .ok (.number (exact x.neg)) ∧
      -(reading x .one) = exact x.neg ∧
      -(reading .one x) = reading Binary64.one.neg (.infinite false) := by
  intro x
  have hnone : -(reading x .one) = exact x.neg := by decide +kernel
  refine ⟨by decide +kernel, by decide +kernel, by decide +kernel, by decide +kernel, ?_, hnone,
    by decide +kernel⟩
  rw [Operation.unary, hnone]

end Measurement

end Metrology
