/-
Rounding as a function on the rational numbers.

A decimal that is written and a number that is shown meet in the rational number that both stand
for, so what printing needs to know of rounding is said here about rational numbers. `nearestTo` is
monotone in the form that is used: between two numbers that are rounded to `x` everything is rounded
to `x`. Two finite numbers are never closer than the last bit of the smaller one, so what is within
`2 ^ -54` of a number is rounded to it; and conversely no rounding moves by more than half a quantum
or one part in `2 ^ 53`.
-/
import Metrology.Proofs.Decimals
import Metrology.Proofs.Range
set_option autoImplicit false

namespace Metrology

namespace Binary64

variable {x y : Binary64} {q : ℚ}

/-! ## 1. The nearest number

Rounding was proved right for quotients of natural numbers. Here it becomes a function of the
quotient itself, and from its being nearest follows that it is monotone where that is needed. -/

/-- The number nearest to a rational number that is not negative. -/
def nearestTo (q : ℚ) : Binary64 := ofRatio false (q.num.toNat * perUnit) q.den

/-- A rational number that is not negative as a quotient of quanta. -/
theorem div_perUnit_eq (hq : 0 ≤ q) :
    ((q.num.toNat * perUnit : Nat) : ℚ) / (q.den * perUnit) = q := by
  have hnum : ((q.num.toNat : Nat) : ℚ) = q.num := by
    have hcast : ((q.num.toNat : Nat) : ℤ) = q.num := Int.toNat_of_nonneg (Rat.num_nonneg.2 hq)
    exact_mod_cast hcast
  rw [Nat.cast_mul, mul_div_mul_right _ _ perUnit_cast_pos.ne', hnum, Rat.num_div_den]

/-- It does not matter how the quotient is written. -/
theorem nearestTo_div {num den : Nat} (hden : 0 < den) :
    nearestTo (num / (den * perUnit)) = ofRatio false num den := by
  have hunit : (0 : ℚ) < den * perUnit := mul_pos (Nat.cast_pos.2 hden) perUnit_cast_pos
  have hq : (0 : ℚ) ≤ num / (den * perUnit) := div_nonneg (Nat.cast_nonneg num) hunit.le
  generalize hquotient : (num : ℚ) / (den * perUnit) = q at hq
  have hden' : (0 : ℚ) < q.den * perUnit := mul_pos (Nat.cast_pos.2 q.den_pos) perUnit_cast_pos
  have hsame := (div_perUnit_eq hq).trans hquotient.symm
  rw [div_eq_div_iff hden'.ne' hunit.ne', ← mul_assoc, ← mul_assoc,
    mul_left_inj' perUnit_cast_pos.ne'] at hsame
  exact ofRatio_eq q.den_pos hden (by exact_mod_cast hsame) false

/-- The number of a decimal is the one nearest to its value. -/
theorem toBinary64_eq_nearestTo (d : Decimal) : d.toBinary64 false = nearestTo d.value := by
  rw [d.toBinary64_eq_nearest, Decimal.nearest, ← d.quotient_eq_value,
    nearestTo_div (Nat.pow_pos (by decide))]

theorem isNegative_nearestTo (q : ℚ) : (nearestTo q).isNegative = false :=
  isNegative_ofRatio false _ _

/-- What is below the bound is rounded to a finite number, and nothing else is. -/
theorem isFinite_nearestTo_iff (hq : 0 ≤ q) :
    (nearestTo q).isFinite = true ↔ q < roundingBound := by
  rw [nearestTo, isFinite_ofRatio_iff_lt q.den_pos, div_perUnit_eq hq]

/-- A finite rounding is the nearest number, with ties to the even one. -/
theorem isNearest_nearestTo (hq : 0 ≤ q) (h : (nearestTo q).isFinite = true) :
    (nearestTo q).IsNearest q := by
  have hnearest := isNearest_ofRatio q.den_pos h
  rwa [div_perUnit_eq hq] at hnearest

/-- Of a number that is not negative the sign and the value are all there is. -/
theorem eq_of_value_eq (hx : x.isFinite = true) (hy : y.isFinite = true)
    (hxs : x.isNegative = false) (hys : y.isNegative = false) (h : x.value = y.value) : x = y := by
  obtain ⟨s, m, hm, rfl⟩ := exists_finite hx
  obtain ⟨t, n, hn, rfl⟩ := exists_finite hy
  obtain rfl : s = false := hxs
  obtain rfl : t = false := hys
  rw [value_positive, value_positive, div_left_inj' perUnit_cast_pos.ne'] at h
  obtain rfl := Nat.cast_injective h
  rfl

/-- A number of the format is nearest to itself. -/
theorem nearestTo_value (hx : x.isFinite = true) (hs : x.isNegative = false) :
    nearestTo x.value = x := by
  obtain ⟨s, n, h, rfl⟩ := exists_finite hx
  obtain rfl : s = false := hs
  have hdiv : nearestTo (n / ((1 : Nat) * perUnit)) = ofRatio false n 1 := nearestTo_div Nat.one_pos
  rw [Nat.cast_one, one_mul, ofRatio_one false n h] at hdiv
  rw [value_positive, hdiv]

/-- What is at least as near to the smaller one of two numbers is at most half-way. -/
theorem two_mul_le_of_abs_le {u w : ℚ} (huw : u < w) (h : |u - q| ≤ |w - q|) : 2 * q ≤ u + w := by
  by_contra hpast
  have hleft : |u - q| = q - u := by
    rw [abs_sub_comm]
    exact abs_of_nonneg (by linarith)
  have hright : |w - q| < q - u := abs_lt.2 ⟨by linarith, by linarith⟩
  linarith

/-- What is at least as near to the larger one is at least half-way. -/
theorem le_two_mul_of_abs_le {u w : ℚ} (huw : u < w) (h : |w - q| ≤ |u - q|) : u + w ≤ 2 * q := by
  have hturned : |-w - -q| ≤ |-u - -q| := by
    rwa [neg_sub_neg, neg_sub_neg, abs_sub_comm q w, abs_sub_comm q u]
  have hle := two_mul_le_of_abs_le (neg_lt_neg huw) hturned
  linarith

/-- Between two numbers that are rounded to `x` all numbers are. If one were rounded to a number
below `x`, it would be at most half-way to `x`, and the lower one of the two at least half-way. -/
theorem nearestTo_eq_of_between {a b : ℚ} (ha : 0 ≤ a) (haq : a ≤ q) (hqb : q ≤ b)
    (hx : x.isFinite = true) (hlow : nearestTo a = x) (hhigh : nearestTo b = x) :
    nearestTo q = x := by
  have hq : 0 ≤ q := ha.trans haq
  have hb : 0 ≤ b := hq.trans hqb
  have hbound : b < roundingBound := by
    rw [← isFinite_nearestTo_iff hb, hhigh]
    exact hx
  have hfinite : (nearestTo q).isFinite = true :=
    (isFinite_nearestTo_iff hq).2 (hqb.trans_lt hbound)
  have hnear : |(nearestTo q).value - q| ≤ |x.value - q| :=
    (isNearest_nearestTo hq hfinite).nearest x hx
  rcases lt_trichotomy (nearestTo q).value x.value with hlt | heq | hgt
  · have hfar : |x.value - a| ≤ |(nearestTo q).value - a| := by
      rw [← hlow] at hx ⊢
      exact (isNearest_nearestTo ha hx).nearest _ hfinite
    have hbelow := two_mul_le_of_abs_le hlt hnear
    have habove := le_two_mul_of_abs_le hlt hfar
    have haq : a = q := by linarith
    rw [← haq, hlow]
  · exact eq_of_value_eq hfinite hx (isNegative_nearestTo q) (hlow ▸ isNegative_nearestTo a) heq
  · have hfar : |x.value - b| ≤ |(nearestTo q).value - b| := by
      rw [← hhigh] at hx ⊢
      exact (isNearest_nearestTo hb hx).nearest _ hfinite
    have hbelow := two_mul_le_of_abs_le hgt hfar
    have habove := le_two_mul_of_abs_le hgt hnear
    have hbq : b = q := by linarith
    rw [← hbq, hhigh]

/-! ## 2. The distance between numbers

Two numbers of the format are apart by the step of the smaller one's grid at least. Against this a
distance is measured: what is closer than half of it belongs to the number, and a rounding moves by
no more than that. -/

/-- A count is below `2 ^ 53` steps of its grid. -/
theorem Representable.add_grid_le_mul {n : Nat} (h : Representable n) :
    n + 2 ^ gridExponent n ≤ 2 ^ gridExponent n * 2 ^ precision := by
  obtain ⟨c, hc⟩ : 2 ^ gridExponent n ∣ n := Nat.dvd_of_mod_eq_zero h.2
  have hlt := h.significand_lt
  have hg : 0 < 2 ^ gridExponent n := Nat.two_pow_pos _
  generalize 2 ^ gridExponent n = g at *
  subst hc
  rw [Nat.mul_div_cancel_left c hg] at hlt
  exact Nat.mul_le_mul_left g hlt

/-- The next count of the format is a step of the grid away. -/
theorem Representable.add_grid_le {m n : Nat} (hm : Representable m) (hn : Representable n)
    (h : m < n) : m + 2 ^ gridExponent m ≤ n := by
  have hgrid : 2 ^ gridExponent m ∣ n := by
    rcases hn.dvd_or_lt m with hdvd | ⟨hlt, hle, -⟩
    · exact hdvd
    · omega
  obtain ⟨b, rfl⟩ := hgrid
  obtain ⟨a, ha⟩ : 2 ^ gridExponent m ∣ m := Nat.dvd_of_mod_eq_zero hm.2
  generalize 2 ^ gridExponent m = g at *
  subst ha
  have hab : a + 1 ≤ b := Nat.lt_of_mul_lt_mul_left h
  exact Nat.mul_le_mul_left g hab

/-- Two counts of the format differ by no less than one part in `2 ^ 53`. -/
theorem le_distance_mul {m n : Nat} (hm : Representable m) (hn : Representable n) (h : m ≠ n) :
    n ≤ distance m n * 2 ^ precision := by
  unfold distance
  rcases Nat.lt_or_gt_of_ne h with hlt | hgt
  · have hstep := hm.add_grid_le hn hlt
    have hgrid := hm.add_grid_le_mul
    have hfactor : (2 ^ precision - 1) * 2 ^ gridExponent m ≤ (2 ^ precision - 1) * (n - m) :=
      Nat.mul_le_mul_left _ (by omega)
    unfold precision at *
    omega
  · have hstep := hn.add_grid_le hm hgt
    have hgrid := hn.add_grid_le_mul
    unfold precision at *
    omega

/-- The largest finite number is half a step below the place half-way to the next power of two. -/
theorem Representable.add_halfStep_le {n : Nat} (h : Representable n) :
    n + 2 ^ halfStepExponent ≤ roundingLimit := by
  have hgrid := h.add_grid_le_mul
  have hexp : gridExponent n ≤ halfStepExponent + 1 := by
    by_cases h0 : n = 0
    · rw [h0]
      exact Nat.zero_le _
    · have hlog := (Nat.log2_lt h0).2 h.1
      unfold gridExponent halfStepExponent precision rangeExponent at *
      omega
  rw [roundingLimit_eq]
  generalize halfStepExponent = k at *
  have hfactor : 2 ^ gridExponent n * (2 ^ precision - 1) ≤ 2 ^ (k + 1) * (2 ^ precision - 1) :=
    Nat.mul_le_mul_right _ (Nat.pow_le_pow_right (by decide) hexp)
  rw [Nat.pow_succ 2 k] at hfactor
  unfold precision at *
  omega

/-- The distance of two numbers that are not negative, in quanta. -/
theorem abs_value_sub (hx : x.isNegative = false) (hy : y.isNegative = false) :
    |x.value - y.value| = (distance x.quanta y.quanta : Nat) / perUnit := by
  rw [value_of_not_negative hx, value_of_not_negative hy, ← sub_div, abs_div,
    abs_of_pos perUnit_cast_pos, cast_distance]

/-- What is within one part in `2 ^ 54` of a number is not rounded to infinity. -/
theorem lt_roundingBound_of_close (hs : x.isNegative = false)
    (h : |q - x.value| < x.value / 2 ^ (precision + 1)) : q < roundingBound := by
  have hrep : Representable x.quanta := representable_quanta x
  have hrange : x.quanta < 2 ^ (precision + 1) * 2 ^ halfStepExponent := overflow_eq ▸ hrep.1
  have hbelow := hrep.add_halfStep_le
  generalize 2 ^ halfStepExponent = half at hrange hbelow
  have hpart : (x.quanta : ℚ) / 2 ^ (precision + 1) ≤ half := by
    rw [div_le_iff₀' (by positivity)]
    exact_mod_cast hrange.le
  have hlimit : (x.quanta : ℚ) + half ≤ roundingLimit := by exact_mod_cast hbelow
  rw [← mul_lt_mul_iff_left₀ perUnit_cast_pos, roundingBound_mul]
  calc q * perUnit < (x.value + x.value / 2 ^ (precision + 1)) * perUnit := by
        apply mul_lt_mul_of_pos_right _ perUnit_cast_pos
        linarith [(abs_lt.1 h).2]
    _ = x.quanta + x.quanta / 2 ^ (precision + 1) := by
        rw [value_of_not_negative hs, add_mul, div_right_comm,
          div_mul_cancel₀ _ perUnit_cast_pos.ne', div_mul_cancel₀ _ perUnit_cast_pos.ne']
    _ ≤ roundingLimit := by linarith

/-- What is within one part in `2 ^ 54` of a number is rounded to it. -/
theorem nearestTo_eq_of_close (hx : x.isFinite = true) (hs : x.isNegative = false) (hq : 0 ≤ q)
    (h : |q - x.value| < x.value / 2 ^ (precision + 1)) : nearestTo q = x := by
  have hvalue : x.value = x.quanta / perUnit := value_of_not_negative hs
  have hfinite : (nearestTo q).isFinite = true :=
    (isFinite_nearestTo_iff hq).2 (lt_roundingBound_of_close hs h)
  have hnear : |(nearestTo q).value - q| ≤ |x.value - q| :=
    (isNearest_nearestTo hq hfinite).nearest x hx
  have hclose : |(nearestTo q).value - x.value| < x.value / 2 ^ precision := by
    have htriangle : |(nearestTo q).value - x.value| ≤ |(nearestTo q).value - q| + |q - x.value| :=
      abs_sub_le _ _ _
    have hhalf : x.value / 2 ^ precision = 2 * (x.value / 2 ^ (precision + 1)) := by
      rw [pow_succ]
      field_simp
    rw [abs_sub_comm x.value q] at hnear
    linarith
  -- another number would be a whole step away
  by_contra hne
  have hcounts : (nearestTo q).quanta ≠ x.quanta := by
    intro heq
    apply hne
    apply eq_of_value_eq hfinite hx (isNegative_nearestTo q) hs
    rw [hvalue, value_of_not_negative (isNegative_nearestTo q), heq]
  have hfar : (x.quanta : ℚ) ≤ (distance (nearestTo q).quanta x.quanta : Nat) * 2 ^ precision := by
    exact_mod_cast le_distance_mul (representable_quanta _) (representable_quanta x) hcounts
  rw [abs_value_sub (isNegative_nearestTo q) hs, hvalue, div_right_comm,
    div_lt_div_iff_of_pos_right perUnit_cast_pos, lt_div_iff₀ (by positivity)] at hclose
  linarith

/-- A rounded count is half a step of the grid away at most. -/
theorem two_mul_distance_roundedQuanta_le {num den : Nat} (hden : 0 < den) :
    2 * distance (roundedQuanta num den * den) num ≤ den * 2 ^ gridExponent (num / den) := by
  have hunit : 0 < den * 2 ^ gridExponent (num / den) := Nat.mul_pos hden (Nat.two_pow_pos _)
  have hup := nearestEven_upper num _ hunit
  have hlow := nearestEven_lower num _ hunit
  unfold roundedQuanta distance
  dsimp only
  rw [mul_grid_mul]
  omega

/-- A step of the grid is a quantum, or one part in `2 ^ 52` at most. -/
theorem two_pow_gridExponent_le (n : Nat) :
    2 ^ gridExponent n = 1 ∨ 2 ^ gridExponent n * 2 ^ (precision - 1) ≤ n := by
  by_cases hfine : gridExponent n = 0
  · left
    rw [hfine]
  · right
    have hn : n ≠ 0 := by
      rintro rfl
      exact hfine rfl
    have hlog : gridExponent n + (precision - 1) = n.log2 := by
      unfold gridExponent precision at *
      omega
    rw [← Nat.pow_add, hlog]
    exact Nat.log2_self_le hn

/-- Rounding moves a number by half a quantum at most, or by half of one part in `2 ^ 52`. -/
theorem two_mul_abs_value_sub_le (hq : 0 ≤ q) (hx : x.isFinite = true) (h : nearestTo q = x) :
    2 * |x.value - q| ≤ max (1 / (perUnit : ℚ)) (q / 2 ^ (precision - 1)) := by
  subst h
  have hquotient := div_perUnit_eq hq
  rw [value_of_not_negative (isNegative_nearestTo q)]
  unfold nearestTo at hx ⊢
  rw [quanta_ofRatio hx]
  have hden : 0 < q.den := q.den_pos
  generalize q.num.toNat * perUnit = num at *
  generalize q.den = den at *
  have hperUnit : (perUnit : ℚ) ≠ 0 := perUnit_cast_pos.ne'
  have hunit : (0 : ℚ) < den * perUnit := mul_pos (Nat.cast_pos.2 hden) perUnit_cast_pos
  have hhalf : 2 * |(roundedQuanta num den : ℚ) / perUnit - q| ≤
      (2 ^ gridExponent (num / den) : Nat) / (perUnit : ℚ) := by
    have hcount : (2 * distance (roundedQuanta num den * den) num : ℚ) ≤
        den * (2 ^ gridExponent (num / den) : Nat) := by
      exact_mod_cast two_mul_distance_roundedQuanta_le hden
    rw [← hquotient, abs_quanta_sub hden, ← mul_div_assoc, div_le_iff₀ hunit]
    calc (2 * distance (roundedQuanta num den * den) num : ℚ)
        ≤ den * (2 ^ gridExponent (num / den) : Nat) := hcount
      _ = (2 ^ gridExponent (num / den) : Nat) / (perUnit : ℚ) * (den * perUnit) := by
        field_simp
  refine hhalf.trans ?_
  -- near zero the step is one quantum, elsewhere it is a part of the number
  rcases two_pow_gridExponent_le (num / den) with hfine | hcoarse
  · rw [hfine, Nat.cast_one]
    exact le_max_left _ _
  · refine le_trans ?_ (le_max_right _ _)
    have hstep : ((2 ^ gridExponent (num / den) : Nat) : ℚ) * 2 ^ (precision - 1) * den ≤ num := by
      exact_mod_cast (Nat.mul_le_mul_right den hcoarse).trans (Nat.div_mul_le_self num den)
    rw [← hquotient, le_div_iff₀ (by positivity), le_div_iff₀ hunit]
    calc ((2 ^ gridExponent (num / den) : Nat) : ℚ) / perUnit * 2 ^ (precision - 1) *
          (den * perUnit)
        = (2 ^ gridExponent (num / den) : Nat) * 2 ^ (precision - 1) * den := by field_simp
      _ ≤ num := hstep

end Binary64

end Metrology
