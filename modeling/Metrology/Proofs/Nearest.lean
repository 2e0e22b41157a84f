/-
The number nearest to a quotient.

`Binary64.ofRatio` takes a quotient of natural numbers to the grid that leaves 53 bits at its whole
part. That this is the nearest of all binary64 numbers, and not of the numbers of one grid, is what
has to be shown: a number of a finer grid lies below the power of two at which the grid begins, and
that power is on the grid and nearer. The result depends on the quotient and not on the two numbers
that it is given by, and it is finite just below the place half-way between the largest finite
number and `2 ^ 1024`, where a half would go up.

The first sections speak of counts of quanta and of distances between natural numbers, the last one
of rational numbers.
-/
import Metrology.Proofs.Signs
import Mathlib.Algebra.Order.Field.Rat
import Mathlib.Algebra.Order.Ring.Abs
import Mathlib.Data.Nat.Cast.Order.Field
import Mathlib.Tactic.FieldSimp
import Mathlib.Tactic.Linarith
import Mathlib.Tactic.Positivity
import Mathlib.Tactic.Ring
set_option autoImplicit false

namespace Metrology

/-! ## 1. The nearest whole number

`nearestEven` is the only rounding there is: every operation takes its exact result there. Distances
of natural numbers stand for absolute values until the last section, which keeps this part within
linear arithmetic. -/

/-- The distance of two natural numbers. -/
def distance (a b : Nat) : Nat := (a - b) + (b - a)

/-- A quotient is rounded as it is, whatever it is given by. -/
theorem nearestEven_mul_right (num den k : Nat) (hk : 0 < k) :
    nearestEven (num * k) (den * k) = nearestEven num den := by
  unfold nearestEven
  rw [Nat.mul_div_mul_right num den hk, Nat.mul_mod_mul_right]
  have hlow : 2 * (num % den * k) < den * k ↔ 2 * (num % den) < den := by
    rw [← Nat.mul_assoc]
    exact Nat.mul_lt_mul_right hk
  have hhigh : den * k < 2 * (num % den * k) ↔ den < 2 * (num % den) := by
    rw [← Nat.mul_assoc]
    exact Nat.mul_lt_mul_right hk
  simp only [hlow, hhigh]

/-- Where a quotient is half-way between two whole numbers the remainder is a half. -/
theorem two_mul_mod_of_half {num den c : Nat} (hden : 0 < den)
    (h : 2 * num = 2 * (c * den) + den) : 2 * (num % den) = den := by
  have hdiv : num / den = c := by
    rw [Nat.div_eq_iff hden]
    omega
  have hmod := Nat.div_add_mod num den
  rw [hdiv, Nat.mul_comm] at hmod
  omega

/-- If another whole number is as near, the rounded one is even. -/
theorem nearestEven_even {num den k : Nat} (hden : 0 < den) (hk : k ≠ nearestEven num den)
    (h : distance (k * den) num = distance (nearestEven num den * den) num) :
    nearestEven num den % 2 = 0 := by
  have hup := nearestEven_upper num den hden
  have hlow := nearestEven_lower num den hden
  have htie : ∀ c, 2 * num = 2 * (c * den) + den → nearestEven num den % 2 = 0 :=
    fun c hc => nearestEven_tie num den (two_mul_mod_of_half hden hc)
  unfold distance at h
  generalize nearestEven num den = c at *
  -- the two lie on either side of the quotient, one unit apart
  rcases Nat.lt_or_gt_of_ne hk with hlt | hgt
  · have hstep : (k + 1) * den ≤ c * den := Nat.mul_le_mul_right den hlt
    rw [Nat.add_mul, Nat.one_mul] at hstep
    apply htie k
    omega
  · have hstep : (c + 1) * den ≤ k * den := Nat.mul_le_mul_right den hgt
    rw [Nat.add_mul, Nat.one_mul] at hstep
    apply htie c
    omega

/-- The rounded quotient stays below an even number while the quotient is less than half a unit away
from it: a half would go up to the even number. -/
theorem nearestEven_lt_iff {num den k : Nat} (hden : 0 < den) (hk : k % 2 = 0) :
    nearestEven num den < k ↔ 2 * num + den < 2 * (k * den) := by
  have hup := nearestEven_upper num den hden
  have hlow := nearestEven_lower num den hden
  constructor
  · intro hlt
    have hstep : (nearestEven num den + 1) * den ≤ k * den := Nat.mul_le_mul_right den hlt
    rw [Nat.add_mul, Nat.one_mul] at hstep
    have hne : 2 * num + den ≠ 2 * (k * den) := by
      intro heq
      -- then the quotient is half-way, the rounded one is even, and so is the next
      have hhalf : 2 * num = 2 * (nearestEven num den * den) + den := by omega
      have heven := nearestEven_tie num den (two_mul_mod_of_half hden hhalf)
      have hunit : (nearestEven num den + 1) * den = k * den := by
        rw [Nat.add_mul, Nat.one_mul]
        omega
      have hnext := Nat.eq_of_mul_eq_mul_right hden hunit
      omega
    omega
  · intro hlt
    by_contra hge
    have hstep : k * den ≤ nearestEven num den * den :=
      Nat.mul_le_mul_right den (Nat.le_of_not_lt hge)
    omega

namespace Binary64

/-! ## 2. The nearest count of quanta

Rounding picks the grid by the whole part of the quotient. A number of the same grid, or of a
coarser one, is a multiple of the grid's step and no nearer because whole numbers are rounded to the
nearest. A number of a finer grid is where the argument needs the start of the grid. -/

/-- A rounded count depends on the quotient alone. -/
theorem roundedQuanta_eq {num den num' den' : Nat} (hden : 0 < den) (hden' : 0 < den')
    (h : num * den' = num' * den) : roundedQuanta num den = roundedQuanta num' den' := by
  have hscale : ∀ n d k : Nat, 0 < k → roundedQuanta (n * k) (d * k) = roundedQuanta n d := by
    intro n d k hk
    unfold roundedQuanta
    dsimp only
    rw [Nat.mul_div_mul_right n d hk, Nat.mul_right_comm d k, nearestEven_mul_right _ _ k hk]
  rw [← hscale num den den' hden', ← hscale num' den' den hden, h, Nat.mul_comm den den']

/-- The number that a quotient is rounded to does not depend on the numerator and the denominator
that give the quotient. -/
theorem ofRatio_eq {num den num' den' : Nat} (hden : 0 < den) (hden' : 0 < den')
    (h : num * den' = num' * den) (s : Bool) : ofRatio s num den = ofRatio s num' den' := by
  have hrounded := roundedQuanta_eq hden hden' h
  unfold ofRatio
  simp only [hrounded]

/-- A representable count is on the grid of another one, or below the power of two where that grid
begins. -/
theorem Representable.dvd_or_lt {m : Nat} (h : Representable m) (q : Nat) :
    2 ^ gridExponent q ∣ m ∨
      m < 2 ^ q.log2 ∧ 2 ^ q.log2 ≤ q ∧ 2 ^ gridExponent q ∣ 2 ^ q.log2 := by
  by_cases hfine : gridExponent q = 0
  · rw [hfine]
    exact .inl (Nat.one_dvd m)
  have hq : q ≠ 0 := by
    rintro rfl
    exact hfine rfl
  rcases Nat.lt_or_ge m (2 ^ q.log2) with hlt | hge
  · refine .inr ⟨hlt, Nat.log2_self_le hq, Nat.pow_dvd_pow 2 ?_⟩
    unfold gridExponent precision
    omega
  · have hm : m ≠ 0 := by
      rintro rfl
      exact absurd hge (Nat.not_le_of_lt (Nat.two_pow_pos _))
    have hlog : q.log2 ≤ m.log2 := (Nat.le_log2 hm).2 hge
    have hgrid : 2 ^ gridExponent q ∣ 2 ^ gridExponent m := by
      apply Nat.pow_dvd_pow 2
      unfold gridExponent
      omega
    exact .inl (Nat.dvd_trans hgrid (Nat.dvd_of_mod_eq_zero h.2))

/-- A multiple of the grid, in the unit of the quotient. -/
theorem mul_grid_mul (c e den : Nat) : c * 2 ^ e * den = c * (den * 2 ^ e) := by
  rw [Nat.mul_assoc, Nat.mul_comm (2 ^ e) den]

/-- No multiple of the grid is nearer to a quotient than the rounded count. -/
theorem roundedQuanta_nearest_multiple {num den : Nat} (hden : 0 < den) (k : Nat) :
    distance (roundedQuanta num den * den) num ≤
      distance (k * 2 ^ gridExponent (num / den) * den) num := by
  have hunit : 0 < den * 2 ^ gridExponent (num / den) := Nat.mul_pos hden (Nat.two_pow_pos _)
  unfold roundedQuanta
  dsimp only
  rw [mul_grid_mul, mul_grid_mul]
  exact nearestEven_nearest num _ k hunit

/-- A count below the power of two where the grid of a quotient begins is further away from the
quotient than the rounded count. -/
theorem distance_lt_of_below {num den m : Nat} (hden : 0 < den) (hlt : m < 2 ^ (num / den).log2)
    (hle : 2 ^ (num / den).log2 ≤ num / den)
    (hgrid : 2 ^ gridExponent (num / den) ∣ 2 ^ (num / den).log2) :
    distance (roundedQuanta num den * den) num < distance (m * den) num := by
  obtain ⟨k, hk⟩ := hgrid
  have hstart : distance (roundedQuanta num den * den) num ≤
      distance (k * 2 ^ gridExponent (num / den) * den) num := roundedQuanta_nearest_multiple hden k
  rw [Nat.mul_comm k, ← hk] at hstart
  -- the power is on the grid, and lies between the count and the quotient
  have hbelow : 2 ^ (num / den).log2 * den ≤ num := by
    apply Nat.le_trans (Nat.mul_le_mul_right den hle)
    exact Nat.div_mul_le_self num den
  have hfar : m * den < 2 ^ (num / den).log2 * den := Nat.mul_lt_mul_of_pos_right hlt hden
  unfold distance at hstart ⊢
  omega

/-- No representable count is nearer to a quotient than the rounded one. -/
theorem roundedQuanta_nearest {num den m : Nat} (hden : 0 < den) (hm : Representable m) :
    distance (roundedQuanta num den * den) num ≤ distance (m * den) num := by
  rcases hm.dvd_or_lt (num / den) with ⟨k, rfl⟩ | ⟨hlt, hle, hgrid⟩
  · rw [Nat.mul_comm _ k]
    exact roundedQuanta_nearest_multiple hden k
  · exact Nat.le_of_lt (distance_lt_of_below hden hlt hle hgrid)

/-- The significant bits of a count as a number, without the zeros that its grid adds. -/
def significand (n : Nat) : Nat := n / 2 ^ gridExponent n

/-- A whole number of 53 bits on a grid stands on its own grid, if it is the finest or the number
has all the bits. -/
theorem gridExponent_mul_two_pow {c e : Nat} (hc : c < 2 ^ precision)
    (he : e = 0 ∨ 2 ^ (precision - 1) ≤ c) : gridExponent (c * 2 ^ e) = e := by
  unfold gridExponent
  by_cases h0 : c = 0
  · rw [h0, Nat.zero_mul, Nat.log2_zero]
    rcases he with rfl | hge
    · rfl
    · rw [h0] at hge
      exact absurd hge (Nat.not_le_of_lt (Nat.two_pow_pos _))
  have hne : c * 2 ^ e ≠ 0 := Nat.mul_ne_zero h0 (Nat.ne_of_gt (Nat.two_pow_pos e))
  have hlog : (c * 2 ^ e).log2 < precision + e := by
    rw [Nat.log2_lt hne, Nat.pow_add]
    exact Nat.mul_lt_mul_of_pos_right hc (Nat.two_pow_pos e)
  rcases he with rfl | hge
  · omega
  · have hfull : precision - 1 + e ≤ (c * 2 ^ e).log2 := by
      rw [Nat.le_log2 hne, Nat.pow_add]
      exact Nat.mul_le_mul_right (2 ^ e) hge
    unfold precision at *
    omega

/-- An even whole number of at most 53 bits on its grid has an even significand. With one bit more
it is the power of two where the next grid begins. -/
theorem significand_even {c e : Nat} (hc : c ≤ 2 ^ precision) (heven : c % 2 = 0)
    (he : e = 0 ∨ 2 ^ (precision - 1) ≤ c) : significand (c * 2 ^ e) % 2 = 0 := by
  rcases Nat.lt_or_ge c (2 ^ precision) with hlt | hge
  · rw [significand, gridExponent_mul_two_pow hlt he, Nat.mul_div_cancel _ (Nat.two_pow_pos e)]
    exact heven
  · -- the power of two is written as half of it on the next grid, where it has all its bits
    have hpower : c * 2 ^ e = 2 ^ (precision - 1) * 2 ^ (e + 1) := by
      rw [Nat.le_antisymm hc hge, ← Nat.pow_add, ← Nat.pow_add]
      unfold precision
      congr 1
      omega
    have hgrid : gridExponent (2 ^ (precision - 1) * 2 ^ (e + 1)) = e + 1 :=
      gridExponent_mul_two_pow (by decide) (.inr (Nat.le_refl _))
    rw [hpower, significand, hgrid, Nat.mul_div_cancel _ (Nat.two_pow_pos (e + 1))]
    decide

/-- On a grid other than the finest a quotient has all 53 bits. -/
theorem le_nearestEven_grid (num den : Nat) :
    gridExponent (num / den) = 0 ∨
      2 ^ (precision - 1) ≤ nearestEven num (den * 2 ^ gridExponent (num / den)) := by
  by_cases hfine : gridExponent (num / den) = 0
  · exact .inl hfine
  have hq : num / den ≠ 0 := by
    intro h0
    rw [h0] at hfine
    exact hfine rfl
  have hlog : precision - 1 + gridExponent (num / den) = (num / den).log2 := by
    unfold gridExponent precision at *
    omega
  refine .inr (Nat.le_trans ?_ (div_le_nearestEven _ _))
  rw [← Nat.div_div_eq_div_mul, Nat.le_div_iff_mul_le (Nat.two_pow_pos _), ← Nat.pow_add, hlog]
  exact Nat.log2_self_le hq

/-- If another representable count is as near as the rounded one, the rounded one is even. -/
theorem roundedQuanta_even {num den m : Nat} (hden : 0 < den) (hm : Representable m)
    (hne : m ≠ roundedQuanta num den)
    (h : distance (m * den) num = distance (roundedQuanta num den * den) num) :
    significand (roundedQuanta num den) % 2 = 0 := by
  have hunit : 0 < den * 2 ^ gridExponent (num / den) := Nat.mul_pos hden (Nat.two_pow_pos _)
  rcases hm.dvd_or_lt (num / den) with ⟨k, rfl⟩ | ⟨hlt, hle, hgrid⟩
  · -- on the grid, where a tie goes to the even number
    rw [Nat.mul_comm _ k] at hne h
    unfold roundedQuanta at hne h ⊢
    dsimp only at hne h ⊢
    rw [mul_grid_mul, mul_grid_mul] at h
    apply significand_even (nearestEven_grid_le num den) ?_ (le_nearestEven_grid num den)
    apply nearestEven_even (k := k) hunit _ h
    rintro rfl
    exact hne rfl
  · -- below the grid, and so not as near
    have hfar := distance_lt_of_below hden hlt hle hgrid
    omega

/-! ## 3. The range

The finite numbers end at a count of `2 ^ 53 - 1` steps on the last grid. Half a step further is the
place from which everything is rounded to infinity; the tie goes up, since `2 ^ 53` is the even one
of the two. -/

/-- The exponent of half a step between the largest finite numbers, in quanta. -/
def halfStepExponent : Nat := rangeExponent + quantumExponent - precision - 1

/-- The place half-way between the largest finite number and `2 ^ 1024`, in quanta. -/
def roundingLimit : Nat := overflow - 2 ^ halfStepExponent

/-- The power of two past the finite numbers is `2 ^ 54` half steps. -/
theorem overflow_eq : overflow = 2 ^ (precision + 1) * 2 ^ halfStepExponent := by
  rw [← Nat.pow_add]
  exact congrArg (2 ^ ·) (show rangeExponent + quantumExponent = _ from rfl)

/-- Half a step below `2 ^ 1024` is an odd number of half steps, one less than `2 ^ 54`. -/
theorem roundingLimit_eq : roundingLimit = (2 ^ (precision + 1) - 1) * 2 ^ halfStepExponent := by
  rw [roundingLimit, overflow_eq, Nat.sub_mul, Nat.one_mul]

/-- Below the last grid everything is rounded to a finite number. -/
theorem roundedQuanta_lt_overflow_of_lt {num den : Nat}
    (h : num / den < 2 ^ precision * 2 ^ halfStepExponent) : roundedQuanta num den < overflow := by
  have hgrid : gridExponent (num / den) ≤ halfStepExponent := by
    by_cases hq : num / den = 0
    · rw [hq]
      exact Nat.zero_le _
    · rw [← Nat.pow_add, ← Nat.log2_lt hq] at h
      unfold gridExponent
      omega
  calc roundedQuanta num den ≤ 2 ^ precision * 2 ^ gridExponent (num / den) :=
        Nat.mul_le_mul_right _ (nearestEven_grid_le num den)
    _ ≤ 2 ^ precision * 2 ^ halfStepExponent :=
        Nat.mul_le_mul_left _ (Nat.pow_le_pow_right (by decide) hgrid)
    _ < overflow := by
        rw [overflow_eq]
        exact Nat.mul_lt_mul_of_pos_right (by decide) (Nat.two_pow_pos _)

/-- Past the finite numbers nothing is rounded down to one. -/
theorem overflow_le_roundedQuanta {num den : Nat} (h : overflow ≤ num / den) :
    overflow ≤ roundedQuanta num den := by
  have hq : num / den ≠ 0 := by
    intro h0
    rw [h0] at h
    exact absurd h (Nat.not_le_of_lt overflow_pos)
  have hlog : rangeExponent + quantumExponent ≤ (num / den).log2 := (Nat.le_log2 hq).2 h
  have hgrid : precision - 1 + gridExponent (num / den) = (num / den).log2 := by
    unfold gridExponent precision
    unfold rangeExponent at hlog
    omega
  have hfull := (le_nearestEven_grid num den).resolve_left (by
    unfold precision rangeExponent at *
    omega)
  calc overflow ≤ 2 ^ (num / den).log2 := Nat.pow_le_pow_right (by decide) hlog
    _ = 2 ^ (precision - 1) * 2 ^ gridExponent (num / den) := by rw [← Nat.pow_add, hgrid]
    _ ≤ roundedQuanta num den := Nat.mul_le_mul_right _ hfull

/-- A quotient is rounded to a finite number just if it lies below the place half-way between the
largest finite number and the next power of two. -/
theorem roundedQuanta_lt_overflow_iff {num den : Nat} (hden : 0 < den) :
    roundedQuanta num den < overflow ↔ num < roundingLimit * den := by
  have hnum : num / den * den ≤ num := Nat.div_mul_le_self num den
  have hnum' : num < (num / den + 1) * den := (Nat.div_lt_iff_lt_mul hden).1 (Nat.lt_succ_self _)
  rcases Nat.lt_or_ge (num / den) (2 ^ precision * 2 ^ halfStepExponent) with hlow | hlow
  · refine iff_of_true (roundedQuanta_lt_overflow_of_lt hlow) (Nat.lt_of_lt_of_le hnum' ?_)
    apply Nat.mul_le_mul_right den
    rw [roundingLimit_eq]
    exact Nat.le_trans hlow (Nat.mul_le_mul_right _ (by decide))
  rcases Nat.lt_or_ge (num / den) overflow with hhigh | hhigh
  · -- on the last grid, where `2 ^ 53` of its steps are the first power of two past the numbers
    have hgrid : gridExponent (num / den) = halfStepExponent + 1 := by
      have hq : num / den ≠ 0 := by
        intro h0
        rw [h0] at hlow
        exact absurd hlow (Nat.not_le_of_lt (Nat.mul_pos (by decide) (Nat.two_pow_pos _)))
      rw [← Nat.pow_add] at hlow
      have hfirst : precision + halfStepExponent ≤ (num / den).log2 := (Nat.le_log2 hq).2 hlow
      have hlast : (num / den).log2 < rangeExponent + quantumExponent := (Nat.log2_lt hq).2 hhigh
      unfold gridExponent
      unfold halfStepExponent precision at *
      unfold rangeExponent quantumExponent at *
      omega
    have hstep : roundedQuanta num den < overflow ↔
        nearestEven num (den * 2 ^ (halfStepExponent + 1)) < 2 ^ precision := by
      have hoverflow : overflow = 2 ^ precision * 2 ^ (halfStepExponent + 1) := by
        rw [overflow_eq, ← Nat.pow_add, ← Nat.pow_add, Nat.add_assoc, Nat.add_comm 1]
      unfold roundedQuanta
      dsimp only
      rw [hgrid, hoverflow]
      exact Nat.mul_lt_mul_right (Nat.two_pow_pos _)
    have hunit : 0 < den * 2 ^ (halfStepExponent + 1) := Nat.mul_pos hden (Nat.two_pow_pos _)
    have hdouble : den * 2 ^ (halfStepExponent + 1) = 2 * (2 ^ halfStepExponent * den) := by
      rw [Nat.pow_succ, Nat.mul_comm den, Nat.mul_right_comm, Nat.mul_comm 2]
    rw [hstep, nearestEven_lt_iff hunit (by decide), hdouble, roundingLimit_eq, Nat.mul_assoc]
    generalize 2 ^ halfStepExponent * den = half
    unfold precision
    omega
  · refine iff_of_false (Nat.not_lt_of_le (overflow_le_roundedQuanta hhigh)) (Nat.not_lt_of_le ?_)
    apply Nat.le_trans _ hnum
    exact Nat.mul_le_mul_right den (Nat.le_trans (Nat.sub_le _ _) hhigh)

/-- A quotient gives a finite number exactly below the place half-way to `2 ^ 1024`, in quanta. -/
theorem isFinite_ofRatio_iff {num den : Nat} (hden : 0 < den) (s : Bool) :
    (ofRatio s num den).isFinite = true ↔ num < roundingLimit * den := by
  rw [← roundedQuanta_lt_overflow_iff hden]
  unfold ofRatio
  split
  · exact iff_of_true rfl ‹_›
  · exact iff_of_false Bool.false_ne_true ‹_›

/-- From the place half-way to the next power of two on everything is rounded to infinity. -/
theorem ofRatio_of_ge {num den : Nat} (hden : 0 < den) (h : roundingLimit * den ≤ num) (s : Bool) :
    ofRatio s num den = .infinite s := by
  rw [ofRatio, dif_neg]
  rw [roundedQuanta_lt_overflow_iff hden]
  exact Nat.not_lt_of_le h

/-- What is less than half a quantum is rounded to zero. -/
theorem ofRatio_of_lt_half {num den : Nat} (h : 2 * num < den) (s : Bool) :
    ofRatio s num den = zero s := by
  have hzero : roundedQuanta num den = 0 := by
    have hdiv : num / den = 0 := Nat.div_eq_of_lt (by omega)
    have hmod : num % den = num := Nat.mod_eq_of_lt (by omega)
    have hgrid : gridExponent 0 = 0 := rfl
    unfold roundedQuanta nearestEven
    rw [hdiv]
    simp only [hgrid, Nat.pow_zero, Nat.mul_one, hdiv, hmod]
    rw [if_pos h]
  unfold ofRatio zero
  simp only [hzero]
  rw [dif_pos overflow_pos]

/-- A finite result has the rounded count. -/
theorem quanta_ofRatio {num den : Nat} {s : Bool} (h : (ofRatio s num den).isFinite = true) :
    (ofRatio s num den).quanta = roundedQuanta num den := by
  unfold ofRatio at h ⊢
  split
  · rfl
  · rw [dif_neg ‹_›] at h
    cases h

/-! ## 4. Values

Rational numbers come in with `value`, and with them the statement that does not speak of grids:
`IsNearest`. -/

/-- `Nat.cast_pow` with the powers of the definitions on its left side, which no rewriting with the
library's lemma finds (`instPowNat`). -/
theorem cast_natPow (b n : Nat) : ((b ^ n : Nat) : ℚ) = (b : ℚ) ^ n := Nat.cast_pow b n

/-- The rational number that a finite number is. -/
def value : Binary64 → ℚ
  | .finite s n _ => (if s then -1 else 1) * (n / perUnit)
  | _ => 0

/-- The finite number is nearest to the rational one: none is nearer, and if another one is as near
it has an even significand. -/
structure IsNearest (x : Binary64) (q : ℚ) : Prop where
  isFinite : x.isFinite = true
  nearest : ∀ y : Binary64, y.isFinite = true → |x.value - q| ≤ |y.value - q|
  even : ∀ y : Binary64, y.isFinite = true → y.value ≠ x.value →
    |y.value - q| = |x.value - q| → significand x.quanta % 2 = 0

theorem perUnit_cast_pos : (0 : ℚ) < perUnit := Nat.cast_pos.2 perUnit_pos

/-- The size of a number is its count of quanta, also where the number is infinite or none at all:
both count as zero. -/
theorem abs_value (x : Binary64) : |x.value| = x.quanta / perUnit := by
  have hnonneg : ∀ n : Nat, (0 : ℚ) ≤ n / perUnit :=
    fun n => div_nonneg (Nat.cast_nonneg n) perUnit_cast_pos.le
  have hnone : |(0 : ℚ)| = ((0 : Nat) : ℚ) / perUnit := by rw [abs_zero, Nat.cast_zero, zero_div]
  cases x with
  | finite s n h =>
    cases s with
    | false => rw [value, if_neg Bool.false_ne_true, one_mul, quanta, abs_of_nonneg (hnonneg n)]
    | true => rw [value, if_pos rfl, neg_one_mul, abs_neg, quanta, abs_of_nonneg (hnonneg n)]
  | infinite s => exact hnone
  | nan => exact hnone

/-- Without a sign the value is the count of quanta itself. -/
theorem value_of_not_negative {x : Binary64} (h : x.isNegative = false) :
    x.value = x.quanta / perUnit := by
  have hnone : (0 : ℚ) = ((0 : Nat) : ℚ) / perUnit := by rw [Nat.cast_zero, zero_div]
  cases x with
  | finite s n hn =>
    obtain rfl : s = false := h
    rw [value, if_neg Bool.false_ne_true, one_mul, quanta]
  | infinite s => exact hnone
  | nan => exact hnone

/-- The count of every number is one that the format has. -/
theorem representable_quanta (x : Binary64) : Representable x.quanta := by
  cases x with
  | finite s n h => exact h
  | infinite s => exact representable_zero
  | nan => exact representable_zero

/-- The distance of natural numbers is the absolute value of their difference. -/
theorem cast_distance (a b : Nat) : ((distance a b : Nat) : ℚ) = |(a : ℚ) - b| := by
  unfold distance
  rcases Nat.le_total a b with h | h
  · rw [Nat.sub_eq_zero_of_le h, Nat.zero_add, Nat.cast_sub h, abs_sub_comm,
      abs_of_nonneg (sub_nonneg.2 (Nat.cast_le.2 h))]
  · rw [Nat.sub_eq_zero_of_le h, Nat.add_zero, Nat.cast_sub h,
      abs_of_nonneg (sub_nonneg.2 (Nat.cast_le.2 h))]

/-- Distances from a quotient of quanta are distances of natural numbers in its unit. -/
theorem abs_quanta_sub {num den : Nat} (hden : 0 < den) (m : Nat) :
    |(m : ℚ) / perUnit - num / (den * perUnit)| =
      (distance (m * den) num : Nat) / (den * perUnit) := by
  have hden' : (0 : ℚ) < den := Nat.cast_pos.2 hden
  have hunit : (0 : ℚ) < den * perUnit := mul_pos hden' perUnit_cast_pos
  have hcommon : (m : ℚ) / perUnit - num / (den * perUnit) = (m * den - num) / (den * perUnit) := by
    rw [sub_div, Rat.mul_comm m, mul_div_mul_left _ _ hden'.ne']
  rw [hcommon, abs_div, abs_of_pos hunit, cast_distance, Nat.cast_mul]

/-- The place half-way between the largest finite number and `2 ^ 1024`. -/
def roundingBound : ℚ := 2 ^ rangeExponent - 2 ^ (rangeExponent - precision - 1)

/-- The bound in units is the limit in quanta. -/
theorem roundingBound_mul : roundingBound * perUnit = roundingLimit := by
  have hle : 2 ^ halfStepExponent ≤ overflow := by
    rw [overflow_eq]
    exact Nat.le_mul_of_pos_left _ (by decide)
  rw [roundingLimit, Nat.cast_sub hle, overflow, perUnit, cast_natPow, cast_natPow, cast_natPow,
    roundingBound, sub_mul, Nat.cast_ofNat, ← pow_add, ← pow_add]
  rfl

/-- A quotient is rounded to a finite number just if it lies below the bound. -/
theorem isFinite_ofRatio_iff_lt {num den : Nat} (hden : 0 < den) (s : Bool) :
    (ofRatio s num den).isFinite = true ↔ (num : ℚ) / (den * perUnit) < roundingBound := by
  have hunit : (0 : ℚ) < den * perUnit := mul_pos (Nat.cast_pos.2 hden) perUnit_cast_pos
  rw [isFinite_ofRatio_iff hden, div_lt_iff₀ hunit, Rat.mul_comm den, ← mul_assoc,
    roundingBound_mul]
  exact_mod_cast Iff.rfl

/-- Without its sign a number is at least as near to what is not negative. -/
theorem abs_quanta_sub_le {q : ℚ} (hq : 0 ≤ q) (y : Binary64) :
    |(y.quanta : ℚ) / perUnit - q| ≤ |y.value - q| := by
  have hle := abs_abs_sub_abs_le y.value q
  rwa [abs_value, abs_of_nonneg hq] at hle

/-- A finite rounded quotient has the rounded count for its value. -/
theorem value_ofRatio {num den : Nat} (h : (ofRatio false num den).isFinite = true) :
    (ofRatio false num den).value = (roundedQuanta num den : ℚ) / perUnit := by
  rw [value_of_not_negative (isNegative_ofRatio false num den), quanta_ofRatio h]

/-- No count of the format is nearer to a quotient than the rounded one, in units. -/
theorem abs_value_ofRatio_sub_le {num den : Nat} (hden : 0 < den)
    (h : (ofRatio false num den).isFinite = true) (y : Binary64) :
    |(ofRatio false num den).value - num / (den * perUnit)| ≤
      |(y.quanta : ℚ) / perUnit - num / (den * perUnit)| := by
  have hunit : (0 : ℚ) < den * perUnit := mul_pos (Nat.cast_pos.2 hden) perUnit_cast_pos
  rw [value_ofRatio h, abs_quanta_sub hden, abs_quanta_sub hden]
  exact div_le_div_of_nonneg_right
    (Nat.cast_le.2 (roundedQuanta_nearest hden (representable_quanta y))) hunit.le

/-- A positive number and its opposite are as near to zero only, of all that is not negative. -/
theorem eq_zero_of_abs_neg_sub_eq {v q : ℚ} (hv : 0 < v) (hq : 0 ≤ q)
    (h : |-v - q| = |v - q|) : q = 0 := by
  rcases abs_eq_abs.1 h with h | h
  · linarith
  · linarith

/-- The opposite of a rounded quotient is not as near to the quotient, unless the two are the same
zero in value. -/
theorem ne_neg_value_ofRatio {num den : Nat} (hden : 0 < den)
    (h : (ofRatio false num den).isFinite = true) {y : Binary64}
    (hne : y.value ≠ (ofRatio false num den).value)
    (heq : |y.value - num / (den * perUnit)| =
      |(ofRatio false num den).value - num / (den * perUnit)|) :
    y.value ≠ -(ofRatio false num den).value := by
  intro hturned
  have hunit : (0 : ℚ) < den * perUnit := mul_pos (Nat.cast_pos.2 hden) perUnit_cast_pos
  have hx : (0 : ℚ) ≤ (ofRatio false num den).value := by
    rw [value_ofRatio h]
    exact div_nonneg (Nat.cast_nonneg _) perUnit_cast_pos.le
  have hpos : 0 < (ofRatio false num den).value := by
    refine lt_of_le_of_ne hx fun h0 => hne ?_
    rw [hturned, ← h0, neg_zero]
  rw [hturned] at heq
  have hzero := eq_zero_of_abs_neg_sub_eq hpos (div_nonneg (Nat.cast_nonneg num) hunit.le) heq
  -- then zero itself would be nearer
  have hnearest := abs_value_ofRatio_sub_le hden h (zero false)
  rw [hzero, zero, quanta, Nat.cast_zero, zero_div, sub_zero, sub_zero, abs_zero,
    abs_of_pos hpos] at hnearest
  exact absurd hpos (not_lt.2 hnearest)

/-- A quotient that is rounded to a finite number is rounded to the nearest one. -/
theorem isNearest_ofRatio {num den : Nat} (hden : 0 < den)
    (h : (ofRatio false num den).isFinite = true) :
    IsNearest (ofRatio false num den) (num / (den * perUnit)) := by
  have hunit : (0 : ℚ) < den * perUnit := mul_pos (Nat.cast_pos.2 hden) perUnit_cast_pos
  have hq : (0 : ℚ) ≤ num / (den * perUnit) := div_nonneg (Nat.cast_nonneg num) hunit.le
  have hcount := abs_value_ofRatio_sub_le hden h
  refine ⟨h, fun y _ => (hcount y).trans (abs_quanta_sub_le hq y), fun y _ hne heq => ?_⟩
  rw [quanta_ofRatio h]
  by_cases hm : y.quanta = roundedQuanta num den
  · -- a number with the same count is the number itself or its opposite
    have hsize : |y.value| = |(ofRatio false num den).value| := by
      rw [abs_value, abs_value, hm, quanta_ofRatio h]
    rcases abs_eq_abs.1 hsize with hsame | hturned
    · exact absurd hsame hne
    · exact absurd hturned (ne_neg_value_ofRatio hden h hne heq)
  · -- another count is as near
    apply roundedQuanta_even hden (representable_quanta y) hm
    have hsame : |(y.quanta : ℚ) / perUnit - num / (den * perUnit)| =
        |(ofRatio false num den).value - num / (den * perUnit)| :=
      le_antisymm ((abs_quanta_sub_le hq y).trans_eq heq) (hcount y)
    rw [value_ofRatio h, abs_quanta_sub hden, abs_quanta_sub hden, div_left_inj' hunit.ne'] at hsame
    exact Nat.cast_injective hsame

end Binary64

end Metrology
