/-
Results that stay finite.

A sum, difference, product or quotient of finite numbers is finite just if the exact result is below
the place where rounding goes to infinity. For a sum of many numbers this is asked of every step,
since a total can be small where a part of it was not. A change of sign cannot leave the range, nor
can a division by what is at least one, as in a mean.
-/
import Metrology.Proofs.Nearest
import Mathlib.Data.List.Induction
set_option autoImplicit false

namespace Metrology

namespace Binary64

variable {x y : Binary64}

/-! ## 1. One step

`value` is the exact rational number behind a finite one, so that "the exact result" can be written
down. Each operation is then a question about one count of quanta that is rounded, and
`roundingBound` is where such a count stops being a number. -/

theorem isFinite_neg (x : Binary64) : x.neg.isFinite = x.isFinite := by
  cases x <;> rfl

theorem isFinite_abs (x : Binary64) : x.abs.isFinite = x.isFinite := by
  cases x <;> rfl

theorem value_positive {n : Nat} (h : Representable n) :
    value (.finite false n h) = n / perUnit := by
  rw [value, if_neg Bool.false_ne_true, one_mul]

theorem value_negative {n : Nat} (h : Representable n) :
    value (.finite true n h) = -(n / perUnit) := by
  rw [value, if_pos rfl, neg_one_mul]

/-- The other sign is the opposite number. -/
theorem value_neg (x : Binary64) : x.neg.value = -x.value := by
  cases x with
  | finite s n h =>
    cases s with
    | false => exact (value_negative h).trans (congrArg Neg.neg (value_positive h).symm)
    | true => exact (value_positive h).trans (neg_eq_iff_eq_neg.2 (value_negative h)).symm
  -- what is not finite counts as zero, and zero is its own opposite
  | infinite s => exact neg_zero.symm
  | nan => exact neg_zero.symm

/-- The range is not empty. -/
theorem roundingBound_pos : 0 < roundingBound := by
  have hmul := roundingBound_mul
  have hlimit : (0 : ℚ) < roundingLimit := by
    rw [Nat.cast_pos, roundingLimit_eq]
    exact Nat.mul_pos (by decide) (Nat.two_pow_pos _)
  rw [← hmul] at hlimit
  exact pos_of_mul_pos_left hlimit perUnit_cast_pos.le

/-- What is rounded from a count of quanta is finite just if the count is below the bound. -/
theorem isFinite_ofRatio_one_iff (s : Bool) (n : Nat) :
    (ofRatio s n 1).isFinite = true ↔ (n : ℚ) / perUnit < roundingBound := by
  rw [isFinite_ofRatio_iff_lt Nat.one_pos, Nat.cast_one, one_mul]

/-- A finite number is its own rounding, so it is below the bound. -/
theorem abs_value_lt (hx : x.isFinite = true) : |x.value| < roundingBound := by
  obtain ⟨s, n, h, rfl⟩ := exists_finite hx
  rw [abs_value, quanta, ← isFinite_ofRatio_one_iff s, ofRatio_one s n h]
  rfl

/-- Numbers of one sign add their counts. -/
theorem abs_value_finite_add {s : Bool} {m n : Nat} (hm : Representable m) (hn : Representable n) :
    |value (.finite s m hm) + value (.finite s n hn)| = ((m + n : Nat) : ℚ) / perUnit := by
  have hnonneg : (0 : ℚ) ≤ ((m + n : Nat) : ℚ) / perUnit :=
    div_nonneg (Nat.cast_nonneg _) perUnit_cast_pos.le
  cases s with
  | false =>
    rw [value_positive, value_positive, ← add_div, ← Nat.cast_add, abs_of_nonneg hnonneg]
  | true =>
    rw [value_negative, value_negative, ← neg_add, abs_neg, ← add_div, ← Nat.cast_add,
      abs_of_nonneg hnonneg]

/-- Of numbers of two signs the counts are taken off each other. -/
theorem abs_value_finite_sub {s t : Bool} (hsign : s ≠ t) {m n : Nat} (hm : Representable m)
    (hn : Representable n) :
    |value (.finite s m hm) + value (.finite t n hn)| = (distance m n : ℚ) / perUnit := by
  have hsub : |(m : ℚ) / perUnit - n / perUnit| = (distance m n : ℚ) / perUnit := by
    rw [← sub_div, abs_div, abs_of_pos perUnit_cast_pos, cast_distance]
  cases s with
  | false =>
    obtain rfl : t = true := Bool.eq_true_of_not_eq_false (Ne.symm hsign)
    rw [value_positive, value_negative, ← sub_eq_add_neg, hsub]
  | true =>
    obtain rfl : t = false := Bool.eq_false_of_not_eq_true (Ne.symm hsign)
    rw [value_negative, value_positive, ← hsub, abs_sub_comm, neg_add_eq_sub]

/-- A sum of finite numbers is finite just if the exact one is below the bound. -/
theorem isFinite_add_iff (hx : x.isFinite = true) (hy : y.isFinite = true) :
    (add x y).isFinite = true ↔ |x.value + y.value| < roundingBound := by
  obtain ⟨s, m, hm, rfl⟩ := exists_finite hx
  obtain ⟨t, n, hn, rfl⟩ := exists_finite hy
  by_cases hsign : s = t
  · subst hsign
    rw [add, if_pos rfl, isFinite_ofRatio_one_iff, abs_value_finite_add hm hn]
  · -- the larger count wins, and nothing is left of equal ones
    rw [add, if_neg hsign, abs_value_finite_sub hsign hm hn]
    rcases Nat.lt_trichotomy m n with hlt | rfl | hlt
    · rw [if_neg (Nat.lt_asymm hlt), if_pos hlt, isFinite_ofRatio_one_iff, distance,
        Nat.sub_eq_zero_of_le hlt.le, Nat.zero_add]
    · rw [if_neg (Nat.lt_irrefl m), if_neg (Nat.lt_irrefl m), distance, Nat.sub_self,
        Nat.cast_zero, zero_div]
      exact iff_of_true rfl roundingBound_pos
    · rw [if_pos hlt, isFinite_ofRatio_one_iff, distance, Nat.sub_eq_zero_of_le hlt.le,
        Nat.add_zero]

/-- A difference is a sum with the other sign. -/
theorem isFinite_sub_iff (hx : x.isFinite = true) (hy : y.isFinite = true) :
    (sub x y).isFinite = true ↔ |x.value - y.value| < roundingBound := by
  rw [sub, isFinite_add_iff hx ((isFinite_neg y).trans hy), value_neg, sub_eq_add_neg]

/-- A product of finite numbers is finite just if the exact one is below the bound. -/
theorem isFinite_mul_iff (hx : x.isFinite = true) (hy : y.isFinite = true) :
    (mul x y).isFinite = true ↔ |x.value * y.value| < roundingBound := by
  rw [abs_mul, abs_value, abs_value]
  obtain ⟨s, m, hm, rfl⟩ := exists_finite hx
  obtain ⟨t, n, hn, rfl⟩ := exists_finite hy
  rw [mul, isFinite_ofRatio_iff_lt perUnit_pos, quanta, quanta, div_mul_div_comm, Nat.cast_mul]

/-- A quotient of finite numbers is finite just if the exact one is below the bound; a zero divisor
has no quotient. -/
theorem isFinite_div_iff (hx : x.isFinite = true) (hy : y.isFinite = true)
    (hzero : y.isZero = false) :
    (div x y).isFinite = true ↔ |x.value / y.value| < roundingBound := by
  rw [abs_div, abs_value, abs_value]
  obtain ⟨s, m, hm, rfl⟩ := exists_finite hx
  obtain ⟨t, n, hn, rfl⟩ := exists_finite hy
  have hn : n ≠ 0 := ne_of_beq_false hzero
  rw [div, if_neg hn, isFinite_ofRatio_iff_lt (Nat.pos_of_ne_zero hn), quanta, quanta,
    div_div_div_cancel_right₀ perUnit_cast_pos.ne', Nat.cast_mul,
    mul_div_mul_right _ _ perUnit_cast_pos.ne']

/-! ## 2. One

The number one marks off what can take a quotient out of the range from what cannot. It is also the
end of the domain of the arcsine. -/

/-- One is a number of the format. -/
theorem representable_perUnit : Representable perUnit := by
  have h := representable_mul_two_pow 1 quantumExponent (by decide)
  rw [Nat.one_mul] at h
  exact h (Nat.pow_lt_pow_right (by decide) (by decide))

/-- The number one is as many quanta as there are in a unit. -/
theorem one_eq : one = .finite false perUnit representable_perUnit := by
  rw [one, ofNat, Nat.one_mul, ofRatio_one]

theorem isFinite_one : one.isFinite = true := by
  rw [one_eq]
  rfl

/-- Minus one has the quanta of one. -/
theorem ofInt_neg_one : ofInt (-1) = .finite true perUnit representable_perUnit := by
  have hsign : decide ((-1 : ℤ) < 0) = true := by decide
  have hsize : (-1 : ℤ).natAbs = 1 := rfl
  rw [ofInt, hsign, hsize, Nat.one_mul, ofRatio_one]

theorem value_one : one.value = 1 := by
  rw [one_eq, value_positive, div_self perUnit_cast_pos.ne']

theorem value_ofInt_neg_one : (ofInt (-1)).value = -1 := by
  rw [ofInt_neg_one, value_negative, div_self perUnit_cast_pos.ne']

/-- Numbers that have places compare as these do. -/
theorem le_iff_of_place {a b : ℤ} (hx : x.place = some a) (hy : y.place = some b) :
    x.le y = true ↔ a ≤ b := by
  simp only [le, hx, hy, decide_eq_true_eq]

/-- Comparisons with `-1` and `1` leave the finite numbers of size at most one, and no NaN. -/
theorem between_iff (x : Binary64) :
    ((ofInt (-1)).le x = true ∧ x.le one = true) ↔ x.isFinite = true ∧ |x.value| ≤ 1 := by
  -- both bounds have places; what is left are comparisons of integers, with the unit and the end of
  -- the range as names
  have hrange : (perUnit : ℤ) < overflow := Int.ofNat_lt.2 representable_perUnit.1
  have hlowest : (ofInt (-1)).place = some (-(perUnit : ℤ)) := by rw [ofInt_neg_one]; rfl
  have hhighest : one.place = some (perUnit : ℤ) := by rw [one_eq]; rfl
  rw [abs_value, div_le_one perUnit_cast_pos, Nat.cast_le]
  generalize perUnit = u at *
  generalize ofInt (-1) = lowest at *
  generalize one = highest at *
  cases x with
  | finite s n h =>
    have hplace : (finite s n h).place = some (if s then -(n : ℤ) else n) := rfl
    rw [le_iff_of_place hlowest hplace, le_iff_of_place hplace hhighest, isFinite, quanta,
      and_iff_right (rfl : true = true)]
    split <;> omega
  | infinite s =>
    have hplace : (infinite s).place = some (if s then -(overflow : ℤ) else overflow) := rfl
    generalize overflow = top at *
    rw [le_iff_of_place hlowest hplace, le_iff_of_place hplace hhighest]
    refine iff_of_false ?_ fun h => Bool.false_ne_true h.1
    split <;> omega
  | nan =>
    exact iff_of_false (fun h => Bool.false_ne_true h.2) fun h => Bool.false_ne_true h.1

/-- A number between `-1` and `1` has no more quanta than they. -/
theorem quanta_le_of_between (hlow : (ofInt (-1)).le x = true) (hhigh : x.le one = true) :
    x.quanta ≤ perUnit := by
  have hsize := ((between_iff x).1 ⟨hlow, hhigh⟩).2
  rwa [abs_value, div_le_one perUnit_cast_pos, Nat.cast_le] at hsize

/-- Infinite, or not below one in size. -/
inductive AtLeastOne : Binary64 → Prop
  | finite {s : Bool} {n : Nat} {h : Representable n} : perUnit ≤ n → AtLeastOne (.finite s n h)
  | infinite {s : Bool} : AtLeastOne (.infinite s)

/-- Not beyond one in size. -/
inductive AtMostOne : Binary64 → Prop
  | finite {s : Bool} {n : Nat} {h : Representable n} : n ≤ perUnit → AtMostOne (.finite s n h)

/-- A finite number is on one side of one or on the other, in size. -/
theorem atLeastOne_or_atMostOne (hx : x.isFinite = true) : x.AtLeastOne ∨ x.AtMostOne := by
  obtain ⟨s, n, h, rfl⟩ := exists_finite hx
  exact (Nat.le_total perUnit n).imp .finite .finite

/-- Rounding does not go past a number of the format. -/
theorem le_roundedQuanta {num den r : Nat} (hden : 0 < den) (hr : Representable r)
    (h : r * den ≤ num) : r ≤ roundedQuanta num den := by
  have hnear : distance (roundedQuanta num den * den) num ≤ distance (r * den) num :=
    roundedQuanta_nearest hden hr
  by_contra hlt
  have hbelow : roundedQuanta num den * den < r * den :=
    Nat.mul_lt_mul_of_pos_right (Nat.lt_of_not_le hlt) hden
  unfold distance at hnear
  omega

/-- Rounding from below does not go past a number of the format either. -/
theorem roundedQuanta_le {num den r : Nat} (hden : 0 < den) (hr : Representable r)
    (h : num ≤ r * den) : roundedQuanta num den ≤ r := by
  have hnear : distance (roundedQuanta num den * den) num ≤ distance (r * den) num :=
    roundedQuanta_nearest hden hr
  by_contra hlt
  have habove : r * den < roundedQuanta num den * den :=
    Nat.mul_lt_mul_of_pos_right (Nat.lt_of_not_le hlt) hden
  unfold distance at hnear
  omega

/-- What is at least one is rounded to at least one. -/
theorem atLeastOne_ofRatio {num den : Nat} (s : Bool) (hden : 0 < den) (h : perUnit * den ≤ num) :
    (ofRatio s num den).AtLeastOne := by
  have hle := le_roundedQuanta hden representable_perUnit h
  unfold ofRatio
  rcases Nat.lt_or_ge (roundedQuanta num den) overflow with hfinite | hpast
  · rw [dif_pos hfinite]
    exact .finite hle
  · rw [dif_neg (Nat.not_lt.2 hpast)]
    exact .infinite

/-- What is at most one is rounded to at most one, which is finite. -/
theorem atMostOne_ofRatio {num den : Nat} (s : Bool) (hden : 0 < den) (h : num ≤ perUnit * den) :
    (ofRatio s num den).AtMostOne := by
  have hle := roundedQuanta_le hden representable_perUnit h
  have hfinite : roundedQuanta num den < overflow := Nat.lt_of_le_of_lt hle representable_perUnit.1
  unfold ofRatio
  rw [dif_pos hfinite]
  exact .finite hle

/-- A count of something is at least one. -/
theorem atLeastOne_ofNat {k : Nat} (hk : k ≠ 0) : (ofNat k).AtLeastOne := by
  have hle : perUnit * 1 ≤ k * perUnit := by
    rw [Nat.mul_one]
    exact Nat.le_mul_of_pos_left _ (Nat.pos_of_ne_zero hk)
  rw [ofNat]
  exact atLeastOne_ofRatio false Nat.one_pos hle

/-- What is at least one is not zero. -/
theorem AtLeastOne.isZero_eq_false (h : y.AtLeastOne) : y.isZero = false := by
  cases h with
  | finite hn => exact beq_false_of_ne (Nat.lt_of_lt_of_le perUnit_pos hn).ne'
  | infinite => rfl

/-- A finite number that is at least one is so in value. -/
theorem AtLeastOne.one_le_abs_value (hy : y.AtLeastOne) (hfinite : y.isFinite = true) :
    1 ≤ |y.value| := by
  cases hy with
  | finite hn =>
    rw [abs_value, one_le_div perUnit_cast_pos]
    exact Nat.cast_le.2 hn
  | infinite => cases hfinite

/-- A zero of either sign is zero in value. -/
theorem value_of_isZero (h : x.isZero = true) : x.value = 0 := by
  obtain ⟨s, rfl⟩ := isZero_iff.1 h
  rw [zero, value, Nat.cast_zero, zero_div, mul_zero]

/-- A finite number other than zero has quanta. -/
theorem quanta_ne_zero (hx : x.isFinite = true) (hzero : x.isZero = false) : x.quanta ≠ 0 := by
  obtain ⟨s, n, h, rfl⟩ := exists_finite hx
  exact ne_of_beq_false hzero

/-- A divisor that takes a quotient past the bound is not zero. -/
theorem isZero_of_le_abs_div {q : ℚ} (h : roundingBound ≤ |q / y.value|) : y.isZero = false := by
  rw [← Bool.not_eq_true]
  intro hzero
  rw [value_of_isZero hzero, div_zero, abs_zero] at h
  exact absurd roundingBound_pos (not_lt.2 h)

/-- Dividing by what is at least one neither leaves the range nor comes back into it. -/
theorem isFinite_div_of_atLeastOne (hy : y.AtLeastOne) (x : Binary64) :
    (div x y).isFinite = true ↔ x.isFinite = true := by
  cases x with
  | nan => exact Iff.rfl
  | infinite s =>
    cases hy with
    | finite hn => exact Iff.rfl
    | infinite => exact Iff.rfl
  | finite s m hm =>
    refine iff_of_true ?_ rfl
    cases hy with
    | infinite => rfl
    | @finite t n h hn =>
      have hlarge : (finite t n h).AtLeastOne := .finite hn
      have hone := hlarge.one_le_abs_value rfl
      have hzero := hlarge.isZero_eq_false
      rw [isFinite_div_iff rfl rfl hzero, abs_div]
      exact lt_of_le_of_lt (div_le_self (abs_nonneg _) hone) (abs_value_lt rfl)

/-! ## 3. Sums

A sum is taken from left to right and rounded at each step. An infinity or NaN on the way stays to
the end, so the sum is finite just if all its steps are. -/

/-- A sum is not finite with a summand that is not. -/
theorem isFinite_of_isFinite_add (h : (add x y).isFinite = true) :
    x.isFinite = true ∧ y.isFinite = true := by
  cases x with
  | nan => cases y <;> cases h
  | infinite s =>
    cases y with
    | nan => cases h
    | finite t n hn => cases h
    | infinite t =>
      rw [add] at h
      split at h
      · cases h
      · cases h
  | finite s m hm =>
    cases y with
    | nan => cases h
    | infinite t => cases h
    | finite t n hn => exact ⟨rfl, rfl⟩

/-- A total is finite up to some place in the list, and the exact sum with the number there is past
the bound. -/
def SumLeavesRange (xs : List Binary64) : Prop :=
  ∃ ys x, ys ++ [x] <+: xs ∧ (Numerics.sum ys).isFinite = true ∧
    roundingBound ≤ |(Numerics.sum ys).value + x.value|

/-- A sum of nothing leaves no range. -/
theorem SumLeavesRange.ne_nil {xs : List Binary64} (h : SumLeavesRange xs) : xs ≠ [] := by
  obtain ⟨ys, x, hprefix, -⟩ := h
  rintro rfl
  exact List.append_ne_nil_of_right_ne_nil ys (List.cons_ne_nil x []) (List.prefix_nil.1 hprefix)

/-- The last number is added to the sum of those before it. -/
theorem sum_concat (xs : List Binary64) (x : Binary64) :
    Numerics.sum (xs ++ [x]) = add (Numerics.sum xs) x := by
  rw [Numerics.sum, List.foldl_append]
  rfl

/-- A sum of finite numbers is finite just if no step of it leaves the range. -/
theorem isFinite_sum_iff {xs : List Binary64} (hxs : ∀ x ∈ xs, x.isFinite = true) :
    (Numerics.sum xs).isFinite = true ↔ ¬ SumLeavesRange xs := by
  -- from the end of the list, since the last number is the one added last
  induction xs using List.reverseRecOn with
  | nil =>
    exact iff_of_true rfl fun h => h.ne_nil rfl
  | append_singleton xs x ih =>
    have hbefore := ih fun y hy => hxs y (List.mem_append_left _ hy)
    have hlast : x.isFinite = true := hxs x (List.mem_append_right _ List.mem_cons_self)
    rw [sum_concat]
    constructor
    · rintro hsum ⟨ys, y, hprefix, hys, hpast⟩
      obtain ⟨hxs, -⟩ := isFinite_of_isFinite_add hsum
      rcases List.prefix_concat_iff.1 hprefix with heq | hearlier
      · -- the step that leaves the range is the last one
        obtain ⟨rfl, hy⟩ := List.append_inj' heq rfl
        obtain rfl := (List.cons.inj hy).1
        exact absurd ((isFinite_add_iff hys hlast).1 hsum) (not_lt.2 hpast)
      · exact hbefore.1 hxs ⟨ys, y, hearlier, hys, hpast⟩
    · intro hstays
      have hxs : (Numerics.sum xs).isFinite = true := hbefore.2 fun ⟨ys, y, hprefix, hrest⟩ =>
        hstays ⟨ys, y, hprefix.trans (List.prefix_append _ _), hrest⟩
      rw [isFinite_add_iff hxs hlast]
      exact lt_of_not_ge fun hpast => hstays ⟨xs, x, List.prefix_rfl, hxs, hpast⟩

end Binary64

end Metrology
