/-
The place to which a magnitude is rounded.

A magnitude is shown up to the place of the digit of its uncertainty if what is printed is a
multiple of that place. Right of the point this is so: a decimal of the place is read, and printing
finds a multiple of the place again. Left of the point the magnitude is divided by a power of ten,
rounded to a whole number and multiplied back. As far as the power of ten is a number of the format,
which is up to `10 ^ 22`, the product is the rounding of a multiple of the place, so it is printed
as one if it is finite. From `10 ^ 23` on the power is rounded itself and the product need not be
next to any multiple, as with `3e23 ± 1e23`.
-/
import Metrology.Proofs.Display.Parts
import Metrology.Proofs.Powers
import Metrology.Proofs.RoundingError
import Metrology.Proofs.WholeNumbers
set_option autoImplicit false

namespace Metrology

open Decimal

namespace Binary64

variable {x y : Binary64} {place : ℤ}

/-! ## 1. What is printed

The text of a magnitude is read as a numeral again, so that "is shown as" is a statement about the
value of the text (`denotes?`). Which multiples can be printed is known from the shortest decimal:
those of the place to which some multiple is rounded. -/

/-- Zero is rounded to zero. -/
theorem nearestTo_zero : nearestTo 0 = zero false := by
  have hvalue : (zero false).value = 0 := value_of_isZero rfl
  rw [← hvalue]
  exact nearestTo_value rfl rfl

/-- Both zeros lose their sign to the same number. -/
theorem abs_of_isZero (h : x.isZero = true) : x.abs = zero false := by
  obtain ⟨s, rfl⟩ := isZero_iff.1 h
  rfl

/-- A finite number is printed as a multiple of a place just if it is the rounding of one. -/
theorem printed_multiple_iff (hx : x.isFinite = true) :
    (∃ j : Nat, x.printed = j * 10 ^ place) ↔ ∃ k : Nat, nearestTo (k * 10 ^ place) = x.abs := by
  have hfinite : x.abs.isFinite = true := by rwa [isFinite_abs]
  have hsign := isNegative_abs x
  cases hzero : x.isZero with
  | true =>
    refine iff_of_true ⟨0, ?_⟩ ⟨0, ?_⟩
    · rw [printed, if_pos hzero, Nat.cast_zero, zero_mul]
    · rw [Nat.cast_zero, zero_mul, nearestTo_zero, abs_of_isZero hzero]
  | false =>
    have hpos : x.abs.quanta ≠ 0 := by
      rw [quanta_abs]
      exact quanta_ne_zero hx hzero
    have hprinted : x.printed = (shortest x.abs).value := by rw [printed, hzero]; rfl
    rw [hprinted]
    constructor
    · rintro ⟨j, hj⟩
      refine ⟨j, ?_⟩
      rw [← hj]
      exact nearestTo_shortest hfinite hsign hpos
    · rintro ⟨k, hk⟩
      exact shortest_multiple (k := k) hfinite hsign hpos hk

end Binary64

/-- The text is a numeral whose value is a multiple of the place. -/
def ShowsMultiple (text : List Char) (place : ℤ) : Prop :=
  ∃ k : ℤ, denotes? text = some ((k : ℚ) * 10 ^ place)

/-- A word denotes no number. -/
theorem denotes?_word {text : List Char} (h : text ∈ Binary64.words) : denotes? text = none := by
  have hread : ∀ text ∈ Binary64.words, read? (splitSign text).2 = none := by decide
  rw [denotes?, hread text h]
  rfl

/-- What is printed for a number, with its exponent rewritten, shows a multiple of a place just if
the number is finite and the rounding of one. -/
theorem showsMultiple_iff {y : Binary64} {place : ℤ} :
    ShowsMultiple (signedExponent (y.numeral .pointed)) place ↔
      y.isFinite = true ∧ ∃ k : Nat, Binary64.nearestTo (k * 10 ^ place) = y.abs := by
  cases hy : y.isFinite with
  | false =>
    have hword := Binary64.numeral_not_finite hy .pointed
    refine iff_of_false ?_ (by simp)
    rintro ⟨k, hk⟩
    rw [signedExponent_of_not_mem (Binary64.not_mem_of_mem_words hword), denotes?_word hword] at hk
    cases hk
  | true =>
    obtain ⟨cs, hcs, hbody⟩ := Binary64.numeral_finite hy .pointed
    have hdenotes : denotes? (signedExponent (y.numeral .pointed)) =
        some (if y.isNegative then -y.printed else y.printed) := by
      rw [hcs, denotes?_signedExponent hbody, hbody.denotes?]
    have hprinted : 0 ≤ y.printed := by
      rw [Binary64.printed]
      split
      · exact le_refl _
      · exact value_nonneg _
    rw [← Binary64.printed_multiple_iff hy, ShowsMultiple, hdenotes]
    generalize y.printed = q at *
    constructor
    · rintro ⟨k, hk⟩
      have hsize : |if y.isNegative then -q else q| = q := by
        split
        · rw [abs_neg, abs_of_nonneg hprinted]
        · exact abs_of_nonneg hprinted
      -- the sign of the multiple is that of the number
      refine ⟨rfl, k.natAbs, ?_⟩
      rw [← hsize, Option.some.inj hk, abs_mul, abs_of_pos (ten_zpow_pos place), Nat.cast_natAbs,
        Int.cast_abs]
    · rintro ⟨-, j, rfl⟩
      refine ⟨if y.isNegative then -j else j, ?_⟩
      split
      · simp
      · simp

namespace Binary64

variable {x : Binary64} {place : ℤ}

/-! ## 2. Right of the point

Here `round_to_places` formats with a fixed number of places and reads the text again. The text is a
multiple of the place, and reading it is one rounding. -/

/-- A decimal is read, but for the sign, as the number nearest to its value. -/
theorem abs_toBinary64 (d : Decimal) (s : Bool) : (d.toBinary64 s).abs = nearestTo d.value := by
  rw [← toBinary64_eq_nearestTo, d.toBinary64_eq_nearest, d.toBinary64_eq_nearest, nearest, nearest,
    abs_ofRatio]

/-- Half a unit of a place right of the point does not lead out of the range. -/
theorem value_lt_roundingBound {c : Nat} (hplace : place ≤ 0)
    (h : (c : ℚ) - |x.value| / 10 ^ place ≤ 1 / 2) : Decimal.value ⟨c, place⟩ < roundingBound := by
  have hpower := ten_zpow_pos place
  have hsmall : (10 : ℚ) ^ place ≤ 1 := zpow_le_one_of_nonpos₀ (by norm_num) hplace
  have hbound := abs_value_add_one_le x
  have hle : (c : ℚ) ≤ |x.value| / 10 ^ place + 1 / 2 := by linarith
  calc Decimal.value ⟨c, place⟩ ≤ (|x.value| / 10 ^ place + 1 / 2) * 10 ^ place :=
        mul_le_mul_of_nonneg_right hle hpower.le
    _ = |x.value| + 10 ^ place / 2 := by
        rw [add_mul, div_mul_cancel₀ _ hpower.ne']
        ring
    _ < roundingBound := by linarith

/-- Rounded to a place right of the point or to units a number stays finite, and is read from a
multiple of the place. -/
theorem roundToPlaces_right (hx : x.isFinite = true) (hplace : place ≤ 0) :
    (x.roundToPlaces (-place)).isFinite = true ∧
      ∃ k : Nat, nearestTo (k * 10 ^ place) = (x.roundToPlaces (-place)).abs := by
  obtain ⟨s, n, h, rfl⟩ := exists_finite hx
  have hround : (finite s n h).roundToPlaces (-place) =
      toBinary64 s ⟨nearestEven (overPlace n place).1 (overPlace n place).2, place⟩ := by
    unfold roundToPlaces
    rw [if_neg (by omega)]
    simp only [neg_neg]
  have hhalf := (abs_le.1 (abs_nearestEven_sub_le (overPlace n place).1 (overPlace_pos n place))).2
  have hvalue : |(finite s n h).value| = n / perUnit := abs_value _
  rw [overPlace_div, ← hvalue] at hhalf
  rw [hround, abs_toBinary64, isFinite_toBinary64_iff]
  exact ⟨value_lt_roundingBound hplace hhalf, _, rfl⟩

/-! ## 3. Left of the point

Here `round_to_places` divides by a power of ten, rounds to a whole number and multiplies again. The
power is made by repeated squaring, so that it has to be shown exact first. Division and rounding
can do what they want: what is multiplied is a whole number, and one rounding of an exact multiple
is left. -/

/-- The exponent of the last power of ten that is a number of the format with all smaller ones. -/
def exactTens : Nat := 22

/-- Up to the exponent `22` a power of ten fits: its odd part, a power of five, has at most 53
bits. -/
theorem representable_ten_pow {k : Nat} (hk : k ≤ exactTens) :
    Representable (10 ^ k * perUnit) := by
  have hodd : 5 ^ k < 2 ^ precision :=
    Nat.lt_of_le_of_lt (Nat.pow_le_pow_right (by decide) hk) (by decide)
  have hsplit : 10 ^ k * perUnit = 5 ^ k * 2 ^ (k + quantumExponent) := by
    rw [perUnit, Nat.pow_add, ← Nat.mul_assoc, ← Nat.mul_pow]
  rw [hsplit]
  -- the twos of the ten join the quantum, so that nothing but the odd part has to fit
  apply representable_mul_two_pow _ _ hodd
  calc 5 ^ k * 2 ^ (k + quantumExponent)
      < 2 ^ precision * 2 ^ (k + quantumExponent) :=
        Nat.mul_lt_mul_of_pos_right hodd (Nat.two_pow_pos _)
    _ ≤ overflow := by
      rw [← Nat.pow_add]
      apply Nat.pow_le_pow_right (by decide)
      unfold exactTens at hk
      unfold precision rangeExponent
      omega

/-- Such a power of ten is not rounded when it is made from the natural number. -/
theorem ofNat_ten_pow {k : Nat} (hk : k ≤ exactTens) :
    ofNat (10 ^ k) = .finite false (10 ^ k * perUnit) (representable_ten_pow hk) :=
  ofRatio_one false _ _

theorem isFinite_ofNat_ten_pow {k : Nat} (hk : k ≤ exactTens) :
    (ofNat (10 ^ k)).isFinite = true := by
  rw [ofNat_ten_pow hk]
  rfl

theorem value_ofNat_ten_pow {k : Nat} (hk : k ≤ exactTens) : (ofNat (10 ^ k)).value = 10 ^ k := by
  rw [ofNat_ten_pow hk, value_positive, Nat.cast_mul, mul_div_cancel_right₀ _ perUnit_cast_pos.ne',
    cast_natPow, Nat.cast_ofNat]

/-- Powers of ten that are numbers of the format are multiplied exactly. -/
theorem mul_ten_pow {a b : Nat} (h : a + b ≤ exactTens) :
    mul (ofNat (10 ^ a)) (ofNat (10 ^ b)) = ofNat (10 ^ (a + b)) := by
  rw [ofNat_ten_pow (by omega), ofNat_ten_pow (by omega), mul, ofNat, Nat.pow_add]
  apply ofRatio_eq perUnit_pos Nat.one_pos
  ring

/-- Repeated squaring of ten is exact as long as the power that comes out is. -/
theorem powLoop_ten (steps : Nat) {n a b : Nat} (hsteps : n < 2 ^ steps)
    (h : a + b * n ≤ exactTens) :
    powLoop steps (ofNat (10 ^ a)) (ofNat (10 ^ b)) n = ofNat (10 ^ (a + b * n)) := by
  induction steps generalizing n a b with
  | zero =>
    obtain rfl : n = 0 := by simpa using hsteps
    rw [Nat.mul_zero, Nat.add_zero, powLoop]
  | succ steps ih =>
    have hstep : powStep (ofNat (10 ^ a)) (ofNat (10 ^ b)) n = ofNat (10 ^ (a + b * (n % 2))) := by
      unfold powStep
      rcases Nat.mod_two_eq_zero_or_one n with heven | hodd
      · rw [if_neg (by omega), heven, Nat.mul_zero, Nat.add_zero]
      · have hfactor : b ≤ b * n := Nat.le_mul_of_pos_right b (by omega)
        rw [if_pos hodd, hodd, Nat.mul_one, mul_ten_pow (by omega)]
    rw [powLoop_succ, hstep]
    by_cases hlast : n / 2 = 0
    · have hbit : n % 2 = n := by omega
      rw [if_pos hlast, hbit]
    · -- the square is multiplied in later, so it is not past the power that comes out
      have hsum : a + b * (n % 2) + (b + b) * (n / 2) = a + b * n := by
        have hn : n % 2 + 2 * (n / 2) = n := Nat.mod_add_div n 2
        calc a + b * (n % 2) + (b + b) * (n / 2) = a + b * (n % 2 + 2 * (n / 2)) := by ring
          _ = a + b * n := by rw [hn]
      have hsquare : b + b ≤ (b + b) * (n / 2) :=
        Nat.le_mul_of_pos_right _ (Nat.pos_of_ne_zero hlast)
      have hhalf : n / 2 < 2 ^ steps := by
        rw [Nat.pow_succ] at hsteps
        omega
      rw [if_neg hlast, mul_ten_pow (by omega), ih hhalf (by omega), hsum]

/-- The scale of a place left of the point is exact up to `10 ^ 22`. -/
theorem pow_ten {k : Nat} (hk : k ≤ exactTens) : (ofNat 10).pow k = ofNat (10 ^ k) := by
  have hloop := powLoop_ten (k.log2 + 1) (a := 0) (b := 1) Nat.lt_log2_self (by omega)
  rw [Nat.zero_add, Nat.one_mul, Nat.pow_zero, Nat.pow_one] at hloop
  unfold pow
  rw [Int.natAbs_natCast, if_neg (by omega)]
  exact hloop

/-- Rounding to a whole number gives a number of the format. -/
theorem representable_whole {n : Nat} (h : Representable n) :
    Representable (nearestEven n perUnit * perUnit) := by
  rcases Nat.lt_or_ge n (2 ^ precision * perUnit) with hsmall | hlarge
  · apply representable_mul_perUnit
    have hquotient : n / perUnit < 2 ^ precision := (Nat.div_lt_iff_lt_mul perUnit_pos).2 hsmall
    have hle := nearestEven_le_succ n perUnit
    generalize n / perUnit = q at hquotient hle
    omega
  · obtain ⟨c, hc⟩ := h.perUnit_dvd hlarge
    rw [Nat.mul_comm] at hc
    rw [hc] at h ⊢
    rwa [nearestEven_mul c perUnit perUnit_pos]

/-- A whole number times a power of ten is the rounding of the exact product. -/
theorem abs_mul_ten_pow {k j : Nat} (hk : k ≤ exactTens) (s : Bool)
    (h : Representable (j * perUnit)) :
    (mul (finite s (j * perUnit) h) (ofNat (10 ^ k))).abs = nearestTo (j * 10 ^ (k : ℤ)) := by
  have hwhole : |(finite s (j * perUnit) h).value| = j := by
    rw [abs_value, quanta, Nat.cast_mul, mul_div_cancel_right₀ _ perUnit_cast_pos.ne']
  rw [abs_mul_eq_nearestTo rfl (isFinite_ofNat_ten_pow hk), abs_mul, hwhole, value_ofNat_ten_pow hk,
    abs_pow, Nat.abs_ofNat, zpow_natCast]

/-- Rounded to a place left of the point, up to `10 ^ 22`, a number is the rounding of a multiple of
the place, the one next to the rounded quotient. -/
theorem roundToPlaces_left (hx : x.isFinite = true) {k : Nat} (hpos : 0 < k) (hk : k ≤ exactTens) :
    ∃ j : Nat, nearestTo (j * 10 ^ (k : ℤ)) = (x.roundToPlaces (-k)).abs ∧
      (j : ℚ) ≤ |(x.div (ofNat (10 ^ k))).value| + 1 / 2 := by
  have hround :
      x.roundToPlaces (-k) = ((x.div (ofNat (10 ^ k))).roundEven).mul (ofNat (10 ^ k)) := by
    unfold roundToPlaces
    rw [if_pos (by omega), neg_neg, pow_ten hk]
  have hfinite : (x.div (ofNat (10 ^ k))).isFinite = true :=
    (isFinite_div_of_atLeastOne (atLeastOne_ofNat (Nat.pow_pos (by decide)).ne') x).2 hx
  rw [hround]
  cases hquotient : x.div (ofNat (10 ^ k)) with
  | infinite s => simp [hquotient, isFinite] at hfinite
  | nan => simp [hquotient, isFinite] at hfinite
  | finite s n h =>
    have hhalf := (abs_le.1 (abs_nearestEven_sub_le n perUnit_pos)).2
    rw [roundEven, ofRatio_one s _ (representable_whole h), abs_mul_ten_pow hk, abs_value, quanta]
    exact ⟨_, rfl, sub_le_iff_le_add'.1 hhalf⟩

/-- A quotient by a power of ten without its sign is the rounding of the exact one. -/
theorem abs_div_ten_pow (hx : x.isFinite = true) {k : Nat} (hk : k ≤ exactTens) :
    nearestTo (|x.value| / 10 ^ k) = (x.div (ofNat (10 ^ k))).abs := by
  have hten : (ofNat (10 ^ k)).isZero = false :=
    (atLeastOne_ofNat (Nat.pow_pos (by decide)).ne').isZero_eq_false
  rw [abs_div_eq_nearestTo hx (isFinite_ofNat_ten_pow hk) hten, value_ofNat_ten_pow hk, abs_div,
    abs_pow, Nat.abs_ofNat]

/-- Half of the range, with a rounding and a unit of an exact power of ten added, is still in
range. -/
theorem half_range_add_lt :
    (2 : ℚ) ^ (rangeExponent - 1) * (1 + 1 / 2 ^ precision) + 10 ^ exactTens < roundingBound := by
  have hten : (10 : ℚ) ^ exactTens ≤ 2 ^ (rangeExponent - precision - 1) := by
    calc (10 : ℚ) ^ exactTens ≤ 2 ^ 100 := by norm_num [exactTens]
      _ ≤ 2 ^ (rangeExponent - precision - 1) := pow_le_pow_right₀ (by norm_num) (by decide)
  have hhalf :
      (2 : ℚ) ^ (rangeExponent - 1) = 2 ^ (rangeExponent - precision - 1) * 2 ^ precision := by
    rw [← pow_add]
    rfl
  have hrange :
      (2 : ℚ) ^ rangeExponent = 2 ^ (rangeExponent - precision - 1) * 2 ^ (precision + 1) := by
    rw [← pow_add]
    rfl
  have hpos : (0 : ℚ) < 2 ^ (rangeExponent - precision - 1) := by positivity
  rw [roundingBound, hhalf, hrange]
  generalize (2 : ℚ) ^ (rangeExponent - precision - 1) = half at *
  norm_num [precision]
  linarith

/-- A number of the range next to a quotient is above it by at most a rounding and half a unit. -/
theorem value_le_of_nearestTo {y : Binary64} {q : ℚ} (hq : 0 ≤ q) (hy : y.isFinite = true)
    (h : nearestTo q = y) :
    y.value ≤ q * (1 + 1 / 2 ^ precision) + 1 / 2 := by
  have hnear := two_mul_abs_value_sub_le hq hy h
  have hunit : 1 / (perUnit : ℚ) ≤ 1 :=
    (div_le_one perUnit_cast_pos).2 (Nat.one_le_cast.2 perUnit_pos)
  have hmax : max (1 / (perUnit : ℚ)) (q / 2 ^ (precision - 1)) ≤ 1 + q / 2 ^ (precision - 1) :=
    max_le (hunit.trans (le_add_of_nonneg_right (by positivity)))
      (le_add_of_nonneg_left zero_le_one)
  have hsub := le_abs_self (y.value - q)
  have hstep : q / 2 ^ (precision - 1) = 2 * (q / 2 ^ precision) := by
    norm_num [precision]
    ring
  calc y.value ≤ q + q / 2 ^ precision + 1 / 2 := by linarith
    _ = q * (1 + 1 / 2 ^ precision) + 1 / 2 := by ring

/-- Up to half of the range nothing is rounded out of it. -/
theorem isFinite_roundToPlaces_left (hx : x.isFinite = true) {k : Nat} (hpos : 0 < k)
    (hk : k ≤ exactTens) (hsize : |x.value| ≤ 2 ^ (rangeExponent - 1)) :
    (x.roundToPlaces (-k)).isFinite = true := by
  obtain ⟨j, hread, hhalf⟩ := roundToPlaces_left hx hpos hk
  have hfinite : (x.div (ofNat (10 ^ k))).abs.isFinite = true := by
    rw [isFinite_abs]
    exact (isFinite_div_of_atLeastOne (atLeastOne_ofNat (Nat.pow_pos (by decide)).ne') x).2 hx
  have hdiv := abs_div_ten_pow hx hk
  rw [← value_abs] at hhalf
  -- the multiple is the quotient, rounded twice, times the scale; each rounding is paid for by a
  -- summand of the bound
  generalize (x.div (ofNat (10 ^ k))).abs = z at *
  have hmultiple : (0 : ℚ) ≤ j * 10 ^ (k : ℤ) := mul_nonneg j.cast_nonneg (ten_zpow_pos k).le
  rw [← isFinite_abs, ← hread, isFinite_nearestTo_iff hmultiple, zpow_natCast]
  have hscale : (0 : ℚ) < 10 ^ k := pow_pos (by norm_num) k
  have hquotient : 0 ≤ |x.value| / 10 ^ k := div_nonneg (abs_nonneg _) hscale.le
  have hz := value_le_of_nearestTo hquotient hfinite hdiv
  have hten : (10 : ℚ) ^ k ≤ 10 ^ exactTens := pow_le_pow_right₀ (by norm_num) hk
  calc (j : ℚ) * 10 ^ k ≤ (|x.value| / 10 ^ k * (1 + 1 / 2 ^ precision) + 1) * 10 ^ k := by
        apply mul_le_mul_of_nonneg_right _ hscale.le
        linarith
    _ = |x.value| * (1 + 1 / 2 ^ precision) + 10 ^ k := by field_simp
    _ ≤ 2 ^ (rangeExponent - 1) * (1 + 1 / 2 ^ precision) + 10 ^ exactTens :=
        add_le_add (mul_le_mul_of_nonneg_right hsize (by positivity)) hten
    _ < roundingBound := half_range_add_lt

/-! ## 4. Shown magnitudes

Both sides of the point are put together, first for a number and then for the texts of a
measurement. -/

/-- Rounded to a place right of the point or to units, a number is shown as a multiple of the
place. -/
theorem showsMultiple_right (hx : x.isFinite = true) (hplace : place ≤ 0) :
    ShowsMultiple (signedExponent ((x.roundToPlaces (-place)).numeral .pointed)) place :=
  showsMultiple_iff.2 (roundToPlaces_right hx hplace)

/-- Rounded to a place left of the point, up to `10 ^ 22`, it is shown as one if it is in range. -/
theorem showsMultiple_left_iff (hx : x.isFinite = true) {k : Nat} (hpos : 0 < k)
    (hk : k ≤ exactTens) :
    ShowsMultiple (signedExponent ((x.roundToPlaces (-k)).numeral .pointed)) k ↔
      (x.roundToPlaces (-k)).isFinite = true := by
  obtain ⟨j, hread, -⟩ := roundToPlaces_left hx hpos hk
  exact showsMultiple_iff.trans (and_iff_left ⟨j, hread⟩)

/-- Up to `10 ^ 22`, on either side of the point, a number is shown as a multiple of the place
unless it is rounded out of the range. -/
theorem showsMultiple_iff_isFinite (hx : x.isFinite = true) (hplace : place ≤ exactTens) :
    ShowsMultiple (signedExponent ((x.roundToPlaces (-place)).numeral .pointed)) place ↔
      (x.roundToPlaces (-place)).isFinite = true := by
  by_cases hright : place ≤ 0
  · exact iff_of_true (showsMultiple_right hx hright) (roundToPlaces_right hx hright).1
  · obtain ⟨k, rfl⟩ := Int.eq_ofNat_of_zero_le (not_le.1 hright).le
    exact showsMultiple_left_iff hx (by omega) (by omega)

/-- No number of the lower half of the range is rounded out of it, on either side of the point. -/
theorem isFinite_roundToPlaces (hx : x.isFinite = true) (hplace : place ≤ exactTens)
    (hsize : |x.value| ≤ 2 ^ (rangeExponent - 1)) : (x.roundToPlaces (-place)).isFinite = true := by
  by_cases hright : place ≤ 0
  · exact (roundToPlaces_right hx hright).1
  · obtain ⟨k, rfl⟩ := Int.eq_ofNat_of_zero_le (not_le.1 hright).le
    exact isFinite_roundToPlaces_left hx (by omega) (by omega) hsize

end Binary64

namespace Measurement

open Binary64 (nearestTo exactTens rangeExponent)

/-- The magnitude that is printed. -/
def shownMagnitude (m : Measurement) : Binary64 := m.magnitude.roundToPlaces m.errorDigit.places

/-- Both texts show a finite magnitude as a multiple of the place of the uncertainty's digit just if
the magnitude that is printed is finite and the rounding of such a multiple. Right of the point and
at units that is always so, and up to `10 ^ 22` unless rounding leads out of the range. -/
theorem magnitude_shown {m : Measurement} (hmagnitude : m.magnitude.isFinite = true)
    (herror : m.error.isFinite = true) (hzero : m.error.isZero = false) :
    ∃ (digit : Nat) (place : ℤ), IsOneDigit |m.error.value| digit place ∧
      m.errorDigit.Shows digit place ∧
      renderParts? m.render = some (m.magnitudeText, m.errorDigit.text) ∧
      latexParts? m.renderLatex = some (m.magnitudeText, m.errorDigit.text) ∧
      (ShowsMultiple m.magnitudeText place ↔ m.shownMagnitude.isFinite = true ∧
        ∃ k : Nat, nearestTo (k * 10 ^ place) = m.shownMagnitude.abs) ∧
      (place ≤ 0 → ShowsMultiple m.magnitudeText place) ∧
      (place ≤ exactTens →
        (ShowsMultiple m.magnitudeText place ↔ m.shownMagnitude.isFinite = true)) ∧
      (place ≤ exactTens → |m.magnitude.value| ≤ 2 ^ (rangeExponent - 1) →
        ShowsMultiple m.magnitudeText place) := by
  obtain ⟨digit, place, -, hdigit, hshows⟩ := errorDigit_shows herror hzero
  have hplaces : m.errorDigit.places = -place := hshows.places
  refine ⟨digit, place, hdigit, hshows, m.renderParts?_render, m.latexParts?_renderLatex, ?_⟩
  rw [magnitudeText, shownMagnitude, hplaces]
  refine ⟨showsMultiple_iff, Binary64.showsMultiple_right hmagnitude,
    Binary64.showsMultiple_iff_isFinite hmagnitude, ?_⟩
  intro hplace hsize
  rw [Binary64.showsMultiple_iff_isFinite hmagnitude hplace]
  exact Binary64.isFinite_roundToPlaces hmagnitude hplace hsize

/-- A magnitude of `1234.567` with an uncertainty of `300` is shown in hundreds. -/
theorem magnitude_shown_in_hundreds :
    let m := reading (toBinary64 false ⟨1234567, -3⟩) (toBinary64 false ⟨300, 0⟩)
    m.render = "1200.0±300.".toList ∧ ShowsMultiple m.magnitudeText 2 := by
  intro m
  obtain ⟨digit, place, -, hshows, -, -, -, -, hleft, -⟩ :=
    magnitude_shown (m := m) (by decide +kernel) (by decide +kernel) (by decide +kernel)
  have hplaces : m.errorDigit.places = -2 := by decide +kernel
  obtain rfl : place = 2 := neg_injective (hshows.places.symm.trans hplaces)
  exact ⟨by decide +kernel, (hleft (by decide)).2 (by decide +kernel)⟩

/-- `3e23 ± 1e23`: neither `10 ^ 23` nor three times it is a number of the format, and the product
of their roundings is printed with digits right of the place. -/
theorem magnitude_not_shown :
    let m := reading (toBinary64 false ⟨3, 23⟩) (toBinary64 false ⟨1, 23⟩)
    m.magnitude.isFinite = true ∧ m.error.isFinite = true ∧ m.error.isZero = false ∧
      m.errorDigit.Shows 1 23 ∧
      renderParts? m.render = some (m.magnitudeText, m.errorDigit.text) ∧
      m.magnitudeText = "2.9999999999999997e+23".toList ∧ ¬ ShowsMultiple m.magnitudeText 23 := by
  intro m
  have herror : ErrorDigit.of m.error = .ofPlace 1 23 := by decide +kernel
  have htext : m.magnitudeText = "2.9999999999999997e+23".toList := by decide +kernel
  have hread : read? "2.9999999999999997e+23".toList = some ⟨29999999999999997, 7⟩ := by
    decide +kernel
  have hdenotes : denotes? m.magnitudeText = some (Decimal.value ⟨29999999999999997, 7⟩) := by
    rw [htext]
    exact denotes?_of_read? (by decide) hread false
  have hshows : m.errorDigit.Shows 1 23 := by
    rw [errorDigit, herror]
    exact ofPlace_shows (by decide) (by decide) 23
  refine ⟨by decide +kernel, by decide +kernel, by decide +kernel, hshows, m.renderParts?_render,
    htext, ?_⟩
  rintro ⟨k, hk⟩
  rw [hdenotes] at hk
  simp only [Option.some.injEq, Decimal.value] at hk
  -- the digits that were read are a multiple of the place only if `16` zeros more end them
  have hwhole : 29999999999999997 * 10 ^ 7 = k * 10 ^ 23 := by
    exact_mod_cast hk
  omega

end Measurement

end Metrology
