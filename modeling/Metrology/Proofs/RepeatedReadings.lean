/-
One reading taken many times.

The mean is a rounded sum divided by the size of the sample, and deviations are taken from this
mean. Where the mean of copies of `x` is `x` again there is no deviation, and the average is `x`
with no spread at all; where it is not, neither is the average. Which of the two it is only depends
on the roundings of the sum: they do no harm as long as every multiple on the way is a number of the
format (`mean_of_exact`), nor as long as what they come to stays within one part in `2 ^ 54` of the
total (`mean_of_close`). Three readings of a tenth are past that already.
-/
import Metrology.Proofs.Calls
import Metrology.Proofs.Magnitudes
import Metrology.Proofs.Roots
import Metrology.Proofs.Signs
import Metrology.Proofs.WholeNumbers
import Metrology.Proofs.Display.Rounding
set_option autoImplicit false

namespace Metrology

namespace Binary64

variable {x y : Binary64} {s : Bool} {q r n : Nat}

/-! ## 1. Sums of one number

A sum starts at the negative zero, so that even a sum of zeros keeps their sign. After that copies
of one sign only ever add up, and the question is which of the totals are rounded. -/

/-- What is rounded to a finite number is a count with the sign it had. -/
theorem exists_ofRatio {num den : Nat} (h : (ofRatio s num den).isFinite = true) :
    ∃ k hk, ofRatio s num den = finite s k hk := by
  rw [ofRatio] at *
  split
  · next hsmall => exact ⟨_, representable_roundedQuanta num den hsmall, rfl⟩
  · next hlarge =>
    rw [dif_neg hlarge] at h
    cases h

/-- A quotient whose rounded count is a number of the format is that number. -/
theorem ofRatio_of_roundedQuanta {num den : Nat} (hq : Representable q)
    (h : roundedQuanta num den = q) : ofRatio s num den = finite s q hq := by
  subst h
  exact dif_pos hq.1

/-- A count that is rounded to a finite number is in range. -/
theorem lt_overflow_of_isFinite (h : (ofRatio s n 1).isFinite = true) : n < overflow := by
  rw [isFinite_ofRatio_iff Nat.one_pos, Nat.mul_one] at h
  exact Nat.lt_of_lt_of_le h (Nat.sub_le _ _)

/-- Numbers of one sign add their counts. -/
theorem add_same_sign (hq : Representable q) (hr : Representable r) :
    add (finite s q hq) (finite s r hr) = ofRatio s (q + r) 1 := if_pos rfl

/-- One copy more is added to the sum of the others. -/
theorem sum_replicate_succ (n : Nat) (x : Binary64) :
    Numerics.sum (List.replicate (n + 1) x) = add (Numerics.sum (List.replicate n x)) x := by
  rw [List.replicate_succ', sum_concat]

/-- The sum of one number is that number, the sign of a zero included. -/
theorem sum_replicate_one (hx : x.isFinite = true) : Numerics.sum (List.replicate 1 x) = x := by
  rw [sum_replicate_succ]
  show add (zero true) x = x
  obtain ⟨s, n, h, rfl⟩ := exists_finite hx
  cases s with
  | true => rw [zero, add_same_sign, Nat.zero_add, ofRatio_one true n h]
  -- the start is a negative zero, and the sum with a positive number is that number
  | false =>
    rw [zero, add, if_neg Bool.true_eq_false_eq_False, if_neg (Nat.not_lt_zero n)]
    rcases Nat.eq_zero_or_pos n with rfl | hpos
    · rfl
    · rw [if_pos hpos, Nat.sub_zero, ofRatio_one]

/-- A sum of copies keeps their sign. -/
theorem exists_sum_replicate (hq : Representable q) (hn : n ≠ 0)
    (h : (Numerics.sum (List.replicate n (finite s q hq))).isFinite = true) :
    ∃ k hk, Numerics.sum (List.replicate n (finite s q hq)) = finite s k hk := by
  induction n with
  | zero => exact absurd rfl hn
  | succ n ih =>
    rcases Nat.eq_zero_or_pos n with rfl | hpos
    · exact ⟨q, hq, sum_replicate_one rfl⟩
    · rw [sum_replicate_succ] at h ⊢
      obtain ⟨k, hk, hsum⟩ := ih hpos.ne' (isFinite_of_isFinite_add h).1
      rw [hsum, add_same_sign] at h ⊢
      exact exists_ofRatio h

/-- As long as the multiples of a number are numbers of the format, its copies are summed
exactly. -/
theorem sum_replicate_of_exact (hq : Representable q) (hn : n ≠ 0)
    (hexact : ∀ k ≤ n, k * q < overflow → Representable (k * q))
    (h : (Numerics.sum (List.replicate n (finite s q hq))).isFinite = true) :
    ∃ hnq, Numerics.sum (List.replicate n (finite s q hq)) = finite s (n * q) hnq := by
  induction n with
  | zero => exact absurd rfl hn
  | succ n ih =>
    rcases Nat.eq_zero_or_pos n with rfl | hpos
    · rw [Nat.zero_add, Nat.one_mul]
      exact ⟨hq, sum_replicate_one rfl⟩
    · rw [sum_replicate_succ] at h ⊢
      obtain ⟨hnq, hsum⟩ := ih hpos.ne' (fun k hk => hexact k (Nat.le_succ_of_le hk))
        (isFinite_of_isFinite_add h).1
      rw [hsum, add_same_sign, ← Nat.succ_mul] at h ⊢
      -- the next multiple is a number of the format, so adding one copy more is not rounded
      have hnext := hexact (n + 1) (Nat.le_refl _) (lt_overflow_of_isFinite h)
      exact ⟨hnext, ofRatio_one s _ hnext⟩

/-! ## 2. The mean

The mean divides the rounded sum by the number of copies. It is the copy again if nothing was lost
on the way, or so little that the division rounds it off. -/

/-- Nothing divided by a number with a positive sign is nothing, with its sign. -/
theorem zero_div (hzero : y.isZero = false) (hnan : y ≠ nan) (hsign : y.isNegative = false) :
    div (zero s) y = zero s := by
  cases y with
  | nan => exact absurd rfl hnan
  | infinite t =>
    obtain rfl : t = false := hsign
    rw [zero, div, Bool.bne_false, zero]
  | finite t n h =>
    obtain rfl : t = false := hsign
    have hn : n ≠ 0 := ne_of_beq_false hzero
    have hnothing : 0 * 1 = 0 * n := by rw [Nat.zero_mul, Nat.zero_mul]
    rw [zero, div, if_neg hn, Bool.bne_false, Nat.zero_mul,
      ofRatio_eq (Nat.pos_of_ne_zero hn) Nat.one_pos hnothing, ofRatio_one]

/-- Division by a whole number, which the format has. -/
theorem div_ofNat (hr : Representable r) (hn : n ≠ 0) (hle : n ≤ 2 ^ precision) :
    div (finite s r hr) (ofNat n) = ofRatio s r n := by
  have hden : 0 < n * perUnit := Nat.mul_pos (Nat.pos_of_ne_zero hn) perUnit_pos
  rw [ofNat_eq hle, div, if_neg hden.ne', Bool.bne_false]
  exact ofRatio_eq hden (Nat.pos_of_ne_zero hn) (by rw [Nat.mul_assoc, Nat.mul_comm n]) s

theorem ofNat_ne_nan (n : Nat) : ofNat n ≠ nan := by
  rw [ofNat]
  exact ofRatio_ne_nan

/-- The mean of copies is their sum over their number (`mean`). -/
theorem mean_replicate (n : Nat) (x : Binary64) : Measurement.mean (List.replicate n x) =
    div (Numerics.sum (List.replicate n x)) (ofNat n) := by
  rw [Measurement.mean, List.length_replicate]
  rfl

/-- Copies of a number that are summed exactly have it as their mean. -/
theorem mean_of_exact (hq : Representable q) (hn : n ≠ 0) (hle : q = 0 ∨ n ≤ 2 ^ precision)
    (hexact : ∀ k ≤ n, k * q < overflow → Representable (k * q))
    (h : (Numerics.sum (List.replicate n (finite s q hq))).isFinite = true) :
    Measurement.mean (List.replicate n (finite s q hq)) = finite s q hq := by
  obtain ⟨hnq, hsum⟩ := sum_replicate_of_exact hq hn hexact h
  rw [mean_replicate, hsum]
  -- a zero is divided to a zero; otherwise the number cancels, since it is one of the format itself
  rcases hle with rfl | hle
  · exact zero_div (atLeastOne_ofNat hn).isZero_eq_false (ofNat_ne_nan n) (isNegative_ofNat n)
  · have hcancel : n * q * 1 = q * n := by rw [Nat.mul_one, Nat.mul_comm]
    rw [div_ofNat hnq hn hle, ofRatio_eq (Nat.pos_of_ne_zero hn) Nat.one_pos hcancel,
      ofRatio_one s q hq]

/-- The multiples of a number of few bits have few bits. -/
theorem mean_of_significand {c e : Nat} (hq : Representable q) (hn : n ≠ 0) (hqc : q = c * 2 ^ e)
    (hc : n * c ≤ 2 ^ precision)
    (h : (Numerics.sum (List.replicate n (finite s q hq))).isFinite = true) :
    Measurement.mean (List.replicate n (finite s q hq)) = finite s q hq := by
  refine mean_of_exact hq hn ?_ (fun k hk hrange => ?_) h
  · rcases Nat.eq_zero_or_pos c with rfl | hpos
    · exact .inl (by rw [hqc, Nat.zero_mul])
    · exact .inr (Nat.le_trans (Nat.le_mul_of_pos_right n hpos) hc)
  · rw [hqc, ← Nat.mul_assoc] at hrange ⊢
    exact representable_mul_two_pow_of_le (Nat.le_trans (Nat.mul_le_mul_right c hk) hc) hrange

/-- Doubling only changes the exponent. -/
theorem representable_two_mul (hq : Representable q) (h : 2 * q < overflow) :
    Representable (2 * q) := by
  have hgrid : q / 2 ^ gridExponent q * 2 ^ (gridExponent q + 1) = 2 * q := by
    rw [Nat.pow_succ, ← Nat.mul_assoc, Nat.div_mul_cancel (Nat.dvd_of_mod_eq_zero hq.2),
      Nat.mul_comm]
  rw [← hgrid] at h ⊢
  exact representable_mul_two_pow _ _ hq.significand_lt h

/-- One or two copies have their number as mean, since doubling is exact. -/
theorem mean_of_two (hq : Representable q) (hn : n ≠ 0) (hle : n ≤ 2)
    (h : (Numerics.sum (List.replicate n (finite s q hq))).isFinite = true) :
    Measurement.mean (List.replicate n (finite s q hq)) = finite s q hq := by
  refine mean_of_exact hq hn (.inr (Nat.le_trans hle (by decide))) (fun k hk hrange => ?_) h
  obtain rfl | rfl | rfl : k = 0 ∨ k = 1 ∨ k = 2 := by omega
  · rw [Nat.zero_mul]
    exact representable_zero
  · rw [Nat.one_mul]
    exact hq
  · exact representable_two_mul hq hrange

/-- A sum that is off by less than one part in `2 ^ 54` still has the number as its mean. -/
theorem mean_of_close (hq : Representable q) (hn : n ≠ 0) (hle : n ≤ 2 ^ precision)
    (h : (Numerics.sum (List.replicate n (finite s q hq))).isFinite = true)
    (hclose :
      |(Numerics.sum (List.replicate n (finite s q hq))).value - n * (finite s q hq).value| <
      n * |(finite s q hq).value| / 2 ^ (precision + 1)) :
    Measurement.mean (List.replicate n (finite s q hq)) = finite s q hq := by
  obtain ⟨k, hk, hsum⟩ := exists_sum_replicate hq hn h
  have hpos : (0 : ℚ) < n := Nat.cast_pos.2 (Nat.pos_of_ne_zero hn)
  -- the sign is the same everywhere
  have hunsigned : |(k : ℚ) / perUnit - n * (q / perUnit)| <
      n * (q / perUnit) / 2 ^ (precision + 1) := by
    rw [hsum, abs_value, quanta] at hclose
    cases s with
    | false => rwa [value_positive, value_positive] at hclose
    | true =>
      rw [value_negative, value_negative, mul_neg, neg_sub_neg] at hclose
      rwa [abs_sub_comm]
  have hquotient : |(k : ℚ) / (n * perUnit) - (finite false q hq).value| <
      (finite false q hq).value / 2 ^ (precision + 1) := by
    have hscale : (k : ℚ) / (n * perUnit) - q / perUnit =
        (k / perUnit - n * (q / perUnit)) / n := by
      rw [sub_div, div_div, Rat.mul_comm perUnit, mul_div_cancel_left₀ _ hpos.ne']
    rw [value_positive, hscale, abs_div, abs_of_pos hpos, div_lt_iff₀' hpos]
    rwa [mul_div_assoc] at hunsigned
  have hnonneg : (0 : ℚ) ≤ k / (n * perUnit) :=
    div_nonneg (Nat.cast_nonneg k) (mul_nonneg hpos.le perUnit_cast_pos.le)
  have hnearest : ofRatio false k n = finite false q hq := by
    rw [← nearestTo_div (Nat.pos_of_ne_zero hn)]
    exact nearestTo_eq_of_close rfl rfl hnonneg hquotient
  have hrounded : roundedQuanta k n = q := by
    rw [← quanta_ofRatio (s := false) (by rw [hnearest]; rfl), hnearest]
    rfl
  rw [mean_replicate, hsum, div_ofNat hk hn hle]
  exact ofRatio_of_roundedQuanta hq hrounded

/-! ## 3. No deviations

A mean that is the reading itself leaves nothing to square and to sum up. -/

/-- A finite number less itself is the positive zero. -/
theorem sub_self (hx : x.isFinite = true) : sub x x = zero false := by
  obtain ⟨s, n, h, rfl⟩ := exists_finite hx
  rw [sub, neg, add, if_neg (Bool.not_eq_not.2 rfl), if_neg (Nat.lt_irrefl n),
    if_neg (Nat.lt_irrefl n)]

theorem pow_two_zero : pow (zero false) 2 = zero false := by decide +kernel

/-- Zeros sum up to zero. -/
theorem sum_replicate_zero (hn : n ≠ 0) :
    Numerics.sum (List.replicate n (zero false)) = zero false := by
  induction n with
  | zero => exact absurd rfl hn
  | succ n ih =>
    rcases Nat.eq_zero_or_pos n with rfl | hpos
    · exact sum_replicate_one rfl
    · rw [sum_replicate_succ, ih hpos.ne', zero, add_same_sign, ofRatio_one false (0 + 0)]

end Binary64

/-! ## 4. In the library's numerics

The averages are written with `Numerics`, so what they need is restated in its terms. -/

namespace Numerics

variable {x : Binary64} {n : Nat}

theorem div_rounded (x y : Binary64) : x / y = x.div y := rfl

theorem zero_rounded : (0 : Binary64) = .zero false := rfl

theorem square_zero : square (0 : Binary64) = 0 := by
  rw [square, zero_rounded]
  exact Binary64.pow_two_zero

theorem sqrt_zero : sqrt (0 : Binary64) = 0 := rfl

/-- A finite number less itself is zero. -/
theorem sub_self (hx : x.isFinite = true) : x - x = 0 := Binary64.sub_self hx

/-- Nothing divided by a whole number or by its root is nothing. -/
theorem zero_div_ofNat (hn : n ≠ 0) : (0 : Binary64) / ofNat n = 0 := by
  rw [div_rounded, zero_rounded]
  exact Binary64.zero_div (Binary64.atLeastOne_ofNat hn).isZero_eq_false (Binary64.ofNat_ne_nan n)
    (Binary64.isNegative_ofNat n)

/-- Nothing divided by the root of a count is nothing. -/
theorem zero_div_sqrt_ofNat (hn : n ≠ 0) : (0 : Binary64) / sqrt (ofNat n) = 0 := by
  have hzero : (Binary64.ofNat n).isZero = false := (Binary64.atLeastOne_ofNat hn).isZero_eq_false
  rw [div_rounded, zero_rounded]
  exact Binary64.zero_div ((Binary64.isZero_sqrt _).trans hzero)
    (Binary64.sqrt_ne_nan (Binary64.ofNat_ne_nan n) (Binary64.isNegative_ofNat n))
    (Binary64.isNegative_numerics_sqrt_ofNat n)

end Numerics

/-! ## 5. Averages

Both averages take the deviations from the rounded mean, so their spread is zero if that mean is the
reading. And it has to be, since the mean is reported as well. -/

namespace Measurement

variable {x r : Binary64} {n : Nat} {m : Measurement} {ms : List Measurement}

/-- Copies of a number do not deviate from it. -/
theorem squaredDeviations_self (hx : x.isFinite = true) (hn : n ≠ 0) :
    squaredDeviations (List.replicate n x) x = 0 := by
  rw [squaredDeviations, List.map_replicate, Numerics.sub_self hx, Numerics.square_zero]
  exact Binary64.sum_replicate_zero hn

/-- Where the mean of copies is the copy, their standard error is zero. -/
theorem standardErrorOfMean_replicate (hx : x.isFinite = true) (hn : n ≠ 0)
    (hmean : mean (List.replicate n x) = x) : standardErrorOfMean (List.replicate n x) = 0 := by
  rw [standardErrorOfMean, hmean, squaredDeviations_self hx hn, List.length_replicate]
  -- one reading has no standard error, and more than one have one of zero
  split
  · rfl
  · next hmany =>
    dsimp only
    rw [Numerics.zero_div_ofNat (by omega), Numerics.sqrt_zero, Numerics.zero_div_sqrt_ofNat hn]

/-- The average of one reading, many times over, is that reading without spread just if the mean is
the reading. -/
theorem averageOfReadings_replicate_iff (hx : x.isFinite = true) (hn : n ≠ 0) :
    averageOfReadings (List.replicate n x) r = .ok ⟨x, r, 0⟩ ↔ mean (List.replicate n x) = x := by
  rw [averageOfReadings_eq_ok_iff]
  constructor
  · rintro ⟨-, h⟩
    exact (congrArg magnitude h).symm
  · intro hmean
    refine ⟨mt (List.replicate_eq_nil_iff x).1 hn, ?_⟩
    rw [hmean, standardErrorOfMean_replicate hx hn hmean]

/-- The average of measurements with one magnitude is that magnitude without spread just if the mean
is the magnitude. -/
theorem averageOfMeasurements_replicate_iff (hx : x.isFinite = true) (hn : n ≠ 0)
    (hms : ms.map magnitude = List.replicate n x) :
    averageOfMeasurements ms = .ok ⟨x, 0, 0⟩ ↔ mean (List.replicate n x) = x := by
  rw [averageOfMeasurements_eq_ok_iff, hms, List.length_replicate]
  constructor
  · rintro ⟨-, h⟩
    exact (congrArg magnitude h).symm
  · intro hmean
    refine ⟨mt (List.replicate_eq_nil_iff x).1 hn, ?_⟩
    rw [hmean, squaredDeviations_self hx hn, Numerics.zero_div_ofNat hn, Numerics.sqrt_zero]

end Measurement

/-! ## 6. Calls

The functions of a script pass on what the averages give (`avg`, `avg_readings`). -/

/-- Arithmetic hands out the number that it gives. -/
theorem Outcome.ofArithmetic_eq_number_iff {k : Except ArithmeticFault Measurement}
    {m : Measurement} : ofArithmetic k = .ok (.number m) ↔ k = .ok m := by
  cases k with
  | ok m => simp [ofArithmetic]
  | error fault => simp [ofArithmetic, fail]

namespace Intrinsic

/-- A call with readings and a reading error comes to the average of readings. -/
theorem call_avgReadings (ms : List Measurement) (e : Measurement) :
    call "avg_readings" [.list (ms.map .number), .number e] =
      .ofArithmetic (Measurement.averageOfReadings (ms.map Measurement.magnitude) e.magnitude) := by
  have hnumbers : numbers (.list (ms.map .number)) = .ok ms := numbers_eq_ok_iff.2 rfl
  have hcall := call_name avgReadings [.list (ms.map .number), .number e]
  rw [apply, hnumbers] at hcall
  exact hcall

/-- A call with measurements comes to their average. -/
theorem call_avg (ms : List Measurement) : call "avg" [.list (ms.map .number)] =
    .ofArithmetic (Measurement.averageOfMeasurements ms) := by
  have hnumbers : numbers (.list (ms.map .number)) = .ok ms := numbers_eq_ok_iff.2 rfl
  have hcall := call_name avg [.list (ms.map .number)]
  rw [apply, hnumbers] at hcall
  exact hcall

end Intrinsic

namespace Measurement

open Decimal (toBinary64)

/-- The average of `n` readings of `x`, and that of `n` values of magnitude `x` whatever their
uncertainties are, is `x` without any spread just if the rounded mean is `x`, and the functions of a
script report the same. The mean is `x` for one or two readings, as long as the significant bits of
`x` make a number of at most `2 ^ 53` when they are taken `n` times, and in general where rounding
takes the sum off by less than one part in `2 ^ 54`. -/
theorem repeated_reading_without_spread {x : Binary64} {n : Nat} (hx : x.isFinite = true)
    (hn : n ≠ 0) (hsum : (Numerics.sum (List.replicate n x)).isFinite = true) :
    let readings := List.replicate n x
    (mean readings).isFinite = true ∧
    (∀ r, (∃ s, averageOfReadings readings r = .ok ⟨mean readings, r, s⟩) ∧
      (averageOfReadings readings r = .ok ⟨x, r, 0⟩ ↔ mean readings = x)) ∧
    (∀ ms : List Measurement, ms.map magnitude = readings →
      (∃ s, averageOfMeasurements ms = .ok ⟨mean readings, 0, s⟩) ∧
      (averageOfMeasurements ms = .ok ⟨x, 0, 0⟩ ↔ mean readings = x) ∧
      (Intrinsic.call "avg" [.list (ms.map .number)] = .ok (.number ⟨x, 0, 0⟩) ↔
        mean readings = x) ∧
      ∀ e : Measurement, Intrinsic.call "avg_readings" [.list (ms.map .number), .number e] =
        .ok (.number ⟨x, e.magnitude, 0⟩) ↔ mean readings = x) ∧
    (n ≤ 2 → mean readings = x) ∧
    (∀ c e : Nat, x.quanta = c * 2 ^ e → n * c ≤ 2 ^ 53 → mean readings = x) ∧
    (n ≤ 2 ^ 53 → |(Numerics.sum readings).value - n * x.value| < n * |x.value| / 2 ^ 54 →
      mean readings = x) := by
  intro readings
  have hreadings (r : Binary64) :
      averageOfReadings readings r = .ok ⟨x, r, 0⟩ ↔ mean readings = x :=
    averageOfReadings_replicate_iff hx hn
  have hnonempty : readings ≠ [] := mt (List.replicate_eq_nil_iff x).1 hn
  refine ⟨?_, fun r => ⟨⟨_, averageOfReadings_eq_ok_iff.2 ⟨hnonempty, rfl⟩⟩, hreadings r⟩,
    fun ms hms => ?_, ?_⟩
  · rw [Binary64.mean_replicate, Binary64.isFinite_div_of_atLeastOne (Binary64.atLeastOne_ofNat hn)]
    exact hsum
  · have hmeasurements := averageOfMeasurements_replicate_iff hx hn hms
    refine ⟨⟨_, averageOfMeasurements_eq_ok_iff.2 ⟨hms ▸ hnonempty, by rw [hms]⟩⟩, hmeasurements,
      ?_, fun e => ?_⟩
    · rw [Intrinsic.call_avg, Outcome.ofArithmetic_eq_number_iff, hmeasurements]
    · rw [Intrinsic.call_avgReadings, Outcome.ofArithmetic_eq_number_iff, hms, hreadings]
  · cases x with
    | infinite s => cases hx
    | nan => cases hx
    | finite s q hq =>
      exact ⟨fun hle => Binary64.mean_of_two hq hn hle hsum,
        fun c e hqc hc => Binary64.mean_of_significand hq hn hqc hc hsum,
        fun hle hclose => Binary64.mean_of_close hq hn hle hsum hclose⟩

/-- Three readings of one and a half, which has two bits. -/
theorem repeated_reading_of_three_halves :
    let x := toBinary64 false ⟨15, -1⟩
    let r := toBinary64 false ⟨5, -2⟩
    averageOfReadings [x, x, x] r = .ok ⟨x, r, 0⟩ ∧
      averageOfMeasurements [reading x r, exact x, reading x x] = .ok ⟨x, 0, 0⟩ := by
  intro x r
  obtain ⟨-, hreadings, hmeasurements, -, hbits, -⟩ :=
    repeated_reading_without_spread (x := x) (n := 3) (by decide +kernel) (by decide)
      (by decide +kernel)
  have hmean := hbits 3 1073 (by decide +kernel) (by decide)
  have hmagnitudes (y : Binary64) :
      [reading y r, exact y, reading y y].map magnitude = List.replicate 3 y := rfl
  exact ⟨(hreadings r).2.2 hmean, (hmeasurements _ (hmagnitudes x)).2.1.2 hmean⟩

/-- Three readings of a tenth: their sum is rounded up, a third of it is the next number after a
tenth, and all three readings deviate from it. -/
theorem spread_of_tenths :
    let x := toBinary64 false ⟨1, -1⟩
    let r := toBinary64 false ⟨5, -2⟩
    x.isFinite = true ∧ (Numerics.sum [x, x, x]).isFinite = true ∧
      averageOfReadings [x, x, x] r =
        .ok ⟨toBinary64 false ⟨10000000000000002, -17⟩, r,
          toBinary64 false ⟨9813077866773593, -33⟩⟩ ∧
      averageOfReadings [x, x, x] r ≠ .ok ⟨x, r, 0⟩ ∧
      averageOfMeasurements [exact x, exact x, exact x] ≠ .ok ⟨x, 0, 0⟩ := by
  intro x r
  have hmean : mean [x, x, x] = toBinary64 false ⟨10000000000000002, -17⟩ := by decide +kernel
  have hspread : standardErrorOfMean [x, x, x] = toBinary64 false ⟨9813077866773593, -33⟩ := by
    decide +kernel
  have hother : mean [x, x, x] ≠ x := by decide +kernel
  have hreadings := averageOfReadings_replicate_iff (x := x) (n := 3) (r := r) (by decide +kernel)
    (by decide)
  have hmagnitudes (y : Binary64) :
      [exact y, exact y, exact y].map magnitude = List.replicate 3 y := rfl
  have hmeasurements := averageOfMeasurements_replicate_iff (x := x) (n := 3) (by decide +kernel)
    (by decide) (hmagnitudes x)
  refine ⟨by decide +kernel, by decide +kernel, ?_, mt hreadings.1 hother,
    mt hmeasurements.1 hother⟩
  rw [averageOfReadings_eq_ok_iff, hmean, hspread]
  exact ⟨List.cons_ne_nil _ _, rfl⟩

end Measurement

end Metrology
