/-
The two parts of a written measured value.

The uncertainty is one digit and the zeros that hold its place. Its text is laid out by counting
those zeros, differently on the two sides of the point, and `ErrorDigit.Shows` says what must come
of it: one digit other than zero, one point, and read as it stands the digit at its place. The
magnitude is a printed number whose exponent is rewritten. The plain text and the LaTeX text hold
these two parts and nothing of them is lost, as neither a `±` nor a blank stands in a number.
-/
import Metrology.Measurement.Notation
import Metrology.Proofs.Display.Numerals
set_option autoImplicit false

namespace Metrology

open Decimal

/-! ## 1. The uncertainty

The text of `error_digit` is laid out by hand, with one digit and counted zeros, and its number of
places is counted apart from that. What is proved is that the two tell the same: the text is read as
the digit at the place that the magnitude is then rounded to. -/

/-- The text shows the digit at the place `10 ^ place`, and its places are counted for that. -/
structure ErrorDigit.Shows (o : ErrorDigit) (digit : Nat) (place : ℤ) : Prop where
  /-- Read as it stands the text denotes the digit at its place. -/
  denotes : denotes? o.text = some ((digit : ℚ) * 10 ^ place)
  /-- There is one digit other than zero. -/
  nonzero : (o.text.filter fun c => c.isDigit && c != '0').length = 1
  /-- There is one point. -/
  point : o.text.count '.' = 1
  /-- The point comes last just if the digit stands before it. -/
  pointLast : o.text.getLast? = some '.' ↔ 0 ≤ place
  /-- Behind the point the digit comes last. -/
  digitLast : place < 0 → o.text.getLast? = some (Nat.digitChar digit)
  places : o.places = -place

variable {ds : List Char} {digit : Nat}

/-- A number that ends with its point is a whole one. -/
theorem read?_trailing_point (hne : ds ≠ []) (hds : ∀ c ∈ ds, c.isDigit = true) :
    read? (ds ++ ['.']) = some ⟨ofDigits ds, 0⟩ := by
  have hspan : (ds ++ ['.']).span Char.isDigit = (ds, ['.']) := Literal.span_isDigit hds (by simp)
  unfold read?
  simp only [hspan]
  rw [if_neg (by simp [hne])]
  simp [readExponent?]

/-- A digit other than zero is its one character. -/
theorem digits_of_digit (hone : 1 ≤ digit) (hnine : digit ≤ 9) :
    digits digit = [Nat.digitChar digit] ∧ (Nat.digitChar digit).isDigit = true ∧
      Nat.digitChar digit ≠ '0' := by
  refine ⟨Nat.toDigits_of_lt_base (by omega), ?_, ?_⟩
  · rw [Nat.isDigit_digitChar, decide_eq_true_iff]
    omega
  · rw [ne_eq, Nat.digitChar_eq_zero]
    omega

/-- Behind the point one zero less than the place says, and then the digit. -/
theorem ofPlace_shows_fraction (hone : 1 ≤ digit) (hnine : digit ≤ 9) {place : ℤ}
    (hneg : place < 0) :
    (ErrorDigit.ofPlace digit place).Shows digit place := by
  obtain ⟨hdigits, hdigit, hzero⟩ := digits_of_digit hone hnine
  have hplace : -(((-place - 1).toNat : ℤ) + ((digits digit).length : ℤ)) = place := by
    rw [hdigits, List.length_singleton]
    omega
  have htext : (ErrorDigit.ofPlace digit place).text =
      '0' :: '.' :: (List.replicate (-place - 1).toNat '0' ++ digits digit) := if_pos hneg
  have hall : ∀ c ∈ digits digit, c.isDigit = true := by simp [hdigits, hdigit]
  have hne : digits digit ≠ [] := Nat.toDigits_ne_nil
  have hbody := Body.positional (mantissa_fraction hne hall (-place - 1).toNat)
  rw [hplace, ofDigits_digits] at hbody
  have hpoint : Nat.digitChar digit ≠ '.' := Literal.ne_of_isDigit hdigit (by decide)
  have hlast : (ErrorDigit.ofPlace digit place).text.getLast? = some (Nat.digitChar digit) := by
    rw [htext, hdigits, ← List.cons_append, ← List.cons_append, List.getLast?_concat]
  constructor
  · rw [htext]
    exact hbody.denotes? false
  · simp [htext, hdigits, hdigit, hzero]
  · simp [htext, hdigits, hpoint, List.count_append, List.count_replicate]
  · simp [hlast, hpoint, hneg]
  · exact fun _ => hlast
  · rfl

/-- Before the point the digit, and then as many zeros as the place says. -/
theorem ofPlace_shows_whole (hone : 1 ≤ digit) (hnine : digit ≤ 9) {place : ℤ}
    (hnonneg : 0 ≤ place) :
    (ErrorDigit.ofPlace digit place).Shows digit place := by
  obtain ⟨hdigits, hdigit, hzero⟩ := digits_of_digit hone hnine
  have htext : (ErrorDigit.ofPlace digit place).text =
      digits digit ++ List.replicate place.toNat '0' ++ ['.'] := if_neg (not_lt.2 hnonneg)
  have hall : ∀ c ∈ Nat.digitChar digit :: List.replicate place.toNat '0', c.isDigit = true := by
    simp [hdigit]
  have hread := read?_trailing_point (List.cons_ne_nil _ _) hall
  have hvalue : value ⟨ofDigits (digits digit ++ List.replicate place.toNat '0'), 0⟩ =
      (digit : ℚ) * 10 ^ place := by
    have hcast : ((place.toNat : Nat) : ℤ) = place := Int.toNat_of_nonneg hnonneg
    rw [ofDigits_append_zeros, ofDigits_digits, value, Nat.cast_mul, Binary64.cast_natPow,
      ← zpow_natCast, hcast, zpow_zero, mul_one, Rat.mul_comm, Nat.cast_ofNat]
  have hpoint : Nat.digitChar digit ≠ '.' := Literal.ne_of_isDigit hdigit (by decide)
  have hlast : (ErrorDigit.ofPlace digit place).text.getLast? = some '.' := by
    rw [htext, List.getLast?_concat]
  constructor
  · rw [htext, ← hvalue, hdigits]
    exact denotes?_of_read? hdigit hread false
  · simp [htext, hdigits, hdigit, hzero]
  · simp [htext, hdigits, hpoint, List.count_append, List.count_replicate]
  · simp [hlast, hnonneg]
  · exact fun hneg => absurd hnonneg (not_le.2 hneg)
  · rfl

/-- The text of an uncertainty shows its one digit at its place. -/
theorem ofPlace_shows (hone : 1 ≤ digit) (hnine : digit ≤ 9) (place : ℤ) :
    (ErrorDigit.ofPlace digit place).Shows digit place := by
  by_cases hneg : place < 0
  · exact ofPlace_shows_fraction hone hnine hneg
  · exact ofPlace_shows_whole hone hnine (not_lt.1 hneg)

/-- One digit at a place, as near to the number as any decimal of one digit. -/
structure IsOneDigit (q : ℚ) (digit : Nat) (place : ℤ) : Prop where
  one_le : 1 ≤ digit
  le_nine : digit ≤ 9
  nearest : ∀ (k : Nat) (e : ℤ), k ≤ 9 → |(digit : ℚ) * 10 ^ place - q| ≤ |(k : ℚ) * 10 ^ e - q|

/-- The digit and the place that are computed are one digit at a place, and nearest. -/
theorem isOneDigit_oneDigit {x : Binary64} (hpos : x.quanta ≠ 0) :
    IsOneDigit |x.value| (oneDigit x.quanta).coefficient (oneDigit x.quanta).exponent := by
  obtain ⟨hone, hnine⟩ := oneDigit_coefficient hpos
  refine ⟨hone, hnine, fun k e hk => ?_⟩
  rw [Binary64.abs_value]
  exact oneDigit_nearest hpos hk e

/-- An uncertainty other than zero is written as the nearest decimal of one digit. -/
theorem errorDigit_shows {error : Binary64} (hfinite : error.isFinite = true)
    (hzero : error.isZero = false) :
    ∃ (digit : Nat) (place : ℤ), oneDigit error.quanta = ⟨digit, place⟩ ∧
      IsOneDigit |error.value| digit place ∧ (ErrorDigit.of error).Shows digit place := by
  have hdigit := isOneDigit_oneDigit (Binary64.quanta_ne_zero hfinite hzero)
  have htext : ErrorDigit.of error =
      .ofPlace (oneDigit error.quanta).coefficient (oneDigit error.quanta).exponent := by
    simp [ErrorDigit.of, hfinite, hzero]
  obtain ⟨digit, place, heq⟩ : ∃ c e, oneDigit error.quanta = ⟨c, e⟩ := by
    cases oneDigit error.quanta with
    | mk c e => exact ⟨c, e, rfl⟩
  rw [heq] at hdigit htext
  refine ⟨digit, place, heq, hdigit, ?_⟩
  rw [htext]
  exact ofPlace_shows hdigit.one_le hdigit.le_nine place

/-! ## 2. The two parts

Both texts are put together from `display_parts`. Taking them apart again is defined here, as
nothing of the program does it. -/

/-- Magnitude and uncertainty of a plain text, which are what stands around the `±`. -/
def renderParts? (text : List Char) : Option (List Char × List Char) := Literal.splitAt? '±' text

/-- Magnitude and uncertainty of a LaTeX text: without the signs of the mathematics mode, what
stands before the first blank and behind the sign for `±`. -/
def latexParts? (text : List Char) : Option (List Char × List Char) :=
  (Literal.splitAt? ' ' (text.drop 1)).map fun (magnitude, rest) =>
    (magnitude, (rest.drop "\\pm ".toList.length).dropLast)

namespace Measurement

/-- The magnitude is written in the characters of a number, among which there is neither a `±` nor a
blank. -/
theorem isNumeral_magnitudeText (m : Measurement) : ∀ c ∈ m.magnitudeText, IsNumeral c :=
  isNumeral_signedExponent _ _

/-- The plain text gives its two parts back. -/
theorem renderParts?_render (m : Measurement) :
    renderParts? m.render = some (m.magnitudeText, m.errorDigit.text) := by
  have hnone : '±' ∉ m.magnitudeText := fun hmem =>
    absurd (m.isNumeral_magnitudeText _ hmem) (by decide)
  exact Literal.splitAt?_eq_some_iff.2 ⟨rfl, hnone⟩

/-- The LaTeX text gives the same two parts back, from between its dollar signs. -/
theorem latexParts?_renderLatex (m : Measurement) :
    latexParts? m.renderLatex = some (m.magnitudeText, m.errorDigit.text) := by
  have hnone : ' ' ∉ m.magnitudeText := fun hmem =>
    absurd (m.isNumeral_magnitudeText _ hmem) (by decide)
  have htext : m.renderLatex.drop 1 =
      m.magnitudeText ++ ' ' :: ("\\pm ".toList ++ (m.errorDigit.text ++ ['$'])) := by
    simp [renderLatex]
  rw [latexParts?, htext, Literal.splitAt?_eq_some_iff.2 ⟨rfl, hnone⟩]
  simp

end Measurement

end Metrology
