/-
What the texts of numbers denote.

A numeral is read with all its digits and its power of ten as they stand, so it denotes one rational
number, and what is shown can be compared with it exactly. The body of a printed number is a
mantissa as tokens have it, with an exponent behind it or not. Its value depends on the digits and
the place of the first of them and not on the layout, and rewriting the exponent leaves it as it is.
Both rest on where the point and the `e` stand, which is known because all else is digits.
-/
import Metrology.Decimal.Numeral
import Metrology.Proofs.NumericTokens
import Metrology.Proofs.Display.Shortest
set_option autoImplicit false

namespace Metrology

namespace Decimal

open Literal

variable {cs ds ms es : List Char} {q : ℚ} {lead : ℤ}

/-! ## 1. Reading a numeral

`denotes?` reads a text with the reader of literals, a sign before it. `Body` is what the writer of
numbers produces, and a body is read back as the number that it was made of. -/

/-- The rational number that a text denotes, if it is a numeral: its digits, point, power of ten and
sign as they stand. -/
def denotes? (cs : List Char) : Option ℚ :=
  (read? (splitSign cs).2).map fun d => if (splitSign cs).1 then -d.value else d.value

/-- The body of a printed number: a mantissa, with a power of ten behind an `e` or not, and the
number it denotes. -/
inductive Body : List Char → ℚ → Prop
  | positional {ms : List Char} {q : ℚ} : Mantissa ms q → Body ms q
  | scientific {ms : List Char} {q : ℚ} (e : ℤ) : Mantissa ms q →
      Body (ms ++ 'e' :: integer e) (q * 10 ^ e)

/-- A row of digits is the number that it is read as. -/
theorem digits_of_forall (hne : ds ≠ []) (hds : ∀ c ∈ ds, c.isDigit = true) :
    Digits ds (ofDigits ds) := by
  refine digits_iff.2 ⟨?_, rfl⟩
  simpa [isDigits, hne] using hds

/-- The digits of a number denote it. -/
theorem digits_digits (n : Nat) : Digits (digits n) n := by
  have h := digits_of_forall Nat.toDigits_ne_nil fun c =>
    Nat.isDigit_of_mem_toDigits (b := 10) (n := n) (by decide) (by decide)
  rwa [← digits, ofDigits_digits] at h

/-- An integer as it is written is read as that power of ten. -/
theorem power_integer (e : ℤ) : Power (integer e) e := by
  unfold integer
  -- the writer puts a minus before a negative integer and nothing before the others
  by_cases hneg : e < 0
  · have hsize : -(e.natAbs : ℤ) = e := by omega
    have h := Power.minus (digits_digits e.natAbs)
    rw [if_pos hneg]
    rwa [hsize] at h
  · have hsize : (e.natAbs : ℤ) = e := by omega
    have h := Power.plain (digits_digits e.natAbs)
    rw [if_neg hneg]
    rwa [hsize] at h

/-- A printed number begins with a digit. -/
theorem Body.exists_cons (h : Body cs q) : ∃ c rest, cs = c :: rest ∧ c.isDigit = true := by
  cases h with
  | positional hms => exact hms.exists_cons
  | scientific e hms =>
    obtain ⟨c, rest, rfl, hc⟩ := hms.exists_cons
    exact ⟨c, _, rfl, hc⟩

/-- A mantissa is read with whatever follows it as its power of ten. -/
theorem read?_mantissa {e : ℤ} (hms : Mantissa ms q) (hes : readExponent? es = some e)
    (hstop : ∀ c ∈ es.head?, c.isDigit = false ∧ c ≠ '.') :
    ∃ d : Decimal, read? (ms ++ es) = some d ∧ d.value = q * 10 ^ e := by
  obtain ⟨n, k, rfl, hread⟩ := hms.read? es hstop
  rw [hes] at hread
  exact ⟨_, hread, value_shift n k e⟩

/-- A body is read as the number it denotes. -/
theorem Body.read? (h : Body cs q) : ∃ d : Decimal, read? cs = some d ∧ d.value = q := by
  cases h with
  | positional hms =>
    have hnone : readExponent? [] = some 0 := rfl
    obtain ⟨d, hread, hd⟩ := read?_mantissa hms hnone (by simp)
    rw [List.append_nil] at hread
    rw [zpow_zero, mul_one] at hd
    exact ⟨d, hread, hd⟩
  | scientific e hms => exact read?_mantissa hms (power_integer e).readExponent? (by simp)

/-- The sign of a text. -/
def minus (negative : Bool) : List Char := if negative then ['-'] else []

/-- What begins with a digit is read without a sign, or with the one that is put before it. -/
theorem denotes?_of_read? {c : Char} {d : Decimal} (hc : c.isDigit = true)
    (h : read? (c :: cs) = some d) (s : Bool) :
    denotes? (minus s ++ c :: cs) = some (if s then -d.value else d.value) := by
  cases s with
  | false =>
    have hsign := splitSign_of_isDigit hc cs
    simp [denotes?, minus, hsign, h]
  | true => simp [denotes?, minus, splitSign, h]

/-- A printed number denotes the number of its body with its sign. -/
theorem Body.denotes? (h : Body cs q) (s : Bool) :
    denotes? (minus s ++ cs) = some (if s then -q else q) := by
  obtain ⟨c, rest, rfl, hc⟩ := h.exists_cons
  obtain ⟨d, hread, rfl⟩ := h.read?
  exact denotes?_of_read? hc hread s

/-! ## 2. Digits laid out

The layouts place a point among the digits, fill up with zeros, or put a power of ten behind. Each
of them denotes the digits with the first one at its place, which is all that depends on the number.
-/

/-- Zeros denote zero. -/
theorem ofDigits_replicate (k : Nat) : ofDigits (List.replicate k '0') = 0 := by
  rw [ofDigits, Nat.ofDigitChars_replicate_zero, Nat.mul_zero]

/-- Zeros behind digits move them to the left. -/
theorem ofDigits_append_zeros (ds : List Char) (k : Nat) :
    ofDigits (ds ++ List.replicate k '0') = 10 ^ k * ofDigits ds := by
  rw [ofDigits_append, ofDigits_replicate, List.length_replicate, Nat.add_zero]

/-- Zeros before digits say nothing. -/
theorem ofDigits_zeros_append (k : Nat) (ds : List Char) :
    ofDigits (List.replicate k '0' ++ ds) = ofDigits ds := by
  rw [ofDigits_append, ofDigits_replicate, Nat.mul_zero, Nat.zero_add]

/-- A row of zeros has digits only. -/
theorem isDigit_of_mem_replicate {k : Nat} {c : Char} (h : c ∈ List.replicate k '0') :
    c.isDigit = true := by
  rw [List.eq_of_mem_replicate h]
  rfl

/-- Digits with a point among them are the digits, moved to the right by those behind it. -/
theorem mantissa_point {ws fs : List Char} (hws : ws ≠ []) (hfs : fs ≠ [])
    (hdigits : ∀ c ∈ ws ++ fs, c.isDigit = true) :
    Mantissa (ws ++ '.' :: fs) (ofDigits (ws ++ fs) * 10 ^ (-(fs.length : ℤ))) := by
  have hleft := digits_of_forall hws fun c hc => hdigits c (List.mem_append_left _ hc)
  have hright := digits_of_forall hfs fun c hc => hdigits c (List.mem_append_right _ hc)
  have hten : (10 : ℚ) ^ fs.length ≠ 0 := by positivity
  have hvalue : (ofDigits (ws ++ fs) * 10 ^ (-(fs.length : ℤ)) : ℚ) =
      ofDigits ws + ofDigits fs / 10 ^ fs.length := by
    rw [ofDigits_append, Nat.cast_add, Nat.cast_mul, Binary64.cast_natPow, Nat.cast_ofNat, zpow_neg,
      zpow_natCast]
    field_simp
  rw [hvalue]
  exact .point hleft hright

variable (hne : ds ≠ []) (hds : ∀ c ∈ ds, c.isDigit = true)

include hne hds in
/-- Before the point only zeros, and some behind it. -/
theorem mantissa_fraction (k : Nat) :
    Mantissa ('0' :: '.' :: (List.replicate k '0' ++ ds))
      (ofDigits ds * 10 ^ (-(k + ds.length : ℤ))) := by
  have hfs : List.replicate k '0' ++ ds ≠ [] := by simp [hne]
  have hdigits : ∀ c ∈ ['0'] ++ (List.replicate k '0' ++ ds), c.isDigit = true := by
    intro c hc
    rw [List.mem_append, List.mem_append, List.mem_singleton] at hc
    rcases hc with rfl | hzero | hc
    · rfl
    · exact isDigit_of_mem_replicate hzero
    · exact hds c hc
  have hpoint := mantissa_point (List.cons_ne_nil '0' []) hfs hdigits
  have hzeros : ofDigits (['0'] ++ (List.replicate k '0' ++ ds)) = ofDigits ds :=
    ofDigits_zeros_append (k + 1) ds
  rw [hzeros, List.length_append, List.length_replicate, Nat.cast_add] at hpoint
  exact hpoint

include hne hds in
/-- Whole digits filled up with zeros, with a fraction of zero or none. -/
theorem mantissa_whole (wholePoint : Bool) (k : Nat) :
    Mantissa (if wholePoint then ds ++ List.replicate k '0' ++ ['.', '0']
      else ds ++ List.replicate k '0') (ofDigits ds * 10 ^ (k : ℤ)) := by
  have hws : ds ++ List.replicate k '0' ≠ [] := by simp [hne]
  have hdigits : ∀ c ∈ ds ++ List.replicate k '0', c.isDigit = true := by
    intro c hc
    rcases List.mem_append.1 hc with hc | hzero
    · exact hds c hc
    · exact isDigit_of_mem_replicate hzero
  have hvalue :
      ((ofDigits (ds ++ List.replicate k '0') : Nat) : ℚ) = ofDigits ds * 10 ^ (k : ℤ) := by
    rw [ofDigits_append_zeros, Nat.cast_mul, Binary64.cast_natPow, zpow_natCast, Rat.mul_comm,
      Nat.cast_ofNat]
  rw [← hvalue]
  cases wholePoint with
  | false => exact .whole (digits_of_forall hws hdigits)
  | true =>
    have hpoint := Mantissa.point (digits_of_forall hws hdigits)
      (digits_of_forall (List.cons_ne_nil '0' []) (by simp))
    have hzero : ((ofDigits ['0'] : Nat) : ℚ) = 0 := Nat.cast_eq_zero.2 rfl
    rwa [hzero, zero_div, add_zero] at hpoint

include hne hds in
/-- Digits in their positions denote them with the first one at its place. -/
theorem mantissa_positional (wholePoint : Bool) (lead : ℤ) :
    Mantissa (positional wholePoint ds lead) (ofDigits ds * 10 ^ (lead + 1 - ds.length)) := by
  unfold positional
  -- below one, the zeros behind the point; otherwise the digits reach the point or go past it
  by_cases hneg : lead < 0
  · have hplace : lead + 1 - ds.length = -(((-lead - 1).toNat : ℤ) + ds.length) := by omega
    rw [if_pos hneg, hplace]
    exact mantissa_fraction hne hds _
  · rw [if_neg hneg]
    dsimp only
    -- all digits are whole, filled up with zeros, or the row is cut at the point
    by_cases hlong : ds.length ≤ lead.toNat + 1
    · have hplace : lead + 1 - ds.length = ((lead.toNat + 1 - ds.length : Nat) : ℤ) := by omega
      rw [List.take_of_length_le hlong, List.drop_of_length_le hlong, hplace]
      exact mantissa_whole hne hds wholePoint _
    · have hplace : lead + 1 - ds.length = -((ds.drop (lead.toNat + 1)).length : ℤ) := by
        rw [List.length_drop]
        omega
      have hnone : lead.toNat + 1 - ds.length = 0 := by omega
      have hws : ds.take (lead.toNat + 1) ≠ [] := by simp [hne]
      have hfs : ds.drop (lead.toNat + 1) ≠ [] := by
        rw [ne_eq, List.drop_eq_nil_iff]
        omega
      have hpoint := mantissa_point hws hfs (by rwa [List.take_append_drop])
      rw [List.take_append_drop, ← hplace] at hpoint
      rw [hnone, List.replicate_zero, List.append_nil]
      split
      · exact absurd ‹_› hfs
      · exact hpoint

include hne hds in
/-- One digit before the point and the others behind it. -/
theorem body_scientific (lead : ℤ) :
    Body (scientific ds lead) (ofDigits ds * 10 ^ (lead + 1 - ds.length)) := by
  have hten : (10 : ℚ) ≠ 0 := by norm_num
  unfold scientific
  -- one digit has no point behind it
  rcases ds with _ | ⟨c, _ | ⟨e, r⟩⟩
  · exact absurd rfl hne
  · have h := Body.scientific lead (.whole (digits_of_forall hne hds))
    have hplace : lead + 1 - (([c].length : Nat) : ℤ) = lead := by simp
    rwa [hplace]
  · have h := Body.scientific lead
      (mantissa_point (List.cons_ne_nil c []) (List.cons_ne_nil e r) hds)
    have hplace : lead + 1 - ((c :: e :: r).length : ℤ) = -((e :: r).length : ℤ) + lead := by
      simp only [List.length_cons]
      omega
    rwa [mul_assoc, ← zpow_add₀ hten, ← hplace] at h

include hne hds in
/-- In every layout digits denote the number with the first one at its place. -/
theorem body_layout (layout : Layout) (lead : ℤ) :
    Body (layout.body ds lead) (ofDigits ds * 10 ^ (lead + 1 - ds.length)) := by
  unfold Layout.body
  split
  · exact .positional (mantissa_positional hne hds _ lead)
  · exact body_scientific hne hds lead

/-! ## 3. Printed numbers

The digits that are printed are those of the shortest decimal, without the zeros at its end. That
the decimal reads back is `nearestTo_shortest`; here it is put into a text. -/

/-- What is cut off the digits of a coefficient are zeros. -/
theorem exists_digits_eq (d : Decimal) :
    ∃ k : Nat, digits d.coefficient = d.significant ++ List.replicate k '0' := by
  generalize hr : (digits d.coefficient).reverse = r
  have hdigits : digits d.coefficient = r.reverse := by rw [← hr, List.reverse_reverse]
  have hzeros : ∀ c ∈ r.takeWhile (· == '0'), c = '0' := by
    intro c hc
    exact eq_of_beq (List.all_eq_true.1 List.all_takeWhile c hc)
  refine ⟨(r.takeWhile (· == '0')).length, ?_⟩
  calc digits d.coefficient = (r.takeWhile (· == '0') ++ r.dropWhile (· == '0')).reverse := by
        rw [List.takeWhile_append_dropWhile, hdigits]
    _ = d.significant ++ (r.takeWhile (· == '0')).reverse := by
        rw [List.reverse_append, significant, hr]
    _ = d.significant ++ List.replicate (r.takeWhile (· == '0')).length '0' := by
        rw [List.eq_replicate_of_mem hzeros, List.reverse_replicate, List.length_replicate]

/-- The significant digits are digits. -/
theorem isDigit_significant (d : Decimal) : ∀ c ∈ d.significant, c.isDigit = true := by
  obtain ⟨k, hk⟩ := d.exists_digits_eq
  intro c hc
  have hmem : c ∈ digits d.coefficient := by
    rw [hk]
    exact List.mem_append_left _ hc
  exact Nat.isDigit_of_mem_toDigits (by decide) (by decide) hmem

/-- A number other than zero has significant digits. -/
theorem significant_ne_nil {d : Decimal} (hd : d.coefficient ≠ 0) : d.significant ≠ [] := by
  obtain ⟨k, hk⟩ := d.exists_digits_eq
  intro hnil
  apply hd
  rw [hnil, List.nil_append] at hk
  rw [← ofDigits_digits d.coefficient, hk, ofDigits_replicate]

/-- The significant digits, the first one at its place, are the decimal. -/
theorem significant_value (d : Decimal) :
    (ofDigits d.significant : ℚ) * 10 ^ (d.lead + 1 - d.significant.length) = d.value := by
  obtain ⟨k, hk⟩ := d.exists_digits_eq
  have hplace : d.lead + 1 - d.significant.length = k + d.exponent := by
    have hlength := congrArg List.length hk
    rw [List.length_append, List.length_replicate] at hlength
    rw [lead, topExponent]
    omega
  have hcoefficient : d.coefficient = 10 ^ k * ofDigits d.significant := by
    rw [← ofDigits_digits d.coefficient, hk, ofDigits_append_zeros]
  rw [hplace, value, hcoefficient, zpow_add₀ (by norm_num), Nat.cast_mul, Binary64.cast_natPow,
    zpow_natCast, Nat.cast_ofNat]
  ring

end Decimal

namespace Binary64

open Decimal

/-- The size of a finite number as it is printed. -/
def printed (x : Binary64) : ℚ := if x.isZero then 0 else (shortest x.abs).value

/-- A finite number is printed as its sign and a numeral. -/
theorem numeral_finite {x : Binary64} (hx : x.isFinite = true) (layout : Layout) :
    ∃ cs, x.numeral layout = minus x.isNegative ++ cs ∧ Body cs x.printed := by
  obtain ⟨s, n, h, rfl⟩ := exists_finite hx
  by_cases hzero : n = 0
  · subst hzero
    have hbody := body_layout (List.cons_ne_nil '0' []) (by simp) layout 0
    have hvalue : ((ofDigits ['0'] : Nat) : ℚ) = 0 := Nat.cast_eq_zero.2 rfl
    rw [hvalue, zero_mul] at hbody
    exact ⟨_, rfl, hbody⟩
  · have hpos : (finite s n h).abs.quanta ≠ 0 := hzero
    have hback := nearestTo_shortest (isFinite_abs _ ▸ hx) rfl hpos
    have hdigits := significant_ne_nil (coefficient_ne_zero hback hpos)
    have hbody :=
      body_layout hdigits (isDigit_significant _) layout (shortest (finite s n h).abs).lead
    have hprinted : (finite s n h).printed = (shortest (finite s n h).abs).value := by
      rw [printed, if_neg]
      simpa [isZero] using hzero
    rw [significant_value, ← hprinted] at hbody
    refine ⟨_, ?_, hbody⟩
    simp only [numeral, if_neg hzero]
    rfl

/-- The words for what is not finite. -/
def words : List (List Char) := [['N', 'a', 'N'], ['i', 'n', 'f'], ['-', 'i', 'n', 'f']]

/-- What is not finite is printed as a word. -/
theorem numeral_not_finite {x : Binary64} (hx : x.isFinite = false) (layout : Layout) :
    x.numeral layout ∈ words := by
  cases x with
  | finite s n h => cases hx
  | infinite s => cases s <;> simp [numeral, words]
  | nan => simp [numeral, words]

/-- No word has an `e` in it. -/
theorem not_mem_of_mem_words {cs : List Char} (h : cs ∈ words) : 'e' ∉ cs := by
  have hwords : ∀ cs ∈ words, 'e' ∉ cs := by decide
  exact hwords cs h

end Binary64

/-! ## 4. Signed exponents

`signed_exponent` cuts a text at its first `e`. That this is the one of the exponent is because all
before it are digits, a point and a sign. -/

open Decimal

/-- A text without an exponent is left alone. -/
theorem signedExponent_of_not_mem {cs : List Char} (h : 'e' ∉ cs) : signedExponent cs = cs := by
  have hnone : cs.dropWhile (· != 'e') = [] := by
    rw [← List.append_nil cs, List.dropWhile_append_of_pos]
    · rfl
    · intro c hc
      have hne : c ≠ 'e' := fun heq => h (heq ▸ hc)
      simp [hne]
  unfold signedExponent
  rw [hnone]

/-- The sign and the two or more digits of a rewritten exponent. -/
def signedDigits (e : ℤ) : List Char :=
  (if e < 0 then '-' else '+') ::
    (List.replicate (2 - (digits e.natAbs).length) '0' ++ digits e.natAbs)

/-- The exponent is rewritten and all before the first `e` is kept. -/
theorem signedExponent_append {ms : List Char} (h : 'e' ∉ ms) (e : ℤ) :
    signedExponent (ms ++ 'e' :: integer e) = ms ++ 'e' :: signedDigits e := by
  have hms : ∀ c ∈ ms, (c != 'e') = true := by
    intro c hc
    have hne : c ≠ 'e' := fun heq => h (heq ▸ hc)
    simp [hne]
  have hdrop : (ms ++ 'e' :: integer e).dropWhile (· != 'e') = 'e' :: integer e := by
    rw [List.dropWhile_append_of_pos hms]
    rfl
  have htake : (ms ++ 'e' :: integer e).takeWhile (· != 'e') = ms := by
    rw [List.takeWhile_append_of_pos hms]
    exact List.append_nil ms
  unfold signedExponent
  rw [hdrop, htake]
  dsimp only
  unfold signedDigits integer
  by_cases hneg : e < 0
  · rw [if_pos hneg, if_pos hneg]
    rfl
  · obtain ⟨c, ds, hcons, hc⟩ := (digits_digits e.natAbs).exists_cons
    rw [if_neg hneg, if_neg hneg, hcons]
    split
    · exact absurd (List.cons.inj ‹_›).1 (Literal.ne_of_isDigit hc (by decide))
    · rfl

/-- The rewritten exponent is read as the same number. -/
theorem readExponent?_signedDigits (e : ℤ) : readExponent? ('e' :: signedDigits e) = some e := by
  generalize hk : 2 - (digits e.natAbs).length = k
  -- the zeros that fill up the exponent are digits too, and say nothing
  have hall : ∀ c ∈ List.replicate k '0' ++ digits e.natAbs, c.isDigit = true := by
    intro c hc
    rcases List.mem_append.1 hc with hzero | hc
    · exact isDigit_of_mem_replicate hzero
    · exact (digits_digits e.natAbs).isDigit hc
  have hne : List.replicate k '0' ++ digits e.natAbs ≠ [] := by simp [digits, Nat.toDigits_ne_nil]
  have hdigits := (Literal.digits_iff.1 (digits_of_forall hne hall)).1
  have hvalue : ofDigits (List.replicate k '0' ++ digits e.natAbs) = e.natAbs := by
    rw [ofDigits_zeros_append, ofDigits_digits]
  unfold signedDigits
  rw [hk]
  by_cases hneg : e < 0
  · simp [readExponent?, splitSign, hneg, hdigits, hvalue, abs_of_neg hneg]
  · simp [readExponent?, splitSign, hneg, hdigits, hvalue, abs_of_nonneg (not_lt.1 hneg)]

/-- No `e` stands before the exponent. -/
theorem not_mem_minus_append {ms : List Char} {q : ℚ} (hms : Literal.Mantissa ms q) (s : Bool) :
    'e' ∉ minus s ++ ms := by
  have hminus : 'e' ∉ minus s := by cases s <;> decide
  have hmantissa : 'e' ∉ ms := hms.not_mem (by decide) (by decide)
  simp [hminus, hmantissa]

/-- A printed number keeps its value when its exponent is rewritten. -/
theorem denotes?_signedExponent {cs : List Char} {q : ℚ} (h : Body cs q) (s : Bool) :
    denotes? (signedExponent (minus s ++ cs)) = denotes? (minus s ++ cs) := by
  cases h with
  | positional hms => rw [signedExponent_of_not_mem (not_mem_minus_append hms s)]
  | scientific e hms =>
    have hnone := not_mem_minus_append hms s
    obtain ⟨d, hread, hd⟩ := read?_mantissa hms (readExponent?_signedDigits e) (by simp)
    obtain ⟨c, rest, rfl, hc⟩ := hms.exists_cons
    rw [(Body.scientific e hms).denotes? s, ← List.append_assoc, signedExponent_append hnone,
      List.append_assoc, ← hd]
    exact denotes?_of_read? hc hread s

/-! ## 5. Characters

What can stand in the text of a number. Names and separators of the written form are none of these
characters, which is how the parts of that form are told apart. -/

/-- The characters of numbers in texts: digits and signs of their notation, and letters of words. -/
def IsNumeral (c : Char) : Prop :=
  c.isDigit = true ∨ c ∈ ['.', 'e', '+', '-', 'N', 'a', 'i', 'n', 'f']

instance : DecidablePred IsNumeral := fun _ => inferInstanceAs (Decidable (_ ∨ _))

/-- Digits are characters of numerals. -/
theorem isNumeral_of_digits {cs : List Char} {n : Nat} (h : Literal.Digits cs n) :
    ∀ c ∈ cs, IsNumeral c := fun _ hc => .inl (h.isDigit hc)

/-- The characters of an exponent are digits and a sign. -/
theorem isNumeral_integer (e : ℤ) : ∀ c ∈ integer e, IsNumeral c := by
  intro c hc
  unfold integer at hc
  split at hc
  · rcases List.mem_cons.1 hc with rfl | hc
    · decide
    · exact isNumeral_of_digits (digits_digits _) c hc
  · exact isNumeral_of_digits (digits_digits _) c hc

/-- The characters of a mantissa are digits and a point. -/
theorem isNumeral_mantissa {ms : List Char} {q : ℚ} (h : Literal.Mantissa ms q) :
    ∀ c ∈ ms, IsNumeral c := by
  intro c hc
  by_contra hnot
  have hdigit : c.isDigit = false := by
    rw [← Bool.not_eq_true]
    exact fun hdigit => hnot (.inl hdigit)
  refine h.not_mem hdigit ?_ hc
  rintro rfl
  exact hnot (by decide)

/-- The characters of a body are those of a mantissa and an exponent. -/
theorem isNumeral_body {cs : List Char} {q : ℚ} (h : Body cs q) : ∀ c ∈ cs, IsNumeral c := by
  cases h with
  | positional hms => exact isNumeral_mantissa hms
  | scientific e hms =>
    intro c hc
    rw [List.mem_append, List.mem_cons] at hc
    rcases hc with hc | rfl | hc
    · exact isNumeral_mantissa hms c hc
    · decide
    · exact isNumeral_integer e c hc

/-- The characters of a printed number are characters of numerals. -/
theorem isNumeral_numeral (x : Binary64) (layout : Layout) :
    ∀ c ∈ x.numeral layout, IsNumeral c := by
  -- the words are gone through one by one
  cases hx : x.isFinite with
  | false =>
    have hwords : (Binary64.words.all fun cs => cs.all fun c => decide (IsNumeral c)) = true := by
      decide
    simp only [List.all_eq_true, decide_eq_true_eq] at hwords
    exact hwords _ (Binary64.numeral_not_finite hx layout)
  | true =>
    obtain ⟨cs, hcs, hbody⟩ := Binary64.numeral_finite hx layout
    intro c hc
    rw [hcs, List.mem_append] at hc
    rcases hc with hc | hc
    · unfold minus at hc
      split at hc
      · obtain rfl := List.mem_singleton.1 hc
        decide
      · cases hc
    · exact isNumeral_body hbody c hc

/-- A printed number has no exponent, or one `e` with an integer behind it. -/
theorem numeral_cases (x : Binary64) (layout : Layout) :
    'e' ∉ x.numeral layout ∨
      ∃ ms e, 'e' ∉ ms ∧ x.numeral layout = ms ++ 'e' :: integer e := by
  cases hx : x.isFinite with
  | false =>
    exact .inl (Binary64.not_mem_of_mem_words (Binary64.numeral_not_finite hx layout))
  | true =>
    obtain ⟨cs, hcs, hbody⟩ := Binary64.numeral_finite hx layout
    rw [hcs]
    generalize x.printed = q at hbody
    cases hbody with
    | positional hms => exact .inl (not_mem_minus_append hms _)
    | @scientific ms q e hms =>
      exact .inr ⟨minus x.isNegative ++ ms, e, not_mem_minus_append hms _,
        (List.append_assoc _ _ _).symm⟩

/-- Rewriting the exponent brings in a sign and digits, which are characters of numerals. -/
theorem isNumeral_signedExponent (x : Binary64) (layout : Layout) :
    ∀ c ∈ signedExponent (x.numeral layout), IsNumeral c := by
  have hnumeral := isNumeral_numeral x layout
  rcases numeral_cases x layout with hplain | ⟨ms, e, hms, heq⟩
  · rwa [signedExponent_of_not_mem hplain]
  · rw [heq, signedExponent_append hms]
    rw [heq] at hnumeral
    intro c hc
    simp only [signedDigits, List.mem_append, List.mem_cons] at hc
    rcases hc with hc | rfl | rfl | hzero | hc
    · exact hnumeral c (List.mem_append_left _ hc)
    · decide
    · by_cases hneg : e < 0 <;> simp only [hneg, if_true, if_false] <;> decide
    · exact .inl (isDigit_of_mem_replicate hzero)
    · exact isNumeral_of_digits (digits_digits _) c hc

/-! ## 6. The rewritten exponent -/

end Metrology
