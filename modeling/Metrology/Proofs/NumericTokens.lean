/-
Numeric tokens and what they denote.

The grammar of a numeric token is here with its meaning: digits denote a natural number, a mantissa
a rational one, and a token that number times its power of ten. The decoder looks for a `*`, then
for `10^`, then for a point and a minus, and each of these cuts a text at the first place it finds.
That this accepts the grammar and nothing else rests on digits being neither of these characters.

A token that is accepted is put into another notation and read there. `Denotes.read?` follows it on
this way to a decimal of the same value, so everything about the number that comes out is known from
the value alone: it is the nearest one, and the decoder fails only where that is not finite.
-/
import Metrology.Evaluation.Literal
import Metrology.Proofs.Decimals
import Mathlib.Data.List.Induction
set_option autoImplicit false

namespace Metrology.Literal

/-! ## 1. The grammar

The four relations give the grammar together with its meaning, in exact rational numbers. Nothing is
said about how a token is looked at, which is what the rest of the module is for. -/

/-- The number that a digit stands for. -/
def digitValue (c : Char) : Nat := c.toNat - '0'.toNat

/-- A run of one or more digits and the number it denotes. -/
inductive Digits : List Char → Nat → Prop
  | one {c : Char} : c.isDigit = true → Digits [c] (digitValue c)
  | more {cs : List Char} {n : Nat} {c : Char} : Digits cs n → c.isDigit = true →
      Digits (cs ++ [c]) (10 * n + digitValue c)

/-- `digits` or `digits.digits`, and the number it denotes. -/
inductive Mantissa : List Char → ℚ → Prop
  | whole {cs : List Char} {n : Nat} : Digits cs n → Mantissa cs n
  | point {ws fs : List Char} {w f : Nat} : Digits ws w → Digits fs f →
      Mantissa (ws ++ '.' :: fs) (w + f / 10 ^ fs.length)

/-- `digits` or `-digits`, and the integer it denotes. -/
inductive Power : List Char → ℤ → Prop
  | plain {cs : List Char} {n : Nat} : Digits cs n → Power cs n
  | minus {cs : List Char} {n : Nat} : Digits cs n → Power ('-' :: cs) (-n)

/-- A mantissa, with a power of ten behind it or not, and the number it denotes. -/
inductive Denotes : List Char → ℚ → Prop
  | bare {ms : List Char} {q : ℚ} : Mantissa ms q → Denotes ms q
  | scaled {ms es : List Char} {q : ℚ} {e : ℤ} : Mantissa ms q → Power es e →
      Denotes (ms ++ '*' :: '1' :: '0' :: '^' :: es) (q * 10 ^ e)

/-! ## 2. Digits

Digits are read from the left in the decoder and built up from the right in the grammar, so the
lemmas are about the last digit. -/

/-- One digit more makes ten times the number and that digit. -/
theorem ofDigits_concat (cs : List Char) (c : Char) :
    Decimal.ofDigits (cs ++ [c]) = 10 * Decimal.ofDigits cs + digitValue c := by
  unfold Decimal.ofDigits
  rw [Nat.ofDigitChars_append, Nat.ofDigitChars_cons, Nat.ofDigitChars_nil, digitValue]

/-- One digit is read as what it stands for. -/
theorem ofDigits_singleton (c : Char) : Decimal.ofDigits [c] = digitValue c := by
  have hzero : Decimal.ofDigits [] = 0 := rfl
  have h := ofDigits_concat [] c
  rwa [hzero, Nat.mul_zero, Nat.zero_add] at h

/-- One character more passes the test if it is a digit and all before it are. -/
theorem isDigits_concat (cs : List Char) (c : Char) :
    Decimal.isDigits (cs ++ [c]) = (cs.all Char.isDigit && c.isDigit) := by
  simp [Decimal.isDigits]

/-- The test for digits decides the grammar of digits, and they are read as what they denote. -/
theorem digits_iff {cs : List Char} {n : Nat} :
    Digits cs n ↔ Decimal.isDigits cs = true ∧ Decimal.ofDigits cs = n := by
  constructor
  · intro h
    induction h with
    | @one c hc => exact ⟨by simp [Decimal.isDigits, hc], ofDigits_singleton c⟩
    | @more cs n c _ hc ih =>
      obtain ⟨hdigits, rfl⟩ := ih
      have hall : cs.all Char.isDigit = true := (Bool.and_eq_true _ _ ▸ hdigits).2
      exact ⟨by rw [isDigits_concat, hall, hc]; rfl, ofDigits_concat cs c⟩
  · rintro ⟨hdigits, rfl⟩
    induction cs using List.reverseRecOn with
    | nil => cases hdigits
    | append_singleton cs c ih =>
      rw [isDigits_concat, Bool.and_eq_true] at hdigits
      rcases cs with _ | ⟨d, ds⟩
      · rw [List.nil_append, ofDigits_singleton]
        exact .one hdigits.2
      · rw [ofDigits_concat]
        exact .more (ih hdigits.1) hdigits.2

/-- All characters of a run of digits are digits. -/
theorem Digits.isDigit {cs : List Char} {n : Nat} (h : Digits cs n) {c : Char} (hc : c ∈ cs) :
    c.isDigit = true := by
  have hdigits := (digits_iff.1 h).1
  rw [Decimal.isDigits, Bool.and_eq_true, List.all_eq_true] at hdigits
  exact hdigits.2 c hc

/-- What is no digit does not stand among digits. -/
theorem Digits.not_mem {cs : List Char} {n : Nat} (h : Digits cs n) {c : Char}
    (hc : c.isDigit = false) : c ∉ cs := by
  intro hmem
  rw [h.isDigit hmem] at hc
  cases hc

/-- A run of digits begins with a digit. -/
theorem Digits.exists_cons {cs : List Char} {n : Nat} (h : Digits cs n) :
    ∃ c ds, cs = c :: ds ∧ c.isDigit = true := by
  rcases cs with _ | ⟨c, ds⟩
  · cases (digits_iff.1 h).1
  · exact ⟨c, ds, rfl, h.isDigit List.mem_cons_self⟩

/-! ## 3. Cutting a text

The decoder cuts at the first `*`, the first point and the first minus it sees. A text of the
grammar has each of these at one place at most, because everything between them is digits. -/

/-- There is nothing to cut where the character does not occur. -/
theorem splitAt?_eq_none_iff {c : Char} {cs : List Char} : splitAt? c cs = none ↔ c ∉ cs := by
  induction cs with
  | nil => simp [splitAt?]
  | cons d ds ih =>
    by_cases hd : d = c
    · simp [splitAt?, hd]
    · simp [splitAt?, hd, ih, Ne.symm hd]

/-- The test for decimals decides the grammar of mantissas. -/
theorem isDecimal_iff {cs : List Char} : isDecimal cs = true ↔ ∃ q, Mantissa cs q := by
  unfold isDecimal
  constructor
  · intro h
    rcases hsplit : splitAt? '.' cs with _ | ⟨whole, fraction⟩
    all_goals rw [hsplit] at h
    · exact ⟨_, .whole (digits_iff.2 ⟨h, rfl⟩)⟩
    · obtain ⟨rfl, -⟩ := splitAt?_eq_some_iff.1 hsplit
      obtain ⟨hwhole, hfraction⟩ := Bool.and_eq_true_iff.1 h
      exact ⟨_, .point (digits_iff.2 ⟨hwhole, rfl⟩) (digits_iff.2 ⟨hfraction, rfl⟩)⟩
  · rintro ⟨q, hq⟩
    cases hq with
    | whole hcs =>
      rw [splitAt?_eq_none_iff.2 (hcs.not_mem (by decide))]
      exact (digits_iff.1 hcs).1
    | point hws hfs =>
      rw [splitAt?_eq_some_iff.2 ⟨rfl, hws.not_mem (by decide)⟩]
      exact Bool.and_eq_true_iff.2 ⟨(digits_iff.1 hws).1, (digits_iff.1 hfs).1⟩

/-- A minus is all that may stand before the digits of a power. -/
theorem isDigits_dropMinus_iff {es : List Char} :
    Decimal.isDigits (dropMinus es) = true ↔ ∃ e, Power es e := by
  constructor
  · intro h
    unfold dropMinus at h
    split at h
    · exact ⟨_, .minus (digits_iff.2 ⟨h, rfl⟩)⟩
    · exact ⟨_, .plain (digits_iff.2 ⟨h, rfl⟩)⟩
  · rintro ⟨e, he⟩
    cases he with
    | plain hes =>
      obtain ⟨c, ds, rfl, hc⟩ := hes.exists_cons
      have hkept : dropMinus (c :: ds) = c :: ds := by
        unfold dropMinus
        split
        · rename_i heq
          obtain ⟨rfl, -⟩ := List.cons.inj heq
          cases hc
        · rfl
      rw [hkept]
      exact (digits_iff.1 hes).1
    | minus hes => exact (digits_iff.1 hes).1

/-- A mantissa has digits and points only. -/
theorem Mantissa.not_mem {cs : List Char} {q : ℚ} (h : Mantissa cs q) {c : Char}
    (hc : c.isDigit = false) (hpoint : c ≠ '.') : c ∉ cs := by
  cases h with
  | whole hcs => exact hcs.not_mem hc
  | point hws hfs =>
    rw [List.mem_append, List.mem_cons]
    rintro (hmem | rfl | hmem)
    · exact hws.not_mem hc hmem
    · exact hpoint rfl
    · exact hfs.not_mem hc hmem

/-- A mantissa begins with a digit. -/
theorem Mantissa.exists_cons {cs : List Char} {q : ℚ} (h : Mantissa cs q) :
    ∃ c ds, cs = c :: ds ∧ c.isDigit = true := by
  cases h with
  | whole hcs => exact hcs.exists_cons
  | point hws hfs =>
    obtain ⟨c, ds, rfl, hc⟩ := hws.exists_cons
    exact ⟨c, _, rfl, hc⟩

/-- A mantissa denotes one number at most. -/
theorem Mantissa.unique {cs : List Char} {q q' : ℚ} (h : Mantissa cs q) (h' : Mantissa cs q') :
    q = q' := by
  generalize hcs : cs = cs' at h'
  cases h with
  | whole hds =>
    cases h' with
    | whole hds' => rw [← (digits_iff.1 hds).2, ← (digits_iff.1 hds').2, hcs]
    | point hws' hfs' => exact absurd (hcs ▸ by simp) (hds.not_mem (c := '.') (by decide))
  | point hws hfs =>
    cases h' with
    | whole hds' => exact absurd (hcs ▸ by simp) (hds'.not_mem (c := '.') (by decide))
    | point hws' hfs' =>
      -- both points are the first one of the text
      have hsplit := splitAt?_eq_some_iff.2 ⟨hcs, hws'.not_mem (c := '.') (by decide)⟩
      rw [splitAt?_eq_some_iff.2 ⟨rfl, hws.not_mem (c := '.') (by decide)⟩] at hsplit
      cases hsplit
      rw [← (digits_iff.1 hws).2, ← (digits_iff.1 hws').2, ← (digits_iff.1 hfs).2,
        ← (digits_iff.1 hfs').2]

/-- The text of a power denotes one integer at most. -/
theorem Power.unique {es : List Char} {e e' : ℤ} (h : Power es e) (h' : Power es e') : e = e' := by
  cases h with
  | plain hes =>
    cases h' with
    | plain hes' => rw [← (digits_iff.1 hes).2, ← (digits_iff.1 hes').2]
    | minus hes' => exact absurd List.mem_cons_self (hes.not_mem (c := '-') (by decide))
  | minus hes =>
    cases h' with
    | plain hes' => exact absurd List.mem_cons_self (hes'.not_mem (c := '-') (by decide))
    | minus hes' => rw [← (digits_iff.1 hes).2, ← (digits_iff.1 hes').2]

/-- A text denotes one number at most. -/
theorem Denotes.unique {cs : List Char} {q q' : ℚ} (h : Denotes cs q) (h' : Denotes cs q') :
    q = q' := by
  generalize hcs : cs = cs' at h'
  cases h with
  | bare hms =>
    cases h' with
    | bare hms' => exact hms.unique (hcs ▸ hms')
    | scaled hms' hes' =>
      exact absurd (hcs ▸ by simp) (hms.not_mem (c := '*') (by decide) (by decide))
  | scaled hms hes =>
    cases h' with
    | bare hms' => exact absurd (hcs ▸ by simp) (hms'.not_mem (c := '*') (by decide) (by decide))
    | scaled hms' hes' =>
      have hsplit := splitAt?_eq_some_iff.2 ⟨hcs, hms'.not_mem (c := '*') (by decide) (by decide)⟩
      rw [splitAt?_eq_some_iff.2 ⟨rfl, hms.not_mem (c := '*') (by decide) (by decide)⟩] at hsplit
      cases hsplit
      rw [hms.unique hms', hes.unique hes']

/-- What follows `10^` is found just if that is what the text begins with. -/
theorem power?_eq_some_iff {after es : List Char} :
    power? after = some es ↔ after = '1' :: '0' :: '^' :: es := by
  unfold power?
  split
  · simp
  · rename_i hne
    exact iff_of_false nofun fun heq => hne es heq

/-- A token is rewritten just if it is of the grammar, and then into its mantissa, with the digits
of its power behind an `e`. -/
theorem scientific_eq_ok_iff {cs text : List Char} :
    scientific cs = .ok text ↔
      (∃ q, Mantissa cs q) ∧ text = cs ∨
        ∃ ms es, (∃ q, Mantissa ms q) ∧ (∃ e, Power es e) ∧
          cs = ms ++ '*' :: '1' :: '0' :: '^' :: es ∧ text = ms ++ 'e' :: es := by
  constructor
  · intro h
    -- the three things that can go wrong, in the order in which the decoder looks for them
    unfold scientific at h
    rcases hsplit : splitAt? '*' cs with _ | ⟨ms, after⟩
    all_goals rw [hsplit] at h
    · dsimp only at h
      by_cases hcs : isDecimal cs = true
      · rw [if_pos hcs] at h
        exact .inl ⟨isDecimal_iff.1 hcs, (Except.ok.inj h).symm⟩
      · rw [if_neg hcs] at h
        cases h
    · obtain ⟨rfl, -⟩ := splitAt?_eq_some_iff.1 hsplit
      rcases hpower : power? after with _ | es
      all_goals simp only [hpower] at h
      · cases h
      · obtain rfl := power?_eq_some_iff.1 hpower
        by_cases hms : isDecimal ms = true
        · by_cases hes : Decimal.isDigits (dropMinus es) = true
          · simp only [hms, hes, Bool.not_true, Bool.false_eq_true, if_false] at h
            exact .inr ⟨ms, es, isDecimal_iff.1 hms, isDigits_dropMinus_iff.1 hes, rfl,
              (Except.ok.inj h).symm⟩
          · simp [hms, hes] at h
        · simp [hms] at h
  · rintro (⟨⟨q, hq⟩, rfl⟩ | ⟨ms, es, ⟨q, hq⟩, hes, rfl, rfl⟩)
    · unfold scientific
      rw [splitAt?_eq_none_iff.2 (hq.not_mem (by decide) (by decide))]
      exact if_pos (isDecimal_iff.2 ⟨q, hq⟩)
    · unfold scientific
      rw [splitAt?_eq_some_iff.2 ⟨rfl, hq.not_mem (by decide) (by decide)⟩]
      simp only [power?_eq_some_iff.2 rfl, isDecimal_iff.2 ⟨q, hq⟩, isDigits_dropMinus_iff.2 hes,
        Bool.not_true, Bool.false_eq_true, if_false]

/-- Digits are taken up to the first other character. -/
theorem span_isDigit {ds rest : List Char} (hds : ∀ c ∈ ds, c.isDigit = true)
    (hrest : ∀ c ∈ rest.head?, c.isDigit = false) :
    (ds ++ rest).span Char.isDigit = (ds, rest) := by
  have hstop : rest.takeWhile Char.isDigit = [] ∧ rest.dropWhile Char.isDigit = rest := by
    rcases rest with _ | ⟨c, cs⟩
    · exact ⟨rfl, rfl⟩
    · have hc := hrest c rfl
      exact ⟨List.takeWhile_cons_of_neg (by simp [hc]), List.dropWhile_cons_of_neg (by simp [hc])⟩
  rw [List.span_eq_takeWhile_dropWhile, List.takeWhile_append_of_pos hds,
    List.dropWhile_append_of_pos hds, hstop.1, hstop.2, List.append_nil]

/-- Digits behind others move these to the left. -/
theorem ofDigits_append (ws fs : List Char) :
    Decimal.ofDigits (ws ++ fs) = 10 ^ fs.length * Decimal.ofDigits ws + Decimal.ofDigits fs := by
  unfold Decimal.ofDigits
  rw [Nat.ofDigitChars_append, Nat.ofDigitChars_eq_ofDigitChars_zero]

/-- A digit is not a character that is no digit. -/
theorem ne_of_isDigit {c d : Char} (hc : c.isDigit = true) (hd : d.isDigit = false) : c ≠ d := by
  rintro rfl
  rw [hc] at hd
  cases hd

/-- A text that begins with a digit has no sign. -/
theorem splitSign_of_isDigit {c : Char} (hc : c.isDigit = true) (cs : List Char) :
    Decimal.splitSign (c :: cs) = (false, c :: cs) := by
  unfold Decimal.splitSign
  split
  · exact absurd (List.cons.inj ‹_›).1 (ne_of_isDigit hc (by decide))
  · exact absurd (List.cons.inj ‹_›).1 (ne_of_isDigit hc (by decide))
  · rfl

/-- A text that begins with a digit has no sign and is no word. -/
theorem read?_of_isDigit {c : Char} {cs : List Char} (hc : c.isDigit = true) :
    Binary64.read? (c :: cs) = (Decimal.read? (c :: cs)).map (Decimal.toBinary64 false) := by
  have hlower : c.toLower = c := by
    unfold Char.toLower
    rw [dif_neg]
    simp only [Char.isDigit, Bool.and_eq_true, decide_eq_true_eq] at hc
    intro hupper
    have hle := UInt32.le_trans hupper.1 hc.2
    exact absurd hle (by decide)
  have hword : Binary64.ofWord? false (c :: cs) = none := by
    unfold Binary64.ofWord?
    simp [hlower, ne_of_isDigit hc (d := 'i') (by decide), ne_of_isDigit hc (d := 'n') (by decide)]
  simp only [Binary64.read?, splitSign_of_isDigit hc cs, hword]

/-- A mantissa is read to its end, as a decimal of its value. -/
theorem Mantissa.read? {cs : List Char} {q : ℚ} (h : Mantissa cs q) (rest : List Char)
    (hrest : ∀ c ∈ rest.head?, c.isDigit = false ∧ c ≠ '.') :
    ∃ n k : Nat, q = n / 10 ^ k ∧
      Decimal.read? (cs ++ rest) = (Decimal.readExponent? rest).map fun e => ⟨n, e - k⟩ := by
  have hstop : ∀ c ∈ rest.head?, c.isDigit = false := fun c hc => (hrest c hc).1
  cases h with
  | @whole cs n hcs =>
    obtain ⟨c, ds, hcons, -⟩ := hcs.exists_cons
    obtain ⟨-, rfl⟩ := digits_iff.1 hcs
    refine ⟨_, 0, by rw [pow_zero, div_one], ?_⟩
    unfold Decimal.read?
    simp only [span_isDigit (fun c => hcs.isDigit) hstop]
    -- no point comes next
    split
    · exact absurd rfl (hrest '.' rfl).2
    · rw [if_neg (by rw [hcons]; exact Bool.false_ne_true), List.append_nil]
      rfl
  | @point ws fs w f hws hfs =>
    obtain ⟨c, ds, hcons, -⟩ := hws.exists_cons
    obtain ⟨-, rfl⟩ := digits_iff.1 hws
    obtain ⟨-, rfl⟩ := digits_iff.1 hfs
    refine ⟨Decimal.ofDigits (ws ++ fs), fs.length, ?_, ?_⟩
    · have hten : (10 : ℚ) ^ fs.length ≠ 0 := pow_ne_zero _ (by norm_num)
      rw [ofDigits_append, Nat.cast_add, Nat.cast_mul, Binary64.cast_natPow, Nat.cast_ofNat,
        add_div, mul_div_cancel_left₀ _ hten]
    · have hpoint : ∀ c ∈ ('.' :: (fs ++ rest)).head?, c.isDigit = false := by
        rintro c ⟨⟩
        rfl
      unfold Decimal.read?
      rw [List.append_assoc, List.cons_append]
      simp only [span_isDigit (fun c => hws.isDigit) hpoint,
        span_isDigit (fun c => hfs.isDigit) hstop]
      rw [if_neg (by rw [hcons]; exact Bool.false_ne_true)]

/-- The text of a power is read behind an `e` as the integer it denotes. -/
theorem Power.readExponent? {es : List Char} {e : ℤ} (h : Power es e) :
    Decimal.readExponent? ('e' :: es) = some e := by
  cases h with
  | @plain es n hes =>
    obtain ⟨c, ds, rfl, hc⟩ := hes.exists_cons
    obtain ⟨hdigits, rfl⟩ := digits_iff.1 hes
    have hsign := splitSign_of_isDigit hc ds
    simp [Decimal.readExponent?, hsign, hdigits]
  | @minus es n hes =>
    obtain ⟨hdigits, rfl⟩ := digits_iff.1 hes
    simp [Decimal.readExponent?, Decimal.splitSign, hdigits]

/-- Places after the point are taken off the power of ten. -/
theorem value_shift (n k : Nat) (e : ℤ) :
    Decimal.value ⟨n, e - k⟩ = n / 10 ^ k * 10 ^ e := by
  have hten : (10 : ℚ) ≠ 0 := by norm_num
  rw [Decimal.value, zpow_sub₀ hten, zpow_natCast, mul_div_assoc', div_mul_eq_mul_div]

/-- What a token of the grammar is rewritten into is read as a decimal of its value. -/
theorem Denotes.read? {cs : List Char} {q : ℚ} (h : Denotes cs q) :
    ∃ (text : List Char) (d : Decimal), scientific cs = .ok text ∧ d.value = q ∧
      Binary64.read? text = some (d.toBinary64 false) := by
  cases h with
  | @bare ms q hms =>
    obtain ⟨c, ds, rfl, hc⟩ := hms.exists_cons
    obtain ⟨n, k, rfl, hread⟩ := hms.read? [] (by simp)
    refine ⟨_, ⟨n, 0 - k⟩, scientific_eq_ok_iff.2 (.inl ⟨⟨_, hms⟩, rfl⟩), ?_, ?_⟩
    · rw [value_shift, zpow_zero, mul_one]
    · rw [List.append_nil] at hread
      rw [read?_of_isDigit hc, hread]
      rfl
  | @scaled ms es q e hms hes =>
    obtain ⟨c, ds, rfl, hc⟩ := hms.exists_cons
    obtain ⟨n, k, rfl, hread⟩ := hms.read? ('e' :: es) (by simp)
    refine ⟨_, ⟨n, e - k⟩,
      scientific_eq_ok_iff.2 (.inr ⟨_, _, ⟨_, hms⟩, ⟨_, hes⟩, rfl, rfl⟩), value_shift n k e, ?_⟩
    rw [List.cons_append] at *
    rw [read?_of_isDigit hc, hread, hes.readExponent?]
    rfl

/-- Only tokens of the grammar are rewritten. -/
theorem exists_denotes {cs text : List Char} (h : scientific cs = .ok text) :
    ∃ q, Denotes cs q := by
  rcases scientific_eq_ok_iff.1 h with ⟨⟨q, hq⟩, -⟩ | ⟨ms, es, ⟨q, hq⟩, ⟨e, he⟩, rfl, -⟩
  · exact ⟨q, .bare hq⟩
  · exact ⟨_, .scaled hq he⟩

/-! ## 5. The decoder

All of the above put together (`decode_token`): the form of a token is right just if the token is of
the grammar, and then there is one decimal to be rounded. -/

/-- A text of the grammar has the number of a decimal of its value, while that is finite. -/
theorem Denotes.read {cs : List Char} {q : ℚ} (h : Denotes cs q) :
    ∃ d : Decimal, d.value = q ∧
      Literal.read cs =
        if (d.toBinary64 false).isFinite then .ok (d.toBinary64 false) else .error .range := by
  obtain ⟨text, d, htext, hd, hread⟩ := h.read?
  exact ⟨d, hd, by simp only [Literal.read, htext, hread]⟩

/-- What is read is the number of a decimal of the value, and finite. -/
theorem read_eq_ok {cs : List Char} {x : Binary64} (h : read cs = .ok x) :
    ∃ d : Decimal, Denotes cs d.value ∧ x = d.toBinary64 false ∧ x.isFinite = true := by
  unfold read at h
  rcases hform : scientific cs with fault | text
  all_goals rw [hform] at h
  · cases h
  · obtain ⟨q, hq⟩ := exists_denotes hform
    obtain ⟨text', d, htext, rfl, hread⟩ := hq.read?
    obtain rfl := Except.ok.inj (hform.symm.trans htext)
    simp only [hread] at h
    split at h
    · obtain rfl := Except.ok.inj h
      exact ⟨d, hq, rfl, ‹_›⟩
    · cases h

example : read "1.2*10^-3".toList = read "0.0012".toList := by decide +kernel

/-- A token is decoded as the number that is read from it. -/
theorem decodeToken_eq_ok_iff {token : String} {x : Binary64} :
    decodeToken token = .ok x ↔ read token.toList = .ok x := by
  unfold decodeToken
  rcases read token.toList with fault | y
  · exact iff_of_false nofun nofun
  · simp

/-- The numbers of a literal are those of its one or two tokens. -/
theorem decode_eq_ok {tokens : List String} {m : Measurement} (h : decode tokens = .ok m) :
    (∃ token x, decodeToken token = .ok x ∧ m = .exact x) ∨
      ∃ token token' x e, decodeToken token = .ok x ∧ decodeToken token' = .ok e ∧
        m = .reading x e := by
  rw [decode.eq_def] at h
  -- by the number of tokens: none, one, two, more
  split at h
  · cases h
  · rename_i magnitude
    rcases hx : decodeToken magnitude with f | x
    all_goals rw [hx] at h
    · cases h
    · cases h
      exact .inl ⟨magnitude, x, hx, rfl⟩
  · rename_i magnitude uncertainty
    rcases hx : decodeToken magnitude with f | x
    all_goals rw [hx] at h
    · cases h
    · rcases he : decodeToken uncertainty with f | e
      all_goals rw [he] at h
      · cases h
      · cases h
        exact .inr ⟨magnitude, uncertainty, x, e, hx, he, rfl⟩
  · cases h

end Metrology.Literal
