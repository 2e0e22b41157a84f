/-
Signs of results.

Whether a number is below zero is a question about its place on the line, and a zero with a negative
sign and NaN are not below zero either. Two properties are kept apart for this: `NotBelowZero` is
the one that matters and has exceptions, and "the sign is not negative" is the stronger one that
passes through products and quotients without any. Rounding keeps the sign it is given and makes a
zero of nothing but a zero or a number next to it, so neither property has to look into a rounding.
-/
import Metrology.Binary64.Numerics
import Metrology.Decimal.Basic
set_option autoImplicit false

namespace Metrology.Binary64

/-! ## 1. Not below zero

`NotBelowZero` asks the comparison that the checks of a script would ask, `isNegative` the bit of
the sign. They differ at a zero with a negative sign, and NaN has neither. -/

/-- Not below zero: positive, a zero of either sign, or NaN. -/
def NotBelowZero (x : Binary64) : Prop := x.lt 0 = false

instance (x : Binary64) : Decidable x.NotBelowZero := inferInstanceAs (Decidable (_ = _))

variable {x y : Binary64}

/-- A number is not below zero just if its sign is not negative or it is a zero. -/
theorem notBelowZero_iff : x.NotBelowZero ↔ x.isNegative = false ∨ x.isZero = true := by
  have hpos : (0 : Int) < overflow := Int.ofNat_lt.2 overflow_pos
  rw [NotBelowZero, lt, place_zero]
  cases x with
  | finite s n _ =>
    cases s with
    | false => simp [place, isNegative]
    | true => simp [place, isNegative, isZero, Int.neg_neg_iff_pos, Nat.pos_iff_ne_zero]
  | infinite s =>
    cases s with
    | false =>
      simp only [place, isNegative, true_or, iff_true]
      exact decide_eq_false (Int.not_lt.2 (Int.le_of_lt hpos))
    | true =>
      simp only [place, isNegative, isZero, Bool.true_eq_false, Bool.false_eq_true, or_self,
        iff_false]
      rw [if_pos trivial, decide_eq_true (Int.neg_neg_of_pos hpos)]
      decide
  | nan => simp [place, isNegative]

/-- A sign that is not negative suffices. -/
theorem notBelowZero_of_isNegative (h : x.isNegative = false) : x.NotBelowZero :=
  notBelowZero_iff.2 (.inl h)

theorem notBelowZero_of_isZero (h : x.isZero = true) : x.NotBelowZero :=
  notBelowZero_iff.2 (.inr h)

theorem notBelowZero_nan : nan.NotBelowZero := rfl

/-- A number that is neither below zero nor a zero has no negative sign. -/
theorem NotBelowZero.isNegative (h : x.NotBelowZero) (hx : x.isZero = false) :
    x.isNegative = false :=
  (notBelowZero_iff.1 h).resolve_right fun hzero => Bool.false_ne_true (hx.symm.trans hzero)

/-! ## 2. Rounding -/

/-- Rounding keeps the sign. -/
theorem isNegative_ofRatio (s : Bool) (num den : Nat) : (ofRatio s num den).isNegative = s := by
  rw [ofRatio]
  split
  · rfl
  · rfl

/-- Zero is rounded to zero. -/
theorem isZero_ofRatio_zero (s : Bool) (den : Nat) : (ofRatio s 0 den).isZero = true := by
  have hnearest : ∀ d, nearestEven 0 d = 0 := by
    intro d
    rw [nearestEven, Nat.zero_div, Nat.zero_mod]
    split
    · rfl
    · split
      · omega
      · rfl
  have hquanta : roundedQuanta 0 den = 0 := by
    rw [roundedQuanta, hnearest, Nat.zero_mul]
  rw [ofRatio, dif_pos (hquanta.symm ▸ overflow_pos)]
  exact beq_iff_eq.2 hquanta

theorem isNegative_ofNat (n : Nat) : (ofNat n).isNegative = false := isNegative_ofRatio _ _ _

theorem isNegative_one : one.isNegative = false := isNegative_ofNat 1

/-! ## 3. Arithmetic

By the two arguments: NaN, the infinities and the finite numbers. The rounding in the finite case
keeps the sign that it is given. -/

theorem isNegative_abs (x : Binary64) : x.abs.isNegative = false := by
  cases x <;> rfl

/-- A sum of numbers without negative signs has none. -/
theorem isNegative_add (hx : x.isNegative = false) (hy : y.isNegative = false) :
    (add x y).isNegative = false := by
  cases x with
  | nan => cases y <;> rfl
  | infinite s =>
    obtain rfl : s = false := hx
    cases y with
    | nan => rfl
    | finite t n h => rfl
    | infinite t =>
      obtain rfl : t = false := hy
      rfl
  | finite s m hm =>
    obtain rfl : s = false := hx
    cases y with
    | nan => rfl
    | infinite t => exact hy
    | finite t n hn =>
      obtain rfl : t = false := hy
      rw [add, if_pos rfl]
      exact isNegative_ofRatio _ _ _

/-- The sign of a product is negative only if one sign is and the other is not. -/
theorem isNegative_mul (h : x.isNegative = y.isNegative) : (mul x y).isNegative = false := by
  cases x with
  | nan => cases y <;> rfl
  | infinite s =>
    cases y with
    | nan => rfl
    | infinite t =>
      obtain rfl : s = t := h
      exact bne_self_eq_false s
    | finite t n hn =>
      obtain rfl : s = t := h
      rw [mul]
      split
      · rfl
      · exact bne_self_eq_false s
  | finite s m hm =>
    cases y with
    | nan => rfl
    | infinite t =>
      obtain rfl : s = t := h
      rw [mul]
      split
      · rfl
      · exact bne_self_eq_false s
    | finite t n hn =>
      obtain rfl : s = t := h
      rw [mul, isNegative_ofRatio]
      exact bne_self_eq_false s

/-- A zero times anything is a zero or NaN. -/
theorem notBelowZero_mul_of_isZero (hx : x.isZero = true) (y : Binary64) :
    (mul x y).NotBelowZero := by
  cases x with
  | nan => cases hx
  | infinite s => cases hx
  | finite s m hm =>
    obtain rfl : m = 0 := beq_iff_eq.1 hx
    cases y with
    | nan => rfl
    | infinite t => exact notBelowZero_nan
    | finite t n hn =>
      rw [mul, Nat.zero_mul]
      exact notBelowZero_of_isZero (isZero_ofRatio_zero _ _)

/-- A product of numbers not below zero is not below zero. -/
theorem NotBelowZero.mul (hx : x.NotBelowZero) (hy : y.NotBelowZero) : (mul x y).NotBelowZero := by
  -- both signs are not negative, or one factor is a zero
  rcases notBelowZero_iff.1 hx with hx | hx
  · rcases notBelowZero_iff.1 hy with hy | hy
    · exact notBelowZero_of_isNegative (isNegative_mul (hx.trans hy.symm))
    · rw [mul_comm]
      exact notBelowZero_mul_of_isZero hy x
  · exact notBelowZero_mul_of_isZero hx y

/-- A divisor is not allowed a negative sign, since a zero with one would turn the quotient. -/
theorem NotBelowZero.div (hx : x.NotBelowZero) (hy : y.isNegative = false) :
    (div x y).NotBelowZero := by
  cases y with
  | nan => cases x <;> exact notBelowZero_nan
  | infinite t =>
    cases x with
    | nan => exact notBelowZero_nan
    | infinite s => exact notBelowZero_nan
    | finite s m hm => exact notBelowZero_of_isZero rfl
  | finite t n hn =>
    obtain rfl : t = false := hy
    cases x with
    | nan => exact notBelowZero_nan
    | infinite s =>
      rw [Binary64.div, Bool.bne_false]
      exact hx
    | finite s m hm =>
      rw [Binary64.div, Bool.bne_false]
      rcases notBelowZero_iff.1 hx with hx | hx
      · obtain rfl : s = false := hx
        split
        · split
          · exact notBelowZero_nan
          · exact notBelowZero_of_isNegative rfl
        · exact notBelowZero_of_isNegative (isNegative_ofRatio _ _ _)
      · obtain rfl : m = 0 := beq_iff_eq.1 hx
        split
        · exact notBelowZero_nan
        · rw [Nat.zero_mul]
          exact notBelowZero_of_isZero (isZero_ofRatio_zero _ _)

/-! ## 4. Roots and squares -/

theorem isNegative_sqrtQuanta (n : Nat) : (sqrtQuanta n).isNegative = false :=
  isNegative_ofRatio _ _ _

/-- A root of whatever there is one of is not below zero, and there is none of the rest. -/
theorem notBelowZero_sqrt (x : Binary64) : (sqrt x).NotBelowZero := by
  cases x with
  | nan => exact notBelowZero_nan
  | infinite s =>
    cases s with
    | false => exact notBelowZero_of_isNegative rfl
    | true => exact notBelowZero_nan
  | finite s n h =>
    rw [sqrt]
    split
    · exact notBelowZero_of_isZero (beq_iff_eq.2 ‹_›)
    · split
      · exact notBelowZero_nan
      · exact notBelowZero_of_isNegative (isNegative_sqrtQuanta n)

/-- A root of a number without a negative sign has none. -/
theorem isNegative_sqrt (hx : x.isNegative = false) : (sqrt x).isNegative = false := by
  cases x with
  | nan => rfl
  | infinite s =>
    obtain rfl : s = false := hx
    rfl
  | finite s n h =>
    obtain rfl : s = false := hx
    rw [sqrt, if_neg Bool.false_ne_true]
    split
    · rfl
    · exact isNegative_sqrtQuanta n

/-- The second power is the product of the number with itself, times one. -/
theorem pow_two (x : Binary64) : pow x 2 = mul one (mul x x) := by
  have hsteps : (2 : Int).natAbs.log2 + 1 = 2 := by decide
  have hloop : powLoop 2 one x 2 = mul one (mul x x) := by simp [powLoop]
  rw [pow, hsteps, if_neg (by decide)]
  exact hloop

/-- A second power has no negative sign. -/
theorem isNegative_pow_two (x : Binary64) : (pow x 2).isNegative = false := by
  have hsquare : (mul x x).isNegative = false := isNegative_mul rfl
  rw [pow_two]
  exact isNegative_mul (isNegative_one.trans hsquare.symm)

/-! ## 5. In the library's numerics

The rules of uncertainty speak of `Numerics`, the interface that arithmetic is used through. These
are the same facts in its terms. -/

theorem notBelowZero_numerics_abs (x : Binary64) : (Numerics.abs x).NotBelowZero :=
  notBelowZero_of_isNegative (isNegative_abs x)

theorem notBelowZero_numerics_sqrt (x : Binary64) : (Numerics.sqrt x).NotBelowZero :=
  notBelowZero_sqrt x

/-- The root of a count has no negative sign. -/
theorem isNegative_numerics_sqrt_ofNat (n : Nat) :
    (Numerics.sqrt (Numerics.ofNat n)).isNegative = false :=
  isNegative_sqrt (isNegative_ofNat n)

/-- A square has no negative sign. -/
theorem isNegative_square (x : Binary64) : (Numerics.square x).isNegative = false := by
  rw [Numerics.square]
  exact isNegative_pow_two x

theorem isNegative_hAdd (hx : x.isNegative = false) (hy : y.isNegative = false) :
    (x + y).isNegative = false :=
  isNegative_add hx hy

theorem NotBelowZero.hMul (hx : x.NotBelowZero) (hy : y.NotBelowZero) : (x * y).NotBelowZero :=
  hx.mul hy

/-- A quotient by a number without a negative sign is not below zero if the dividend is not. -/
theorem NotBelowZero.hDiv (hx : x.NotBelowZero) (hy : y.isNegative = false) :
    (x / y).NotBelowZero :=
  hx.div hy

end Metrology.Binary64

namespace Metrology.Decimal

/-- A decimal is read with the sign it is given. -/
theorem isNegative_toBinary64 (d : Decimal) (s : Bool) : (d.toBinary64 s).isNegative = s := by
  rw [toBinary64]
  split
  · rfl
  · split
    · rfl
    · split
      · rfl
      · exact Binary64.isNegative_ofRatio _ _ _

end Metrology.Decimal
