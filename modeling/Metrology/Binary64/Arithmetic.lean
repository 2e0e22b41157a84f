/-
Arithmetic on binary64 numbers: each operation is the exact one followed by the rounding of
`ofRatio`, with the special cases of infinities, NaN and signed zeros spelt out beside it.

Quanta make the exact part short. A sum of counts is a count; a product of counts is short by a
factor `perUnit`, a quotient has one too many, and a root lacks half of one. Integer powers are
the exception: they are a chain of rounded products in a fixed order, since a reader of the answers
sees each of those roundings.
-/
import Metrology.Binary64.Basic
set_option autoImplicit false

namespace Metrology.Binary64

/-- The number `1`. -/
def one : Binary64 := ofNat 1

/-! ## 1. Sign -/

/-- The other sign; NaN has none to change. -/
def neg : Binary64 → Binary64
  | .finite s n h => .finite (!s) n h
  | .infinite s => .infinite (!s)
  | .nan => .nan

/-- The positive sign. -/
def abs : Binary64 → Binary64
  | .finite _ n h => .finite false n h
  | .infinite _ => .infinite false
  | .nan => .nan

/-! ## 2. Sum and difference -/

/-- The rounded sum. Numbers of one sign add their counts and keep the sign, zeros included; of
two signs the larger count wins, and an exact cancellation is the positive zero. -/
def add : Binary64 → Binary64 → Binary64
  | .nan, _ => .nan
  | _, .nan => .nan
  | .infinite s, .infinite t => if s = t then .infinite s else .nan
  | .infinite s, .finite .. => .infinite s
  | .finite .., .infinite t => .infinite t
  | .finite s m _, .finite t n _ =>
    if s = t then ofRatio s (m + n) 1
    else if n < m then ofRatio s (m - n) 1
    else if m < n then ofRatio t (n - m) 1
    else zero false

/-- The rounded difference. -/
def sub (x y : Binary64) : Binary64 := add x (neg y)

/-- A sum does not depend on the order, since the exact one does not and the rounding sees only
that. -/
theorem add_comm (x y : Binary64) : add x y = add y x := by
  cases x with
  | nan => cases y <;> rfl
  | infinite s =>
    cases y with
    | nan => rfl
    | finite t n h => rfl
    | infinite t => cases s <;> cases t <;> rfl
  | finite s m hm =>
    cases y with
    | nan => rfl
    | infinite t => rfl
    | finite t n hn =>
      by_cases hs : s = t
      · simp only [add, hs, Nat.add_comm m n, if_true]
      · simp only [add, if_neg hs, if_neg (Ne.symm hs)]
        -- of two signs the larger count wins on either side, and equal counts cancel
        rcases Nat.lt_trichotomy m n with h | h | h
        · rw [if_neg (Nat.lt_asymm h), if_pos h, if_pos h]
        · simp only [h, Nat.lt_irrefl, if_false]
        · rw [if_pos h, if_neg (Nat.lt_asymm h), if_pos h]

/-! ## 3. Product and quotient -/

/-- The rounded product; an infinity times a zero is NaN. -/
def mul : Binary64 → Binary64 → Binary64
  | .nan, _ => .nan
  | _, .nan => .nan
  | .infinite s, .infinite t => .infinite (s != t)
  | .infinite s, .finite t n _ => if n = 0 then .nan else .infinite (s != t)
  | .finite s m _, .infinite t => if m = 0 then .nan else .infinite (s != t)
  | .finite s m _, .finite t n _ => ofRatio (s != t) (m * n) perUnit

/-- The rounded quotient; a zero divisor gives an infinity, and NaN under a zero. -/
def div : Binary64 → Binary64 → Binary64
  | .nan, _ => .nan
  | _, .nan => .nan
  | .infinite _, .infinite _ => .nan
  | .infinite s, .finite t _ _ => .infinite (s != t)
  | .finite s _ _, .infinite t => zero (s != t)
  | .finite s m _, .finite t n _ =>
    if n = 0 then (if m = 0 then .nan else .infinite (s != t))
    else ofRatio (s != t) (m * perUnit) n

/-- A product does not depend on the order, for the same reason. -/
theorem mul_comm (x y : Binary64) : mul x y = mul y x := by
  cases x with
  | nan => cases y <;> rfl
  | infinite s =>
    cases y with
    | nan => rfl
    | finite t n h => cases s <;> cases t <;> rfl
    | infinite t => cases s <;> cases t <;> rfl
  | finite s m hm =>
    cases y with
    | nan => rfl
    | infinite t => cases s <;> cases t <;> rfl
    | finite t n hn => cases s <;> cases t <;> simp only [mul, Nat.mul_comm] <;> rfl

/-! ## 4. Roots and powers -/

/-- Steps of `floorSqrt` that a root is computed with. They give 56 significant bits, three more
than a number keeps, so a halfway case of the rounding is a whole number of the last bit. -/
def sqrtSteps : Nat := 56

/-- The rounded square root of `n` quanta. The root of `n * perUnit` is wanted; `j` base-four
digits of it are cut off, and what they and the fraction of the root amount to is at most one more
unit of the last bit, so a half put in their place rounds the same way. -/
def sqrtQuanta (n : Nat) : Binary64 :=
  let square := n * perUnit
  let j := (square.log2 - (2 * sqrtSteps - 2)) / 2
  let root := floorSqrt sqrtSteps (square / 4 ^ j)
  let half := if root * root * 4 ^ j = square then 0 else 1
  ofRatio false ((2 * root + half) * 2 ^ j) 2

/-- The rounded square root; NaN below zero, and each zero is its own root. -/
def sqrt : Binary64 → Binary64
  | .finite s n h =>
    if n = 0 then .finite s n h
    else if s then .nan
    else sqrtQuanta n
  | .infinite s => if s then .nan else .infinite s
  | .nan => .nan

/-- Repeated squaring: `acc * x ^ n`, multiplying the squares of `x` into `acc` from the lowest
bit of `n` up and rounding each product. One step serves one bit. -/
def powLoop : Nat → Binary64 → Binary64 → Nat → Binary64
  | 0, acc, _, _ => acc
  | steps + 1, acc, x, n =>
    let acc := if n % 2 = 1 then mul acc x else acc
    if n / 2 = 0 then acc else powLoop steps acc (mul x x) (n / 2)

/-- An integer power, by repeated squaring of the base. A negative power is the reciprocal of the
positive one, so it is zero as soon as that overflows. -/
def pow (x : Binary64) (n : Int) : Binary64 :=
  let r := powLoop (n.natAbs.log2 + 1) one x n.natAbs
  if n < 0 then div one r else r

/-! ## 5. Whole numbers -/

/-- The fraction dropped, toward zero. -/
def trunc : Binary64 → Binary64
  | .finite s n _ => ofRatio s (n / perUnit * perUnit) 1
  | x => x

/-- The nearest whole number, a half to the even one. -/
def roundEven : Binary64 → Binary64
  | .finite s n _ => ofRatio s (nearestEven n perUnit * perUnit) 1
  | x => x

/-- The bounds of a signed integer of 64 bits. -/
def intBounds : Int × Int := (-9223372036854775808, 9223372036854775807)

/-- The whole part as an integer, held within `intBounds`; NaN gives zero. -/
def toInt : Binary64 → Int
  | .finite s n _ =>
    let whole : Int := (n / perUnit : Nat)
    if s then max intBounds.1 (-whole) else min intBounds.2 whole
  | .infinite s => if s then intBounds.1 else intBounds.2
  | .nan => 0

/-! ## 6. The larger of two -/

/-- The larger number, passing over a NaN beside a number. -/
def larger (x y : Binary64) : Binary64 :=
  if x = .nan then y
  else if x.lt y then y
  else x

end Metrology.Binary64
