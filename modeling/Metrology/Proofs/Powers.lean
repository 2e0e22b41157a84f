/-
Powers that stay finite.

A power is computed by repeated squaring, one rounded product after the other, and a negative one is
the reciprocal of what comes out. `factors` lists the pairs that are multiplied. The power is finite
just if no exact product of a pair is past the finite numbers, because an infinity in the chain is
never lost again: every square that is formed is multiplied in later. For a negative power there is
no such condition on the way, since the reciprocal of an infinity is zero, but the reciprocal itself
can leave the range. That it is not taken of NaN rests on the base being on one side of one, where
all squares and products stay.
-/
import Metrology.Proofs.Range
set_option autoImplicit false

namespace Metrology.Binary64

variable {acc x y : Binary64} {n : Nat}

/-! ## 1. The chain of products

The loop squares its base and multiplies the squares into an accumulator where the exponent has a
bit. It ends with the leading bit, so that no square is formed in vain: each one is a factor of what
comes out. -/

/-- A product is not finite with a factor that is not. -/
theorem isFinite_of_isFinite_mul (h : (mul x y).isFinite = true) :
    x.isFinite = true ∧ y.isFinite = true := by
  cases x with
  | nan => cases y <;> cases h
  | infinite s =>
    cases y with
    | nan => cases h
    | infinite t => cases h
    | finite t n hn =>
      rw [mul] at h
      split at h
      · cases h
      · cases h
  | finite s m hm =>
    cases y with
    | nan => cases h
    | infinite t =>
      rw [mul] at h
      split at h
      · cases h
      · cases h
    | finite t n hn => exact ⟨rfl, rfl⟩

/-- The accumulated product after one step. -/
def powStep (acc x : Binary64) (n : Nat) : Binary64 := if n % 2 = 1 then mul acc x else acc

/-- One round of repeated squaring, with the step of the accumulated product under a name of its
own. -/
theorem powLoop_succ (steps : Nat) (acc x : Binary64) (n : Nat) :
    powLoop (steps + 1) acc x n =
      if n / 2 = 0 then powStep acc x n else powLoop steps (powStep acc x n) (mul x x) (n / 2) :=
  rfl

/-- The pairs that repeated squaring multiplies, in this order. -/
def factors : Nat → Binary64 → Binary64 → Nat → List (Binary64 × Binary64)
  | 0, _, _, _ => []
  | steps + 1, acc, x, n =>
    (if n % 2 = 1 then [(acc, x)] else []) ++
      if n / 2 = 0 then [] else (x, x) :: factors steps (powStep acc x n) (mul x x) (n / 2)

/-- What is closed under products and holds of both factors holds of the power. -/
theorem powLoop_induction {P : Binary64 → Prop} (hmul : ∀ a b, P a → P b → P (mul a b))
    (steps : Nat) (hacc : P acc) (hx : P x) : P (powLoop steps acc x n) := by
  induction steps generalizing acc x n with
  | zero => exact hacc
  | succ steps ih =>
    have hstep : P (powStep acc x n) := by
      unfold powStep
      split
      · exact hmul _ _ hacc hx
      · exact hacc
    rw [powLoop_succ]
    split
    · exact hstep
    · exact ih hstep (hmul _ _ hx hx)

/-- Nothing in the chain turns what is not finite into what is. -/
theorem isFinite_acc_of_powLoop (steps : Nat) (h : (powLoop steps acc x n).isFinite = true) :
    acc.isFinite = true := by
  induction steps generalizing acc x n with
  | zero => exact h
  | succ steps ih =>
    have hstep : (powStep acc x n).isFinite = true → acc.isFinite = true := by
      unfold powStep
      split
      · exact fun hmul => (isFinite_of_isFinite_mul hmul).1
      · exact id
    rw [powLoop_succ] at h
    split at h
    · exact hstep h
    · exact hstep (ih h)

/-- The base of every step is multiplied in at last, as the leading bit of the exponent is one. -/
theorem isFinite_base_of_powLoop {steps : Nat} (hn : n ≠ 0) (hsteps : n < 2 ^ steps)
    (h : (powLoop steps acc x n).isFinite = true) : x.isFinite = true := by
  induction steps generalizing acc x n with
  | zero => omega
  | succ steps ih =>
    rw [powLoop_succ] at h
    split at h
    · -- the leading bit
      have hodd : n % 2 = 1 := by omega
      rw [powStep, if_pos hodd] at h
      exact (isFinite_of_isFinite_mul h).2
    · have hhalf : n / 2 < 2 ^ steps := by
        rw [Nat.pow_succ] at hsteps
        omega
      exact (isFinite_of_isFinite_mul (ih ‹_› hhalf h)).1

/-- The chain stays finite exactly if every pair that is multiplied has an exact product within the
range. By induction on the rounds; a round that leaves the range is not made good by later ones. -/
theorem isFinite_powLoop_iff {steps : Nat} (hsteps : n < 2 ^ steps) (hacc : acc.isFinite = true)
    (hx : x.isFinite = true) :
    (powLoop steps acc x n).isFinite = true ↔
      ∀ p ∈ factors steps acc x n, |p.1.value * p.2.value| < roundingBound := by
  induction steps generalizing acc x n with
  | zero => exact iff_of_true hacc fun p hp => absurd hp List.not_mem_nil
  | succ steps ih =>
    have hstep : (powStep acc x n).isFinite = true ↔
        ∀ p ∈ (if n % 2 = 1 then [(acc, x)] else []), |p.1.value * p.2.value| < roundingBound := by
      unfold powStep
      split
      · rw [isFinite_mul_iff hacc hx, List.forall_mem_singleton]
      · exact iff_of_true hacc fun p hp => absurd hp List.not_mem_nil
    rw [powLoop_succ, factors, List.forall_mem_append]
    split
    · rw [hstep]
      exact (and_iff_left fun p hp => absurd hp List.not_mem_nil).symm
    · have hhalf : n / 2 < 2 ^ steps := by
        rw [Nat.pow_succ] at hsteps
        omega
      rw [List.forall_mem_cons, ← hstep, ← isFinite_mul_iff hx hx]
      -- the rest of the chain has finite factors just if this step has not left the range
      constructor
      · intro h
        have hacc' := isFinite_acc_of_powLoop steps h
        have hx' := isFinite_base_of_powLoop ‹_› hhalf h
        exact ⟨hacc', hx', (ih hhalf hacc' hx').1 h⟩
      · rintro ⟨hacc', hx', hrest⟩
        exact (ih hhalf hacc' hx').2 hrest

/-! ## 2. One side of one

The reciprocal of a power needs to know that the power is a number. An infinity times a zero would
be none, and this cannot occur: all factors lie on one side of one. -/

/-- A product of factors from one up is one at least, also when it is infinite. -/
theorem AtLeastOne.mul (hx : x.AtLeastOne) (hy : y.AtLeastOne) : (mul x y).AtLeastOne := by
  have hpos : ∀ {n : Nat}, perUnit ≤ n → n ≠ 0 := fun hn =>
    Nat.ne_of_gt (Nat.lt_of_lt_of_le perUnit_pos hn)
  cases hx with
  | infinite =>
    cases hy with
    | infinite => exact .infinite
    | finite hn =>
      rw [Binary64.mul, if_neg (hpos hn)]
      exact .infinite
  | finite hm =>
    cases hy with
    | infinite =>
      rw [Binary64.mul, if_neg (hpos hm)]
      exact .infinite
    | finite hn =>
      rw [Binary64.mul]
      exact atLeastOne_ofRatio _ perUnit_pos (Nat.mul_le_mul hm hn)

/-- A product of factors up to one is one at most. -/
theorem AtMostOne.mul (hx : x.AtMostOne) (hy : y.AtMostOne) : (mul x y).AtMostOne := by
  cases hx with
  | finite hm =>
    cases hy with
    | finite hn =>
      rw [Binary64.mul]
      exact atMostOne_ofRatio _ perUnit_pos (Nat.mul_le_mul hm hn)

/-- A power of a finite number is not NaN. -/
theorem powLoop_ne_nan (steps : Nat) (hx : x.isFinite = true) : powLoop steps one x n ≠ .nan := by
  intro hnan
  rcases atLeastOne_or_atMostOne hx with hx | hx
  · have hone : one.AtLeastOne := atLeastOne_ofNat (by decide)
    have h : (powLoop steps one x n).AtLeastOne :=
      powLoop_induction (fun _ _ ha hb => ha.mul hb) steps hone hx
    rw [hnan] at h
    cases h
  · have hone : one.AtMostOne := one_eq ▸ .finite (Nat.le_refl _)
    have h : (powLoop steps one x n).AtMostOne :=
      powLoop_induction (fun _ _ ha hb => ha.mul hb) steps hone hx
    rw [hnan] at h
    cases h

/-! ## 3. Powers

What leaves the range is stated by exact products of numbers of the format, which is as much as
there is to say without redoing the loop. -/

/-- The power of a natural number, which a power of an integer is or is the reciprocal of. -/
def natPower (x : Binary64) (n : Nat) : Binary64 := powLoop (n.log2 + 1) one x n

/-- A power of an integer is that of a natural number or its reciprocal (`powi`). -/
theorem pow_eq (x : Binary64) (e : Int) :
    pow x e = if e < 0 then div one (natPower x e.natAbs) else natPower x e.natAbs := rfl

/-- A product on the way to the power is past the finite numbers; for a negative power, the
reciprocal is. -/
def PowerLeavesRange (x : Binary64) (e : Int) : Prop :=
  if e < 0 then
    (natPower x e.natAbs).isZero = true ∨ roundingBound ≤ |1 / (natPower x e.natAbs).value|
  else
    ∃ p ∈ factors (e.natAbs.log2 + 1) one x e.natAbs, roundingBound ≤ |p.1.value * p.2.value|

/-- A power of a finite number is finite just if no step of it leaves the range. -/
theorem isFinite_pow_iff (hx : x.isFinite = true) (e : Int) :
    (pow x e).isFinite = true ↔ ¬ PowerLeavesRange x e := by
  rw [pow_eq, PowerLeavesRange]
  by_cases hneg : e < 0
  · rw [if_pos hneg, if_pos hneg, not_or, not_le, ← value_one]
    have hnan : natPower x e.natAbs ≠ .nan := powLoop_ne_nan _ hx
    generalize natPower x e.natAbs = r at hnan
    cases r with
    | nan => exact absurd rfl hnan
    | infinite s =>
      -- the reciprocal is zero
      have hvalue : (infinite s).value = 0 := rfl
      rw [hvalue, div_zero, abs_zero]
      refine iff_of_true ?_ ⟨Bool.false_ne_true, roundingBound_pos⟩
      rw [one_eq]
      rfl
    | finite s m hm =>
      by_cases hzero : (finite s m hm).isZero = true
      · refine iff_of_false ?_ fun h => h.1 hzero
        obtain rfl : m = 0 := beq_iff_eq.1 hzero
        rw [one_eq, div, if_pos rfl, if_neg (Nat.ne_of_gt perUnit_pos)]
        exact Bool.false_ne_true
      · rw [isFinite_div_iff isFinite_one rfl (Bool.eq_false_of_not_eq_true hzero)]
        exact (and_iff_right hzero).symm
  · rw [if_neg hneg, if_neg hneg, natPower, isFinite_powLoop_iff Nat.lt_log2_self isFinite_one hx]
    push Not
    exact Iff.rfl

end Metrology.Binary64
