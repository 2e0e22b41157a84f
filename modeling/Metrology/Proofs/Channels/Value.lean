/-
Values and outcomes that agree on a choice of channels, and the operations on them.

Two values agree if they have the same shape, the numbers in them agree, and all names in them are
the same. Texts may differ: a text can be made from both uncertainties of a number, by `latex`, and
so may hold whatever was not looked at. Nothing is ever read back out of a text, which is why the
difference stays there.

Interrupts agree if they are of one kind, with agreeing values if they carry one. A failure agrees
with itself only: every detail of one, a type, a count, a magnitude outside a domain, is the same on
both sides.
-/
import Metrology.Evaluation.Plan
import Metrology.Proofs.Channels.Measurement
set_option autoImplicit false

namespace Metrology

/-! ## 1. Agreement

The three relations are the parameters of a `Lockstep`, and what follows is all it asks of them:
they hold of equal things, and a place given to a failure does not disturb them. -/

/-- The same shape and names, with numbers that agree. -/
inductive Value.Agree (c : Channels) : Value → Value → Prop
  | number {m n : Measurement} : m.Agree c n → Value.Agree c (.number m) (.number n)
  | text {s t : String} : Value.Agree c (.text s) (.text t)
  | symbol {s : String} : Value.Agree c (.symbol s) (.symbol s)
  | package {s : String} : Value.Agree c (.package s) (.package s)
  | list {vs ws : List Value} : List.Forall₂ (Value.Agree c) vs ws →
      Value.Agree c (.list vs) (.list ws)

/-- The same failure, or the same control statement with values that agree. -/
inductive Interrupt.Agree (c : Channels) : Interrupt → Interrupt → Prop
  | failure {f : Failure} : Interrupt.Agree c (.failure f) (.failure f)
  | returning {v w : Option Value} : Option.Rel (Value.Agree c) v w →
      Interrupt.Agree c (.returning v) (.returning w)
  | breaking : Interrupt.Agree c .breaking .breaking
  | continuing : Interrupt.Agree c .continuing .continuing

/-- Both have a value, and these agree, or both are interrupted in the same way. -/
abbrev Outcome.Agree (c : Channels) : Outcome Value → Outcome Value → Prop :=
  ExceptRel (Interrupt.Agree c) (Value.Agree c)

variable {c : Channels}

mutual

/-- A value agrees with itself: numbers do, and the rest does by its shape. -/
theorem Value.Agree.refl (c : Channels) : ∀ v : Value, v.Agree c v
  | .number m => .number (Measurement.Agree.refl c m)
  | .text _ => .text
  | .symbol _ => .symbol
  | .package _ => .package
  | .list vs => .list (Value.Agree.refl_all c vs)

/-- A row of values agrees with itself, item by item. -/
theorem Value.Agree.refl_all (c : Channels) : ∀ vs : List Value,
    List.Forall₂ (Value.Agree c) vs vs
  | [] => .nil
  | v :: vs => .cons (Value.Agree.refl c v) (Value.Agree.refl_all c vs)

end

/-- An interrupt agrees with itself, with the value that it carries. -/
theorem Interrupt.Agree.refl (c : Channels) (i : Interrupt) : i.Agree c i := by
  cases i with
  | failure f => exact .failure
  | returning v =>
    cases v with
    | none => exact .returning .none
    | some v => exact .returning (.some (Value.Agree.refl c v))
  | breaking => exact .breaking
  | continuing => exact .continuing

/-- An outcome agrees with itself. -/
theorem Outcome.Agree.refl (c : Channels) (r : Outcome Value) : Outcome.Agree c r r := by
  cases r with
  | ok v => exact .ok (Value.Agree.refl c v)
  | error i => exact .error (Interrupt.Agree.refl c i)

/-- The same place given to both keeps them agreeing; where there is a failure it is the same
one. -/
theorem Interrupt.Agree.locate {i j : Interrupt} (h : i.Agree c j) (s : Option Span) :
    (i.locate s).Agree c (j.locate s) := by
  cases h with
  | failure => exact .failure
  | returning hv => exact .returning hv
  | breaking => exact .breaking
  | continuing => exact .continuing

/-- Arithmetic that gives agreeing numbers or the same fault gives agreeing outcomes. -/
theorem Outcome.ofArithmetic_agree {r r' : Except ArithmeticFault Measurement}
    (h : ExceptRel Eq (Measurement.Agree c) r r') :
    Outcome.Agree c (.ofArithmetic r) (.ofArithmetic r') := by
  cases h with
  | ok hm => exact .ok (.number hm)
  | error he =>
    subst he
    exact .error .failure

/-! ## 2. Operators

An operator decides by the types of its operands, which agreeing values share, and then works on
their numbers. -/

namespace Operation

variable [Numerics]

/-- The exponent of a power is read off the magnitude of the right operand alone. -/
theorem power_agree {m n m' n' : Measurement} (h : m.Agree c n) (h' : m'.Agree c n') :
    Outcome.Agree c (power m m') (power n n') := by
  rw [power, power, h'.magnitude]
  cases exponent? n'.magnitude with
  | none => exact .error .failure
  | some k => exact Outcome.ofArithmetic_agree (h.pow k)

/-- Between numbers an operator is one of arithmetic's (`eval_number_binary`). -/
theorem onNumbers_agree (op : BinaryOperator) {m n m' n' : Measurement} (h : m.Agree c n)
    (h' : m'.Agree c n') : Outcome.Agree c (onNumbers op m m') (onNumbers op n n') := by
  cases op with
  | add => exact .ok (.number (h.add h'))
  | sub => exact .ok (.number (h.sub h'))
  | mul => exact .ok (.number (h.mul h'))
  | div => exact Outcome.ofArithmetic_agree (h.div h')
  | pow => exact power_agree h h'

/-- An operator looks at the types of its operands first, and these are the same on both sides. -/
theorem binary_agree (op : BinaryOperator) {v w v' w' : Value} (h : v.Agree c w)
    (h' : v'.Agree c w') : Outcome.Agree c (binary op v v') (binary op w w') := by
  cases h with
  | number hm =>
    cases h' with
    | number hm' => exact onNumbers_agree op hm hm'
    -- beside anything else the types alone decide, and the failure names them
    | _ => cases op <;> exact .error .failure
  | text =>
    cases h' with
    | text =>
      cases op with
      | add => exact .ok .text
      | _ => exact .error .failure
    | _ => cases op <;> exact .error .failure
  -- lists are joined item by item; a failure names types, and a list is a list on both sides
  | list hvs =>
    cases h' with
    | list hvs' =>
      cases op with
      | add => exact .ok (.list (List.rel_append hvs hvs'))
      | _ => exact .error .failure
    | _ => cases op <;> exact .error .failure
  | symbol => cases h' <;> cases op <;> exact .error .failure
  | package => cases h' <;> cases op <;> exact .error .failure

/-- An operator before a value takes numbers only (`evaluate_unary`). -/
theorem unary_agree (op : UnaryOperator) {v w : Value} (h : v.Agree c w) :
    Outcome.Agree c (unary op v) (unary op w) := by
  cases h with
  | number hm =>
    cases op with
    | negate => exact .ok (.number hm.neg)
    | keep => exact .ok (.number hm)
  | _ => cases op <;> exact .error .failure

end Operation

/-! ## 3. Intrinsic functions

A function first fetches its arguments and then computes. Fetching fails by the types of values, so
in the same way on both sides. -/

namespace Intrinsic

/-- A number is fetched on both sides or reported on both by the same type. -/
theorem number_agree {v w : Value} (h : v.Agree c w) :
    ExceptRel (Interrupt.Agree c) (Measurement.Agree c) (number v) (number w) := by
  cases h with
  | number hm => exact .ok hm
  | _ => exact .error .failure

/-- The numbers of a list, up to the same first item that is none. -/
theorem numbersOf_agree {vs ws : List Value} (h : List.Forall₂ (Value.Agree c) vs ws) :
    ExceptRel (Interrupt.Agree c) (List.Forall₂ (Measurement.Agree c)) (numbersOf vs)
      (numbersOf ws) := by
  induction h with
  | nil => exact .ok .nil
  | cons hv _ ih =>
    rw [numbersOf, numbersOf]
    exact (number_agree hv).bind fun m n hm => ih.bind fun ms ns hms => .ok (.cons hm hms)

/-- A sample is fetched item by item; what is no list is reported on both sides. -/
theorem numbers_agree {v w : Value} (h : v.Agree c w) :
    ExceptRel (Interrupt.Agree c) (List.Forall₂ (Measurement.Agree c)) (numbers v) (numbers w) := by
  cases h with
  | list hvs => exact numbersOf_agree hvs
  | _ => exact .error .failure

variable [Numerics]

/-- A function of one argument. -/
theorem apply_one_agree (f : Intrinsic) {v w : Value} (h : v.Agree c w) :
    Outcome.Agree c (f.apply [v]) (f.apply [w]) := by
  cases f with
  | sin => exact (number_agree h).bind fun m n hm => .ok (.number hm.sine)
  | cos => exact (number_agree h).bind fun m n hm => .ok (.number hm.cosine)
  | tan => exact (number_agree h).bind fun m n hm => Outcome.ofArithmetic_agree hm.tangent
  | asin => exact (number_agree h).bind fun m n hm => Outcome.ofArithmetic_agree hm.arcsine
  | atan => exact (number_agree h).bind fun m n hm => .ok (.number hm.arctangent)
  | abs => exact (number_agree h).bind fun m n hm => .ok (.number hm.abs)
  | avg =>
    -- an average is of magnitudes, so it is one and the same value
    refine (numbers_agree h).bind fun ms ns hms => ?_
    rw [Measurement.averageOfMeasurements_eq hms]
    exact Outcome.Agree.refl c _
  -- one argument is one too few
  | avgReadings => exact .error .failure
  | latex => exact (number_agree h).bind fun m n hm => .ok .text

/-- The one function of two arguments takes its readings and its reading error from magnitudes. -/
theorem apply_two_agree (f : Intrinsic) {v w v' w' : Value} (h : v.Agree c w)
    (h' : v'.Agree c w') : Outcome.Agree c (f.apply [v, v']) (f.apply [w, w']) := by
  by_cases hf : f = avgReadings
  · subst hf
    refine (numbers_agree h).bind fun ms ns hms => (number_agree h').bind fun e e' he => ?_
    rw [Measurement.map_magnitude_eq hms, he.magnitude]
    exact Outcome.Agree.refl c _
  · have hne : ∀ x y : Value, [x, y].length ≠ f.arity := by
      intro x y
      cases f <;> simp_all [arity]
    rw [apply_of_length_ne f (hne v v'), apply_of_length_ne f (hne w w')]
    exact .error .failure

/-- A function applied to agreeing arguments, as many as it takes or not (`call_intrinsic`). -/
theorem apply_agree (f : Intrinsic) {vs ws : List Value}
    (h : List.Forall₂ (Value.Agree c) vs ws) : Outcome.Agree c (f.apply vs) (f.apply ws) := by
  by_cases hlen : vs.length = f.arity
  · -- the arity is one or two, and rows of other lengths are ruled out by it
    cases h with
    | nil => cases f <;> exact absurd hlen (by decide)
    | cons hv hrest =>
      cases hrest with
      | nil => exact apply_one_agree f hv
      | cons hv' hrest =>
        cases hrest with
        | nil => exact apply_two_agree f hv hv'
        | cons _ _ => cases f <;> simp [arity] at hlen
  · rw [apply_of_length_ne f hlen, apply_of_length_ne f (h.length_eq ▸ hlen), h.length_eq]
    exact .error .failure

/-- Whether a name is one of a function does not depend on the arguments. -/
theorem call_agree (name : String) {vs ws : List Value}
    (h : List.Forall₂ (Value.Agree c) vs ws) : Outcome.Agree c (call name vs) (call name ws) := by
  rw [call, call]
  cases ofName? name with
  | none => exact .error .failure
  | some f => exact apply_agree f h

end Intrinsic

end Metrology
