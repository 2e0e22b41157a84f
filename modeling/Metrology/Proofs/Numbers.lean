/-
Properties of every number that an evaluation handles.

A number gets into an evaluation from a literal or out of a slot of the scope, and every other one
is made by an operator or a function. In between numbers are only moved: into lists, through groups
and blocks, out with a `return`, into slots. So a property of measured values holds of every number
that comes out, and of every number that is left in a slot, if it holds of those in the slots before
and each node that is come to makes such numbers of such numbers (`Visit.Keeps`). What is asked of
the nodes is asked of the visited ones only, because a property may well fail for other operands
than those that are met.

`Tree.run_all` is the half of it that is about one node, and shows which nodes can be to blame:
number literals, the two sorts of operators, and calls.
-/
import Metrology.Proofs.Entered
import Metrology.Proofs.Record
import Metrology.Proofs.Rules
import Metrology.Proofs.ScopeStack
set_option autoImplicit false

namespace Metrology

/-! ## 1. Every number

The property is asked of the numbers in values, in the value of a `return`, in an outcome and in the
slots of a scope. Failures hold no numbers, and neither do texts: a text may show one, but no number
is ever read back from it. -/

/-- Every number in the value has the property, at whatever depth of lists. -/
inductive Value.All (P : Measurement → Prop) : Value → Prop
  | number {m : Measurement} : P m → Value.All P (.number m)
  | text {s : String} : Value.All P (.text s)
  | symbol {s : String} : Value.All P (.symbol s)
  | package {s : String} : Value.All P (.package s)
  | list {vs : List Value} : (∀ v ∈ vs, v.All P) → Value.All P (.list vs)

/-- Every number in the value that a `return` hands out has the property. -/
def Interrupt.All (P : Measurement → Prop) (i : Interrupt) : Prop :=
  ∀ v, i = .returning (some v) → v.All P

/-- What comes out is as wanted, and if it is a `return`, all its numbers have the property. -/
inductive Outcome.All {α : Type} (P : Measurement → Prop) (wanted : α → Prop) : Outcome α → Prop
  | ok {a : α} : wanted a → Outcome.All P wanted (.ok a)
  | error {i : Interrupt} : i.All P → Outcome.All P wanted (.error i)

/-- Every number in every slot of the stack has the property. -/
def Scope.All (P : Measurement → Prop) (s : Scope) : Prop :=
  ∀ level name v, s.slot level name = some v → v.All P

variable {P : Measurement → Prop}

/-- What holds of the numbers of a list holds of those of each item. -/
theorem Value.All.of_list {vs : List Value} (h : (Value.list vs).All P) : ∀ v ∈ vs, v.All P := by
  cases h with
  | list hvs => exact hvs

/-- A failure hands out no number. -/
theorem Interrupt.all_failure (f : Failure) : (Interrupt.failure f).All P := nofun

/-- A place brings no number with it. -/
theorem Interrupt.All.locate {i : Interrupt} (h : i.All P) (s : Option Span) :
    (i.locate s).All P := by
  cases i with
  | failure f => exact Interrupt.all_failure _
  | _ => exact h

namespace Outcome

variable {α β : Type} {wanted : α → Prop} {wanted' : β → Prop}

/-- An outcome with a value has a wanted one. -/
theorem All.of_ok {a : α} (h : Outcome.All P wanted (.ok a)) : wanted a := by
  cases h with
  | ok ha => exact ha

/-- An interrupt that comes out hands out such numbers only. -/
theorem All.of_error {i : Interrupt} (h : Outcome.All P wanted (.error i)) : i.All P := by
  cases h with
  | error hi => exact hi

theorem all_fail (cause : Cause) : (Outcome.fail cause : Outcome α).All P wanted :=
  .error (Interrupt.all_failure _)

/-- A function that makes wanted values of wanted ones is applied to an outcome. -/
theorem All.map {r : Outcome α} (h : r.All P wanted) {f : α → β}
    (hf : ∀ a, wanted a → wanted' (f a)) : Outcome.All P wanted' (r.map f) := by
  cases h with
  | ok ha => exact .ok (hf _ ha)
  | error hi => exact .error hi

/-- In a chain the second link is asked only for the values that the first one has. -/
theorem All.bind_of_eq {r : Outcome α} (h : r.All P wanted) {f : α → Outcome β}
    (hf : ∀ a, r = .ok a → wanted a → (f a).All P wanted') : Outcome.All P wanted' (r >>= f) := by
  cases h with
  | ok ha => exact hf _ rfl ha
  | error hi => exact .error hi

/-- In a chain both links hand out such numbers only. -/
theorem All.bind {r : Outcome α} (h : r.All P wanted) {f : α → Outcome β}
    (hf : ∀ a, wanted a → (f a).All P wanted') : Outcome.All P wanted' (r >>= f) :=
  h.bind_of_eq fun a _ => hf a

/-- An outcome seen from a place hands out the same numbers. -/
theorem All.locate {r : Outcome α} (h : r.All P wanted) (s : Option Span) :
    (r.locate s).All P wanted := by
  cases h with
  | ok ha => exact .ok ha
  | error hi => exact .error (hi.locate s)

end Outcome

namespace Scope

variable {s : Scope} {name : String} {v : Value}

/-- A fresh scope has no numbers in its slots. -/
theorem all_empty (P : Measurement → Prop) : empty.All P := by
  intro level name v h
  rw [slot_eq] at h
  split at h
  · cases h
  · rw [slotIn_eq_none (Nat.zero_le level)] at h
    cases h

/-- What a lookup finds was in a slot. -/
theorem All.lookup (h : s.All P) (hv : s.lookup name = some v) : v.All P := by
  obtain ⟨level, -, hslot⟩ := (s.lookup_eq_some_iff name v).1 hv
  exact h level name v hslot

/-- Setting a slot brings no numbers into the stack but those of the value. -/
theorem All.of_slot {s' : Scope} (h : s.All P) (hv : v.All P)
    (hslot : ∀ level other, s'.slot level other = some v ∨
      s'.slot level other = s.slot level other) : s'.All P := by
  intro level other w hw
  rcases hslot level other with hset | hkept
  · rw [hset] at hw
    exact Option.some.inj hw ▸ hv
  · exact h level other w (hkept ▸ hw)

/-- A definition puts the value into one slot and leaves the others. -/
theorem All.define (h : s.All P) (name : String) (hv : v.All P) : (s.define name v).All P := by
  refine h.of_slot hv fun level other => ?_
  rw [slot_define]
  split
  · exact .inl rfl
  · exact .inr rfl

/-- A binding puts the value into one slot and leaves the others. -/
theorem All.bind (h : s.All P) (name : String) (hv : v.All P) : (s.bind name v).All P := by
  obtain ⟨home, -, -, hslots⟩ := s.slot_bind name v
  refine h.of_slot hv fun level other => ?_
  rw [hslots]
  split
  · exact .inl rfl
  · exact .inr rfl

end Scope

/-! ## 2. Where numbers are made

Operators and functions are taken apart only so far as to see what they make a number of. What the
property says of those numbers is left to the user of the lemmas. -/

/-- Arithmetic hands out the number it makes. -/
theorem Outcome.ofArithmetic_all {r : Except ArithmeticFault Measurement}
    (h : ∀ m, r = .ok m → P m) : (Outcome.ofArithmetic r).All P (Value.All P) := by
  cases r with
  | ok m => exact .ok (.number (h m rfl))
  | error fault => exact all_fail _

section
variable [Numerics]

/-- Joining lists moves numbers, and only two numbers make one. -/
theorem Operation.binary_all {op : BinaryOperator} {v w : Value} (hv : v.All P) (hw : w.All P)
    (h : ∀ m n, v = .number m → w = .number n → (onNumbers op m n).All P (Value.All P)) :
    (binary op v w).All P (Value.All P) := by
  unfold binary
  split
  · exact h _ _ rfl rfl
  · exact .ok .text
  · refine .ok (.list fun u hu => ?_)
    exact (List.mem_append.1 hu).elim (hv.of_list u) (hw.of_list u)
  · exact Outcome.all_fail _

/-- Negation makes a number, and an operator that keeps its operand moves one. -/
theorem Operation.unary_all {op : UnaryOperator} {v : Value} (hv : v.All P)
    (h : ∀ m, op = .negate → v = .number m → P (-m)) : (unary op v).All P (Value.All P) := by
  unfold unary
  split
  · exact .ok (.number (h _ rfl rfl))
  · exact .ok hv
  · exact Outcome.all_fail _

omit [Numerics] in
/-- A number fetched from an argument is that of the argument. -/
theorem Intrinsic.number_all {v : Value} (hv : v.All P) : (number v).All P P := by
  cases hv with
  | number hm => exact .ok hm
  | _ => exact Outcome.all_fail _

omit [Numerics] in
/-- The arguments of a function that are numbers have the property, and those in a list. -/
theorem Intrinsic.numbers_all {v : Value} (hv : v.All P) :
    (numbers v).All P fun ms => ∀ m ∈ ms, P m := by
  cases hv with
  | @list vs hvs =>
    show (numbersOf vs).All P _
    -- one item after the other, and those of the rest behind it
    induction vs with
    | nil => exact .ok fun m hm => absurd hm List.not_mem_nil
    | cons v vs ih =>
      obtain ⟨hfirst, hrest⟩ := List.forall_mem_cons.1 hvs
      rw [numbersOf]
      refine (number_all hfirst).bind fun m hm => (ih hrest).bind fun ms hms => ?_
      exact .ok (List.forall_mem_cons.2 ⟨hm, hms⟩)
  | _ => exact Outcome.all_fail _

/-! ## 3. One node -/

omit [Numerics] in
/-- Only a literal has its value settled beforehand. -/
theorem Tree.Rule.isLiteral {t : Tree} {p : Plan} (h : t.Rule p) {v : Value}
    (ha : p.assembly = .settled (.ok v)) : t.kind.isLiteral = true := by
  cases h with
  | literal hk => exact hk
  | @control k _ _ => cases k <;> nomatch ha
  | _ => nomatch ha

omit [Numerics] in
/-- What a literal stands for has no number in it, or is the number of a literal. -/
theorem Tree.settled_ok {t : Tree} {v : Value} (h : t.plan.assembly = .settled (.ok v)) :
    v.All P ∨ ∃ tokens m, v = .number m ∧ Literal.decode tokens = .ok m := by
  have hliteral := t.rule.isLiteral h
  -- the text, symbol and package literals all wait for their one token
  have ofToken : ∀ {r : String → Outcome Value},
      (t.planToken 0 fun token => .settled (r token)).assembly = .settled (.ok v) →
      ∃ token, r token = .ok v := by
    intro r hplan
    rw [planToken] at hplan
    split at hplan
    · exact ⟨_, Assembly.settled.inj hplan⟩
    · cases hplan
  rw [plan] at h
  cases hk : t.kind with
  | number =>
    rw [hk] at h
    have hvalue : t.numberValue = .ok v := Assembly.settled.inj h
    rw [numberValue] at hvalue
    split at hvalue
    · obtain ⟨m, hm, rfl⟩ := Outcome.map_eq_ok.1 hvalue
      refine .inr ⟨t.tokens.filter fun s => !Literal.isSeparator s, m, rfl, ?_⟩
      rcases hdecode : Literal.decode (t.tokens.filter fun s => !Literal.isSeparator s) with f | n
      all_goals rw [hdecode] at hm
      · cases hm
      · cases hm
        rfl
    · cases hvalue
  | text =>
    rw [hk] at h
    obtain ⟨token, hvalue⟩ := ofToken h
    rw [textValue] at hvalue
    split at hvalue
    · cases hvalue
      exact .inl .text
    · cases hvalue
  | symbol =>
    rw [hk] at h
    obtain ⟨token, hvalue⟩ := ofToken h
    cases hvalue
    exact .inl .symbol
  | package =>
    rw [hk] at h
    obtain ⟨token, hvalue⟩ := ofToken h
    cases hvalue
    exact .inl .package
  | _ =>
    rw [hk] at hliteral
    cases hliteral

/-- A node that is given values with the property makes one with the property, if it does where
numbers are made: in number literals, in operators and in calls. -/
theorem Tree.run_all (t : Tree) {vs : List Value} {env : Scope} (hvs : ∀ v ∈ vs, v.All P)
    (henv : env.All P)
    (hliteral : ∀ tokens m, Literal.decode tokens = .ok m → P m)
    (hbinary : ∀ op v w rest, t.plan.assembly = .binary op → vs = v :: w :: rest →
      (Operation.binary op v w).All P (Value.All P))
    (hunary : ∀ op v rest, t.plan.assembly = .unary op → vs = v :: rest →
      (Operation.unary op v).All P (Value.All P))
    (hcall : ∀ name, t.plan.assembly = .call name → (Intrinsic.call name vs).All P (Value.All P)) :
    (t.plan.assembly.run vs env).1.All P (Value.All P) := by
  -- one case for each rule; most only move their operands or can only fail
  have hrule := t.rule
  generalize hp : t.plan = p at *
  cases hrule with
  | @literal v _ =>
    rcases t.settled_ok (congrArg Plan.assembly hp) with hv | ⟨tokens, m, rfl, hm⟩
    · exact .ok hv
    · exact .ok (.number (hliteral tokens m hm))
  | malformed _ => exact Outcome.all_fail _
  | @name token _ _ =>
    simp only [Assembly.run, Environment.lookup]
    rcases hv : env.lookup token with _ | v
    · exact Outcome.all_fail _
    · exact .ok (henv.lookup hv)
  | assign _ _ =>
    rcases vs with _ | ⟨v, vs⟩
    · exact Outcome.all_fail _
    · exact .ok (hvs v List.mem_cons_self)
  | group _ =>
    rcases vs with _ | ⟨v, vs⟩
    · exact Outcome.all_fail _
    · exact .ok (hvs v List.mem_cons_self)
  | @binary op _ _ =>
    rcases vs with _ | ⟨v, _ | ⟨w, rest⟩⟩
    · exact Outcome.all_fail _
    · exact Outcome.all_fail _
    · exact hbinary op v w rest rfl rfl
  | @unary op _ _ =>
    rcases vs with _ | ⟨v, rest⟩
    · exact Outcome.all_fail _
    · exact hunary op v rest rfl rfl
  | @call token _ _ => exact hcall token rfl
  | list _ => exact .ok (.list hvs)
  | block _ =>
    simp only [Assembly.run]
    rcases hlast : vs.getLast? with _ | v
    · exact Outcome.all_fail _
    · exact .ok (hvs v (List.mem_of_getLast? hlast))
  | @control k _ _ =>
    cases k with
    | ret => exact .error fun v hv => hvs v (List.mem_of_head? (Interrupt.returning.inj hv))
    | brk => exact .error fun v hv => by cases hv
    | cont => exact .error fun v hv => by cases hv

/-- Nor does the node leave anything else in a slot. -/
theorem Assembly.run_scope_all (a : Assembly) {vs : List Value} {env : Scope}
    (hvs : ∀ v ∈ vs, v.All P) (henv : env.All P) : (a.run vs env).2.All P := by
  rcases a.events_cases with ⟨name, rfl⟩ | ⟨name, rfl⟩ | hnone
  · simp only [run, Environment.lookup]
    rcases env.lookup name with _ | v
    · exact henv
    · exact henv
  · rcases vs with _ | ⟨v, vs⟩
    · exact henv
    · exact henv.bind name (hvs v List.mem_cons_self)
  · obtain ⟨r, hrun⟩ := run_of_events_eq_nil hnone vs
    rw [hrun env]
    exact henv

/-! ## 4. Whole evaluations

The scope is carried along: each node must find such numbers in the slots and leave such numbers
there. So the induction has a scope going in and one coming out at every step. -/

variable {limit : Option Nat}

/-- Operands that have come out with the property are made into an outcome with the property. -/
def Visit.Keeps (P : Measurement → Prop) (limit : Option Nat) (w : Visit Scope) : Prop :=
  ∀ vs env, pastLimit limit w.depth = none →
    inOrder (evaluate limit (w.depth + 1)) w.node.plan.operands w.env = (.ok vs, env) →
    (∀ v ∈ vs, v.All P) → env.All P → (w.node.plan.assembly.run vs env).1.All P (Value.All P)

/-- The property goes through a row of trees, if it does at the turn of each. -/
theorem inOrder_all {depth : Nat} {ts : List Tree} {env : Scope} (henv : env.All P)
    (h : ∀ i w, Turn limit depth ts env i w → w.env.All P →
      (w.result limit).1.All P (Value.All P) ∧ (w.result limit).2.All P) :
    (inOrder (evaluate limit depth) ts env).1.All P (fun vs => ∀ v ∈ vs, v.All P) ∧
      (inOrder (evaluate limit depth) ts env).2.All P := by
  induction ts generalizing env with
  | nil => exact ⟨.ok fun v hv => absurd hv List.not_mem_nil, henv⟩
  | cons t ts ih =>
    obtain ⟨hout, hscope⟩ := h 0 _ .first henv
    rw [Visit.result] at hout hscope
    rcases ht : evaluate limit depth t env with ⟨i | v, env'⟩
    all_goals rw [ht] at hout hscope
    · rw [inOrder_cons_error ht]
      exact ⟨.error hout.of_error, hscope⟩
    · -- the others have their turns after a value
      obtain ⟨hrest, hend⟩ := ih hscope fun i w hw => h (i + 1) w (.later ht hw)
      rw [inOrder_cons_ok ht]
      exact ⟨hrest.map fun vs hvs => List.forall_mem_cons.2 ⟨hout.of_ok, hvs⟩, hend⟩

/-- The property goes through a visit, if it does through every node that the visit comes to. -/
theorem Visit.result_all (v : Visit Scope) (henv : v.env.All P)
    (hkeeps : ∀ w, v.Reaches limit w → w.Keeps P limit) :
    (v.result limit).1.All P (Value.All P) ∧ (v.result limit).2.All P := by
  induction v using Visit.induction Scope limit with
  | visit v ih =>
    rcases hpast : pastLimit limit v.depth with _ | most
    · obtain ⟨hrow, hscope⟩ := inOrder_all henv fun i w hw hwenv =>
        ih i w ⟨hpast, hw⟩ hwenv fun u hu => hkeeps u (Evaluates.reaches ⟨hpast, hw⟩ hu)
      rw [result_of_within hpast]
      rcases hops : inOrder (evaluate limit (v.depth + 1)) v.node.plan.operands v.env
        with ⟨i | vs, env⟩
      all_goals rw [hops] at hrow hscope
      · exact ⟨.error (hrow.of_error.locate _), hscope⟩
      · have hown := hkeeps v (.refl v) vs env hpast hops hrow.of_ok hscope
        exact ⟨hown.locate _, v.node.plan.assembly.run_scope_all hrow.of_ok hscope⟩
    · rw [result_of_past hpast]
      exact ⟨(Outcome.all_fail _).locate _, henv⟩

omit [Numerics] in
/-- What a request makes of its first level holds no other numbers. -/
theorem Request.finish_all (q : Request) (t : Tree) {r : Outcome (List Value)}
    (h : r.All P fun vs => ∀ v ∈ vs, v.All P) :
    (q.finish t r).All P fun o => ∀ v ∈ o, v.All P := by
  have hlast : Outcome.All P (fun o : Option Value => ∀ v ∈ o, v.All P) (r.map List.getLast?) :=
    h.map fun vs hvs v hv => hvs v (List.mem_of_getLast? hv)
  cases q with
  | evaluate => exact hlast
  | evaluateBlock =>
    rw [finish]
    split
    · exact hlast
    · exact Outcome.all_fail _
  | run =>
    simp only [finish]
    generalize r.map List.getLast? = x at hlast
    rcases x with i | o
    · -- a `return` gives its value, and the other interrupts hold none
      cases i with
      | returning o => exact .ok fun v hv => hlast.of_error v (congrArg Interrupt.returning hv)
      | failure f => exact .error (Interrupt.all_failure _)
      | breaking => exact .error (Interrupt.all_failure _)
      | continuing => exact .error (Interrupt.all_failure _)
    · exact .ok hlast.of_ok

/-- The property goes through a whole request. -/
theorem Request.answer_all (q : Request) (t : Tree) (ev : Evaluator) {s : Scope} (hs : s.All P)
    (hkeeps : ∀ w ∈ q.visits t ev s, w.Keeps P ev.maxDepth) :
    ((q.answer t (ev, s)).1.All P fun o => ∀ v ∈ o, v.All P) ∧
      (q.answer t (ev, s)).2.2.All P := by
  have hturns : ∀ i v, Turn ev.maxDepth ev.depth (q.roots t) s i v → v.env.All P →
      (v.result ev.maxDepth).1.All P (Value.All P) ∧ (v.result ev.maxDepth).2.All P :=
    fun i v hv henv => v.result_all henv fun w hw =>
      hkeeps w ((q.mem_visits t ev s w).2 ⟨i, v, hv, hw⟩)
  obtain ⟨hrow, hscope⟩ := inOrder_all hs hturns
  rw [answer_eq]
  exact ⟨q.finish_all t hrow, hscope⟩

end

end Metrology
