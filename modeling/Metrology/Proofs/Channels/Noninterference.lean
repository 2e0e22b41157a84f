/-
One channel never shows in another.

Main statement: `answer_agree`. Two scopes that agree on a choice of channels, and may hold anything
in the others and in their texts, cannot be told apart by what a request answers, except in those
others: the outcome has the same form, failures are the same in every detail, and values and final
scopes agree on the chosen channels again. Choosing one channel says that the other has no influence
on it, and choosing none that magnitudes, control flow and failures depend on no uncertainty at all.

It holds for all numerics. What is used of an operation is which of its arguments go where, and the
comparison of the two runs is `Lockstep`.
-/
import Metrology.Evaluation.Scope
import Metrology.Tree.Build
import Metrology.Proofs.Channels.Value
set_option autoImplicit false

namespace Metrology

/-! ## 1. Scopes that agree

Two scopes agree when their frames have the same names at the same places. That suffices for a
lookup and for a binding to go to the same frame on both sides. -/

/-- The same names, with related entries. -/
def Bindings.Rel {α : Type} (R : α → α → Prop) (b b' : Bindings α) : Prop :=
  ∀ name : String, Option.Rel R (b.get? name) (b'.get? name)

/-- The same package name, and exports that agree. -/
structure Package.Agree (c : Channels) (p p' : Package) : Prop where
  name : p.name = p'.name
  exports : p.exports.Rel (Value.Agree c) p'.exports

/-- As many frames, with the same names and values that agree, and packages that agree. -/
structure Scope.Agree (c : Channels) (s s' : Scope) : Prop where
  innermost : s.innermost.Rel (Value.Agree c) s'.innermost
  outer : List.Forall₂ (Bindings.Rel (Value.Agree c)) s.outer s'.outer
  packages : s.packages.Rel (Package.Agree c) s'.packages

namespace Bindings.Rel

variable {α : Type} {R : α → α → Prop} {b b' : Bindings α}

theorem empty : (Bindings.empty : Bindings α).Rel R Bindings.empty := fun _ => .none

/-- Related values under one name keep the maps related. -/
theorem insert (h : b.Rel R b') (name : String) {v w : α} (hvw : R v w) :
    (b.insert name v).Rel R (b'.insert name w) := by
  intro other
  rw [get?_insert, get?_insert]
  by_cases ho : other = name
  · rw [if_pos ho, if_pos ho]
    exact .some hvw
  · rw [if_neg ho, if_neg ho]
    exact h other

/-- The maps have the same names. -/
theorem contains_eq (h : b.Rel R b') (name : String) : b.contains name = b'.contains name := by
  have hname := h name
  rw [contains, contains]
  generalize b.get? name = x at hname
  generalize b'.get? name = y at hname
  cases hname <;> rfl

/-- The first entry of a name in a row of maps. -/
theorem findSome? {fs gs : List (Bindings α)} (h : List.Forall₂ (Bindings.Rel R) fs gs)
    (name : String) :
    Option.Rel R (fs.findSome? (·.get? name)) (gs.findSome? (·.get? name)) := by
  induction h with
  | nil => exact .none
  | @cons f g fs gs hf _ ih =>
    have hname := hf name
    rw [List.findSome?_cons, List.findSome?_cons]
    generalize f.get? name = x at hname ⊢
    generalize g.get? name = y at hname ⊢
    cases hname with
    | some hvw => exact .some hvw
    | none => exact ih

end Bindings.Rel

namespace Scope.Agree

variable {c : Channels} {s s' : Scope} {v w : Value}

theorem empty (c : Channels) : Scope.empty.Agree c Scope.empty :=
  ⟨.empty, .nil, .empty⟩

/-- A lookup finds agreeing values on both sides or nothing on either. -/
theorem lookup (h : s.Agree c s') (name : String) :
    Option.Rel (Value.Agree c) (s.lookup name) (s'.lookup name) :=
  Bindings.Rel.findSome? (.cons h.innermost h.outer) name

/-- A definition goes to the innermost frame on both sides. -/
theorem define (h : s.Agree c s') (name : String) (hvw : v.Agree c w) :
    (s.define name v).Agree c (s'.define name w) :=
  ⟨h.innermost.insert name hvw, h.outer, h.packages⟩

/-- A replacement hits frames at the same place, or none on either side. -/
theorem replaceIn {fs gs : List Frame} (h : List.Forall₂ (Bindings.Rel (Value.Agree c)) fs gs)
    (name : String) (hvw : v.Agree c w) :
    Option.Rel (List.Forall₂ (Bindings.Rel (Value.Agree c))) (Scope.replaceIn name v fs)
      (Scope.replaceIn name w gs) := by
  induction h with
  | nil => exact .none
  | @cons f g fs gs hf hfs ih =>
    rw [Scope.replaceIn, Scope.replaceIn, hf.contains_eq name]
    -- the frame has the name on both sides, or it is looked for further out on both
    split
    · exact .some (.cons (hf.insert name hvw) hfs)
    · generalize Scope.replaceIn name v fs = x at ih ⊢
      generalize Scope.replaceIn name w gs = y at ih ⊢
      cases ih with
      | none => exact .none
      | some hrest => exact .some (.cons hf hrest)

/-- A binding goes to the same frame on both sides, because the frames have the same names. -/
theorem bind (h : s.Agree c s') (name : String) (hvw : v.Agree c w) :
    (s.bind name v).Agree c (s'.bind name w) := by
  have houter := replaceIn h.outer name hvw
  rw [Scope.bind, Scope.bind, h.innermost.contains_eq name]
  split
  · exact h.define name hvw
  · generalize Scope.replaceIn name v s.outer = x at houter ⊢
    generalize Scope.replaceIn name w s'.outer = y at houter ⊢
    cases houter with
    | none => exact h.define name hvw
    | some hfs => exact ⟨h.innermost, hfs, h.packages⟩

end Scope.Agree

/-! ## 2. A single node

An assembly is met with agreeing operands in agreeing scopes. What it then does depends on how many
operands there are and on their types, and in these the two sides do not differ. -/

section
variable {c : Channels} [Numerics]

/-- Agreeing operands in agreeing scopes are put together to agreeing outcomes, and the scopes agree
afterwards. By the assembly: a missing operand is missing on both sides and gives the same failure,
a name is known to both scopes or to neither, and the rest are operators and functions. -/
theorem Assembly.run_agree (a : Assembly) {vs ws : List Value} {s s' : Scope}
    (hvs : List.Forall₂ (Value.Agree c) vs ws) (hs : s.Agree c s') :
    Outcome.Agree c (a.run vs s).1 (a.run ws s').1 ∧ (a.run vs s).2.Agree c (a.run ws s').2 := by
  cases a with
  | settled r => exact ⟨Outcome.Agree.refl c r, hs⟩
  | lookup name =>
    have hname := hs.lookup name
    simp only [run, Environment.lookup]
    -- known on both sides or on neither, and the failure states the name only
    generalize s.lookup name = x at hname ⊢
    generalize s'.lookup name = y at hname ⊢
    cases hname with
    | none => exact ⟨.error .failure, hs⟩
    | some hvw => exact ⟨.ok hvw, hs⟩
  | bind name =>
    cases hvs with
    | nil => exact ⟨.error .failure, hs⟩
    | cons hv _ => exact ⟨.ok hv, hs.bind name hv⟩
  | group =>
    cases hvs with
    | nil => exact ⟨.error .failure, hs⟩
    | cons hv _ => exact ⟨.ok hv, hs⟩
  | binary op =>
    cases hvs with
    | nil => exact ⟨.error .failure, hs⟩
    | cons hv hrest =>
      cases hrest with
      | nil => exact ⟨.error .failure, hs⟩
      | cons hw _ => exact ⟨Operation.binary_agree op hv hw, hs⟩
  | unary op =>
    cases hvs with
    | nil => exact ⟨.error .failure, hs⟩
    | cons hv _ => exact ⟨Operation.unary_agree op hv, hs⟩
  | call name => exact ⟨Intrinsic.call_agree name hvs, hs⟩
  | list => exact ⟨.ok (.list hvs), hs⟩
  | block =>
    have hlast := rel_getLast? hvs
    simp only [run]
    generalize vs.getLast? = x at hlast ⊢
    generalize ws.getLast? = y at hlast ⊢
    cases hlast with
    | none => exact ⟨.error .failure, hs⟩
    | some hv => exact ⟨.ok hv, hs⟩
  | ret =>
    cases hvs with
    | nil => exact ⟨.error (.returning .none), hs⟩
    | cons hv _ => exact ⟨.error (.returning (.some hv)), hs⟩

/-- One tree in two scopes that agree. -/
def channelLockstep (c : Channels) : Lockstep Scope Scope where
  tree := Eq
  value := Value.Agree c
  interrupt := Interrupt.Agree c
  env := Scope.Agree c

/-- The lockstep has its laws: the operands are those of one and the same node, and `run_agree` is
about putting them together. -/
theorem channelLockstep_lawful (c : Channels) : (channelLockstep c).Lawful where
  operands := by
    rintro t _ rfl
    exact List.forall₂_same.2 fun _ _ => rfl
  assemble := by
    rintro t _ vs ws s s' rfl hvs hs
    exact t.plan.assembly.run_agree hvs hs
  locate := by
    rintro t _ i j rfl hij
    exact hij.locate t.span
  tooDeep most := .failure

omit [Numerics] in
/-- The end of a request keeps agreement; what a script makes of a stray `break` is a failure that
holds no value. -/
theorem Request.finish_agree (q : Request) (t : Tree) {r r' : Outcome (List Value)}
    (h : ExceptRel (Interrupt.Agree c) (List.Forall₂ (Value.Agree c)) r r') :
    ExceptRel (Interrupt.Agree c) (Option.Rel (Value.Agree c)) (q.finish t r) (q.finish t r') := by
  have hlast := h.map fun _ _ => rel_getLast?
  cases q with
  | evaluate => exact hlast
  | evaluateBlock =>
    rw [finish, finish]
    split
    · exact hlast
    · exact .error .failure
  | run =>
    simp only [finish]
    generalize r.map List.getLast? = x at hlast ⊢
    generalize r'.map List.getLast? = y at hlast ⊢
    cases hlast with
    | ok hv => exact .ok hv
    | error hi =>
      -- a `return` gives its value, and the other interrupts hold none
      cases hi with
      | failure => exact .error .failure
      | returning hv => exact .ok hv
      | breaking => exact .error .failure
      | continuing => exact .error .failure

end

/-! ## 3. Whole evaluations -/

/-- Nothing that is not looked at has an influence on what is: from scopes that agree on the
channels `c`, every request gives outcomes of one form, with the same failures and with values that
agree on `c`, and leaves scopes that agree on `c`. This is so for every numerics, every tree and
every depth limit. -/
theorem answer_agree [Numerics] (c : Channels) (q : Request) (t : Tree) (ev : Evaluator)
    {s s' : Scope} (h : s.Agree c s') :
    ExceptRel (Interrupt.Agree c) (Option.Rel (Value.Agree c)) (q.answer t (ev, s)).1
        (q.answer t (ev, s')).1 ∧
      (q.answer t (ev, s)).2.2.Agree c (q.answer t (ev, s')).2.2 :=
  Lockstep.answer_lockstep (channelLockstep_lawful c) q ev (List.forall₂_same.2 fun _ _ => rfl)
    (fun _ _ hr => q.finish_agree t hr) h

/-- A script in two scopes that differ in the standard error of a number in a list and in a text:
what it gives and what it leaves behind has the same reading errors. -/
theorem answer_agree_of_standard_error :
    let note : String → Scope := fun text => Scope.empty.define "note" (.text text)
    let s := (note "a").define "xs" (.list [.number ⟨.one, .one, 0⟩])
    let s' := (note "b").define "xs" (.list [.number ⟨.one, .one, .one⟩])
    let script := Tree.block [.assign "mean" (.call "avg" [.name "xs"]), .name "note"]
    s.Agree ⟨true, false⟩ s' ∧
      ExceptRel (Interrupt.Agree ⟨true, false⟩) (Option.Rel (Value.Agree ⟨true, false⟩))
        (Request.run.answer script (.new, s)).1 (Request.run.answer script (.new, s')).1 ∧
      (Request.run.answer script (.new, s)).2.2.Agree ⟨true, false⟩
        (Request.run.answer script (.new, s')).2.2 := by
  intro note s s' script
  have h : s.Agree ⟨true, false⟩ s' := by
    refine ((Scope.Agree.empty _).define "note" .text).define "xs" (.list (.cons ?_ .nil))
    exact .number ⟨rfl, fun _ => rfl, fun hc => nomatch hc⟩
  exact ⟨h, answer_agree ⟨true, false⟩ .run script .new h⟩

end Metrology
