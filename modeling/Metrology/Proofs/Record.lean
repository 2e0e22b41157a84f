/-
What evaluation does to its environment.

Evaluation reaches an environment through its two requests alone. So a property of environments that
each request keeps is kept by whole evaluations (`Kept`), and a record of the requests changes
nothing: a traced environment gives the outcome and the inner environment that the plain one gives
(`answer_traced`). So what is proved of the record is true of every evaluation, recorded or not.

What a node asks for is decided by its assembly: one lookup, one binding, or nothing. Where it is
nothing the assembly does the same in every environment (`run_of_events_eq_nil`), so that statements
about requests have two cases to look at and not one for each way of putting values together.
-/
import Metrology.Evaluation.Scope
import Metrology.Proofs.Lockstep
set_option autoImplicit false

namespace Metrology

/-! ## 1. Requests of a node

Of all the ways of putting values together only `eval_ident` and `eval_assign` have the environment
at hand. The others compute a result from the values alone. -/

/-- A request as a tree foretells it: what it will be about, but not what comes of it. -/
inductive Event where
  | lookup (name : String)
  | bind (name : String)
  deriving DecidableEq

/-- The event that a request is. -/
def Access.event : Access → Event
  | lookup name _ => .lookup name
  | bind name _ => .bind name

namespace Assembly

/-- What an assembly asks for once it has its values. -/
def events : Assembly → List Event
  | lookup name => [.lookup name]
  | bind name => [.bind name]
  | _ => []

/-- An assembly is one lookup, one binding, or asks for nothing. All that is proved about requests
is proved in these three cases. -/
theorem events_cases (a : Assembly) :
    (∃ name, a = .lookup name) ∨ (∃ name, a = .bind name) ∨ a.events = [] := by
  cases a with
  | lookup name => exact .inl ⟨name, rfl⟩
  | bind name => exact .inr (.inl ⟨name, rfl⟩)
  | _ => exact .inr (.inr rfl)

/-- An assembly that asks for nothing is the same everywhere and leaves the environment alone. -/
theorem run_of_events_eq_nil [Numerics] {a : Assembly} (h : a.events = []) (vs : List Value) :
    ∃ r : Outcome Value, ∀ {σ : Type} [Environment σ] (s : σ), a.run vs s = (r, s) := by
  cases a with
  | lookup name => exact absurd h (List.cons_ne_nil _ _)
  | bind name => exact absurd h (List.cons_ne_nil _ _)
  | settled r => exact ⟨r, fun s => rfl⟩
  | group =>
    rcases vs with _ | ⟨v, _⟩
    · exact ⟨_, fun s => rfl⟩
    · exact ⟨_, fun s => rfl⟩
  | binary op =>
    rcases vs with _ | ⟨v, _ | ⟨w, _⟩⟩
    · exact ⟨_, fun s => rfl⟩
    · exact ⟨_, fun s => rfl⟩
    · exact ⟨_, fun s => rfl⟩
  | unary op =>
    rcases vs with _ | ⟨v, _⟩
    · exact ⟨_, fun s => rfl⟩
    · exact ⟨_, fun s => rfl⟩
  | call name => exact ⟨_, fun s => rfl⟩
  | list => exact ⟨_, fun s => rfl⟩
  | block =>
    rcases hlast : vs.getLast? with _ | v
    · exact ⟨_, fun s => by rw [run, hlast]⟩
    · exact ⟨_, fun s => by rw [run, hlast]⟩
  | ret => exact ⟨_, fun s => rfl⟩

end Assembly

/-! ## 2. What every request keeps

An invariant of environments is an invariant of evaluation as soon as the two requests keep it. The
induction on the tree is made once, in `Kept.evaluate`; `MovesOn` is the form in which it says
something about the environment before and the environment after. -/

section
variable [Numerics] {σ : Type} [Environment σ]

/-- A property of environments that neither a lookup nor a binding destroys. -/
structure Kept (P : σ → Prop) : Prop where
  lookup : ∀ (name : String) (s : σ), P s → P (Environment.lookup name s).2
  bind : ∀ (name : String) (v : Value) (s : σ), P s → P (Environment.bind name v s)

namespace Kept

variable {P : σ → Prop}

/-- Putting values together keeps the property: it makes one of the two requests or none. -/
theorem run (h : Kept P) (a : Assembly) (vs : List Value) (s : σ) (hs : P s) :
    P (a.run vs s).2 := by
  rcases a.events_cases with ⟨name, rfl⟩ | ⟨name, rfl⟩ | hnone
  · -- found or not, the environment that goes on is the one that answered
    have hkept := h.lookup name s hs
    simp only [Assembly.run]
    generalize Environment.lookup name s = answer at hkept ⊢
    obtain ⟨_ | v, s'⟩ := answer
    · exact hkept
    · exact hkept
  · rcases vs with _ | ⟨v, vs⟩
    · exact hs
    · exact h.bind name v s hs
  · -- nothing else makes a request
    obtain ⟨r, hrun⟩ := Assembly.run_of_events_eq_nil hnone vs
    rw [hrun s]
    exact hs

omit [Numerics] [Environment σ] in
/-- A row of steps keeps what every step of it keeps, also when the row ends early. -/
theorem inOrder {α β : Type} {step : α → σ → Outcome β × σ} {as : List α}
    (h : ∀ a ∈ as, ∀ s, P s → P (step a s).2) (s : σ) (hs : P s) :
    P (Metrology.inOrder step as s).2 := by
  induction as generalizing s with
  | nil => exact hs
  | cons a as ih =>
    have hfirst := h a List.mem_cons_self s hs
    rcases hstep : step a s with ⟨i | b, s₁⟩
    all_goals rw [hstep] at hfirst
    · rw [inOrder_cons_error hstep]
      exact hfirst
    · -- the rest of the row starts where the property still holds
      rw [inOrder_cons_ok hstep]
      exact ih (fun a' ha' => h a' (List.mem_cons_of_mem a ha')) s₁ hfirst

/-- Whole evaluations keep the property, by induction on the tree. -/
theorem evaluate (h : Kept P) (limit : Option Nat) (t : Tree) :
    ∀ (depth : Nat) (s : σ), P s → P (Metrology.evaluate limit depth t s).2 := by
  induction t using Tree.induction with
  | node t ih =>
    intro depth s hs
    rw [evaluate_eq]
    -- a node past the limit fails before it asks for anything
    cases pastLimit limit depth with
    | some most => exact hs
    | none =>
      have hoperands : ∀ u ∈ t.plan.operands, ∀ s', P s' →
          P (Metrology.evaluate limit (depth + 1) u s').2 :=
        fun u hu => ih u (Tree.mem_nodes_of_mem_operands hu) (depth + 1)
      have hrow := Kept.inOrder hoperands s hs
      simp only
      generalize Metrology.inOrder _ t.plan.operands s = row at hrow ⊢
      obtain ⟨r, s₁⟩ := row
      cases r with
      | error i => exact hrow
      | ok vs => exact h.run t.plan.assembly vs s₁ hrow

/-- Whole requests keep the property, whichever of the four entry points is used. -/
theorem answer (h : Kept P) (q : Request) (t : Tree) (ev : Evaluator) (s : σ) (hs : P s) :
    P (q.answer t (ev, s)).2.2 := by
  rw [Request.answer_eq]
  exact Kept.inOrder (fun u _ s' hs' => h.evaluate ev.maxDepth u ev.depth s' hs') s hs

end Kept

/-- An order of environments in which every request moves on. -/
structure MovesOn (le : σ → σ → Prop) : Prop where
  refl : ∀ s : σ, le s s
  trans : ∀ {s s₁ s₂ : σ}, le s s₁ → le s₁ s₂ → le s s₂
  kept : ∀ s : σ, Kept (le s)

namespace MovesOn

omit [Numerics] in
/-- The order in which all environments are alike, for statements that say nothing of the
environment. -/
theorem trivial : MovesOn fun _ _ : σ => True where
  refl _ := True.intro
  trans _ _ := True.intro
  kept _ := ⟨fun _ _ _ => True.intro, fun _ _ _ _ => True.intro⟩

variable {le : σ → σ → Prop}

theorem run (h : MovesOn le) (a : Assembly) (vs : List Value) (s : σ) : le s (a.run vs s).2 :=
  (h.kept s).run a vs s (h.refl s)

theorem evaluate (h : MovesOn le) (limit : Option Nat) (depth : Nat) (t : Tree) (s : σ) :
    le s (Metrology.evaluate limit depth t s).2 :=
  (h.kept s).evaluate limit t depth s (h.refl s)

theorem inOrder (h : MovesOn le) (limit : Option Nat) (depth : Nat) (ts : List Tree) (s : σ) :
    le s (Metrology.inOrder (Metrology.evaluate limit depth) ts s).2 :=
  Kept.inOrder (fun u _ s' hs' => (h.kept s).evaluate limit u depth s' hs') s (h.refl s)

end MovesOn

end

/-! ## 3. A record grows and changes nothing

The record is not part of the program: it is an environment that wraps another one. So what it shows
has to be shown to be what happens without it. -/

namespace Traced

variable {σ : Type}

@[simp] theorem accesses_start (s : σ) : (start s).accesses = [] := rfl

variable [Environment σ]

/-- A lookup puts one entry at the end of the record: the name, and whether it was found. -/
@[simp] theorem accesses_lookup (name : String) (s : Traced σ) :
    (Environment.lookup name s).2.accesses =
      s.accesses ++ [.lookup name (Environment.lookup name s.inner).1.isSome] := by
  simp [Environment.lookup, accesses]

/-- A binding puts one entry at the end of the record: the name and the value it was given. -/
@[simp] theorem accesses_bind (name : String) (v : Value) (s : Traced σ) :
    (Environment.bind name v s).accesses = s.accesses ++ [.bind name v] := by
  simp [Environment.bind, accesses]

/-- A record grows with every request. -/
theorem movesOn_accesses : MovesOn fun s s' : Traced σ => s.accesses <+: s'.accesses where
  refl s := List.prefix_refl _
  trans h h' := h.trans h'
  -- both requests add at the end, so what was a prefix stays one
  kept s :=
    { lookup := fun name s' h => by
        rw [accesses_lookup]
        exact h.trans (List.prefix_append _ _)
      bind := fun name v s' h => by
        rw [accesses_bind]
        exact h.trans (List.prefix_append _ _) }

end Traced

section
variable [Numerics] {σ : Type} [Environment σ]

/-- Putting values together makes the requests it makes without a record. -/
theorem Assembly.run_traced (a : Assembly) (vs : List Value) (s : Traced σ) :
    (a.run vs s).1 = (a.run vs s.inner).1 ∧ (a.run vs s).2.inner = (a.run vs s.inner).2 := by
  rcases a.events_cases with ⟨name, rfl⟩ | ⟨name, rfl⟩ | hnone
  · -- the inner environment answers, and the record keeps no more than that it did
    simp only [run, Environment.lookup]
    rcases Environment.lookup name s.inner with ⟨_ | v, inner⟩
    · exact ⟨rfl, rfl⟩
    · exact ⟨rfl, rfl⟩
  · rcases vs with _ | ⟨v, vs⟩
    · exact ⟨rfl, rfl⟩
    · exact ⟨rfl, rfl⟩
  · obtain ⟨r, hrun⟩ := run_of_events_eq_nil hnone vs
    rw [hrun s, hrun s.inner]
    exact ⟨rfl, rfl⟩

/-- One tree with and without a record. -/
def recordLockstep (σ : Type) : Lockstep (Traced σ) σ where
  tree := Eq
  value := Eq
  interrupt := Eq
  env s s' := s.inner = s'

/-- The record and the plain environment stay in lockstep, since a request is answered by the inner
environment in both. -/
theorem recordLockstep_lawful : (recordLockstep σ).Lawful where
  operands := by
    rintro t _ rfl
    exact List.forall₂_same.2 fun _ _ => rfl
  assemble := by
    rintro t _ vs ws s _ rfl hvs rfl
    obtain rfl : vs = ws := List.forall₂_eq_eq_eq ▸ hvs
    generalize t.plan.assembly = a
    obtain ⟨hout, henv⟩ := a.run_traced vs s
    exact ⟨hout ▸ ExceptRel.of_eq _, henv⟩
  locate := by
    rintro t _ i _ rfl rfl
    rfl
  tooDeep most := rfl

/-- A traced environment gives the answer and the inner environment of the plain one. -/
theorem answer_traced (q : Request) (t : Tree) (ev : Evaluator) (s : Traced σ) :
    (q.answer t (ev, s)).1 = (q.answer t (ev, s.inner)).1 ∧
      (q.answer t (ev, s)).2.2.inner = (q.answer t (ev, s.inner)).2.2 := by
  have hroots : List.Forall₂ (recordLockstep σ).tree (q.roots t) (q.roots t) :=
    List.forall₂_same.2 fun _ _ => rfl
  have henv : (recordLockstep σ).env s s.inner := rfl
  obtain ⟨hanswer, hinner⟩ := Lockstep.answer_lockstep recordLockstep_lawful q ev hroots
    (fun _ _ hr => q.finish_of_eq t hr) henv
  exact ⟨(hanswer.imp fun _ _ => optionRel_eq_iff.1).eq, hinner⟩

end

end Metrology
