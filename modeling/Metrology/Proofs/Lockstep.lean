/-
Two evaluations in lockstep.

Much of what is said about evaluation compares two runs: the same tree in two environments, or two
trees that differ in something that should not matter. All of these have one shape. Relations
between the parts of the two runs are given, one for trees, one for values, one for interrupts and
one for environments; each node of the one run is met by a node of the other, and what the two make
of related operands is related again. `Lockstep.Lawful` states this for a single node, and
`evaluate_lockstep` is what follows for whole runs, by induction on the tree.

So a comparison is a choice of four relations and one law about `Assembly.run`. Order, early exits
and depth are dealt with here and nowhere else.
-/
import Metrology.Proofs.Request
import Mathlib.Data.List.Forall2
set_option autoImplicit false

namespace Metrology

/-! ## 1. Related outcomes

Outcomes are related as a whole: both are values or both are interrupts. So a comparison never has
to deal with one run that stops and another that goes on. -/

/-- Both have a result, related by `R`, or both have none, for causes related by `E`. -/
inductive ExceptRel {ε ε' α α' : Type} (E : ε → ε' → Prop) (R : α → α' → Prop) :
    Except ε α → Except ε' α' → Prop
  | ok {a : α} {b : α'} : R a b → ExceptRel E R (.ok a) (.ok b)
  | error {e : ε} {f : ε'} : E e f → ExceptRel E R (.error e) (.error f)

namespace ExceptRel

variable {ε ε' α α' β β' : Type} {E : ε → ε' → Prop} {R : α → α' → Prop} {S : β → β' → Prop}

/-- A function of the results is applied on both sides. -/
theorem map {f : α → β} {g : α' → β'} {r : Except ε α} {r' : Except ε' α'}
    (h : ExceptRel E R r r') (hfg : ∀ a b, R a b → S (f a) (g b)) :
    ExceptRel E S (r.map f) (r'.map g) := by
  cases h with
  | ok h => exact .ok (hfg _ _ h)
  | error h => exact .error h

/-- A step that follows is taken on both sides, or on neither. -/
theorem bind {f : α → Except ε β} {g : α' → Except ε' β'} {r : Except ε α} {r' : Except ε' α'}
    (h : ExceptRel E R r r') (hfg : ∀ a b, R a b → ExceptRel E S (f a) (g b)) :
    ExceptRel E S (r >>= f) (r' >>= g) := by
  cases h with
  | ok h => exact hfg _ _ h
  | error h => exact .error h

/-- Results related by `R` are related by whatever follows from it. -/
theorem imp {S : α → α' → Prop} {r : Except ε α} {r' : Except ε' α'} (h : ExceptRel E R r r')
    (hRS : ∀ a b, R a b → S a b) : ExceptRel E S r r' := by
  cases h with
  | ok h => exact .ok (hRS _ _ h)
  | error h => exact .error h

theorem of_eq (r : Except ε α) : ExceptRel Eq Eq r r := by
  cases r with
  | ok a => exact .ok rfl
  | error e => exact .error rfl

theorem eq {r r' : Except ε α} (h : ExceptRel Eq Eq r r') : r = r' := by
  cases h with
  | ok h => rw [h]
  | error h => rw [h]

end ExceptRel

/-- The last items of rows that are related item by item. -/
theorem rel_getLast? {α β : Type} {R : α → β → Prop} {as : List α} {bs : List β}
    (h : List.Forall₂ R as bs) : Option.Rel R as.getLast? bs.getLast? := by
  induction h with
  | nil => exact .none
  | cons hab hrest ih =>
    cases hrest with
    | nil => exact .some hab
    | cons hcd hrest => simpa using ih

/-- Options related by equality are equal. -/
theorem optionRel_eq_iff {α : Type} {v w : Option α} : Option.Rel Eq v w ↔ v = w := by
  constructor
  · intro h
    cases h with
    | some h => rw [h]
    | none => rfl
  · rintro rfl
    cases v with
    | some a => exact .some rfl
    | none => exact .none

/-- A request makes the same of rows that are the same. -/
theorem Request.finish_of_eq (q : Request) (t : Tree) {r r' : Outcome (List Value)}
    (h : ExceptRel Eq (List.Forall₂ Eq) r r') :
    ExceptRel Eq (Option.Rel Eq) (q.finish t r) (q.finish t r') := by
  have hrow : r = r' := (h.imp fun vs ws hvs => List.forall₂_eq_eq_eq ▸ hvs).eq
  rw [hrow]
  exact (ExceptRel.of_eq _).imp fun _ _ => optionRel_eq_iff.2

/-! ## 2. Lockstep

The four relations are parameters. A comparison of values, of environments or of trees is an
instance that relates the other parts by equality. -/

/-- What is compared of two runs. -/
structure Lockstep (σ τ : Type) where
  tree : Tree → Tree → Prop
  value : Value → Value → Prop
  interrupt : Interrupt → Interrupt → Prop
  env : σ → τ → Prop

namespace Lockstep

variable {σ τ : Type}

/-- Related outcomes in related environments. -/
def Results (L : Lockstep σ τ) {α β : Type} (R : α → β → Prop) (r : Outcome α × σ)
    (r' : Outcome β × τ) : Prop :=
  ExceptRel L.interrupt R r.1 r'.1 ∧ L.env r.2 r'.2

/-- The relations are kept by a single node: related nodes have related operands, putting related
values of those together gives related results, and so does a place on the way out. -/
structure Lawful [Numerics] [Environment σ] [Environment τ] (L : Lockstep σ τ) : Prop where
  operands : ∀ {t u : Tree}, L.tree t u → List.Forall₂ L.tree t.plan.operands u.plan.operands
  assemble : ∀ {t u : Tree} {vs ws : List Value} {s : σ} {s' : τ}, L.tree t u →
    List.Forall₂ L.value vs ws → L.env s s' →
    L.Results L.value (t.plan.assembly.run vs s) (u.plan.assembly.run ws s')
  locate : ∀ {t u : Tree} {i j : Interrupt}, L.tree t u → L.interrupt i j →
    L.interrupt (i.locate t.span) (j.locate u.span)
  tooDeep : ∀ most : Nat, L.interrupt (.failure (.of (.depthExceeded most)))
    (.failure (.of (.depthExceeded most)))

variable {L : Lockstep σ τ}

/-- Rows whose steps keep the relations keep them as a whole: both stop at the same place. -/
theorem inOrder_lockstep {α α' β β' : Type} {S : β → β' → Prop}
    {step : α → σ → Outcome β × σ} {step' : α' → τ → Outcome β' × τ} {as : List α} {bs : List α'}
    (h : List.Forall₂ (fun a b => ∀ s s', L.env s s' → L.Results S (step a s) (step' b s')) as bs)
    {s : σ} {s' : τ} (hs : L.env s s') :
    L.Results (List.Forall₂ S) (inOrder step as s) (inOrder step' bs s') := by
  induction h generalizing s s' with
  | nil => exact ⟨.ok .nil, hs⟩
  | @cons a b as bs hab hrest ih =>
    obtain ⟨hr, hs₁⟩ := hab s s' hs
    rcases hstep : step a s with ⟨r, s₁⟩
    rcases hstep' : step' b s' with ⟨r', s₁'⟩
    rw [hstep, hstep'] at hr hs₁
    -- an interrupt ends both rows; a value in both lets both go on
    cases hr with
    | error hi =>
      rw [inOrder_cons_error hstep, inOrder_cons_error hstep']
      exact ⟨.error hi, hs₁⟩
    | ok hv =>
      obtain ⟨hrow, hs₂⟩ := ih hs₁
      rw [inOrder_cons_ok hstep, inOrder_cons_ok hstep']
      exact ⟨hrow.map fun _ _ hvs => .cons hv hvs, hs₂⟩

variable [Numerics] [Environment σ] [Environment τ]

/-- The end of a node: what its operands come to is put together on both sides, and an interrupt
gets the place of the node. -/
theorem conclude_lockstep (hL : L.Lawful) {t u : Tree} (ht : L.tree t u)
    {r : Outcome (List Value) × σ} {r' : Outcome (List Value) × τ}
    (h : L.Results (List.Forall₂ L.value) r r') :
    L.Results L.value (conclude t.span t.plan.assembly r) (conclude u.span u.plan.assembly r') := by
  obtain ⟨r, s⟩ := r
  obtain ⟨r', s'⟩ := r'
  obtain ⟨hr, hs⟩ := h
  cases hr with
  | error hi => exact ⟨.error (hL.locate ht hi), hs⟩
  | ok hvs =>
    obtain ⟨hout, henv⟩ := hL.assemble ht hvs hs
    refine ⟨?_, henv⟩
    simp only [conclude]
    generalize (t.plan.assembly.run _ s).1 = out at hout ⊢
    generalize (u.plan.assembly.run _ s').1 = out' at hout ⊢
    cases hout with
    | ok hv => exact .ok hv
    | error hi => exact .error (hL.locate ht hi)

/-- Whole evaluations run in lockstep. By induction on the first tree: its operands are met by those
of the second one, row by row, and the law of a single node does the rest. -/
theorem evaluate_lockstep (hL : L.Lawful) (limit : Option Nat) (t : Tree) :
    ∀ (u : Tree), L.tree t u → ∀ (depth : Nat) (s : σ) (s' : τ), L.env s s' →
      L.Results L.value (evaluate limit depth t s) (evaluate limit depth u s') := by
  induction t using Tree.induction with
  | node t ih =>
    intro u ht depth s s' hs
    rw [evaluate_eq, evaluate_eq]
    cases pastLimit limit depth with
    | some most => exact ⟨.error (hL.locate ht (hL.tooDeep most)), hs⟩
    | none =>
      refine conclude_lockstep hL ht (inOrder_lockstep ?_ hs)
      -- the induction is on the first tree, so its operands are kept to be nodes of it
      have hoperands : List.Forall₂ (fun v w => v ∈ t.plan.operands ∧ L.tree v w)
          t.plan.operands u.plan.operands :=
        (List.forall₂_and_left _ _).2 ⟨fun v hv => hv, hL.operands ht⟩
      refine hoperands.imp ?_
      rintro v w ⟨hv, hvw⟩ s₁ s₁' hs₁
      exact ih v (Tree.mem_nodes_of_mem_operands hv) w hvw (depth + 1) s₁ s₁' hs₁

/-- Requests run in lockstep where their first levels do and the ways they finish agree. -/
theorem answer_lockstep (hL : L.Lawful) (q : Request) {t u : Tree} (ev : Evaluator)
    (hroots : List.Forall₂ L.tree (q.roots t) (q.roots u))
    (hfinish : ∀ r r', ExceptRel L.interrupt (List.Forall₂ L.value) r r' →
      ExceptRel L.interrupt (Option.Rel L.value) (q.finish t r) (q.finish u r'))
    {s : σ} {s' : τ} (hs : L.env s s') :
    ExceptRel L.interrupt (Option.Rel L.value) (q.answer t (ev, s)).1 (q.answer u (ev, s')).1 ∧
      L.env (q.answer t (ev, s)).2.2 (q.answer u (ev, s')).2.2 := by
  rw [Request.answer_eq, Request.answer_eq]
  have hrow := inOrder_lockstep (S := L.value)
    (hroots.imp fun v w hvw => evaluate_lockstep hL ev.maxDepth v w hvw ev.depth) hs
  exact ⟨hfinish _ _ hrow.1, hrow.2⟩

end Lockstep

end Metrology
