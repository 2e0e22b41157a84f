/-
The nodes that an evaluation comes to.

A visit is the evaluation of one node: the node, the number of nodes around it that are being
evaluated, and the environment it starts from. An evaluation of a node goes through its operands;
the turn of an operand comes only if all operands before it have values, and it starts from the
environment that the last of them leaves. `Turn` says this of a row of trees, `Visit.Evaluates` of
the operands of a node, and `Visit.Reaches` is any number of such steps down.

So "this node was evaluated, from this environment" is a statement about two visits, and "nothing
after it was" is one about turns. The facts here tie the outcome of a row to the outcomes of its
turns; what is said of whole evaluations is then proved by `Visit.induction`, from the operands of a
visit to the visit.
-/
import Metrology.Proofs.Request
import Mathlib.Logic.Relation
set_option autoImplicit false

namespace Metrology

/-! ## 1. Visits and turns

A visit is one call of `evaluate` and a turn is its place among the children that the node around it
evaluates. Neither is part of the program: they are read off the run, so that statements about nodes
that are or are not evaluated have something to quantify over. -/

/-- The evaluation of a node, inside `depth` others, from an environment. -/
structure Visit (σ : Type) where
  depth : Nat
  node : Tree
  env : σ

/-- The level of a visit; a node with nothing around it is at the first one. -/
def Visit.level {σ : Type} (v : Visit σ) : Nat := v.depth + 1

variable [Numerics] {σ : Type} [Environment σ]

/-- What comes out of a visit. -/
def Visit.result (limit : Option Nat) (v : Visit σ) : Outcome Value × σ :=
  evaluate limit v.depth v.node v.env

/-- In a row of trees evaluated in order, the turn of the `i`-th comes, as the given visit. -/
inductive Turn (limit : Option Nat) (depth : Nat) : List Tree → σ → Nat → Visit σ → Prop
  | first {t : Tree} {ts : List Tree} {env : σ} : Turn limit depth (t :: ts) env 0 ⟨depth, t, env⟩
  | later {t : Tree} {ts : List Tree} {env env' : σ} {v : Value} {i : Nat} {w : Visit σ} :
      evaluate limit depth t env = (.ok v, env') → Turn limit depth ts env' i w →
      Turn limit depth (t :: ts) env (i + 1) w

namespace Visit

/-- A visit within the limit comes to the turn of its `i`-th operand. -/
def Evaluates (limit : Option Nat) (v : Visit σ) (i : Nat) (w : Visit σ) : Prop :=
  pastLimit limit v.depth = none ∧
    Turn limit (v.depth + 1) v.node.plan.operands v.env i w

/-- A visit comes to another one, in any number of steps down. -/
def Reaches (limit : Option Nat) : Visit σ → Visit σ → Prop :=
  Relation.ReflTransGen fun v w => ∃ i, v.Evaluates limit i w

end Visit

/-! ## 2. Rows

A row of operands ends at its first interrupt, and up to there each turn starts from what the one
before it leaves. A turn is thereby determined by its place. -/

namespace Turn

variable {limit : Option Nat} {depth : Nat} {ts : List Tree} {env : σ} {i j : Nat} {v w : Visit σ}

theorem depth_eq (h : Turn limit depth ts env i w) : w.depth = depth := by
  induction h with
  | first => rfl
  | later _ _ ih => exact ih

/-- The turn at a place is that of the tree there. -/
theorem getElem? (h : Turn limit depth ts env i w) : ts[i]? = some w.node := by
  induction h with
  | first => rfl
  | later _ _ ih => exact ih

theorem mem (h : Turn limit depth ts env i w) : w.node ∈ ts := List.mem_of_getElem? h.getElem?

/-- At each place of a row there is at most one turn. -/
theorem unique (hv : Turn limit depth ts env i v) (hw : Turn limit depth ts env i w) : v = w := by
  induction hv with
  | first =>
    cases hw
    rfl
  | later hok _ ih =>
    cases hw with
    | later hok' hw =>
      rw [hok] at hok'
      cases hok'
      exact ih hw

/-- Nothing has its turn after an interrupted tree. -/
theorem le_of_error (hv : Turn limit depth ts env i v) {a : Interrupt} {e : σ}
    (herr : v.result limit = (.error a, e)) (hw : Turn limit depth ts env j w) : j ≤ i := by
  induction hv generalizing j with
  | first =>
    cases hw with
    | first => exact Nat.le_refl _
    | later hok _ =>
      rw [Visit.result, hok] at herr
      cases herr
  | later hok _ ih =>
    cases hw with
    | first => exact Nat.zero_le _
    | later hok' hw =>
      rw [hok] at hok'
      cases hok'
      exact Nat.succ_le_succ (ih herr hw)

end Turn

section
variable {limit : Option Nat} {depth : Nat} {ts : List Tree} {env e : σ}

/-- A row is interrupted exactly by the tree whose turn ends in that, and then ends where it
ends. -/
theorem inOrder_eq_error_iff {a : Interrupt} :
    inOrder (evaluate limit depth) ts env = (.error a, e) ↔
      ∃ i w, Turn limit depth ts env i w ∧ w.result limit = (.error a, e) := by
  induction ts generalizing env with
  | nil =>
    constructor
    · intro h
      cases h
    · rintro ⟨i, w, hw, -⟩
      cases hw
  | cons t ts ih =>
    rcases ht : evaluate limit depth t env with ⟨b | v, env'⟩
    · rw [inOrder_cons_error ht]
      constructor
      · -- the first member ends the row, and no later one has a turn
        intro h
        cases h
        exact ⟨0, _, .first, ht⟩
      · rintro ⟨i, w, hw, herr⟩
        rcases hw with _ | ⟨hok, -⟩
        · rw [Visit.result, ht] at herr
          cases herr
          rfl
        · rw [ht] at hok
          cases hok
    · -- the first member has a value, so it is not the one
      have hrest : (∃ i w, Turn limit depth (t :: ts) env i w ∧ w.result limit = (.error a, e)) ↔
          ∃ i w, Turn limit depth ts env' i w ∧ w.result limit = (.error a, e) := by
        constructor
        · rintro ⟨i, w, hw, herr⟩
          rcases hw with _ | ⟨hok, hlater⟩
          · rw [Visit.result, ht] at herr
            cases herr
          · rw [ht] at hok
            cases hok
            exact ⟨_, w, hlater, herr⟩
        · rintro ⟨i, w, hw, herr⟩
          exact ⟨i + 1, w, .later ht hw, herr⟩
      rw [hrest, ← ih, inOrder_cons_ok ht, Prod.ext_iff, Prod.ext_iff]
      simp only [Outcome.map_eq_error]

/-- In a row with values every turn has the value at its place. -/
theorem Turn.result_of_inOrder {i : Nat} {w : Visit σ} (hw : Turn limit depth ts env i w)
    {vs : List Value} (h : inOrder (evaluate limit depth) ts env = (.ok vs, e)) :
    ∃ v e', w.result limit = (.ok v, e') ∧ vs[i]? = some v := by
  induction hw generalizing vs with
  | @first t ts env =>
    rcases ht : evaluate limit depth t env with ⟨b | v, env'⟩
    · rw [inOrder_cons_error ht] at h
      cases h
    · rw [inOrder_cons_ok ht] at h
      obtain ⟨us, -, rfl⟩ := Outcome.map_eq_ok.1 (Prod.mk.inj h).1
      exact ⟨v, env', ht, rfl⟩
  | later hok _ ih =>
    rw [inOrder_cons_ok hok] at h
    obtain ⟨hvalues, henv⟩ := Prod.mk.inj h
    -- the rest of the row has values too, one place further on
    obtain ⟨us, hus, rfl⟩ := Outcome.map_eq_ok.1 hvalues
    exact ih (Prod.ext hus henv)

end

/-! ## 3. Visits

Steps down go to child nodes, so that an induction over visits is an induction on the tree. -/

namespace Visit

variable {limit : Option Nat} {v w : Visit σ} {i : Nat}

theorem Evaluates.mem_nodes (h : v.Evaluates limit i w) : w.node ∈ v.node.nodes :=
  Tree.mem_nodes_of_mem_operands h.2.mem

theorem Evaluates.depth_eq (h : v.Evaluates limit i w) : w.depth = v.depth + 1 := h.2.depth_eq

/-- Induction over visits: from the operands that a visit comes to to the visit. -/
theorem induction (σ : Type) [Environment σ] (limit : Option Nat) {motive : Visit σ → Prop}
    (visit : ∀ v : Visit σ, (∀ i w, v.Evaluates limit i w → motive w) → motive v) (v : Visit σ) :
    motive v := by
  obtain ⟨depth, t, env⟩ := v
  induction t using Tree.induction generalizing depth env with
  | node t ih =>
    refine visit _ ?_
    rintro i ⟨depth', u, env'⟩ hw
    exact ih u hw.mem_nodes depth' env'

theorem Reaches.refl (v : Visit σ) : v.Reaches limit v := Relation.ReflTransGen.refl

/-- What an operand reaches, the node around it reaches. -/
theorem Evaluates.reaches {u : Visit σ} (h : v.Evaluates limit i w) (hu : w.Reaches limit u) :
    v.Reaches limit u :=
  Relation.ReflTransGen.head ⟨i, h⟩ hu

/-- What is reached is the visit itself or is reached from one of its operands. -/
theorem reaches_cases (h : v.Reaches limit w) :
    w = v ∨ ∃ i u, v.Evaluates limit i u ∧ u.Reaches limit w := by
  rcases Relation.ReflTransGen.cases_head h with h | ⟨u, ⟨i, hu⟩, huw⟩
  · exact .inl h.symm
  · exact .inr ⟨i, u, hu, huw⟩

/-- A visit past the limit fails at once. -/
theorem result_of_past {most : Nat} (h : pastLimit limit v.depth = some most) :
    v.result limit = ((Outcome.fail (.depthExceeded most)).locate v.node.span, v.env) := by
  rw [result, evaluate_eq, h]

/-- A visit within the limit is its operands in order and their assembly. -/
theorem result_of_within (h : pastLimit limit v.depth = none) :
    v.result limit = conclude v.node.span v.node.plan.assembly
      (inOrder (evaluate limit (v.depth + 1)) v.node.plan.operands v.env) := by
  rw [result, evaluate_eq, h]

end Visit

/-! ## 4. Reached from a row

What a request comes to is told by its first level: the roots, and what each of them reaches. A row
is followed from the front, where its first member has a value or ends it. -/

/-- A row of trees comes to a visit: to the turn of one of its members, or from there. -/
def RowReaches (limit : Option Nat) (depth : Nat) (ts : List Tree) (env : σ) (w : Visit σ) : Prop :=
  ∃ i v, Turn limit depth ts env i v ∧ v.Reaches limit w

/-- A request comes to what its first level comes to. -/
def Request.Reaches (q : Request) (t : Tree) (ev : Evaluator) (env : σ) (w : Visit σ) : Prop :=
  RowReaches ev.maxDepth ev.depth (q.roots t) env w

section
variable {limit : Option Nat} {depth : Nat} {t : Tree} {ts : List Tree} {env env' : σ} {w : Visit σ}

theorem not_rowReaches_nil : ¬ RowReaches limit depth [] env w := by
  rintro ⟨i, v, hv, -⟩
  cases hv

/-- Behind a member with a value the row goes on. -/
theorem rowReaches_cons_of_ok {v : Value} (h : evaluate limit depth t env = (.ok v, env')) :
    RowReaches limit depth (t :: ts) env w ↔
      (Visit.mk depth t env).Reaches limit w ∨ RowReaches limit depth ts env' w := by
  constructor
  · rintro ⟨i, u, hturn, hu⟩
    -- the first turn is that of the member, all others are those of the row behind it
    rcases hturn with _ | ⟨hok, hlater⟩
    · exact .inl hu
    · rw [h] at hok
      cases hok
      exact .inr ⟨_, u, hlater, hu⟩
  · rintro (hfirst | ⟨i, u, hturn, hu⟩)
    · exact ⟨0, _, .first, hfirst⟩
    · exact ⟨i + 1, u, .later h hturn, hu⟩

/-- Behind an interrupted member nothing is reached. -/
theorem rowReaches_cons_of_error {a : Interrupt}
    (h : evaluate limit depth t env = (.error a, env')) :
    RowReaches limit depth (t :: ts) env w ↔ (Visit.mk depth t env).Reaches limit w := by
  constructor
  · rintro ⟨i, u, hturn, hu⟩
    rcases hturn with _ | ⟨hok, -⟩
    · exact hu
    · rw [h] at hok
      cases hok
  · intro hfirst
    exact ⟨0, _, .first, hfirst⟩

/-- What a visit within the limit comes to is itself and what its operands come to. -/
theorem Visit.reaches_iff_of_within {v : Visit σ} (h : pastLimit limit v.depth = none) :
    v.Reaches limit w ↔
      w = v ∨ RowReaches limit (v.depth + 1) v.node.plan.operands v.env w := by
  constructor
  · intro hw
    rcases reaches_cases hw with rfl | ⟨i, u, hu, huw⟩
    · exact .inl rfl
    · exact .inr ⟨i, u, hu.2, huw⟩
  · rintro (rfl | ⟨i, u, hturn, hu⟩)
    · exact .refl w
    · exact Evaluates.reaches ⟨h, hturn⟩ hu

/-- A visit past the limit comes to nothing but itself. -/
theorem Visit.reaches_iff_of_past {v : Visit σ} {most : Nat}
    (h : pastLimit limit v.depth = some most) : v.Reaches limit w ↔ w = v := by
  constructor
  · intro hw
    rcases reaches_cases hw with rfl | ⟨i, u, hu, -⟩
    · rfl
    · have hnone := hu.1
      rw [h] at hnone
      cases hnone
  · rintro rfl
    exact .refl w

end

end Metrology
