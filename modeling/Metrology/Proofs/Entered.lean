/-
What the machine enters.

`Visit.Reaches` speaks of the recursion, and the machine is what runs. `Machine.visits` is the list
of the nodes that the machine enters on its way, each with the counter and the environment of the
moment. `mem_visits_start` says that these are the visits that the recursion comes to, so that
statements about reached visits are statements about the nodes that were in fact evaluated.

An interrupt is best seen from here. The machine that delivers one does nothing but drop what waits
for a value, node after node: `visits_of_error` says that no node is entered any more, whatever is
waiting, and `run_of_error` that the environment stays as it is.
-/
import Metrology.Proofs.Reach
set_option autoImplicit false

namespace Metrology

namespace Machine

variable [Numerics] {σ : Type} [Environment σ]

/-! ## 1. Entered nodes

A node is entered where its evaluation begins, which is a call of `evaluate`; a node past the limit
is entered too, and refused there (`eval_nested`). -/

/-- The visit that a machine is about to begin, if it is about to enter a node. -/
def entering? (m : Machine σ) : Option (Visit σ) :=
  match m.focus with
  | .enter t => some ⟨m.depth, t, m.env⟩
  | _ => none

/-- The visits of all steps to come, in order. -/
def visits (m : Machine σ) : List (Visit σ) :=
  match _h : m.next with
  | .inl _ => m.entering?.toList
  | .inr n => m.entering?.toList ++ visits n
termination_by m.work
decreasing_by exact work_next _h

/-- A machine with a next state enters what it is about to enter, and then what that state
enters. -/
theorem visits_of_next_inr {m n : Machine σ} (h : m.next = .inr n) :
    m.visits = m.entering?.toList ++ n.visits := by
  rw [visits]
  split
  · simp_all
  · simp_all

/-- A machine that is done enters nothing after what it is about to enter. -/
theorem visits_of_next_inl {m : Machine σ} {r : Outcome Value} (h : m.next = .inl r) :
    m.visits = m.entering?.toList := by
  rw [visits]
  split
  · simp_all
  · simp_all

/-! ## 2. After an interrupt

The error path of the program is a chain of early returns. In the machine it is the stack being
emptied, and what happens on the way is that spans are given. -/

/-- An interrupt as it leaves a stack: each node that waited may have given it a place. -/
def unwound (stack : List Begun) (a : Interrupt) : Interrupt :=
  stack.foldl (fun i b => i.locate b.span) a

/-- A machine that delivers an interrupt enters nothing any more. -/
theorem visits_of_error (limit : Option Nat) (depth : Nat) (stack : List Begun) (a : Interrupt)
    (env : σ) : visits (delivering limit depth stack (.error a, env)) = [] := by
  induction stack generalizing depth a with
  | nil => rw [visits_of_next_inl (r := .error a) rfl]; rfl
  | cons b stack ih =>
    rw [visits_of_next_inr (n := delivering limit (depth - 1) stack (.error (a.locate b.span), env))
      rfl, ih]
    rfl

/-- It hands the interrupt out through all that waits, with the environment as it is. -/
theorem run_of_error (limit : Option Nat) (depth : Nat) (stack : List Begun) (a : Interrupt)
    (env : σ) :
    (run (delivering limit depth stack (.error a, env))).1 = .error (unwound stack a) ∧
      (run (delivering limit depth stack (.error a, env))).2.env = env := by
  induction stack generalizing depth a with
  | nil =>
    rw [run_of_next_inl (r := .error a) rfl]
    exact ⟨rfl, rfl⟩
  | cons b stack ih =>
    rw [run_of_next_inr (n := delivering limit (depth - 1) stack (.error (a.locate b.span), env))
      rfl]
    exact ih (depth - 1) (a.locate b.span)

/-! ## 3. Entered and reached

The induction is on the tree, and for one node on the operands that it has left. -/

section
variable {limit : Option Nat} {w : Visit σ}

/-- Going on with a begun node enters what its remaining operands come to, if entering each of them
does. -/
theorem mem_visits_resume (depth : Nat) (stack : List Begun) (span : Option Span)
    (assembly : Assembly) (rest : List Tree)
    (operands : ∀ u ∈ rest, ∀ (stack : List Begun) (env : σ),
      w ∈ visits ⟨limit, depth + 1, stack, .enter u, env⟩ ↔
        (Visit.mk (depth + 1) u env).Reaches limit w ∨
          w ∈ visits (delivering limit (depth + 1) stack (evaluate limit (depth + 1) u env)))
    (values : List Value) (env : σ) :
    w ∈ visits ⟨limit, depth + 1, stack, .resume ⟨span, assembly, values, rest⟩, env⟩ ↔
      RowReaches limit (depth + 1) rest env w ∨
        w ∈ visits (delivering limit depth stack
          (conclude span assembly
            (match inOrder (evaluate limit (depth + 1)) rest env with
              | (.error i, env) => (.error i, env)
              | (.ok more, env) => (.ok (values.reverse ++ more), env)))) := by
  induction rest generalizing values env with
  | nil =>
    rw [visits_of_next_inr (n := delivering limit depth stack
      (conclude span assembly (.ok values.reverse, env))) rfl]
    simp [entering?, not_rowReaches_nil]
  | cons u rest ih =>
    have hrest : ∀ t ∈ rest, ∀ (stack : List Begun) (env : σ),
        w ∈ visits ⟨limit, depth + 1, stack, .enter t, env⟩ ↔
          (Visit.mk (depth + 1) t env).Reaches limit w ∨
            w ∈ visits (delivering limit (depth + 1) stack (evaluate limit (depth + 1) t env)) :=
      fun t ht => operands t (List.mem_cons_of_mem u ht)
    rw [visits_of_next_inr (n := ⟨limit, depth + 1, ⟨span, assembly, values, rest⟩ :: stack,
        .enter u, env⟩) rfl]
    simp only [entering?, Option.toList_none, List.nil_append]
    rw [operands u List.mem_cons_self]
    rcases hu : evaluate limit (depth + 1) u env with ⟨i | v, env'⟩
    · -- nothing is entered after an interrupt, here and in the row
      rw [rowReaches_cons_of_error hu, inOrder_cons_error hu]
      simp only [conclude]
      rw [visits_of_error, visits_of_error]
    · -- the value joins those of the begun node, and the rest of the row is gone on with
      rw [rowReaches_cons_of_ok hu, inOrder_cons_ok hu, visits_of_next_inr
        (n := ⟨limit, depth + 1, stack, .resume ⟨span, assembly, v :: values, rest⟩, env'⟩) rfl]
      simp only [delivering, entering?, Option.toList_none, List.nil_append]
      rw [ih hrest (v :: values) env', or_assoc]
      rcases inOrder (evaluate limit (depth + 1)) rest env' with ⟨i | vs, env''⟩
      · rfl
      · simp [delivering, Except.map]

/-- Entering a tree enters what its visit comes to, and then whatever its outcome leads to. -/
theorem mem_visits_enter (t : Tree) : ∀ (depth : Nat) (stack : List Begun) (env : σ),
    w ∈ visits ⟨limit, depth, stack, .enter t, env⟩ ↔
      (Visit.mk depth t env).Reaches limit w ∨
        w ∈ visits (delivering limit depth stack (evaluate limit depth t env)) := by
  induction t using Tree.induction with
  | node t ih =>
    intro depth stack env
    rw [evaluate_eq]
    rcases hpast : pastLimit limit depth with _ | most
    · rw [visits_of_next_inr (n := ⟨limit, depth + 1, stack,
          .resume ⟨t.span, t.plan.assembly, [], t.plan.operands⟩, env⟩) (by simp [next, hpast]),
        List.mem_append, mem_visits_resume depth stack t.span t.plan.assembly t.plan.operands
          (fun u hu stack env => ih u (Tree.mem_nodes_of_mem_operands hu) (depth + 1) stack env),
        Visit.reaches_iff_of_within hpast, or_assoc]
      -- the first step enters the node itself
      have hself : w ∈ (entering? (⟨limit, depth, stack, .enter t, env⟩ : Machine σ)).toList ↔
          w = ⟨depth, t, env⟩ := List.mem_singleton
      rw [hself]
      rcases inOrder (evaluate limit (depth + 1)) t.plan.operands env with ⟨i | vs, env'⟩
      · rfl
      · simp
    · rw [visits_of_next_inr (n := delivering limit depth stack
          ((Outcome.fail (.depthExceeded most)).locate t.span, env))
          (by simp [next, hpast, delivering]),
        List.mem_append, Visit.reaches_iff_of_past hpast]
      exact or_congr_left List.mem_singleton

/-- A machine started on a tree enters just the visits that the tree's comes to. -/
theorem mem_visits_start (depth : Nat) (t : Tree) (env : σ) :
    w ∈ visits ⟨limit, depth, [], .enter t, env⟩ ↔ (Visit.mk depth t env).Reaches limit w := by
  rw [mem_visits_enter, visits_of_next_inl rfl]
  simp [delivering, entering?]

end

end Machine

/-! ## 4. Requests

The first level of a request is a row of machines, one for each statement. -/

section
variable [Numerics] {σ : Type} [Environment σ]

/-- The visits of a row of statements: those of the first, and if it has a value those of the
others. -/
def Evaluator.visits (ev : Evaluator) : List Tree → σ → List (Visit σ)
  | [], _ => []
  | t :: ts, env =>
    Machine.visits ⟨ev.maxDepth, ev.depth, [], .enter t, env⟩ ++
      match execute t (ev, env) with
      | (.ok _, (ev, env)) => visits ev ts env
      | (.error _, _) => []

/-- The visits that a request makes, in order. -/
def Request.visits (q : Request) (t : Tree) (ev : Evaluator) (env : σ) : List (Visit σ) :=
  ev.visits (q.roots t) env

/-- A row of statements enters what it comes to, in the sense of the recursion. -/
theorem Evaluator.mem_visits (ev : Evaluator) (ts : List Tree) (env : σ) (w : Visit σ) :
    w ∈ ev.visits ts env ↔ RowReaches ev.maxDepth ev.depth ts env w := by
  induction ts generalizing env with
  | nil => exact iff_of_false List.not_mem_nil not_rowReaches_nil
  | cons t ts ih =>
    rw [visits, List.mem_append, Machine.mem_visits_start, execute, evaluate_eq]
    rcases ht : Metrology.evaluate ev.maxDepth ev.depth t env with ⟨i | v, env'⟩
    · rw [rowReaches_cons_of_error ht]
      exact or_iff_left List.not_mem_nil
    · rw [rowReaches_cons_of_ok ht, ← ih env']

/-- The visits that a request makes are those that it comes to. -/
theorem Request.mem_visits (q : Request) (t : Tree) (ev : Evaluator) (env : σ) (w : Visit σ) :
    w ∈ q.visits t ev env ↔ q.Reaches t ev env w :=
  ev.mem_visits (q.roots t) env w

/-- A tree of leaves is visited itself, and then its leaves. -/
theorem Request.visits_of_leaves {t : Tree} (hleaves : ∀ u ∈ t.nodes, u.nodes = [])
    {ev : Evaluator} {env : σ} {w : Visit σ} (hw : w ∈ Request.evaluate.visits t ev env) :
    w = ⟨ev.depth, t, env⟩ ∨ w.node ∈ t.nodes := by
  obtain ⟨i, v, hturn, hreach⟩ := (Request.mem_visits _ t ev env w).1 hw
  rcases hturn with _ | ⟨-, hlater⟩
  · rcases Visit.reaches_cases hreach with rfl | ⟨j, u, hu, huw⟩
    · exact .inl rfl
    · have hleaf : u.node ∈ t.nodes := hu.mem_nodes
      rcases Visit.reaches_cases huw with rfl | ⟨k, z, hz, -⟩
      · exact .inr hleaf
      · have hmem := hz.mem_nodes
        rw [hleaves u.node hleaf] at hmem
        exact absurd hmem List.not_mem_nil
  · cases hlater

end

end Metrology
