/-
Evaluation in constant depth.

The machine does what `evaluate` does without nesting: the nodes whose evaluation has begun wait on
a stack, and each step enters a node, goes on with one, or hands an outcome to the node on top. So
the height of a tree costs room on the stack of the machine and none anywhere else. The depth is a
counter of its own, raised when a node is begun and lowered when it is left, by whichever exit.

The engine recurses on the host's stack, which it lets grow (`ensure_sufficient_stack`), around a
counter of the same kind (`depth`, in `eval_nested`). A begun node is what one such call has in
hand, and the stack of the machine is the row of calls that wait.

Main statement: `run_enter`. From the entry of a tree, on any stack, the machine comes to where it
hands out the outcome that `evaluate` gives, with the same environment and the counter as before.
-/
import Metrology.Evaluation.Semantics
import Metrology.Tree.Size
set_option autoImplicit false

namespace Metrology

/-! ## 1. The machine -/

/-- A node whose evaluation has begun (a call of `eval_nested` under way). -/
structure Begun where
  span : Option Span
  assembly : Assembly
  /-- The values of the operands so far, the latest first. -/
  values : List Value
  /-- The operands still to be evaluated. -/
  rest : List Tree

/-- What a step is about. -/
inductive Focus where
  /-- A node about to be entered. -/
  | enter (t : Tree)
  /-- A node with operands or its assembly to go on with. -/
  | resume (b : Begun)
  /-- An outcome for the node on top of the stack. -/
  | deliver (r : Outcome Value)

/-- The state between two steps. -/
structure Machine (σ : Type) where
  limit : Option Nat
  /-- The number of nodes whose evaluation has begun and not ended. -/
  depth : Nat
  /-- The nodes that wait for an operand, innermost first. -/
  stack : List Begun
  focus : Focus
  env : σ

namespace Machine

variable [Numerics] {σ : Type} [Environment σ]

/-- One step, or the outcome when nothing waits for it. Entering a node is the head of
`eval_nested`, resuming one is `eval_inner`, and delivering an outcome is the return into the call
that waits, with `?` for an interrupt. -/
def next (m : Machine σ) : Outcome Value ⊕ Machine σ :=
  match m.focus with
  | .enter t =>
    match pastLimit m.limit m.depth with
    | some most =>
      .inr { m with focus := .deliver ((Outcome.fail (.depthExceeded most)).locate t.span) }
    | none =>
      let plan := t.plan
      .inr { m with
        depth := m.depth + 1
        focus := .resume ⟨t.span, plan.assembly, [], plan.operands⟩ }
  | .resume b =>
    match b.rest with
    | u :: rest => .inr { m with stack := { b with rest := rest } :: m.stack, focus := .enter u }
    | [] =>
      let result := b.assembly.run b.values.reverse m.env
      .inr { m with
        depth := m.depth - 1
        focus := .deliver (result.1.locate b.span)
        env := result.2 }
  | .deliver r =>
    match m.stack, r with
    | [], r => .inl r
    | b :: stack, .ok v =>
      .inr { m with stack := stack, focus := .resume { b with values := v :: b.values } }
    | b :: stack, .error i =>
      .inr { m with
        depth := m.depth - 1, stack := stack, focus := .deliver (.error (i.locate b.span)) }

/-! ## 2. It ends

Steps still to come are at most four for each node not yet entered and a few for each one begun, and
every step uses some of them up. -/

/-- A bound on the steps of what a node has left. -/
def begunWork (b : Begun) : Nat := 4 * Tree.sizeAll b.rest

/-- A bound on the steps of a focus by itself. -/
def focusWork : Focus → Nat
  | .enter t => 4 * t.size
  | .resume b => begunWork b + 3
  | .deliver _ => 2

/-- A bound on the steps of what waits. -/
def stackWork : List Begun → Nat
  | [] => 0
  | b :: stack => begunWork b + 2 + stackWork stack

/-- A bound on the steps to come. -/
def work (m : Machine σ) : Nat := focusWork m.focus + stackWork m.stack

/-- Every step uses up some of the work to come. By the focus: beginning a node trades it for its
operands, an operand leaves the row it waited in, and a delivery empties the focus or the stack. -/
theorem work_next {m n : Machine σ} (h : m.next = .inr n) : n.work < m.work := by
  obtain ⟨limit, depth, stack, focus, env⟩ := m
  cases focus with
  | enter t =>
    -- beginning a node pays for it and leaves four steps for each node among its operands
    have hpos := t.size_pos
    simp only [next] at h
    cases hp : pastLimit limit depth with
    | some most =>
      simp only [hp, Sum.inr.injEq] at h
      subst h
      simp only [work, focusWork]
      omega
    | none =>
      simp only [hp, Sum.inr.injEq] at h
      subst h
      have hsize := Tree.sizeAll_le_of_sublist t.plan_operands_sublist
      have heq := t.size_eq
      simp only [work, focusWork, begunWork]
      omega
  | resume b =>
    -- an operand leaves the row of the begun node, and a node without a row is left
    obtain ⟨span, assembly, values, rest⟩ := b
    cases rest with
    | nil =>
      simp only [next, Sum.inr.injEq] at h
      subst h
      simp only [work, focusWork, begunWork]
      omega
    | cons u rest =>
      simp only [next, Sum.inr.injEq] at h
      subst h
      simp only [work, focusWork, begunWork, stackWork, Tree.sizeAll_cons]
      omega
  | deliver r =>
    -- an outcome wakes the node on top of the stack or drops it
    cases stack with
    | nil => simp [next] at h
    | cons b stack =>
      cases r with
      | ok v =>
        simp only [next, Sum.inr.injEq] at h
        subst h
        simp only [work, focusWork, begunWork, stackWork]
        omega
      | error i =>
        simp only [next, Sum.inr.injEq] at h
        subst h
        simp only [work, focusWork, begunWork, stackWork]
        omega

/-- All steps: the outcome, and the machine that handed it out (`evaluate`). -/
def run (m : Machine σ) : Outcome Value × Machine σ :=
  match _h : m.next with
  | .inl r => (r, m)
  | .inr n => run n
termination_by m.work
decreasing_by exact work_next _h

/-- A machine that takes a step ends where the next state ends. -/
theorem run_of_next_inr {m n : Machine σ} (h : m.next = .inr n) : m.run = n.run := by
  rw [run]
  split
  · simp_all
  · simp_all

/-- A machine with nothing waiting has ended. -/
theorem run_of_next_inl {m : Machine σ} {r : Outcome Value} (h : m.next = .inl r) :
    m.run = (r, m) := by
  rw [run]
  split
  · simp_all
  · simp_all

/-! ## 3. It evaluates -/

/-- Where the machine stands when `result` comes out of what it has been doing. -/
def delivering (limit : Option Nat) (depth : Nat) (stack : List Begun)
    (result : Outcome Value × σ) : Machine σ :=
  ⟨limit, depth, stack, .deliver result.1, result.2⟩

/-- A begun node comes to its conclusion, if the machine evaluates each of its operands: their
values join those it has. -/
theorem run_resume (limit : Option Nat) (depth : Nat) (stack : List Begun) (span : Option Span)
    (assembly : Assembly) (rest : List Tree)
    (operands : ∀ u ∈ rest, ∀ (stack : List Begun) (env : σ),
      run ⟨limit, depth + 1, stack, .enter u, env⟩ =
        run (delivering limit (depth + 1) stack (evaluate limit (depth + 1) u env)))
    (values : List Value) (env : σ) :
    run ⟨limit, depth + 1, stack, .resume ⟨span, assembly, values, rest⟩, env⟩ =
      run (delivering limit depth stack
        (conclude span assembly
          (match inOrder (evaluate limit (depth + 1)) rest env with
            | (.error i, env) => (.error i, env)
            | (.ok more, env) => (.ok (values.reverse ++ more), env)))) := by
  -- induction on the operands left; the values are generalized, since each operand adds to them
  induction rest generalizing values env with
  | nil =>
    rw [run_of_next_inr (n := delivering limit depth stack
      (conclude span assembly (.ok values.reverse, env))) rfl]
    simp
  | cons u rest ih =>
    have hrest : ∀ t ∈ rest, ∀ (stack : List Begun) (env : σ),
        run ⟨limit, depth + 1, stack, .enter t, env⟩ =
          run (delivering limit (depth + 1) stack (evaluate limit (depth + 1) t env)) :=
      fun t ht => operands t (List.mem_cons_of_mem u ht)
    rw [run_of_next_inr (n := ⟨limit, depth + 1, ⟨span, assembly, values, rest⟩ :: stack,
        .enter u, env⟩) rfl,
      operands u List.mem_cons_self, inOrder_cons]
    obtain ⟨r, env'⟩ := evaluate limit (depth + 1) u env
    -- an interrupted operand ends the node; a value joins the others and the rest is resumed
    cases r with
    | error i =>
      rw [run_of_next_inr (n := delivering limit depth stack (.error (i.locate span), env')) rfl]
      rfl
    | ok v =>
      rw [run_of_next_inr (n := ⟨limit, depth + 1, stack,
          .resume ⟨span, assembly, v :: values, rest⟩, env'⟩) rfl, ih hrest]
      rcases hr : inOrder (evaluate limit (depth + 1)) rest env' with ⟨r, env''⟩
      cases r <;> simp [hr]

/-- Entering a tree comes to handing out its outcome, on every stack. By induction on the tree: a
node past the limit takes one step, and any other one is begun and its operands are evaluated. -/
theorem run_enter (limit : Option Nat) (t : Tree) : ∀ (depth : Nat) (stack : List Begun) (env : σ),
    run ⟨limit, depth, stack, .enter t, env⟩ =
      run (delivering limit depth stack (evaluate limit depth t env)) := by
  induction t using Tree.induction with
  | node t ih =>
    intro depth stack env
    rw [evaluate_eq]
    cases hp : pastLimit limit depth with
    | some most =>
      rw [run_of_next_inr (n := delivering limit depth stack
        ((Outcome.fail (.depthExceeded most)).locate t.span, env)) (by simp [next, hp, delivering])]
    | none =>
      -- the counter stands one higher while the operands are evaluated, which is where the
      -- induction hypothesis is used
      rw [run_of_next_inr (n := ⟨limit, depth + 1, stack,
          .resume ⟨t.span, t.plan.assembly, [], t.plan.operands⟩, env⟩) (by simp [next, hp]),
        run_resume limit depth stack t.span t.plan.assembly t.plan.operands
          (fun u hu stack env => ih u (Tree.mem_nodes_of_mem_operands hu) (depth + 1) stack env)]
      obtain ⟨r, env'⟩ := inOrder (evaluate limit (depth + 1)) t.plan.operands env
      cases r <;> simp

/-- A machine started on a tree hands out the outcome of the tree and stops with the counter where
it was. -/
theorem run_start (limit : Option Nat) (depth : Nat) (t : Tree) (env : σ) :
    run ⟨limit, depth, [], .enter t, env⟩ =
      ((evaluate limit depth t env).1,
        delivering limit depth [] (evaluate limit depth t env)) := by
  rw [run_enter, run_of_next_inl rfl]

end Machine

end Metrology
