/-
Evaluation, by recursion on the tree.

`evaluate limit depth t env` is the outcome of `t` when `depth` nodes around it are being evaluated,
together with the environment afterwards. A node past the limit fails before anything of it is
looked at. Otherwise its operands are evaluated in order, one level deeper, until one of them is
interrupted, and the plan's assembly does the rest. A failure on its way out takes the place of the
first node that has one.

The engine has the limit as a field of the evaluator and counts the depth there (`max_depth`,
`depth`); here both are arguments, so that an equation can speak of any depth.

This is what evaluation means. It nests as deep as the tree does; `Machine` computes the same in
constant depth.
-/
import Metrology.Evaluation.Plan
set_option autoImplicit false

namespace Metrology

/-! ## 1. In order -/

/-- Steps from left to right through a state, up to the first that is interrupted; the values if
none is. -/
def inOrder {α β σ : Type} (step : α → σ → Outcome β × σ) : List α → σ → Outcome (List β) × σ
  | [], s => (.ok [], s)
  | a :: as, s =>
    match step a s with
    | (.error i, s) => (.error i, s)
    | (.ok b, s) =>
      match inOrder step as s with
      | (.error i, s) => (.error i, s)
      | (.ok bs, s) => (.ok (b :: bs), s)

section
variable {α β σ : Type}

@[simp] theorem inOrder_nil (step : α → σ → Outcome β × σ) (s : σ) :
    inOrder step [] s = (.ok [], s) := rfl

/-- The first member is taken a step, and unless that is interrupted the rest of the row follows. -/
theorem inOrder_cons (step : α → σ → Outcome β × σ) (a : α) (as : List α) (s : σ) :
    inOrder step (a :: as) s =
      match step a s with
      | (.error i, s) => (.error i, s)
      | (.ok b, s) =>
        match inOrder step as s with
        | (.error i, s) => (.error i, s)
        | (.ok bs, s) => (.ok (b :: bs), s) := rfl

section
variable {step : α → σ → Outcome β × σ} {a : α} {s s' : σ}

/-- An interrupted first step ends the row. -/
theorem inOrder_cons_error {i : Interrupt} (h : step a s = (.error i, s')) (as : List α) :
    inOrder step (a :: as) s = (.error i, s') := by
  rw [inOrder_cons, h]

/-- A first step with a value leaves the outcome to the rest of the row. -/
theorem inOrder_cons_ok {b : β} (h : step a s = (.ok b, s')) (as : List α) :
    inOrder step (a :: as) s =
      ((inOrder step as s').1.map (b :: ·), (inOrder step as s').2) := by
  rw [inOrder_cons, h]
  simp only
  rcases inOrder step as s' with ⟨i | bs, s''⟩
  · rfl
  · rfl

end

/-- A row of one is its one step. -/
theorem inOrder_singleton (step : α → σ → Outcome β × σ) (a : α) (s : σ) :
    inOrder step [a] s = ((step a s).1.map fun b => [b], (step a s).2) := by
  rw [inOrder_cons]
  rcases step a s with ⟨r, s'⟩
  cases r <;> rfl

/-- A row that is not interrupted has as many values as members. -/
theorem length_of_inOrder {step : α → σ → Outcome β × σ} {as : List α} {s s' : σ} {bs : List β}
    (h : inOrder step as s = (.ok bs, s')) : bs.length = as.length := by
  -- each step that yields a value adds one to those of the rest
  induction as generalizing s bs with
  | nil =>
    cases h
    rfl
  | cons a as ih =>
    rw [inOrder_cons] at h
    split at h
    · cases h
    · split at h
      · cases h
      · rename_i hrest
        cases h
        rw [List.length_cons, List.length_cons, ih hrest]

/-- Only the steps at the members matter. -/
theorem inOrder_attach (step : α → σ → Outcome β × σ) (as : List α) (s : σ) :
    inOrder (fun (a : { a // a ∈ as }) => step a.1) as.attach s = inOrder step as s := by
  have map : ∀ {γ : Type} (f : γ → α) (cs : List γ) (s : σ),
      inOrder (fun c => step (f c)) cs s = inOrder step (cs.map f) s := by
    intro γ f cs
    induction cs with
    | nil => intro s; rfl
    | cons c cs ih => intro s; simp only [inOrder_cons, List.map_cons, ih]
  rw [map Subtype.val as.attach s, List.attach_map_subtype_val]

end

/-! ## 2. Depth -/

/-- A further node at this depth is past the limit (the check of `eval_nested`). -/
def pastLimit (limit : Option Nat) (depth : Nat) : Option Nat :=
  limit.filter fun most => decide (most ≤ depth)

theorem pastLimit_none (depth : Nat) : pastLimit none depth = none := rfl

/-- Under a limit of `most` a node is past it inside `most` nodes or more. -/
theorem pastLimit_some (most depth : Nat) :
    pastLimit (some most) depth = if most ≤ depth then some most else none := by
  by_cases h : most ≤ depth <;> simp [pastLimit, Option.filter, h]

/-- A node is within a limit if there is room for one more level under it. -/
theorem pastLimit_some_eq_none_iff {most depth : Nat} :
    pastLimit (some most) depth = none ↔ depth < most := by
  rw [pastLimit_some, ite_eq_right_iff, ← Nat.not_le]
  exact ⟨fun h hle => Option.some_ne_none _ (h hle), fun h hle => absurd hle h⟩

/-- Past the limit only where there is one, and it is that one. -/
theorem pastLimit_eq_some_iff {limit : Option Nat} {depth most : Nat} :
    pastLimit limit depth = some most ↔ limit = some most ∧ most ≤ depth := by
  simp [pastLimit, Option.filter_eq_some_iff]

/-! ## 3. Evaluation -/

section
variable [Numerics] {σ : Type} [Environment σ]

/-- What becomes of a node once its operands have come out as `values` (what `evaluate` does to the
result of `eval_inner`). -/
def conclude (span : Option Span) (assembly : Assembly) :
    Outcome (List Value) × σ → Outcome Value × σ
  | (.error i, env) => (.error (i.locate span), env)
  | (.ok values, env) =>
    let result := assembly.run values env
    (result.1.locate span, result.2)

/-- The outcome of a tree inside `depth` nodes that are being evaluated (`evaluate` with
`eval_nested`, which counts the node while `eval_inner` works on it). -/
def evaluate (limit : Option Nat) (depth : Nat) (t : Tree) (env : σ) : Outcome Value × σ :=
  match pastLimit limit depth with
  | some most => ((Outcome.fail (.depthExceeded most)).locate t.span, env)
  | none =>
    conclude t.span t.plan.assembly
      (inOrder (fun (u : { u // u ∈ t.plan.operands }) => evaluate limit (depth + 1) u.1)
        t.plan.operands.attach env)
termination_by sizeOf t
decreasing_by exact Tree.sizeOf_lt_of_mem_nodes (Tree.mem_nodes_of_mem_operands u.2)

/-- The recursion equation of `evaluate`. -/
theorem evaluate_eq (limit : Option Nat) (depth : Nat) (t : Tree) (env : σ) :
    evaluate limit depth t env =
      match pastLimit limit depth with
      | some most => ((Outcome.fail (.depthExceeded most)).locate t.span, env)
      | none =>
        conclude t.span t.plan.assembly
          (inOrder (evaluate limit (depth + 1)) t.plan.operands env) := by
  rw [evaluate]
  cases pastLimit limit depth with
  | some most => rfl
  | none =>
    simp only
    rw [inOrder_attach (fun u => evaluate limit (depth + 1) u) t.plan.operands env]

end

end Metrology
