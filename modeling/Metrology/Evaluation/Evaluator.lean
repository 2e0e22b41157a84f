/-
The evaluator as a host uses it.

An evaluator has a depth limit, or none, and counts the nodes whose evaluation has begun. Each
request works on an evaluator together with an environment and hands both back, whatever the
outcome. The requests differ in what they make of the root: `evaluate` counts it as the first level
and wants a value, `evaluateBlock` takes the statements of a block as the first level and may have
none, and `run` is for whole scripts, where nothing is left outside to catch an interrupt.

`evaluate` runs the machine; `evaluate_eq` says that this is `Metrology.evaluate`.
-/
import Metrology.Evaluation.Machine
set_option autoImplicit false

namespace Metrology

/-- A depth limit, if any, and the count of nodes whose evaluation has begun and not ended
(`Evaluator`). -/
structure Evaluator where
  maxDepth : Option Nat
  depth : Nat
  deriving DecidableEq

namespace Evaluator

/-- An evaluator with the given limit and nothing begun (`EvaluatorBuilder` with `max_depth` and
`build`). -/
def withLimit (maxDepth : Option Nat) : Evaluator := ⟨maxDepth, 0⟩

/-- The evaluator without a limit (`new`). -/
def new : Evaluator := withLimit none

variable [Numerics] {σ : Type} [Environment σ]

/-- The outcome of a node (`evaluate`). -/
def evaluate (t : Tree) (s : Evaluator × σ) : Outcome Value × (Evaluator × σ) :=
  let done := Machine.run ⟨s.1.maxDepth, s.1.depth, [], .enter t, s.2⟩
  (done.1, ({ s.1 with depth := done.2.depth }, done.2.env))

/-- The outcome of a statement (`execute`). Statements and expressions are one: a control statement
is an interrupt, anything else has a value. -/
def execute (t : Tree) (s : Evaluator × σ) : Outcome Value × (Evaluator × σ) := evaluate t s

/-- The value of the last statement of a block, if it has any (`eval_block`). -/
def evaluateBlock (t : Tree) (s : Evaluator × σ) :
    Outcome (Option Value) × (Evaluator × σ) :=
  if t.kind = .block then
    match inOrder execute t.nodes s with
    | (.error i, s) => (.error i, s)
    | (.ok values, s) => (.ok values.getLast?, s)
  else (Outcome.fail (.malformedNode t.kind "expected a block"), s)

/-- What an outcome means for a whole script (the end of `run`). A `return` ends it with its value;
a `break` or `continue` had no loop around it and is a failure at the script. -/
def settle (span : Option Span) : Outcome (Option Value) → Except Failure (Option Value)
  | .ok v => .ok v
  | .error (.returning v) => .ok v
  | .error (.failure f) => .error f
  | .error i => .error (i.toFailure.locate span)

/-- The value of a script, if it has one (`run`). A block is run statement by statement. -/
def run (t : Tree) (s : Evaluator × σ) :
    Except Failure (Option Value) × (Evaluator × σ) :=
  if t.kind = .block then
    let result := evaluateBlock t s
    (settle t.span result.1, result.2)
  else
    let result := evaluate t s
    (settle t.span (result.1.map some), result.2)

/-- An evaluator comes back as it was, and the outcome and environment are those of the
recursion. -/
theorem evaluate_eq (t : Tree) (ev : Evaluator) (env : σ) :
    evaluate t (ev, env) =
      ((Metrology.evaluate ev.maxDepth ev.depth t env).1,
        (ev, (Metrology.evaluate ev.maxDepth ev.depth t env).2)) := by
  simp only [evaluate, Machine.run_start]
  rfl

end Evaluator

end Metrology
