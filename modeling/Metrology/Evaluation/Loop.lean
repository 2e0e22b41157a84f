/-
Loops over the items of a list.

Loops belong to the host: evaluation has no node for them and only hands out `break` and `continue`.
Each round opens a scope, defines the loop's variable in it, evaluates the body as a block and
closes the scope again, however the round ended.
-/
import Metrology.Evaluation.Evaluator
set_option autoImplicit false

namespace Metrology

/-- How a loop ends. -/
inductive LoopEnd where
  /-- After the round of the last item. -/
  | finished
  /-- By `break`. -/
  | exited
  /-- By an interrupt that is none of a loop's. -/
  | passed (i : Interrupt)

namespace Loop

variable [Numerics] {σ : Type} [Scoped σ]

/-- One round: the outcome of the body with the variable defined in a scope of its own. -/
def round (binding : String) (body : Tree) (item : Value) (s : Evaluator × σ) :
    Outcome (Option Value) × (Evaluator × σ) :=
  let result := Evaluator.evaluateBlock body
    (s.1, Scoped.define binding item (Scoped.push s.2))
  (result.1, (result.2.1, Scoped.pop result.2.2))

/-- What a loop makes of the outcome of a round. -/
def reaction : Outcome (Option Value) → LoopReaction
  | .ok _ => .next
  | .error i => i.inLoop

/-- The rounds for the items in order, as far as they come: how many were begun, and how the loop
ended. A host loop of the kind that `to_loop_action` is for. -/
def forEach (binding : String) (body : Tree) :
    List Value → Evaluator × σ → (Nat × LoopEnd) × (Evaluator × σ)
  | [], s => ((0, .finished), s)
  | item :: items, s =>
    let result := round binding body item s
    match reaction result.1 with
    | .next =>
      let later := forEach binding body items result.2
      ((later.1.1 + 1, later.1.2), later.2)
    | .exit => ((1, .exited), result.2)
    | .pass i => ((1, .passed i), result.2)

end Loop

end Metrology
