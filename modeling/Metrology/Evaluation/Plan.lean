/-
What evaluating a node amounts to.

A node of any kind is evaluated in two parts: its operands, some of its nested nodes, are evaluated
from left to right, and when all of them have a value those are put together. `Tree.plan` reads the
two parts off a node by looking at its own children only. So the rules of the kinds stand here, and
everything about order, interrupts, depth and places is said once for all kinds, of the plan.

A node can be short of an operand. That is found out when the operand's turn comes, after the
operands before it, so it is the assembly that reports it: the plan has the operands that come
before the missing one, and `Assembly.run` meets too few values.

The engine's `eval_inner` has no such value in between: it dispatches on the kind, and the function
of each kind (`eval_list`, `eval_assign`, `eval_binary`, `eval_unary`, `eval_call`, `eval_control`)
evaluates the operands itself. A plan is what such a function would ask for and what it would do
with the answers.
-/
import Metrology.Evaluation.Environment
import Metrology.Evaluation.Intrinsic
import Metrology.Evaluation.Literal
import Metrology.Evaluation.Operation
set_option autoImplicit false

namespace Metrology

/-- How the values of the operands are put together. -/
inductive Assembly where
  /-- There is nothing to wait for: a literal, a control statement without operand, or a fault of
  the node's tokens. -/
  | settled (outcome : Outcome Value)
  | lookup (name : String)
  | bind (name : String)
  | group
  | binary (operator : BinaryOperator)
  | unary (operator : UnaryOperator)
  | call (name : String)
  | list
  | block
  | ret

/-- The operands of a node in the order of their evaluation, and what comes after. -/
structure Plan where
  operands : List Tree
  assembly : Assembly

/-! ## 1. Assembling -/

/-- The outcome of a node whose child at place `i` should have been a nested node (`node_at`). -/
def missingNode (kind : Kind) (i : Nat) : Outcome Value :=
  .fail (.malformedNode kind ("expected a node at child " ++ Nat.repr i))

/-- The outcome of a node that should have held one nested node (`only_node`). -/
def notOneNode (kind : Kind) : Outcome Value :=
  .fail (.malformedNode kind "expected exactly one nested node")

namespace Assembly

variable [Numerics] {σ : Type} [Environment σ]

/-- The outcome of a node from the values of its operands, and the environment afterwards: the part
of `eval_inner` and of the evaluation of each kind that follows the operands. Too few values mean
that the plan stopped at a missing operand, which is reported here. -/
def run : Assembly → List Value → σ → Outcome Value × σ
  | settled r, _, env => (r, env)
  | lookup name, _, env =>
    match Environment.lookup name env with
    | (some v, env) => (.ok v, env)
    | (none, env) => (.fail (.undefinedVariable name), env)
  | bind name, v :: _, env => (.ok v, Environment.bind name v env)
  | bind _, [], env => (notOneNode .assign, env)
  | group, v :: _, env => (.ok v, env)
  | group, [], env => (notOneNode .group, env)
  | binary op, l :: r :: _, env => (Operation.binary op l r, env)
  | binary _, [_], env => (missingNode .binary 2, env)
  | binary _, [], env => (missingNode .binary 0, env)
  | unary op, v :: _, env => (Operation.unary op v, env)
  | unary _, [], env => (missingNode .unary 1, env)
  | call name, vs, env => (Intrinsic.call name vs, env)
  | list, vs, env => (.ok (.list vs), env)
  | block, vs, env =>
    match vs.getLast? with
    | some v => (.ok v, env)
    | none => (.fail (.malformedNode .block "empty block has no value"), env)
  | ret, vs, env => (.error (.returning vs.head?), env)

end Assembly

/-! ## 2. Planning -/

namespace Plan

/-- A node whose outcome is known from its own tokens. -/
def settled (outcome : Outcome Value) : Plan := ⟨[], .settled outcome⟩

/-- A node that fails for its own shape. -/
def fail (cause : Cause) : Plan := settled (Outcome.fail cause)

end Plan

/-- An outcome that can be interrupted by a failure only. -/
def Outcome.ofExcept {α : Type} : Except Failure α → Outcome α
  | .ok a => .ok a
  | .error f => .error (.failure f)

namespace Tree

/-- The plan of a node that starts from the token at place `i` (`token_at`). -/
def planToken (t : Tree) (i : Nat) (plan : String → Plan) : Plan :=
  match t.tokenAt? i with
  | some token => plan token
  | none => .fail (.malformedNode t.kind ("expected a token at child " ++ Nat.repr i))

/-- The nested node of a node that has exactly one (`only_node`). -/
def onlyNode? (t : Tree) : Option Tree :=
  match t.nodes with
  | [u] => some u
  | _ => none

/-- The value of a number literal: its tokens without separators (`eval_number`). -/
def numberValue (t : Tree) : Outcome Value :=
  if t.nodes.isEmpty then
    (Outcome.ofExcept
      (Literal.decode (t.tokens.filter fun s => !Literal.isSeparator s))).map .number
  else .fail (.malformedNode .number "number literals hold tokens only")

/-- The value of a text literal (`eval_text`). -/
def textValue (token : String) : Outcome Value :=
  match Literal.unquote? token with
  | some content => .ok (.text content)
  | none =>
    .fail (.malformedNode .text ("`" ++ token ++ "` is too short to carry delimiters"))

/-- The operands of an operator between two nodes: both, or the left one if the right is missing
(the two `node_at` of `eval_binary`). -/
def sides (t : Tree) : List Tree :=
  match t.nodeAt? 0 with
  | some l => l :: (t.nodeAt? 2).toList
  | none => []

/-- The plan of a control statement by its keyword (`eval_control`). Only `return` has an operand,
the first nested node. -/
def planControl (t : Tree) (token : String) : Plan :=
  match Keyword.ofToken token with
  | .ok .ret => ⟨t.nodes.take 1, .ret⟩
  | .ok .brk => .settled (.error .breaking)
  | .ok .cont => .settled (.error .continuing)
  | .error f => .settled (.error (.failure f))

/-- The plan of a node, by its kind (the dispatch of `eval_inner`, and the operands that
`eval_list`, `eval_assign`, `eval_binary`, `eval_unary`, `eval_call` and `eval_block` ask for). -/
def plan (t : Tree) : Plan :=
  match t.kind with
  | .number => .settled t.numberValue
  | .text => t.planToken 0 fun token => .settled (textValue token)
  | .symbol => t.planToken 0 fun token => .settled (.ok (.symbol token))
  | .package => t.planToken 0 fun token => .settled (.ok (.package token))
  | .list => ⟨t.nodes, .list⟩
  | .name => t.planToken 0 fun token => ⟨[], .lookup token⟩
  | .assign => t.planToken 0 fun token => ⟨t.onlyNode?.toList, .bind token⟩
  | .group => ⟨t.onlyNode?.toList, .group⟩
  -- an unknown operator is found out before either side is evaluated
  | .binary => t.planToken 1 fun token =>
    match BinaryOperator.ofSymbol? token with
    | some op => ⟨t.sides, .binary op⟩
    | none => .fail (.malformedNode .binary ("unknown operator `" ++ token ++ "`"))
  | .unary => t.planToken 0 fun token =>
    match UnaryOperator.ofSymbol? token with
    | some op => ⟨(t.nodeAt? 1).toList, .unary op⟩
    | none => .fail (.malformedNode .unary ("unknown operator `" ++ token ++ "`"))
  | .call => t.planToken 0 fun token => ⟨t.nodes, .call token⟩
  | .block => ⟨t.nodes, .block⟩
  | .control => t.planToken 0 t.planControl

/-! ## 3. Operands are nested nodes -/

/-- The operand at a place, if there is one, is a nested node. -/
theorem nodeAt?_toList_sublist (t : Tree) (i : Nat) : (t.nodeAt? i).toList.Sublist t.nodes := by
  cases h : t.nodeAt? i with
  | none => exact List.nil_sublist _
  | some u => exact List.singleton_sublist.2 (mem_nodes_of_nodeAt? h)

/-- The only nested node, if there is just one, is a nested node. -/
theorem onlyNode?_toList_sublist (t : Tree) : t.onlyNode?.toList.Sublist t.nodes := by
  unfold onlyNode?
  split
  · rename_i u h
    rw [h]
    exact List.Sublist.refl _
  · exact List.nil_sublist _

/-- The two sides stand at different places, the left one first. -/
theorem sides_sublist (t : Tree) : t.sides.Sublist t.nodes := by
  cases t with
  | mk k cs s =>
    match cs with
    | [] => exact List.nil_sublist _
    | .token _ :: cs => exact List.nil_sublist _
    | .node l :: cs =>
      have hl : (mk k (.node l :: cs) s).nodes = l :: cs.filterMap Part.node? := rfl
      simp only [sides, nodeAt?, children, hl]
      -- the right side stands behind the left one, so it is a node of the row's tail
      refine List.Sublist.cons_cons l ?_
      cases h : ((Part.node l :: cs)[2]?.bind Part.node?) with
      | none => exact List.nil_sublist _
      | some r =>
        obtain ⟨c, hc, hr⟩ := Option.bind_eq_some_iff.1 h
        exact List.singleton_sublist.2 (List.mem_filterMap.2 ⟨c, List.mem_of_getElem? hc, hr⟩)

/-- A plan that waits for a token asks for nested nodes only, if it does so once it has the
token. -/
theorem planToken_operands_sublist (t : Tree) (i : Nat) (plan : String → Plan)
    (h : ∀ token, (plan token).operands.Sublist t.nodes) :
    (t.planToken i plan).operands.Sublist t.nodes := by
  unfold planToken
  split
  · exact h _
  · exact List.nil_sublist _

/-- A plan's operands are nested nodes of the node, in the order of the row and none twice. -/
theorem plan_operands_sublist (t : Tree) : t.plan.operands.Sublist t.nodes := by
  unfold plan
  split
  · exact List.nil_sublist _
  · exact planToken_operands_sublist t 0 _ fun _ => List.nil_sublist _
  · exact planToken_operands_sublist t 0 _ fun _ => List.nil_sublist _
  · exact planToken_operands_sublist t 0 _ fun _ => List.nil_sublist _
  · exact List.Sublist.refl _
  · exact planToken_operands_sublist t 0 _ fun _ => List.nil_sublist _
  · exact planToken_operands_sublist t 0 _ fun _ => onlyNode?_toList_sublist t
  · exact onlyNode?_toList_sublist t
  · refine planToken_operands_sublist t 1 _ fun token => ?_
    split
    · exact sides_sublist t
    · exact List.nil_sublist _
  · refine planToken_operands_sublist t 0 _ fun token => ?_
    split
    · exact nodeAt?_toList_sublist t 1
    · exact List.nil_sublist _
  · exact planToken_operands_sublist t 0 _ fun _ => List.Sublist.refl _
  · exact List.Sublist.refl _
  · refine planToken_operands_sublist t 0 _ fun token => ?_
    unfold planControl
    split
    · exact List.take_sublist _ _
    · exact List.nil_sublist _
    · exact List.nil_sublist _
    · exact List.nil_sublist _

/-- An operand is a nested node, so evaluation goes down the tree. -/
theorem mem_nodes_of_mem_operands {t u : Tree} (h : u ∈ t.plan.operands) : u ∈ t.nodes :=
  (plan_operands_sublist t).subset h

end Tree

end Metrology
