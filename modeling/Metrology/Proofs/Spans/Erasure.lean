/-
Evaluation without spans.

A host need not track where its nodes come from. `Tree.eraseSpans` is the tree as such a host hands
it over, and `evaluate_eraseSpans` says what that changes: the place of a failure and nothing else.
Value, signal, cause, notes, requests and the environment afterwards are those of the tree with its
spans.

The reason is that a plan is read off kinds and tokens (`plan_eraseSpans`), and that what a node
raises has no place yet when it is raised. The two evaluations then run in lockstep, with interrupts
compared by `Interrupt.eraseSpan`.
-/
import Metrology.Proofs.Record
import Metrology.Proofs.Rules
set_option autoImplicit false

namespace Metrology

/-! ## 1. Trees without spans

Kind, tokens and the order of children are what evaluation looks at, so each gets its equation here.
-/

namespace Tree

mutual

/-- The tree without any span. -/
def eraseSpans : Tree → Tree
  | mk k cs _ => mk k (eraseSpansParts cs) none

/-- A row of children without any span. -/
def eraseSpansParts : List (Part Tree) → List (Part Tree)
  | [] => []
  | c :: cs => eraseSpansPart c :: eraseSpansParts cs

/-- A child without any span. -/
def eraseSpansPart : Part Tree → Part Tree
  | .token s => .token s
  | .node t => .node (eraseSpans t)

end

/-- A row loses its spans child by child. -/
theorem eraseSpansParts_eq (cs : List (Part Tree)) :
    eraseSpansParts cs = cs.map eraseSpansPart := by
  induction cs with
  | nil => rw [eraseSpansParts, List.map_nil]
  | cons c cs ih => rw [eraseSpansParts, List.map_cons, ih]

@[simp] theorem token?_eraseSpansPart (c : Part Tree) : (eraseSpansPart c).token? = c.token? := by
  cases c <;> simp [eraseSpansPart]

/-- A child that is a node stays one, and loses its spans. -/
@[simp] theorem node?_eraseSpansPart (c : Part Tree) :
    (eraseSpansPart c).node? = c.node?.map eraseSpans := by
  cases c <;> simp [eraseSpansPart]

@[simp] theorem kind_eraseSpans (t : Tree) : t.eraseSpans.kind = t.kind := by
  cases t with
  | mk k cs s => rw [eraseSpans, kind, kind]

@[simp] theorem span_eraseSpans (t : Tree) : t.eraseSpans.span = none := by
  cases t with
  | mk k cs s => rw [eraseSpans, span]

/-- The children are the same in number and order. -/
theorem children_eraseSpans (t : Tree) :
    t.eraseSpans.children = t.children.map eraseSpansPart := by
  cases t with
  | mk k cs s => rw [eraseSpans, children, children, eraseSpansParts_eq]

/-! ## 2. The plan of a tree without spans

Every reader of a node's children commutes with the erasure, and the plan is put together from them.
The two plans differ in their operands and in nothing else. -/

/-- All tokens of a node stay (`token_children`). -/
@[simp] theorem tokens_eraseSpans (t : Tree) : t.eraseSpans.tokens = t.tokens := by
  rw [tokens, tokens, children_eraseSpans, List.filterMap_map]
  exact congrArg (t.children.filterMap ·) (funext token?_eraseSpansPart)

/-- The child nodes are those of before without their spans (`node_children`). -/
@[simp] theorem nodes_eraseSpans (t : Tree) : t.eraseSpans.nodes = t.nodes.map eraseSpans := by
  rw [nodes, nodes, children_eraseSpans, List.filterMap_map, List.map_filterMap]
  exact congrArg (t.children.filterMap ·) (funext node?_eraseSpansPart)

/-- A token is found at the place where it was (`token_at`). -/
@[simp] theorem tokenAt?_eraseSpans (t : Tree) (i : Nat) :
    t.eraseSpans.tokenAt? i = t.tokenAt? i := by
  rw [tokenAt?, tokenAt?, children_eraseSpans, List.getElem?_map]
  cases t.children[i]? with
  | none => rfl
  | some c => exact token?_eraseSpansPart c

/-- A child node is found at the place where it was, without its spans (`node_at`). -/
@[simp] theorem nodeAt?_eraseSpans (t : Tree) (i : Nat) :
    t.eraseSpans.nodeAt? i = (t.nodeAt? i).map eraseSpans := by
  rw [nodeAt?, nodeAt?, children_eraseSpans, List.getElem?_map]
  cases t.children[i]? with
  | none => rfl
  | some c => exact node?_eraseSpansPart c

/-- A node has exactly one child node, or not, with spans and without (`only_node`). -/
@[simp] theorem onlyNode?_eraseSpans (t : Tree) :
    t.eraseSpans.onlyNode? = t.onlyNode?.map eraseSpans := by
  rw [onlyNode?, onlyNode?, nodes_eraseSpans]
  -- one node, or another number of them on both sides
  rcases t.nodes with _ | ⟨u, _ | ⟨w, us⟩⟩ <;> rfl

/-- The two sides of a binary node are those of before without their spans. -/
@[simp] theorem sides_eraseSpans (t : Tree) : t.eraseSpans.sides = t.sides.map eraseSpans := by
  rw [sides, sides, nodeAt?_eraseSpans, nodeAt?_eraseSpans]
  rcases t.nodeAt? 0 with _ | l
  · rfl
  · rcases t.nodeAt? 2 with _ | r <;> rfl

end Tree

/-- The plan with its operands replaced. -/
def Plan.mapOperands (f : Tree → Tree) (p : Plan) : Plan := { p with operands := p.operands.map f }

namespace Tree

/-- A plan that depends on a token changes in its operands alone, if that is so for every token. A
missing token is reported with the kind, which stays. -/
theorem planToken_eraseSpans (t : Tree) (i : Nat) {plan plan' : String → Plan}
    (h : ∀ token, plan' token = (plan token).mapOperands eraseSpans) :
    t.eraseSpans.planToken i plan' = (t.planToken i plan).mapOperands eraseSpans := by
  rw [planToken, planToken, tokenAt?_eraseSpans, kind_eraseSpans]
  cases t.tokenAt? i with
  | none => rfl
  | some token => exact h token

/-- The plan of a control node changes in its operands alone: the keyword is a token, and the
operand is the first child node. -/
theorem planControl_eraseSpans (t : Tree) (token : String) :
    t.eraseSpans.planControl token = (t.planControl token).mapOperands eraseSpans := by
  rw [planControl, planControl, nodes_eraseSpans, ← List.map_take]
  rcases Keyword.ofToken token with f | k
  · rfl
  · cases k <;> rfl

/-- The value of a number node is decoded from its tokens, and from whether it has child nodes at
all. -/
theorem numberValue_eraseSpans (t : Tree) : t.eraseSpans.numberValue = t.numberValue := by
  rw [numberValue, numberValue, nodes_eraseSpans, tokens_eraseSpans, List.isEmpty_map]

/-- Nothing of a plan is read off a span. -/
theorem plan_eraseSpans (t : Tree) : t.eraseSpans.plan = t.plan.mapOperands eraseSpans := by
  rw [plan, plan, kind_eraseSpans]
  have htoList : ∀ u : Option Tree, (u.map eraseSpans).toList = u.toList.map eraseSpans := by
    intro u
    cases u <;> rfl
  cases t.kind with
  | number => rw [numberValue_eraseSpans]; rfl
  | text => exact t.planToken_eraseSpans 0 fun _ => rfl
  | symbol => exact t.planToken_eraseSpans 0 fun _ => rfl
  | package => exact t.planToken_eraseSpans 0 fun _ => rfl
  | name => exact t.planToken_eraseSpans 0 fun _ => rfl
  | list => rw [nodes_eraseSpans]; rfl
  | block => rw [nodes_eraseSpans]; rfl
  | group => rw [onlyNode?_eraseSpans, htoList]; rfl
  | assign =>
    refine t.planToken_eraseSpans 0 fun token => ?_
    rw [onlyNode?_eraseSpans, htoList]
    rfl
  | call =>
    refine t.planToken_eraseSpans 0 fun token => ?_
    rw [nodes_eraseSpans]
    rfl
  | binary =>
    refine t.planToken_eraseSpans 1 fun token => ?_
    rw [sides_eraseSpans]
    cases BinaryOperator.ofSymbol? token <;> rfl
  | unary =>
    refine t.planToken_eraseSpans 0 fun token => ?_
    rw [nodeAt?_eraseSpans, htoList]
    cases UnaryOperator.ofSymbol? token <;> rfl
  | control => exact t.planToken_eraseSpans 0 t.planControl_eraseSpans

end Tree

/-! ## 3. Interrupts without places

Only failures have a place. Their cause, their message and their notes are kept. -/

/-- The failure without its place. -/
def Failure.eraseSpan (f : Failure) : Failure := { f with span := none }

/-- The interrupt without a place; signals have none. -/
def Interrupt.eraseSpan : Interrupt → Interrupt := mapFailure Failure.eraseSpan

/-- A place that is given to an interrupt is lost with its own. -/
@[simp] theorem Interrupt.eraseSpan_locate (s : Option Span) (i : Interrupt) :
    (i.locate s).eraseSpan = i.eraseSpan := by
  cases i <;> rfl

section
variable [Numerics] {σ : Type} [Environment σ]

/-! ## 4. Two evaluations -/

/-- A tree beside the tree without its spans. -/
def spanLockstep (σ : Type) : Lockstep σ σ where
  tree t u := u = t.eraseSpans
  value := Eq
  interrupt i j := j = i.eraseSpan
  env := Eq

/-- The two evaluations stay in lockstep. Operands lose their spans too, what is raised has no place
yet, and a place that is given on the way up is lost with its own. -/
theorem spanLockstep_lawful : (spanLockstep σ).Lawful where
  operands := by
    rintro t _ rfl
    rw [Tree.plan_eraseSpans]
    exact List.forall₂_map_right_iff.2 (List.forall₂_same.2 fun _ _ => rfl)
  assemble := by
    rintro t _ vs ws s _ rfl hvs rfl
    obtain rfl : vs = ws := List.forall₂_eq_eq_eq ▸ hvs
    rw [Tree.plan_eraseSpans]
    refine ⟨?_, rfl⟩
    show ExceptRel _ Eq (t.plan.assembly.run vs s).1 (t.plan.assembly.run vs s).1
    rcases hrun : (t.plan.assembly.run vs s).1 with i | v
    · -- what a node raises has no place yet
      exact .error (t.mapFailure_of_run_eq_error (fun _ _ => rfl) hrun).symm
    · exact .ok rfl
  locate := by
    rintro t _ i _ rfl rfl
    show (i.eraseSpan).locate t.eraseSpans.span = (i.locate t.span).eraseSpan
    rw [Tree.span_eraseSpans, Interrupt.locate_none, Interrupt.eraseSpan_locate]
  tooDeep most := rfl

/-- Without spans a tree comes to what it comes to with them, apart from the place of a failure. -/
theorem evaluate_eraseSpans (limit : Option Nat) (depth : Nat) (t : Tree) (s : σ) :
    evaluate limit depth t.eraseSpans s =
      ((evaluate limit depth t s).1.mapError Interrupt.eraseSpan,
        (evaluate limit depth t s).2) := by
  obtain ⟨hout, henv⟩ :=
    Lockstep.evaluate_lockstep (spanLockstep_lawful (σ := σ)) limit t t.eraseSpans rfl depth s s rfl
  refine Prod.ext ?_ henv.symm
  generalize (evaluate limit depth t s).1 = r at hout ⊢
  generalize (evaluate limit depth t.eraseSpans s).1 = r' at hout ⊢
  cases hout with
  | ok hv => rw [← hv]; rfl
  | error hi => rw [show _ = _ from hi]; rfl

end

end Metrology
