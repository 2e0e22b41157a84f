/-
Tokens that carry no meaning.

A tree keeps the brackets and separators of the text it was read from. Evaluation passes over them:
in lists, blocks and groups it looks for nested nodes only, in calls, assignments and control
statements at nothing but the first child besides, and in number literals it drops the separators.
`Tree.Idle` says which token at which place this is, and a tree with such a token more has the same
plan as the tree without it (`Insertion.plan_eq`), as long as the child that the plan looks at by
its place stays where it is. Operators are not among the kinds: there the places of both operands
count.

Nothing is asked of the row around the token, so the trees may be malformed; the failure is then the
same one.
-/
import Metrology.Proofs.Record
import Metrology.Proofs.Rewriting.Contexts
import Metrology.Tree.Build
set_option autoImplicit false

namespace Metrology

namespace Tree

/-! ## 1. Idle tokens

Which tokens are passed over is a matter of how each kind picks its children: `node_children` skips
all tokens, `token_at` takes the first child of some kinds, and number literals leave out what
`is_separator` accepts. -/

/-- The token behind these children of a node of the kind carries no meaning. -/
def Idle (kind : Kind) (before : List (Part Tree)) (token : String) : Prop :=
  match kind with
  | .list | .block | .group => True
  | .call | .assign | .control => before ≠ []
  | .number => Literal.isSeparator token = true
  | _ => False

/-- A tree and the tree with one idle token more at its root. -/
inductive Insertion : Tree → Tree → Prop
  | mk {kind : Kind} (before after : List (Part Tree)) {span : Option Span} {token : String} :
      Idle kind before token →
      Insertion (.mk kind (before ++ after) span)
        (.mk kind (before ++ .token token :: after) span)

/-- The trees differ in idle tokens only, inserted or deleted at any number of places and depths. -/
def SameButIdle : Tree → Tree → Prop := Relation.EqvGen (Inside Insertion)

/-! ## 2. One insertion

At the root of a tree the plan is compared directly, kind by kind. -/

namespace Insertion

variable {t u : Tree}

theorem kind_eq (h : Insertion t u) : t.kind = u.kind := by
  cases h
  rfl

theorem span_eq (h : Insertion t u) : t.span = u.span := by
  cases h
  rfl

/-- A token is no node. -/
theorem nodes_eq (h : Insertion t u) : t.nodes = u.nodes := by
  cases h
  simp [nodes, children, List.filterMap_cons]

theorem onlyNode?_eq (h : Insertion t u) : t.onlyNode? = u.onlyNode? := by
  rw [onlyNode?, onlyNode?, h.nodes_eq]

/-- Behind the first child a token leaves the first child where it is. -/
theorem tokenAt?_zero (h : Insertion t u)
    (hk : t.kind = .call ∨ t.kind = .assign ∨ t.kind = .control) :
    t.tokenAt? 0 = u.tokenAt? 0 := by
  cases h with
  | @mk kind before after span token hidle =>
    have hbefore : before ≠ [] := by
      rcases hk with hk | hk | hk
      all_goals
        simp only [Tree.kind] at hk
        subst hk
        exact hidle
    obtain ⟨c, cs, rfl⟩ := List.exists_cons_of_ne_nil hbefore
    rfl

/-- A separator is dropped before a literal is decoded. -/
theorem numberValue_eq (h : Insertion t u) (hk : t.kind = .number) :
    t.numberValue = u.numberValue := by
  have htokens : t.tokens.filter (fun s => !Literal.isSeparator s) =
      u.tokens.filter fun s => !Literal.isSeparator s := by
    cases h with
    | @mk kind before after span token hidle =>
      simp only [Tree.kind] at hk
      subst hk
      have hsep : Literal.isSeparator token = true := hidle
      simp [tokens, children, hsep]
  rw [numberValue, numberValue, h.nodes_eq, htokens]

/-- The plan of a control node depends on its keyword and its first child node. -/
theorem planControl_eq (h : Insertion t u) (token : String) :
    t.planControl token = u.planControl token := by
  rw [planControl, planControl, h.nodes_eq]

/-- A plan is not read off idle tokens. -/
theorem plan_eq (h : Insertion t u) : t.plan = u.plan := by
  have hkind := h.kind_eq
  unfold plan
  rw [← hkind]
  -- an operator, a name and a literal other than a number have no idle tokens
  have hbusy : ∀ {p q : Plan}, (∀ before token, ¬ Idle t.kind before token) → p = q := by
    intro p q hnone
    cases h with
    | mk _ _ hidle => exact absurd hidle (hnone _ _)
  cases hk : t.kind with
  | number => simp only [h.numberValue_eq hk]
  | list => simp only [h.nodes_eq]
  | block => simp only [h.nodes_eq]
  | group => simp only [h.onlyNode?_eq]
  | call => simp only [planToken, h.tokenAt?_zero (.inl hk), h.nodes_eq, hkind]
  | assign => simp only [planToken, h.tokenAt?_zero (.inr (.inl hk)), h.onlyNode?_eq, hkind]
  | control =>
    simp only [planToken, h.tokenAt?_zero (.inr (.inr hk)), h.planControl_eq, hkind]
  | _ => exact hbusy fun _ _ hidle => by rwa [hk] at hidle

end Insertion

/-- Somewhere inside or at the root, an insertion changes neither the kind nor the span of the
root. -/
theorem kind_and_span_eq {t u : Tree} (h : Inside Insertion t u) :
    t.kind = u.kind ∧ t.span = u.span := by
  cases h with
  | root h => exact ⟨h.kind_eq, h.span_eq⟩
  | child => exact ⟨rfl, rfl⟩

end Tree

/-! ## 3. Evaluation

From the root the statement is carried to every place by `Inside.lift`, and from one insertion to
any number of them by taking the equivalence that insertions generate. -/

section
variable [Numerics] {σ : Type} [Environment σ] {t u : Tree}

/-- With an idle token more somewhere inside, a tree comes to the same under every limit and at
every depth. -/
theorem evaluate_eq_of_inside (h : Tree.Inside Tree.Insertion t u) (limit : Option Nat) :
    ∀ (depth : Nat) (s : σ), evaluate limit depth t s = evaluate limit depth u s := by
  refine Tree.Inside.lift
    (E := fun t u => ∀ (depth : Nat) (s : σ), evaluate limit depth t s = evaluate limit depth u s)
    (fun t depth s => rfl) (fun t u htu depth s => ?_) (fun t u htu depth s => ?_) h
  · -- the plan is the same, and so is the place given to a failure
    rw [Metrology.evaluate_eq, Metrology.evaluate_eq, htu.plan_eq, htu.span_eq]
  · obtain ⟨hassembly, hoperands⟩ := htu.plan
    have hrow := inOrder_congr (hoperands.imp fun a b hab => hab (depth + 1)) s
    rw [Metrology.evaluate_eq, Metrology.evaluate_eq, hassembly, htu.span, hrow]

/-- The statements at the root come to the same one by one. -/
theorem forall₂_nodes_of_inside (h : Tree.Inside Tree.Insertion t u) (limit : Option Nat) :
    List.Forall₂ (fun v w => ∀ (depth : Nat) (s : σ),
      evaluate limit depth v s = evaluate limit depth w s) t.nodes u.nodes := by
  cases h with
  | root h =>
    rw [h.nodes_eq]
    exact List.forall₂_same.2 fun _ _ _ _ => rfl
  | @child kind before after span v w h =>
    exact (Tree.alike_child (fun _ _ _ => rfl) kind before after span
      (evaluate_eq_of_inside h limit)).nodes

/-- One idle token more changes no answer, whichever request is made. -/
theorem answer_eq_of_inside (h : Tree.Inside Tree.Insertion t u) (q : Request) (ev : Evaluator)
    (env : σ) : q.answer t (ev, env) = q.answer u (ev, env) := by
  obtain ⟨hkind, hspan⟩ := Tree.kind_and_span_eq h
  have hself : List.Forall₂ (fun v w => ∀ s : σ,
      evaluate ev.maxDepth ev.depth v s = evaluate ev.maxDepth ev.depth w s) [t] [u] :=
    .cons (evaluate_eq_of_inside h ev.maxDepth ev.depth) .nil
  have hnodes := (forall₂_nodes_of_inside (σ := σ) h ev.maxDepth).imp fun v w hvw => hvw ev.depth
  have hroots : List.Forall₂ (fun v w => ∀ s : σ,
      evaluate ev.maxDepth ev.depth v s = evaluate ev.maxDepth ev.depth w s)
      (q.roots t) (q.roots u) := by
    cases q with
    | evaluate => exact hself
    | evaluateBlock =>
      simp only [Request.roots, hkind]
      split
      · exact hnodes
      · exact .nil
    | run =>
      simp only [Request.roots, hkind]
      split
      · exact hnodes
      · exact hself
  have hfinish : q.finish t = q.finish u := by
    funext r
    cases q <;> simp only [Request.finish, hkind, hspan]
  rw [Request.answer_eq, Request.answer_eq, inOrder_congr hroots env, hfinish]

/-- Idle tokens carry no meaning. Trees that differ in such tokens only, at any places and depths,
give the same answer to every request under every limit: the same value, signal or failure, with its
place, and the same environment afterwards, from the same requests of the environment. -/
theorem Tree.SameButIdle.answers_agree (h : t.SameButIdle u) (q : Request) (ev : Evaluator)
    (env : σ) :
    q.answer t (ev, env) = q.answer u (ev, env) ∧
      (q.answer t (ev, Traced.start env)).2.2.accesses =
        (q.answer u (ev, Traced.start env)).2.2.accesses := by
  -- equality of answers is an equivalence, and every single insertion keeps the answer
  have hanswer : ∀ {τ : Type} [Environment τ] (s : τ), q.answer t (ev, s) = q.answer u (ev, s) := by
    intro τ _ s
    refine (eq_equivalence.comap fun v : Tree => q.answer v (ev, s)).eqvGen_iff.1 ?_
    exact Relation.EqvGen.mono (fun v w hvw => answer_eq_of_inside hvw q ev s) _ _ h
  exact ⟨hanswer env, congrArg (fun answer => answer.2.2.accesses) (hanswer (Traced.start env))⟩

end

/-- A list of one measured number, and the same list without its brackets and without the separator
in the number, as a script. -/
theorem bare_list_answers_agree :
    (Tree.list [Tree.number ["1", "0.5"]]).SameButIdle
        (.ofParts .list [.node (.ofParts .number [.token "1", .token "0.5"])]) ∧
      Request.run.answer (Tree.list [Tree.number ["1", "0.5"]]) (.new, Scope.empty) =
        Request.run.answer (.ofParts .list [.node (.ofParts .number [.token "1", .token "0.5"])])
          (.new, Scope.empty) := by
  have hseparator : Tree.Inside Tree.Insertion
      (.ofParts .list [.node (.ofParts .number [.token "1", .token "0.5"])])
      (.ofParts .list [.node (.ofParts .number [.token "1", .token "±", .token "0.5"])]) :=
    .child [] [] (.root (.mk [.token "1"] [.token "0.5"] rfl))
  have hleft : Tree.Inside Tree.Insertion
      (.ofParts .list [.node (.ofParts .number [.token "1", .token "±", .token "0.5"])])
      (.ofParts .list
        [.token "[", .node (.ofParts .number [.token "1", .token "±", .token "0.5"])]) :=
    .root (.mk [] _ trivial)
  have hright : Tree.Inside Tree.Insertion
      (.ofParts .list
        [.token "[", .node (.ofParts .number [.token "1", .token "±", .token "0.5"])])
      (Tree.list [Tree.number ["1", "0.5"]]) :=
    .root (.mk [.token "[", .node (Tree.number ["1", "0.5"])] [] trivial)
  have hsame : (Tree.list [Tree.number ["1", "0.5"]]).SameButIdle
      (.ofParts .list [.node (.ofParts .number [.token "1", .token "0.5"])]) :=
    .symm _ _ (.trans _ _ _ (.rel _ _ hseparator) (.trans _ _ _ (.rel _ _ hleft)
      (.rel _ _ hright)))
  exact ⟨hsame, (hsame.answers_agree Request.run Evaluator.new Scope.empty).1⟩

end Metrology
