/-
Trees that differ somewhere inside.

A rule relates two trees that stand in the same place. `Tree.Inside` is one use of the rule anywhere
in a larger tree, so that a statement about it is a statement about every context. To carry such a
statement from the place to the root it is enough that one node lets it through: a node whose
children are related one by one has the same plan with related operands (`Tree.Alike.plan`),
whatever the kind and however malformed the row. `Inside.lift` puts this into one induction, so that
what is left to show about a rule is the rule itself and one node around it.
-/
import Metrology.Evaluation.Semantics
import Mathlib.Data.List.Forall2
import Mathlib.Logic.Relation
set_option autoImplicit false

namespace Metrology

/-! ## 1. Rows that agree child by child

The accessors of a node look at its children by place or by sort, and each of them gives related
things on related rows. Nothing is assumed of the row: a malformed one gives the same failure on
both sides. -/

/-- The same token twice, or two related nodes. -/
inductive Part.Rel {α β : Type} (R : α → β → Prop) : Part α → Part β → Prop
  | token (text : String) : Part.Rel R (.token text) (.token text)
  | node {a : α} {b : β} : R a b → Part.Rel R (.node a) (.node b)

namespace Part

variable {α : Type} {R : α → α → Prop}

/-- Every child is related to itself if every node is. -/
theorem Rel.refl (h : ∀ a, R a a) (c : Part α) : Part.Rel R c c := by
  cases c with
  | token text => exact .token text
  | node a => exact .node (h a)

/-- Related children are the same token, or no token on either side. -/
theorem Rel.token?_eq {c d : Part α} (h : Part.Rel R c d) : c.token? = d.token? := by
  cases h <;> rfl

/-- Related children are related nodes, or no node on either side. -/
theorem Rel.node? {c d : Part α} (h : Part.Rel R c d) : Option.Rel R c.node? d.node? := by
  cases h with
  | token text => exact .none
  | node hab => exact .some hab

end Part

/-- Related rows have related entries at every place, or none. -/
theorem rel_getElem? {α β : Type} {R : α → β → Prop} {as : List α} {bs : List β}
    (h : List.Forall₂ R as bs) (i : Nat) : Option.Rel R as[i]? bs[i]? := by
  induction h generalizing i with
  | nil => exact .none
  | cons hab _ ih =>
    rcases i with _ | i
    · exact .some hab
    · simpa using ih i

/-- Related options have related entries as lists. -/
theorem rel_toList {α β : Type} {R : α → β → Prop} {a : Option α} {b : Option β}
    (h : Option.Rel R a b) : List.Forall₂ R a.toList b.toList := by
  cases h with
  | none => exact .nil
  | some hab => exact .cons hab .nil

/-- Two nodes of one kind and with one span whose children are the same tokens and related nodes, in
the same order. -/
structure Tree.Alike (R : Tree → Tree → Prop) (t u : Tree) : Prop where
  kind : t.kind = u.kind
  span : t.span = u.span
  children : List.Forall₂ (Part.Rel R) t.children u.children

namespace Tree.Alike

variable {R : Tree → Tree → Prop} {t u : Tree}

/-- The tokens agree (`token_children`). -/
theorem tokens (h : t.Alike R u) : t.tokens = u.tokens := by
  have hrow : List.Forall₂ Eq t.tokens u.tokens := by
    refine List.rel_filterMap (P := Eq) (fun c d hcd => ?_) h.children
    rw [hcd.token?_eq]
    cases d.token? with
    | none => exact .none
    | some s => exact .some rfl
  exact List.forall₂_eq_eq_eq ▸ hrow

/-- The child nodes are related one by one, and there are as many of them (`node_children`). -/
theorem nodes (h : t.Alike R u) : List.Forall₂ R t.nodes u.nodes :=
  List.rel_filterMap (fun _ _ hcd => hcd.node?) h.children

/-- At every place there is the same token, or none on either side (`token_at`). -/
theorem tokenAt? (h : t.Alike R u) (i : Nat) : t.tokenAt? i = u.tokenAt? i := by
  have hplace := rel_getElem? h.children i
  unfold Tree.tokenAt?
  generalize t.children[i]? = c at hplace ⊢
  generalize u.children[i]? = d at hplace ⊢
  cases hplace with
  | none => rfl
  | some hcd => exact hcd.token?_eq

/-- At every place there are related nodes, or none on either side (`node_at`). -/
theorem nodeAt? (h : t.Alike R u) (i : Nat) : Option.Rel R (t.nodeAt? i) (u.nodeAt? i) := by
  have hplace := rel_getElem? h.children i
  unfold Tree.nodeAt?
  generalize t.children[i]? = c at hplace ⊢
  generalize u.children[i]? = d at hplace ⊢
  cases hplace with
  | none => exact .none
  | some hcd => exact hcd.node?

/-- There is exactly one child node on both sides, and then the two are related, or on neither
(`only_node`). -/
theorem onlyNode? (h : t.Alike R u) : Option.Rel R t.onlyNode? u.onlyNode? := by
  have hrow := h.nodes
  unfold Tree.onlyNode?
  generalize t.nodes = ts at hrow ⊢
  generalize u.nodes = us at hrow ⊢
  -- one node, or another number of them on both sides
  cases hrow with
  | nil => exact .none
  | cons hab hrest =>
    cases hrest with
    | nil => exact .some hab
    | cons _ _ => exact .none

/-- The two sides of a binary node are related, and missing on both sides or on neither. -/
theorem sides (h : t.Alike R u) : List.Forall₂ R t.sides u.sides := by
  have hleft := h.nodeAt? 0
  have hright := rel_toList (h.nodeAt? 2)
  unfold Tree.sides
  generalize t.nodeAt? 0 = l at hleft ⊢
  generalize u.nodeAt? 0 = l' at hleft ⊢
  cases hleft with
  | none => exact .nil
  | some hl => exact .cons hl hright

end Tree.Alike

/-! ## 2. Plans

The plan of a node is built from what the accessors give, so that alike nodes have alike plans for
any relation of operands. -/

/-- The same way of putting related operands together. -/
structure Plan.Alike (R : Tree → Tree → Prop) (p q : Plan) : Prop where
  assembly : p.assembly = q.assembly
  operands : List.Forall₂ R p.operands q.operands

/-- A plan that is settled has no operands to differ in. -/
theorem Plan.alike_settled {R : Tree → Tree → Prop} (r : Outcome Value) :
    (Plan.settled r).Alike R (Plan.settled r) := ⟨rfl, .nil⟩

namespace Tree.Alike

variable {R : Tree → Tree → Prop} {t u : Tree}

/-- A number node is decoded from its tokens alone, once it has no child nodes. -/
theorem numberValue (h : t.Alike R u) : t.numberValue = u.numberValue := by
  have hempty : t.nodes.isEmpty = u.nodes.isEmpty := by
    have hrow := h.nodes
    generalize t.nodes = ts at hrow ⊢
    generalize u.nodes = us at hrow ⊢
    cases hrow <;> rfl
  rw [Tree.numberValue, Tree.numberValue, hempty, h.tokens]

/-- Plans that depend on a token are alike if they are for every token. A missing token is reported
with the kind, which is the same. -/
theorem planToken (h : t.Alike R u) (i : Nat) {plan plan' : String → Plan}
    (hplan : ∀ token, (plan token).Alike R (plan' token)) :
    (t.planToken i plan).Alike R (u.planToken i plan') := by
  unfold Tree.planToken
  rw [h.tokenAt? i, h.kind]
  cases u.tokenAt? i with
  | none => exact Plan.alike_settled _
  | some token => exact hplan token

/-- A control node picks its keyword by the token and its operand as the first child node. -/
theorem planControl (h : t.Alike R u) (token : String) :
    (t.planControl token).Alike R (u.planControl token) := by
  unfold Tree.planControl
  rcases Keyword.ofToken token with f | k
  · exact Plan.alike_settled _
  · cases k with
    | ret => exact ⟨rfl, List.forall₂_take 1 h.nodes⟩
    | brk => exact Plan.alike_settled _
    | cont => exact Plan.alike_settled _

/-- A node reads its plan off its kind and tokens, and picks its operands by place and number. -/
theorem plan (h : t.Alike R u) : t.plan.Alike R u.plan := by
  unfold Tree.plan
  rw [h.kind]
  cases u.kind with
  | number =>
    rw [h.numberValue]
    exact Plan.alike_settled _
  | text => exact h.planToken 0 fun _ => Plan.alike_settled _
  | symbol => exact h.planToken 0 fun _ => Plan.alike_settled _
  | package => exact h.planToken 0 fun _ => Plan.alike_settled _
  | name => exact h.planToken 0 fun _ => ⟨rfl, .nil⟩
  | list => exact ⟨rfl, h.nodes⟩
  | block => exact ⟨rfl, h.nodes⟩
  | group => exact ⟨rfl, rel_toList h.onlyNode?⟩
  | assign => exact h.planToken 0 fun _ => ⟨rfl, rel_toList h.onlyNode?⟩
  | call => exact h.planToken 0 fun _ => ⟨rfl, h.nodes⟩
  | binary =>
    refine h.planToken 1 fun token => ?_
    cases BinaryOperator.ofSymbol? token with
    | none => exact Plan.alike_settled _
    | some op => exact ⟨rfl, h.sides⟩
  | unary =>
    refine h.planToken 0 fun token => ?_
    cases UnaryOperator.ofSymbol? token with
    | none => exact Plan.alike_settled _
    | some op => exact ⟨rfl, rel_toList (h.nodeAt? 1)⟩
  | control => exact h.planToken 0 h.planControl

end Tree.Alike

/-! ## 3. Anywhere inside

A place in a tree is the way to it from the root, and a rule used there changes one child at each
node on the way. -/

/-- One use of a rule at some place in a tree. -/
inductive Tree.Inside (R : Tree → Tree → Prop) : Tree → Tree → Prop
  | root {t u : Tree} : R t u → Tree.Inside R t u
  | child {kind : Kind} (before after : List (Part Tree)) {span : Option Span} {t u : Tree} :
      Tree.Inside R t u →
      Tree.Inside R (.mk kind (before ++ .node t :: after) span)
        (.mk kind (before ++ .node u :: after) span)

namespace Tree

variable {R E : Tree → Tree → Prop}

/-- A row with one child exchanged for a related one. -/
theorem alike_child (hrefl : ∀ t, E t t) (kind : Kind) (before after : List (Part Tree))
    (span : Option Span) {t u : Tree} (h : E t u) :
    (mk kind (before ++ .node t :: after) span).Alike E
      (mk kind (before ++ .node u :: after) span) := by
  have hsame : ∀ cs : List (Part Tree), List.Forall₂ (Part.Rel E) cs cs :=
    fun cs => List.forall₂_same.2 fun c _ => .refl hrefl c
  exact ⟨rfl, rfl, List.rel_append (hsame before) (.cons (.node h) (hsame after))⟩

/-- What a rule gives at its place it gives anywhere, if a node lets it through from its children.
By induction on the way from the root to the place. -/
theorem Inside.lift (hrefl : ∀ t, E t t) (hrule : ∀ t u, R t u → E t u)
    (hnode : ∀ t u : Tree, t.Alike E u → E t u) {t u : Tree} (h : Inside R t u) : E t u := by
  induction h with
  | root h => exact hrule _ _ h
  | @child kind before after span t u _ ih =>
    exact hnode _ _ (alike_child hrefl kind before after span ih)

end Tree

/-! ## 4. Rows of steps

Rows of operands are run in order. If each operand does on one side what it does on the other, so
does the row. -/

/-- Rows whose steps do the same do the same. -/
theorem inOrder_congr {α α' β σ : Type} {step : α → σ → Outcome β × σ}
    {step' : α' → σ → Outcome β × σ} {as : List α} {bs : List α'}
    (h : List.Forall₂ (fun a b => ∀ s, step a s = step' b s) as bs) (s : σ) :
    inOrder step as s = inOrder step' bs s := by
  induction h generalizing s with
  | nil => rfl
  | cons hab _ ih =>
    rw [inOrder_cons, inOrder_cons, hab s]
    simp only [ih]

end Metrology
