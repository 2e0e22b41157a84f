/-
Parse trees.

A node has a kind, a row of children and, where a parser tracked it, a span. A child is a token,
which is raw text, or a nested node. Nothing ties the children to the kind: any row of them is a
tree, and what a kind expects is the business of evaluation.

The order that matters is the one in the row, so the views here are the tokens and the nodes of a
row in order, and the child at a place. They are the interface that evaluation has to a tree
(`ParseNode`); the tree itself is the one implementation that comes with it (`SyntaxNode`).
-/
set_option autoImplicit false

namespace Metrology

/-! ## 1. Spans -/

/-- A range of bytes of a text, the end not included (`Span`). -/
structure Span where
  start : UInt32
  stop : UInt32
  deriving DecidableEq, Inhabited

/-- The bounds around two points. -/
def Span.text (s : Span) : String :=
  Nat.repr s.start.toNat ++ ".." ++ Nat.repr s.stop.toNat

/-! ## 2. Kinds -/

/-- What a node is (`NodeKind`). -/
inductive Kind where
  | block
  | control
  | assign
  | binary
  | unary
  | group
  | call
  | name
  | number
  | text
  | symbol
  | package
  | list
  deriving DecidableEq, Inhabited

namespace Kind

/-- All kinds: statements, expressions, literals. -/
def all : List Kind :=
  [block, control, assign, binary, unary, group, call, name, number, text, symbol, package, list]

/-- The list misses no kind. -/
theorem mem_all (k : Kind) : k ∈ all := by cases k <;> decide

/-- The kind in words, as messages name it (`as_str`). -/
def label : Kind → String
  | block => "block"
  | control => "control statement"
  | assign => "assignment"
  | binary => "binary expression"
  | unary => "unary expression"
  | group => "parenthesized expression"
  | call => "call"
  | name => "name"
  | number => "number literal"
  | text => "text literal"
  | symbol => "symbol literal"
  | package => "package reference"
  | list => "list literal"

end Kind

/-! ## 3. Trees -/

/-- A child of a node: a token, or a nested node of type `α` (`SyntaxChild`). -/
inductive Part (α : Type) where
  | token (text : String)
  | node (node : α)
  deriving DecidableEq

namespace Part

variable {α : Type}

/-- The text of a token; a node has none. -/
def token? : Part α → Option String
  | token t => some t
  | node _ => none

/-- The node itself; a token is none. -/
def node? : Part α → Option α
  | token _ => none
  | node n => some n

@[simp] theorem token?_token (t : String) : (token t : Part α).token? = some t := rfl

@[simp] theorem token?_node (n : α) : (node n).token? = none := rfl

@[simp] theorem node?_token (t : String) : (token t : Part α).node? = none := rfl

@[simp] theorem node?_node (n : α) : (node n).node? = some n := rfl

@[simp] theorem node?_comp_node : (node? ∘ node : α → Option α) = some := rfl

end Part

/-- A node with its kind, its children in order and its span, if any (`SyntaxNode`). -/
inductive Tree where
  | mk (kind : Kind) (children : List (Part Tree)) (span : Option Span)

instance : Inhabited Tree := ⟨.mk .block [] none⟩

namespace Tree

/-- What the node is (`kind`). -/
def kind : Tree → Kind
  | mk k _ _ => k

/-- The children in their order, tokens and nodes. -/
def children : Tree → List (Part Tree)
  | mk _ cs _ => cs

/-- Where the node stands in its text, if that is known (`span`). -/
def span : Tree → Option Span
  | mk _ _ s => s

/-- A node without a span (`new`). -/
def ofParts (kind : Kind) (children : List (Part Tree)) : Tree := mk kind children none

/-- The same node with a span (`with_span`). -/
def withSpan (t : Tree) (s : Span) : Tree := mk t.kind t.children (some s)

/-- The nested nodes in order (`node_children`). -/
def nodes (t : Tree) : List Tree := t.children.filterMap Part.node?

/-- The tokens in order (`token_children`). -/
def tokens (t : Tree) : List String := t.children.filterMap Part.token?

/-- The token at a place; none past the end or where a node stands (`child_token`). -/
def tokenAt? (t : Tree) (i : Nat) : Option String := t.children[i]?.bind Part.token?

/-- The node at a place; none past the end or where a token stands (`child_node`). -/
def nodeAt? (t : Tree) (i : Nat) : Option Tree := t.children[i]?.bind Part.node?

/-- A nested node is a child that is a node. -/
theorem mem_nodes {t u : Tree} : u ∈ t.nodes ↔ Part.node u ∈ t.children := by
  simp only [nodes, List.mem_filterMap]
  constructor
  · rintro ⟨c, hc, h⟩
    cases c with
    | token s => simp [Part.node?] at h
    | node v =>
      simp only [Part.node?, Option.some.injEq] at h
      exact h ▸ hc
  · exact fun h => ⟨.node u, h, rfl⟩

/-- What stands at a place as a node is one of the nested nodes. -/
theorem mem_nodes_of_nodeAt? {t u : Tree} {i : Nat} (h : t.nodeAt? i = some u) :
    u ∈ t.nodes := by
  obtain ⟨c, hc, hu⟩ := Option.bind_eq_some_iff.1 h
  exact List.mem_filterMap.2 ⟨c, List.mem_of_getElem? hc, hu⟩

/-- A nested node is smaller than the node that holds it. -/
theorem sizeOf_lt_of_mem_nodes {t u : Tree} (h : u ∈ t.nodes) : sizeOf u < sizeOf t := by
  have hm := mem_nodes.1 h
  cases t with
  | mk k cs s =>
    have h1 := List.sizeOf_lt_of_mem hm
    simp only [children, Part.node.sizeOf_spec, Tree.mk.sizeOf_spec] at h1 ⊢
    omega

/-- Induction over trees: a statement holds of every tree if it holds of each node whose nested
nodes it holds of. -/
theorem induction {motive : Tree → Prop}
    (node : ∀ t : Tree, (∀ u ∈ t.nodes, motive u) → motive t) (t : Tree) : motive t :=
  node t fun u _ => induction node u
termination_by sizeOf t
decreasing_by exact sizeOf_lt_of_mem_nodes ‹_›

/-! ## 4. Equality -/

mutual

/-- Equality of kind, children and span. -/
def beq : Tree → Tree → Bool
  | mk k cs s, mk l ds r => k == l && beqParts cs ds && s == r

/-- Equality child by child. -/
def beqParts : List (Part Tree) → List (Part Tree) → Bool
  | [], [] => true
  | c :: cs, d :: ds => beqPart c d && beqParts cs ds
  | _, _ => false

/-- Equality of two children. -/
def beqPart : Part Tree → Part Tree → Bool
  | .token a, .token b => a == b
  | .node t, .node u => beq t u
  | _, _ => false

end

instance : BEq Tree := ⟨beq⟩

mutual

/-- By recursion on the first of the two trees, as the test itself: what it compares are all the
parts of a node. -/
theorem eq_of_beq : ∀ {t u : Tree}, beq t u = true → t = u
  | mk _ cs _, mk _ ds _, h => by
    simp only [beq, Bool.and_eq_true, beq_iff_eq] at h
    obtain ⟨⟨hk, hc⟩, hs⟩ := h
    rw [hk, hs, eq_of_beqParts hc]

/-- Rows that the test takes for equal have the same length, and the same child at each place. -/
theorem eq_of_beqParts : ∀ {cs ds : List (Part Tree)}, beqParts cs ds = true → cs = ds
  | [], [], _ => rfl
  | [], _ :: _, h => by simp [beqParts] at h
  | _ :: _, [], h => by simp [beqParts] at h
  | c :: cs, d :: ds, h => by
    simp only [beqParts, Bool.and_eq_true] at h
    rw [eq_of_beqPart h.1, eq_of_beqParts h.2]

/-- Parts that compare equal are equal: two tokens with one text, or two nodes that compare
equal. -/
theorem eq_of_beqPart : ∀ {c d : Part Tree}, beqPart c d = true → c = d
  | .token _, .token _, h => by simpa [beqPart] using h
  | .node _, .node _, h => by
    simp only [beqPart] at h
    rw [eq_of_beq h]
  | .token _, .node _, h => by simp [beqPart] at h
  | .node _, .token _, h => by simp [beqPart] at h

end

mutual

/-- A tree passes the test with itself, since every text, kind and span in it does. -/
theorem beq_self : ∀ t : Tree, beq t t = true
  | mk _ cs _ => by simp [beq, beqParts_self cs]

/-- Every row compares equal with itself. -/
theorem beqParts_self : ∀ cs : List (Part Tree), beqParts cs cs = true
  | [] => by simp [beqParts]
  | c :: cs => by simp [beqParts, beqPart_self c, beqParts_self cs]

/-- Every part compares equal with itself. -/
theorem beqPart_self : ∀ c : Part Tree, beqPart c c = true
  | .token _ => by simp [beqPart]
  | .node t => by simp [beqPart, beq_self t]

end

/-- The test decides equality. -/
instance : LawfulBEq Tree where
  eq_of_beq := eq_of_beq
  rfl := beq_self _

end Tree

end Metrology
