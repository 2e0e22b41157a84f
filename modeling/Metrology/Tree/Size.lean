/-
The number of nodes of a tree, and its height.
-/
import Metrology.Tree.Basic
set_option autoImplicit false

namespace Metrology.Tree

mutual

/-- The number of nodes, the root included. -/
def size : Tree → Nat
  | mk _ cs _ => 1 + sizeParts cs

/-- The number of nodes in a row of children. -/
def sizeParts : List (Part Tree) → Nat
  | [] => 0
  | c :: cs => sizePart c + sizeParts cs

/-- The number of nodes in a child. -/
def sizePart : Part Tree → Nat
  | .token _ => 0
  | .node t => size t

end

/-- The number of nodes of several trees. -/
def sizeAll : List Tree → Nat
  | [] => 0
  | t :: ts => size t + sizeAll ts

@[simp] theorem sizeAll_nil : sizeAll [] = 0 := rfl

@[simp] theorem sizeAll_cons (t : Tree) (ts : List Tree) :
    sizeAll (t :: ts) = size t + sizeAll ts := rfl

/-- Tokens count for nothing, so a row has the nodes of its nested nodes. -/
theorem sizeParts_eq (cs : List (Part Tree)) :
    sizeParts cs = sizeAll (cs.filterMap Part.node?) := by
  induction cs with
  | nil => simp [sizeParts]
  | cons c cs ih => cases c <;> simp [sizeParts, sizePart, List.filterMap_cons, ih]

/-- A node and all that its nested nodes hold. -/
theorem size_eq (t : Tree) : t.size = 1 + sizeAll t.nodes := by
  cases t with
  | mk k cs s => simp [size, nodes, children, sizeParts_eq]

/-- A tree has its root at least. -/
theorem size_pos (t : Tree) : 0 < t.size := by
  rw [size_eq]
  omega

/-- The size of two rows in one is the sum of theirs. -/
@[simp] theorem sizeAll_append (ts us : List Tree) :
    sizeAll (ts ++ us) = sizeAll ts + sizeAll us := by
  induction ts with
  | nil => simp
  | cons t ts ih => simp [ih, Nat.add_assoc]

/-- The order makes no difference to how many there are. -/
@[simp] theorem sizeAll_reverse (ts : List Tree) : sizeAll ts.reverse = sizeAll ts := by
  induction ts with
  | nil => rfl
  | cons t ts ih => simp [ih, Nat.add_comm]

/-- Fewer trees have fewer nodes. -/
theorem sizeAll_le_of_sublist {ts us : List Tree} (h : ts.Sublist us) :
    sizeAll ts ≤ sizeAll us := by
  induction h with
  | slnil => exact Nat.le_refl _
  | cons u _ ih => simp only [sizeAll_cons]; omega
  | cons_cons u _ ih => simp only [sizeAll_cons]; omega

/-! ## Height -/

mutual

/-- The number of levels, that of the root included. -/
def height : Tree → Nat
  | mk _ cs _ => heightParts cs + 1

/-- The number of levels of the highest tree in a row of children. -/
def heightParts : List (Part Tree) → Nat
  | [] => 0
  | c :: cs => max (heightPart c) (heightParts cs)

/-- The number of levels of a child; a token has none. -/
def heightPart : Part Tree → Nat
  | .token _ => 0
  | .node t => height t

end

/-- No child of a row is higher than the highest. -/
theorem heightPart_le_of_mem {c : Part Tree} {cs : List (Part Tree)} (h : c ∈ cs) :
    heightPart c ≤ heightParts cs := by
  induction cs with
  | nil => exact absurd h List.not_mem_nil
  | cons d cs ih =>
    rw [heightParts]
    rcases List.mem_cons.1 h with rfl | hrest
    · exact Nat.le_max_left _ _
    · exact Nat.le_trans (ih hrest) (Nat.le_max_right _ _)

/-- A tree has the level of its root. -/
theorem height_pos (t : Tree) : 0 < t.height := by
  cases t with
  | mk k cs s =>
    rw [height]
    omega

/-- A nested node has fewer levels than the node that holds it. -/
theorem height_lt_of_mem_nodes {t u : Tree} (h : u ∈ t.nodes) : u.height < t.height := by
  have hchild := heightPart_le_of_mem (mem_nodes.1 h)
  cases t with
  | mk k cs s =>
    simp only [children, heightPart] at hchild
    rw [height]
    omega

end Metrology.Tree
