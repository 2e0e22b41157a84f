/-
Letting a tree go.

A node owns the nodes nested in it, so to release a node is to release them too. If each was
released from within the release of the node around it, releases would nest as deep as the tree is
high, and a tree can be higher than there is room for that. A release therefore takes the nested
nodes out of its node first and keeps them in a list of its own. Then it goes through the list: a
node that is taken from the list hands its nested nodes over to it, and is released without
children.

`Teardown` keeps the releases that have begun on a stack, since each of them begins inside the one
below. What comes after the loop belongs to a release as well: children that its node still has are
released one after the other, from within. That there are none is not built in here.
-/
import Metrology.Tree.Size
set_option autoImplicit false

namespace Metrology

namespace Tree

/-- The node without its children, which is what taking them out leaves (`take_nested`). -/
def emptied (t : Tree) : Tree := mk t.kind [] t.span

@[simp] theorem children_emptied (t : Tree) : t.emptied.children = [] := rfl

@[simp] theorem nodes_emptied (t : Tree) : t.emptied.nodes = [] := rfl

end Tree

/-! ## 1. Releases -/

/-- The release of a node that has begun. -/
inductive Release where
  /-- Nothing has been taken out of the node. -/
  | start (t : Tree)
  /-- The loop: the node as it is left, and the nodes that are pending, the next one first. -/
  | loop (t : Tree) (pending : List Tree)
  /-- After the loop: the children that are left to be released. -/
  | rest (children : List (Part Tree))

/-- The state between two steps, with a record of what has been done. -/
structure Teardown where
  /-- The releases that have begun, innermost first. -/
  releases : List Release
  /-- The nodes taken out of the nodes around them, as they were then. -/
  detached : List Tree
  /-- The nodes whose release began inside another one, as they were then. -/
  released : List Tree

namespace Teardown

/-- The release of a tree is about to begin (`drop`). -/
def of (t : Tree) : Teardown := ⟨[.start t], [], []⟩

/-- One step; none when everything is released. Nested nodes join the list in their order and are
taken from its end, so the last of them stands first. -/
def next (s : Teardown) : Option Teardown :=
  match s.releases with
  | [] => none
  | .start t :: outer =>
    some { s with
      releases := .loop t.emptied t.nodes.reverse :: outer
      detached := s.detached ++ t.nodes }
  | .loop t (u :: pending) :: outer =>
    some {
      releases := .start u.emptied :: .loop t (u.nodes.reverse ++ pending) :: outer
      detached := s.detached ++ u.nodes
      released := s.released ++ [u.emptied] }
  | .loop t [] :: outer => some { s with releases := .rest t.children :: outer }
  | .rest (.token _ :: cs) :: outer => some { s with releases := .rest cs :: outer }
  | .rest (.node u :: cs) :: outer =>
    some { s with releases := .start u :: .rest cs :: outer, released := s.released ++ [u] }
  | .rest [] :: outer => some { s with releases := outer }

/-- There is a step as long as a release is in progress. -/
theorem next_eq_none_iff {s : Teardown} : s.next = none ↔ s.releases = [] := by
  unfold next
  split <;> simp_all

/-! ## 2. It ends

A node costs four steps: one that takes it from the list and three for a release that finds nothing.
So the steps to come are known at every moment, and each step uses up one of them. -/

/-- The steps of a row of children that are released one after the other. -/
def rowWork : List (Part Tree) → Nat
  | [] => 1
  | .token _ :: cs => rowWork cs + 1
  | .node u :: cs => 4 * u.size + rowWork cs

/-- The steps that a release has left. -/
def releaseWork : Release → Nat
  | .start t => 4 * Tree.sizeAll t.nodes + 3
  | .loop t pending => 4 * Tree.sizeAll pending + rowWork t.children + 1
  | .rest cs => rowWork cs

/-- The steps that several releases have left. -/
def stackWork : List Release → Nat
  | [] => 0
  | r :: outer => releaseWork r + stackWork outer

/-- The steps to come. -/
def work (s : Teardown) : Nat := stackWork s.releases

/-- A tree costs four steps for each of its nodes, but one of the root's: nobody takes the root from
a list. -/
theorem work_of (t : Tree) : (of t).work + 1 = 4 * t.size := by
  simp only [work, of, stackWork, releaseWork, t.size_eq]
  omega

/-- Every step uses up one of the steps to come. By cases on what the innermost release is at; that
the books come out even is a matter of what a node is charged when it joins the list, which is its
whole tree. -/
theorem work_next {s n : Teardown} (h : s.next = some n) : n.work + 1 = s.work := by
  obtain ⟨releases, detached, released⟩ := s
  rcases releases with _ | ⟨r, outer⟩
  · cases h
  cases r with
  | start t =>
    -- the node's tree was charged as a whole, and its nested nodes take their part of it to the
    -- list
    simp only [next, Option.some.injEq] at h
    subst h
    simp only [work, stackWork, releaseWork, rowWork, Tree.children_emptied, Tree.sizeAll_reverse]
    omega
  | loop t pending =>
    cases pending with
    | nil =>
      simp only [next, Option.some.injEq] at h
      subst h
      simp only [work, stackWork, releaseWork, Tree.sizeAll_nil]
      omega
    | cons u pending =>
      -- the node pays for its own release, and what it holds was counted with it
      simp only [next, Option.some.injEq] at h
      subst h
      simp only [work, stackWork, releaseWork, Tree.nodes_emptied, Tree.sizeAll_nil,
        Tree.sizeAll_append, Tree.sizeAll_reverse, Tree.sizeAll_cons, u.size_eq]
      omega
  | rest cs =>
    rcases cs with _ | ⟨_ | u, cs⟩
    · simp only [next, Option.some.injEq] at h
      subst h
      simp only [work, stackWork, releaseWork, rowWork]
      omega
    · simp only [next, Option.some.injEq] at h
      subst h
      simp only [work, stackWork, releaseWork, rowWork]
      omega
    · simp only [next, Option.some.injEq] at h
      subst h
      simp only [work, stackWork, releaseWork, rowWork, u.size_eq]
      omega

/-- All steps: where everything is released. -/
def run (s : Teardown) : Teardown :=
  match _h : s.next with
  | none => s
  | some n => run n
termination_by s.work
decreasing_by
  have := work_next _h
  omega

end Teardown

end Metrology
