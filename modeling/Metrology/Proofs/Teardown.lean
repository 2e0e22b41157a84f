/-
A tree is let go of node by node, and flat.

Every node nested in a tree is taken out of the node around it once and no more, and when it is let
go of it has no children. So the release that begins inside the loop finds nothing to do, and there
are never more than two releases at a time, however high the tree is.

`Stack` says which releases can be in progress together; the second of two is always the loop of the
whole tree, and what is on top of it is idle. `Orderly` adds the books: what has been taken out and
what has not yet are the nodes of the tree, and of the nodes taken out those that are not pending
have been let go of. Every step keeps this (`Orderly.next`), so it holds of every state of a run
(`run_induction`), and at the end there is nothing pending and nothing left inside.
-/
import Mathlib.Data.List.Perm.Basic
import Metrology.Tree.Teardown
set_option autoImplicit false

namespace Metrology

/-! ## 1. The nodes inside a tree

That nothing is forgotten and nothing is let go of twice is a statement about multisets, and the
nodes of the tree as a list are what the books are kept against. -/

namespace Tree

mutual

/-- The nodes nested in a tree, on all levels. -/
def descendants : Tree → List Tree
  | mk _ cs _ => descendantsParts cs

/-- The nodes in a row of children, on all levels. -/
def descendantsParts : List (Part Tree) → List Tree
  | [] => []
  | c :: cs => descendantsPart c ++ descendantsParts cs

/-- The nodes in a child, itself included. -/
def descendantsPart : Part Tree → List Tree
  | .token _ => []
  | .node t => t :: descendants t

end

/-- The nodes nested in several trees. -/
def inside (ts : List Tree) : List Tree := ts.flatMap descendants

/-- Tokens of a row hold nothing; each node of it is there with what it holds. -/
theorem descendantsParts_eq (cs : List (Part Tree)) :
    descendantsParts cs = (cs.filterMap Part.node?).flatMap fun u => u :: u.descendants := by
  induction cs with
  | nil => rw [descendantsParts, List.filterMap_nil, List.flatMap_nil]
  | cons c cs ih => cases c <;> simp [descendantsParts, descendantsPart, List.filterMap_cons, ih]

/-- The nodes of a tree are its child nodes, each followed by what is nested in it. -/
theorem descendants_eq (t : Tree) :
    t.descendants = t.nodes.flatMap fun u => u :: u.descendants := by
  cases t with
  | mk k cs s => rw [descendants, descendantsParts_eq, nodes, children]

/-- The nodes of the first level, and those inside them. -/
theorem descendants_perm (t : Tree) : t.descendants.Perm (t.nodes ++ inside t.nodes) := by
  have hsplit := List.flatMap_append_perm t.nodes (fun u => [u]) descendants
  rw [List.flatMap_singleton'] at hsplit
  rw [descendants_eq]
  exact hsplit.symm

/-- Of the nodes of a tree only the root is not nested in it. -/
theorem length_descendants (t : Tree) : t.descendants.length + 1 = t.size := by
  induction t using Tree.induction with
  | node t ih =>
    have hall : ∀ ts : List Tree, (∀ u ∈ ts, u.descendants.length + 1 = u.size) →
        (ts.flatMap fun u => u :: u.descendants).length = sizeAll ts := by
      intro ts hts
      induction ts with
      | nil => rfl
      | cons u ts ihts =>
        have hu := hts u List.mem_cons_self
        have hrest := ihts fun v hv => hts v (List.mem_cons_of_mem u hv)
        simp only [List.flatMap_cons, List.length_append, List.length_cons, sizeAll_cons]
        omega
    rw [descendants_eq, hall t.nodes ih, size_eq]
    omega

end Tree

open Metrology.Tree (inside emptied)

/-! ## 2. What a step keeps

Nodes are told apart by their place in the tree and not by what they are, so that all accounts are
permutations of lists: two equal subtrees are two entries. -/

/-- The release has nothing to do: its node has no children, and no node is pending. -/
def Release.Idle : Release → Prop
  | .start t => t.children = []
  | .loop t pending => t.children = [] ∧ pending = []
  | .rest cs => cs = []

namespace Teardown

variable {t : Tree} {s n : Teardown}

/-- The releases that are in progress together while a tree is let go of, with the nodes that are
pending then, and those that are still nested in a node. -/
inductive Stack (t : Tree) : List Release → List Tree → List Tree → Prop
  | start : Stack t [.start t] [] t.descendants
  | loop (pending : List Tree) : Stack t [.loop t.emptied pending] pending (inside pending)
  | nested {r : Release} (pending : List Tree) :
      r.Idle → Stack t [r, .loop t.emptied pending] pending (inside pending)
  | rest : Stack t [.rest []] [] []
  | done : Stack t [] [] []

/-- Each node of the tree is accounted for: it has been taken out or is nested in a node still, and
if it has been taken out it is pending or has been let go of without children. -/
def Orderly (t : Tree) (s : Teardown) : Prop :=
  ∃ pending attached, Stack t s.releases pending attached ∧
    (s.detached ++ attached).Perm t.descendants ∧
    (s.released ++ pending.map emptied).Perm (s.detached.map emptied)

/-- When letting go begins, every nested node is still in its place, and none is pending. -/
theorem orderly_of (t : Tree) : Orderly t (of t) :=
  ⟨[], t.descendants, .start, .refl _, .refl _⟩

/-- The order in which nodes join the list makes no difference to what is inside them. -/
theorem append_inside_perm (ts us : List Tree) :
    (ts ++ inside (ts.reverse ++ us)).Perm (ts ++ inside ts ++ inside us) := by
  have hinside : (inside (ts.reverse ++ us)).Perm (inside ts ++ inside us) := by
    unfold inside
    rw [List.flatMap_append]
    exact (ts.reverse_perm.flatMap_right _).append_right _
  rw [List.append_assoc]
  exact hinside.append_left ts

/-- The whole first level is taken out of the tree in one step. What was nested in the tree is then
this level and what is inside it. -/
theorem detach_root_perm (t : Tree) :
    (t.nodes ++ inside t.nodes.reverse).Perm t.descendants := by
  have hnone : inside [] = [] := List.flatMap_nil
  have hsplit := append_inside_perm t.nodes []
  rw [List.append_nil, hnone, List.append_nil] at hsplit
  exact hsplit.trans t.descendants_perm.symm

/-- The first level of the next node is taken out, in front of the others that are pending. -/
theorem detach_next_perm (u : Tree) (pending : List Tree) :
    (u.nodes ++ inside (u.nodes.reverse ++ pending)).Perm (inside (u :: pending)) :=
  (append_inside_perm u.nodes pending).trans
    (u.descendants_perm.symm.append_right (inside pending))

/-- The next node is let go of, and what it held is pending in its place. -/
theorem release_perm (released : List Tree) (u : Tree) (pending : List Tree) :
    (released ++ [u.emptied] ++ (u.nodes.reverse ++ pending).map emptied).Perm
      (released ++ (u :: pending).map emptied ++ u.nodes.map emptied) := by
  have hlist : ((u.nodes.reverse ++ pending).map emptied).Perm
      (pending.map emptied ++ u.nodes.map emptied) := by
    rw [List.map_append]
    exact List.perm_append_comm.trans ((u.nodes.reverse_perm.map emptied).append_left _)
  have hrow : released ++ (u :: pending).map emptied ++ u.nodes.map emptied =
      released ++ [u.emptied] ++ (pending.map emptied ++ u.nodes.map emptied) := by
    simp
  rw [hrow]
  exact hlist.append_left _

/-- A step takes the nodes of the first level out of a node, or only moves one release on. -/
theorem Orderly.next (h : Orderly t s) (hn : s.next = some n) : Orderly t n := by
  obtain ⟨releases, detached, released⟩ := s
  obtain ⟨pending, attached, hstack, hdetached, hreleased⟩ := h
  -- one case for each shape the stack can have; a step of a nested release is a step of an idle one
  cases hstack with
  | start =>
    simp only [Teardown.next, Option.some.injEq] at hn
    subst hn
    refine ⟨_, _, .loop t.nodes.reverse, ?_, ?_⟩
    · rw [List.append_assoc]
      exact ((detach_root_perm t).append_left detached).trans hdetached
    · rw [List.map_nil, List.append_nil] at hreleased
      rw [List.map_append]
      exact hreleased.append (t.nodes.reverse_perm.map emptied)
  | loop pending =>
    cases pending with
    | nil =>
      simp only [Teardown.next, Option.some.injEq] at hn
      subst hn
      exact ⟨[], [], .rest, hdetached, hreleased⟩
    | cons u pending =>
      simp only [Teardown.next, Option.some.injEq] at hn
      subst hn
      refine ⟨_, _, .nested (u.nodes.reverse ++ pending) u.children_emptied, ?_, ?_⟩
      · rw [List.append_assoc]
        exact ((detach_next_perm u pending).append_left detached).trans hdetached
      · have hmap :
            (detached ++ u.nodes).map emptied = detached.map emptied ++ u.nodes.map emptied :=
          List.map_append
        rw [hmap]
        exact (release_perm released u pending).trans (hreleased.append_right _)
  | @nested r pending hidle =>
    cases r with
    | start u =>
      have hnodes : u.nodes = [] := by rw [Tree.nodes, hidle, List.filterMap_nil]
      simp only [Teardown.next, hnodes, Option.some.injEq] at hn
      subst hn
      simp only [List.append_nil]
      exact ⟨_, _, .nested pending ⟨rfl, rfl⟩, hdetached, hreleased⟩
    | loop u more =>
      obtain ⟨hchildren, rfl⟩ := hidle
      simp only [Teardown.next, hchildren, Option.some.injEq] at hn
      subst hn
      exact ⟨_, _, .nested pending rfl, hdetached, hreleased⟩
    | rest cs =>
      obtain rfl : cs = [] := hidle
      simp only [Teardown.next, Option.some.injEq] at hn
      subst hn
      exact ⟨_, _, .loop pending, hdetached, hreleased⟩
  | rest =>
    simp only [Teardown.next, Option.some.injEq] at hn
    subst hn
    exact ⟨[], [], .done, hdetached, hreleased⟩
  | done => cases hn

/-! ## 3. What a state shows

The parts of the theorem, each read off the invariant of one state. -/

/-- No node has been taken out that was not there, or twice. -/
theorem Orderly.detached_subperm (h : Orderly t s) : s.detached.Subperm t.descendants := by
  obtain ⟨pending, attached, -, hdetached, -⟩ := h
  exact (List.sublist_append_left s.detached attached).subperm.trans hdetached.subperm

/-- What has been let go of had no children. -/
theorem Orderly.children_of_mem_released (h : Orderly t s) {u : Tree} (hu : u ∈ s.released) :
    u.children = [] := by
  obtain ⟨pending, attached, -, -, hreleased⟩ := h
  have hmem := hreleased.subset (List.mem_append_left (pending.map emptied) hu)
  obtain ⟨v, -, rfl⟩ := List.mem_map.1 hmem
  exact v.children_emptied

/-- Two releases at most are in progress, in every state. -/
theorem Orderly.length_releases_le (h : Orderly t s) : s.releases.length ≤ 2 := by
  obtain ⟨releases, detached, released⟩ := s
  obtain ⟨pending, attached, hstack, -⟩ := h
  cases hstack <;> simp

/-- A release that begins inside another one is idle. -/
theorem Orderly.idle_of_mem (h : Orderly t s) {r : Release} (hr : r ∈ s.releases.dropLast) :
    r.Idle := by
  obtain ⟨releases, detached, released⟩ := s
  obtain ⟨pending, attached, hstack, -⟩ := h
  cases hstack with
  | nested pending hidle =>
    obtain rfl := List.mem_singleton.1 hr
    exact hidle
  | _ => cases hr

/-- When nothing is in progress any more, all nodes have been taken out and let go of. -/
theorem Orderly.of_next_eq_none (h : Orderly t s) (hn : s.next = none) :
    s.releases = [] ∧ s.detached.Perm t.descendants ∧
      s.released.Perm (t.descendants.map emptied) := by
  obtain ⟨releases, detached, released⟩ := s
  obtain ⟨pending, attached, hstack, hdetached, hreleased⟩ := h
  obtain rfl : releases = [] := next_eq_none_iff.1 hn
  cases hstack with
  | done =>
    simp only [List.append_nil, List.map_nil] at hdetached hreleased
    exact ⟨rfl, hdetached, hreleased.trans (hdetached.map emptied)⟩

/-! ## 4. Runs

A run is followed by the work that is left. The releases and the nodes that are pending give a
number that every step lowers by one, so that the number of states is known and the recursion ends.
-/

/-- The states from here to the end, in order. -/
def states (s : Teardown) : List Teardown :=
  match _h : s.next with
  | none => [s]
  | some n => s :: states n
termination_by s.work
decreasing_by
  have := work_next _h
  omega

/-- A state with nothing left to do is the last one. -/
theorem states_of_next_none (h : s.next = none) : s.states = [s] := by
  rw [states]
  split
  · rfl
  · simp_all

/-- A state is followed by those of its next one. -/
theorem states_of_next_some (h : s.next = some n) : s.states = s :: n.states := by
  rw [states]
  split
  · simp_all
  · simp_all

/-- With nothing left to do the run is over. -/
theorem run_of_next_none (h : s.next = none) : s.run = s := by
  rw [run]
  split
  · rfl
  · simp_all

/-- The run goes on from the next state. -/
theorem run_of_next_some (h : s.next = some n) : s.run = n.run := by
  rw [run]
  split
  · simp_all
  · simp_all

/-- What holds at the start and is kept by every step holds of all states, and of the last one,
after which there is no step. By induction on the steps to come. -/
theorem run_induction {P : Teardown → Prop} (hstep : ∀ s n, P s → s.next = some n → P n)
    (hs : P s) : (∀ r ∈ s.states, P r) ∧ P s.run ∧ s.run.next = none := by
  induction hwork : s.work using Nat.strongRecOn generalizing s with
  | ind k ih =>
    subst hwork
    rcases hn : s.next with _ | n
    · rw [states_of_next_none hn, run_of_next_none hn]
      exact ⟨fun r hr => List.mem_singleton.1 hr ▸ hs, hs, hn⟩
    · have hless := work_next hn
      obtain ⟨hstates, hrun⟩ := ih n.work (by omega) (hstep s n hs hn) rfl
      rw [states_of_next_some hn, run_of_next_some hn]
      exact ⟨fun r hr => (List.mem_cons.1 hr).elim (fun h => h ▸ hs) (hstates r), hrun⟩

/-- Each state but the first one is paid for by a step. -/
theorem length_states (s : Teardown) : s.states.length = s.work + 1 := by
  induction hwork : s.work using Nat.strongRecOn generalizing s with
  | ind k ih =>
    subst hwork
    rcases hn : s.next with _ | n
    · have hdone : s.work = 0 := by rw [work, next_eq_none_iff.1 hn, stackWork]
      rw [states_of_next_none hn, hdone, List.length_singleton]
    · have hless := work_next hn
      rw [states_of_next_some hn, List.length_cons, ih n.work (by omega) n rfl, hless]

/-- A tree is let go of in four steps for each of its nodes, less one. At the end every node nested
in it has been taken out of the node around it and let go of without children, each of them once; on
the way none is taken out twice, none is let go of with children, and a release that begins inside
another one finds nothing to do, so that there are never more than two. -/
theorem complete_and_flat (t : Tree) :
    (of t).states.length = 4 * t.size ∧ (of t).run.releases = [] ∧
      (of t).run.detached.Perm t.descendants ∧
      (of t).run.released.Perm (t.descendants.map emptied) ∧
      (of t).run.released.length + 1 = t.size ∧
      ∀ s ∈ (of t).states, s.detached.Subperm t.descendants ∧
        (∀ u ∈ s.released, u.children = []) ∧ s.releases.length ≤ 2 ∧
        ∀ r ∈ s.releases.dropLast, r.Idle := by
  obtain ⟨hstates, hrun, hnext⟩ :=
    run_induction (P := Orderly t) (fun _ _ h hn => h.next hn) (orderly_of t)
  obtain ⟨hreleases, hdetached, hreleased⟩ := hrun.of_next_eq_none hnext
  refine ⟨?_, hreleases, hdetached, hreleased, ?_, fun s hs => ?_⟩
  · rw [length_states, work_of]
  · rw [hreleased.length_eq, List.length_map, Tree.length_descendants]
  · have horderly := hstates s hs
    exact ⟨horderly.detached_subperm, fun _ => horderly.children_of_mem_released,
      horderly.length_releases_le, fun _ => horderly.idle_of_mem⟩

end Teardown

end Metrology
