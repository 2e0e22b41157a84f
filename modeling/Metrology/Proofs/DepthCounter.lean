/-
The depth counter.

An evaluator is an object that a host keeps and calls again and again, and between two calls nothing
of it may remain but its limit. What could remain is the counter. It is raised when a node is begun
and lowered when the node is left, and there are as many ways to leave a node as there are ways to
interrupt one.

`Machine.Counted` says what the counter counts: the nodes that have been begun and not left, which
stand on the stack and in the focus. Every step keeps this (`Counted.next`), so it is true of all
states of a run (`Counted.of_mem_states`), whatever the run comes to.

A host's calls are in `Call`: each on a tree and in an environment of its own. `Evaluator.after`
makes them one after the other on one evaluator, and `Evaluator.carries_nothing` is that the next
one does not notice.
-/
import Metrology.Proofs.Spans.Places
set_option autoImplicit false

namespace Metrology

/-! ## 1. What the counter counts

The program raises `depth` in `eval_nested` before it enters a node and lowers it after, whatever
came out. Here the two are steps of a machine, and the invariant relates the counter to the
machine's own stack at every moment between them. -/

namespace Machine

section
variable {σ : Type}

/-- The nodes that have been begun and not left, innermost first: the one that is gone on with, and
those that wait. -/
def begun (m : Machine σ) : List Begun :=
  match m.focus with
  | .resume b => b :: m.stack
  | _ => m.stack

/-- The machine has this limit, its counter is the number of nodes begun and not left, and this
number is within the limit. -/
structure Counted (limit : Option Nat) (m : Machine σ) : Prop where
  limit_eq : m.limit = limit
  depth_eq : m.depth = m.begun.length
  depth_le : ∀ most, limit = some most → m.depth ≤ most

/-- A node is entered at the depth that the counter has. -/
theorem depth_of_entering? {m : Machine σ} {w : Visit σ} (h : m.entering? = some w) :
    m.depth = w.depth := by
  unfold entering? at h
  split at h
  · cases h
    rfl
  · cases h

/-- A machine that starts on a tree has begun nothing. -/
theorem counted_start (limit : Option Nat) (t : Tree) (env : σ) :
    Counted limit (⟨limit, 0, [], .enter t, env⟩ : Machine σ) where
  limit_eq := rfl
  depth_eq := rfl
  depth_le most _ := Nat.zero_le most

end

variable [Numerics] {σ : Type} [Environment σ] {limit : Option Nat} {m n : Machine σ}

/-- A step keeps count. A node past the limit is not begun at all, one within it is begun and
counted, and a node is left with its outcome or with the interrupt of an operand, once. -/
theorem Counted.next (h : m.Counted limit) (hn : m.next = .inr n) : n.Counted limit := by
  obtain ⟨hlimit, hdepth, hle⟩ := h
  obtain ⟨limit', depth, stack, focus, env⟩ := m
  obtain rfl : limit' = limit := hlimit
  cases focus with
  | enter t =>
    have hstack : depth = stack.length := hdepth
    simp only [Machine.next] at hn
    rcases hpast : pastLimit limit' depth with _ | most
    · simp only [hpast, Sum.inr.injEq] at hn
      subst hn
      refine ⟨rfl, ?_, fun most hmost => ?_⟩
      · simp only [begun, List.length_cons]
        omega
      · -- the node was let in, so that there was room for one more
        subst hmost
        exact pastLimit_some_eq_none_iff.1 hpast
    · simp only [hpast, Sum.inr.injEq] at hn
      subst hn
      exact ⟨rfl, hstack, hle⟩
  | resume b =>
    have hstack : depth = stack.length + 1 := hdepth
    obtain ⟨span, assembly, values, rest⟩ := b
    cases rest with
    | nil =>
      -- the node is left with what its assembly makes of the values
      simp only [Machine.next, Sum.inr.injEq] at hn
      subst hn
      refine ⟨rfl, ?_, fun most hmost => ?_⟩
      · simp only [begun]
        omega
      · have := hle most hmost
        simp only at this ⊢
        omega
    | cons u rest =>
      simp only [Machine.next, Sum.inr.injEq] at hn
      subst hn
      exact ⟨rfl, hstack, hle⟩
  | deliver r =>
    have hstack : depth = stack.length := hdepth
    rcases stack with _ | ⟨b, stack⟩
    · cases hn
    · cases r with
      | ok v =>
        simp only [Machine.next, Sum.inr.injEq] at hn
        subst hn
        exact ⟨rfl, hstack, hle⟩
      | error i =>
        -- an interrupt leaves the node on top, which is one less begun
        simp only [Machine.next, Sum.inr.injEq] at hn
        subst hn
        rw [List.length_cons] at hstack
        refine ⟨rfl, ?_, fun most hmost => ?_⟩
        · simp only [begun]
          omega
        · have := hle most hmost
          simp only at this ⊢
          omega

/-! ## 2. Runs

What every step keeps, every state of a run has. The list of the states is also where the entered
nodes are read off. -/

/-- The states of a machine from here to the end, in order. -/
def states (m : Machine σ) : List (Machine σ) :=
  match _h : m.next with
  | .inl _ => [m]
  | .inr n => m :: states n
termination_by m.work
decreasing_by exact work_next _h

/-- A state with a next one is followed by the states from there. -/
theorem states_of_next_inr (h : m.next = .inr n) : m.states = m :: n.states := by
  rw [states]
  split
  · simp_all
  · simp_all

/-- A machine that is done has no further state. -/
theorem states_of_next_inl {r : Outcome Value} (h : m.next = .inl r) : m.states = [m] := by
  rw [states]
  split
  · simp_all
  · simp_all

/-- Induction over a run: from the state after a step to the state before it. -/
theorem run_induction {motive : Machine σ → Prop}
    (done : ∀ (m : Machine σ) (r : Outcome Value), m.next = .inl r → motive m)
    (step : ∀ m n : Machine σ, m.next = .inr n → motive n → motive m) (m : Machine σ) :
    motive m := by
  rcases h : m.next with r | n
  · exact done m r h
  · exact step m n h (run_induction done step n)
termination_by m.work
decreasing_by exact work_next h

/-- All states of a run keep count, if the first one does. -/
theorem Counted.of_mem_states (h : m.Counted limit) (hn : n ∈ m.states) : n.Counted limit := by
  induction m using run_induction with
  | done m r hdone =>
    rw [states_of_next_inl hdone, List.mem_singleton] at hn
    rw [hn]
    exact h
  | step m m' hstep ih =>
    rw [states_of_next_inr hstep, List.mem_cons] at hn
    rcases hn with rfl | hn
    · exact h
    · exact ih (h.next hstep) hn

/-- The nodes that a run enters are those of its states. -/
theorem visits_eq (m : Machine σ) : m.visits = m.states.filterMap entering? := by
  induction m using run_induction with
  | done m r hdone =>
    rw [visits_of_next_inl hdone, states_of_next_inl hdone]
    cases hentering : m.entering? <;> simp [hentering]
  | step m m' hstep ih =>
    rw [visits_of_next_inr hstep, states_of_next_inr hstep, ih]
    cases hentering : m.entering? <;> simp [hentering]

end Machine

/-! ## 3. Around a visit

The counter at a node is told from outside: it is the length of the way from the node out to the
first level. -/

section
variable [Numerics] {σ : Type} [Environment σ] {limit : Option Nat}

/-- The depth of a visit counts the visits around it. -/
theorem Visit.Path.depth_eq {v w : Visit σ} {way : List (Visit σ)} (h : v.Path limit w way) :
    w.depth + 1 = v.depth + way.length := by
  induction h with
  | self => rfl
  | @operand v u w way k hu _ ih =>
    have hdepth := hu.depth_eq
    rw [List.length_append, List.length_singleton]
    omega

/-- The states of a row of statements: those of the first, and if it has a value those of the
others. -/
def Evaluator.states (ev : Evaluator) : List Tree → σ → List (Machine σ)
  | [], _ => []
  | t :: ts, env =>
    Machine.states ⟨ev.maxDepth, ev.depth, [], .enter t, env⟩ ++
      match execute t (ev, env) with
      | (.ok _, (ev, env)) => states ev ts env
      | (.error _, _) => []

/-- The visits of a row are those of its states. -/
theorem Evaluator.visits_eq (ev : Evaluator) (ts : List Tree) (env : σ) :
    ev.visits ts env = (ev.states ts env).filterMap Machine.entering? := by
  induction ts generalizing ev env with
  | nil => rfl
  | cons t ts ih =>
    rw [visits, states, List.filterMap_append, Machine.visits_eq]
    congr 1
    rcases execute t (ev, env) with ⟨i | v, ev', env'⟩
    · rfl
    · exact ih ev' env'

/-- Each statement of a row starts from a counter at zero, so that all states keep count. -/
theorem Evaluator.counted_of_mem_states (ts : List Tree) (env : σ) {m : Machine σ}
    (hm : m ∈ (withLimit limit).states ts env) : m.Counted limit := by
  induction ts generalizing env with
  | nil => exact absurd hm List.not_mem_nil
  | cons t ts ih =>
    rw [states, List.mem_append] at hm
    rcases hm with hfirst | hlater
    · exact (Machine.counted_start limit t env).of_mem_states hfirst
    · rw [execute, evaluate_eq] at hlater
      rcases hout : Metrology.evaluate (withLimit limit).maxDepth (withLimit limit).depth t env with
        ⟨i | v, env'⟩
      all_goals simp only [hout] at hlater
      · exact absurd hlater List.not_mem_nil
      · exact ih env' hlater

end

/-! ## 4. Calls

Calls may differ in everything, the type of their environment included. So a host's history is a
list of `Call`, and what it can leave behind is what `serve` hands back of the evaluator. -/

/-- What a host can call an evaluator for. -/
inductive Method where
  | evaluate
  | execute
  | evaluateBlock
  | run
  deriving DecidableEq

/-- The request behind a call; a statement is executed as a node is evaluated. -/
def Method.request : Method → Request
  | evaluate => .evaluate
  | execute => .evaluate
  | evaluateBlock => .evaluateBlock
  | run => .run

/-- What a call hands out. -/
inductive Reply where
  | value (r : Outcome Value)
  | lastValue (r : Outcome (Option Value))
  | script (r : Except Failure (Option Value))

/-- A call of an evaluator, on a tree and in an environment of any type. -/
structure Call where
  {σ : Type}
  [environment : Environment σ]
  method : Method
  tree : Tree
  env : σ

attribute [instance] Call.environment

namespace Call

variable [Numerics]

/-- The reply to a call, with the evaluator and the environment afterwards. -/
def serve (c : Call) (ev : Evaluator) : Reply × (Evaluator × c.σ) :=
  match c.method with
  | .evaluate => ((Evaluator.evaluate c.tree (ev, c.env)).map .value id)
  | .execute => ((Evaluator.execute c.tree (ev, c.env)).map .value id)
  | .evaluateBlock => ((Evaluator.evaluateBlock c.tree (ev, c.env)).map .lastValue id)
  | .run => ((Evaluator.run c.tree (ev, c.env)).map .script id)

/-- The states of the machine during a call. -/
def states (c : Call) (ev : Evaluator) : List (Machine c.σ) :=
  ev.states (c.method.request.roots c.tree) c.env

/-- A call leaves the evaluator as it was. -/
theorem serve_evaluator (c : Call) (ev : Evaluator) : (c.serve ev).2.1 = ev := by
  have hanswer : ∀ q : Request, (q.answer c.tree (ev, c.env)).2.1 = ev := by
    intro q
    rw [Request.answer_eq]
  rw [serve]
  cases c.method with
  | evaluate => exact hanswer .evaluate
  | execute => exact hanswer .evaluate
  | evaluateBlock => exact hanswer .evaluateBlock
  | run => exact hanswer .run

end Call

namespace Evaluator

variable [Numerics]

/-- An evaluator after calls, each made on what the one before left. -/
def after (ev : Evaluator) (calls : List Call) : Evaluator :=
  calls.foldl (fun ev c => (c.serve ev).2.1) ev

/-- Calls leave an evaluator as it was, any number of them. -/
theorem after_eq (ev : Evaluator) (calls : List Call) : ev.after calls = ev := by
  induction calls with
  | nil => rfl
  | cons c calls ih =>
    rw [after, List.foldl_cons, c.serve_evaluator]
    exact ih

/-- An evaluator carries nothing from one call to the next. Whatever calls were made before, on any
trees and in any environments and with any outcomes, the counter is at zero and the limit is the one
that the evaluator was built with. In every state of the next call the counter is the number of
nodes begun and not left, and this number is within the limit; where a node is entered, it is the
number of nodes around it that are being evaluated. And the reply and the environment that this call
leaves are those of an evaluator that is new. -/
theorem carries_nothing (maxDepth : Option Nat) (before : List Call) (c : Call) :
    let ev := (withLimit maxDepth).after before
    (ev.depth = 0 ∧ ev.maxDepth = maxDepth) ∧
      (∀ m ∈ c.states ev, m.limit = maxDepth ∧ m.depth = m.begun.length ∧
        ∀ most, maxDepth = some most → m.depth ≤ most) ∧
      (∀ m ∈ c.states ev, ∀ w, m.entering? = some w →
        ∃ k first outer, Turn maxDepth 0 (c.method.request.roots c.tree) c.env k first ∧
          first.Path maxDepth w (w :: outer) ∧ m.depth = outer.length) ∧
      c.serve ev = c.serve (withLimit maxDepth) := by
  intro ev
  have hev : ev = withLimit maxDepth := after_eq _ before
  rw [hev]
  refine ⟨⟨rfl, rfl⟩, ?_, ?_, rfl⟩
  · intro m hm
    obtain ⟨hlimit, hdepth, hle⟩ := counted_of_mem_states _ c.env hm
    exact ⟨hlimit, hdepth, hle⟩
  · intro m hm w hw
    -- what is entered is a visit of the request, and so is reached from the first level
    have hvisit : w ∈ c.method.request.visits c.tree (withLimit maxDepth) c.env := by
      rw [Request.visits, visits_eq]
      exact List.mem_filterMap.2 ⟨m, hm, hw⟩
    obtain ⟨k, first, hfirst, hreaches⟩ := (Request.mem_visits _ _ _ _ w).1 hvisit
    obtain ⟨way, hway⟩ := hreaches.exists_path
    obtain ⟨outer, rfl, -⟩ := hway.exists_outer
    refine ⟨k, first, outer, hfirst, hway, ?_⟩
    have hcount := hway.depth_eq
    have hzero : first.depth = 0 := hfirst.depth_eq
    have hcounter : m.depth = w.depth := Machine.depth_of_entering? hw
    rw [List.length_cons] at hcount
    omega

end Evaluator

end Metrology
