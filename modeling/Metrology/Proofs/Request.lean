/-
The requests of a host, as one.

A host asks an evaluator for a node, for a block or for a whole script. The three differ in which
trees stand at the first level and in what is made of their values, and agree in everything between:
a row of trees is evaluated in order, each with nothing around it. `Request.answer_eq` says so. What
holds of every request is proved of such a row, by induction on it, and carried over by
`Request.finish`.
-/
import Metrology.Evaluation.Evaluator
set_option autoImplicit false

namespace Metrology

/-! ## 1. Requests -/

/-- What a host can have evaluated: a node, the statements of a block, a script. -/
inductive Request where
  | evaluate
  | evaluateBlock
  | run
  deriving DecidableEq

namespace Request

/-- The answer to a request. A node that comes out well has a value, and what a script reports is a
failure; the other requests hand out any interrupt. -/
def answer [Numerics] {σ : Type} [Environment σ] (q : Request) (t : Tree) (s : Evaluator × σ) :
    Outcome (Option Value) × (Evaluator × σ) :=
  match q with
  | evaluate => ((Evaluator.evaluate t s).1.map some, (Evaluator.evaluate t s).2)
  | evaluateBlock => Evaluator.evaluateBlock t s
  | run => ((Evaluator.run t s).1.mapError .failure, (Evaluator.run t s).2)

/-! ## 2. The first level -/

/-- The trees at the first level, in the order of their evaluation. -/
def roots (q : Request) (t : Tree) : List Tree :=
  match q with
  | evaluate => [t]
  | evaluateBlock => if t.kind = .block then t.nodes else []
  | run => if t.kind = .block then t.nodes else [t]

/-- What a request makes of the outcome of its first level. -/
def finish (q : Request) (t : Tree) (r : Outcome (List Value)) : Outcome (Option Value) :=
  match q with
  | evaluate => r.map List.getLast?
  | evaluateBlock =>
    if t.kind = .block then r.map List.getLast?
    else Outcome.fail (.malformedNode t.kind "expected a block")
  | run => (Evaluator.settle t.span (r.map List.getLast?)).mapError .failure

/-- Other than for a script, only values of the whole first level make a value. -/
theorem finish_eq_ok {q : Request} {t : Tree} {r : Outcome (List Value)} {v : Option Value}
    (hq : q ≠ .run) (h : q.finish t r = .ok v) :
    (q = .evaluateBlock → t.kind = .block) ∧ ∃ vs, r = .ok vs ∧ v = vs.getLast? := by
  have hmap : r.map List.getLast? = .ok v → ∃ vs, r = .ok vs ∧ v = vs.getLast? := by
    intro hr
    obtain ⟨vs, hvs, hv⟩ := Outcome.map_eq_ok.1 hr
    exact ⟨vs, hvs, hv.symm⟩
  cases q with
  | evaluate => exact ⟨nofun, hmap h⟩
  | evaluateBlock =>
    rw [finish] at h
    split at h
    · exact ⟨fun _ => ‹_›, hmap h⟩
    · cases h
  | run => exact absurd rfl hq

/-- A request that fails hands on a failure of its first level, or there was no block where one was
asked for, or a signal other than `return` came to the end of a script. -/
theorem finish_eq_failure {q : Request} {t : Tree} {r : Outcome (List Value)} {f : Failure}
    (h : q.finish t r = .error (.failure f)) :
    r = .error (.failure f) ∨
      q = .evaluateBlock ∧ t.kind ≠ .block ∧
        f = .of (.malformedNode t.kind "expected a block") ∨
      q = .run ∧ ∃ keyword : Keyword, keyword ≠ .ret ∧
        f = (Failure.of (.strayControl keyword.text)).locate t.span := by
  cases q with
  | evaluate => exact .inl (Outcome.map_eq_error.1 h)
  | evaluateBlock =>
    rw [finish] at h
    split at h
    · exact .inl (Outcome.map_eq_error.1 h)
    · cases h
      exact .inr (.inl ⟨rfl, ‹_›, rfl⟩)
  | run =>
    rcases r with a | vs
    · cases a with
      | failure g =>
        cases h
        exact .inl rfl
      | returning v => cases h
      | breaking =>
        cases h
        exact .inr (.inr ⟨rfl, .brk, nofun, rfl⟩)
      | continuing =>
        cases h
        exact .inr (.inr ⟨rfl, .cont, nofun, rfl⟩)
    · cases h

/-- The last value of a row of one is its value. -/
theorem map_singleton (r : Outcome Value) :
    (r.map fun v => [v]).map List.getLast? = r.map some := by
  rcases r with i | v
  · rfl
  · rfl

section
variable [Numerics] {σ : Type} [Environment σ]

/-- A row of statements leaves the evaluator alone. -/
theorem inOrder_execute (ts : List Tree) (ev : Evaluator) (env : σ) :
    inOrder Evaluator.execute ts (ev, env) =
      ((inOrder (Metrology.evaluate ev.maxDepth ev.depth) ts env).1,
        (ev, (inOrder (Metrology.evaluate ev.maxDepth ev.depth) ts env).2)) := by
  induction ts generalizing env with
  | nil => rfl
  | cons t ts ih =>
    have hexecute : Evaluator.execute t (ev, env) =
        ((Metrology.evaluate ev.maxDepth ev.depth t env).1,
          (ev, (Metrology.evaluate ev.maxDepth ev.depth t env).2)) := Evaluator.evaluate_eq t ev env
    rcases ht : Metrology.evaluate ev.maxDepth ev.depth t env with ⟨i | v, env'⟩
    all_goals rw [ht] at hexecute
    · rw [inOrder_cons_error ht, inOrder_cons_error hexecute]
    · rw [inOrder_cons_ok ht, inOrder_cons_ok hexecute, ih]

/-- A block evaluates its statements in order, and comes to the value of the last of them. -/
theorem evaluateBlock_eq (t : Tree) (ev : Evaluator) (env : σ) (h : t.kind = .block) :
    Evaluator.evaluateBlock t (ev, env) =
      ((inOrder (Metrology.evaluate ev.maxDepth ev.depth) t.nodes env).1.map List.getLast?,
        (ev, (inOrder (Metrology.evaluate ev.maxDepth ev.depth) t.nodes env).2)) := by
  rw [Evaluator.evaluateBlock, if_pos h, inOrder_execute]
  rcases inOrder (Metrology.evaluate ev.maxDepth ev.depth) t.nodes env with ⟨r, env'⟩
  cases r <;> rfl

/-- A script settles the outcome of its first level. -/
theorem run_eq (t : Tree) (ev : Evaluator) (env : σ) :
    Evaluator.run t (ev, env) =
      (Evaluator.settle t.span
        ((inOrder (Metrology.evaluate ev.maxDepth ev.depth) (run.roots t) env).1.map List.getLast?),
        (ev, (inOrder (Metrology.evaluate ev.maxDepth ev.depth) (run.roots t) env).2)) := by
  rw [Evaluator.run, roots]
  by_cases h : t.kind = .block
  · rw [if_pos h, if_pos h, evaluateBlock_eq t ev env h]
  · rw [if_neg h, if_neg h, Evaluator.evaluate_eq, inOrder_singleton, map_singleton]

/-- Every request evaluates its first level in order and finishes by looking at the outcome. -/
theorem answer_eq (q : Request) (t : Tree) (ev : Evaluator) (env : σ) :
    q.answer t (ev, env) =
      (q.finish t (inOrder (Metrology.evaluate ev.maxDepth ev.depth) (q.roots t) env).1,
        (ev, (inOrder (Metrology.evaluate ev.maxDepth ev.depth) (q.roots t) env).2)) := by
  cases q with
  | evaluate =>
    simp only [answer, roots, finish]
    rw [Evaluator.evaluate_eq, inOrder_singleton, map_singleton]
  | evaluateBlock =>
    simp only [answer, roots, finish]
    by_cases h : t.kind = .block
    · rw [evaluateBlock_eq t ev env h, if_pos h, if_pos h]
    · rw [if_neg h, if_neg h, Evaluator.evaluateBlock, if_neg h, inOrder_nil]
  | run =>
    simp only [answer, finish]
    rw [run_eq]

end

end Request

end Metrology
