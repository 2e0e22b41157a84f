/-
What a request does to its environment, in full.

The record of a request is a prefix of the listing of its tree. That says which requests are made
and when. It remains to say what is bound: a binding on the record was made by an assignment that
the evaluation came to, with the value that its operand yielded just before. For a scope nothing is
left to say after that, since a scope changes by bindings only: replaying those on the record gives
the scope that comes out.

The place of a binding on the record is given by the requests before it. Rows of trees make their
requests one after the other, so this place belongs to exactly one member of a row, and going down
from row to row ends at the assignment.
-/
import Metrology.Proofs.Entered
import Metrology.Proofs.Listing
set_option autoImplicit false

namespace Metrology

/-! ## 1. Places on a record -/

/-- A place on a list lies within a first part of it or behind that part. -/
theorem prefix_or_prefix_of_append {α : Type} {before part whole : List α} {a : α}
    (h : before ++ [a] <+: whole) (hpart : part <+: whole) :
    before ++ [a] <+: part ∨ part <+: before := by
  rcases List.prefix_or_prefix_of_prefix h hpart with hin | hin
  · exact .inl hin
  · rcases List.prefix_concat_iff.1 hin with heq | hbehind
    · exact .inl (heq ▸ List.prefix_refl _)
    · exact .inr hbehind

/-- No place of a list lies behind the list. -/
theorem append_not_within {α : Type} {before part : List α} {a : α} (hpart : part <+: before) :
    ¬ before ++ [a] <+: part := by
  intro h
  have hle := (h.trans hpart).length_le
  rw [List.length_append, List.length_singleton] at hle
  omega

/-! ## 2. Who makes a request -/

section
variable [Numerics] {σ : Type} [Environment σ] {limit : Option Nat}

/-- A request of a row is one of the member whose turn it was. -/
theorem exists_turn_of_access {depth : Nat} {ts : List Tree} {env : Traced σ}
    {before : List Access} {a : Access} (henv : env.accesses <+: before)
    (h : before ++ [a] <+: (inOrder (evaluate limit depth) ts env).2.accesses) :
    ∃ i w, Turn limit depth ts env i w ∧ w.env.accesses <+: before ∧
      before ++ [a] <+: (w.result limit).2.accesses := by
  induction ts generalizing env with
  | nil => exact absurd h (append_not_within henv)
  | cons t ts ih =>
    rcases ht : evaluate limit depth t env with ⟨i | v, env'⟩
    · -- an interrupt ends the row: all its requests are those of the first member
      rw [inOrder_cons_error ht] at h
      refine ⟨0, _, .first, henv, ?_⟩
      rw [Visit.result, ht]
      exact h
    · rw [inOrder_cons_ok ht] at h
      have hgrows := Traced.movesOn_accesses.inOrder limit depth ts env'
      -- the place is one of the first member, or it lies behind all that this one asked for
      rcases prefix_or_prefix_of_append h hgrows with hfirst | hbehind
      · refine ⟨0, _, .first, henv, ?_⟩
        rw [Visit.result, ht]
        exact hfirst
      · obtain ⟨i, w, hw, hwenv, hwlog⟩ := ih hbehind h
        exact ⟨i + 1, w, .later ht hw, hwenv, hwlog⟩

/-- Putting values together binds only as an assembly that says so, and it binds the first value. -/
theorem Assembly.of_bind {a : Assembly} {vs : List Value} {env : Traced σ}
    {before : List Access} {name : String} {x : Value} (henv : env.accesses <+: before)
    (h : before ++ [.bind name x] <+: (a.run vs env).2.accesses) :
    a = .bind name ∧ vs.head? = some x ∧ env.accesses = before := by
  rcases a.events_cases with ⟨other, rfl⟩ | ⟨other, rfl⟩ | hnone
  · have hlog := Traced.accesses_lookup other env
    have hrun : ((Assembly.lookup other).run vs env).2 = (Environment.lookup other env).2 := by
      simp only [Assembly.run]
      rcases Environment.lookup other env with ⟨_ | v, env'⟩
      · rfl
      · rfl
    rw [hrun, hlog] at h
    -- the one request that is new is a lookup
    rcases List.prefix_concat_iff.1 h with heq | hin
    · have hsame := List.append_inj_right' heq rfl
      exact absurd hsame (by simp)
    · exact absurd hin (append_not_within henv)
  · rcases vs with _ | ⟨v, vs⟩
    · exact absurd h (append_not_within henv)
    · rw [Assembly.run, Traced.accesses_bind] at h
      rcases List.prefix_concat_iff.1 h with heq | hin
      · have hbefore := List.append_inj_left' heq rfl
        have hsame := List.append_inj_right' heq rfl
        rw [List.singleton_inj, Access.bind.injEq] at hsame
        obtain ⟨rfl, rfl⟩ := hsame
        exact ⟨rfl, rfl, hbefore.symm⟩
      · exact absurd hin (append_not_within henv)
  · obtain ⟨r, hrun⟩ := Assembly.run_of_events_eq_nil hnone vs
    rw [hrun env] at h
    exact absurd h (append_not_within henv)

/-- A visit of an assignment to `name` whose operand yielded `x`, with `before` the requests made
by then. -/
structure Visit.Assigns (limit : Option Nat) (w : Visit (Traced σ)) (before : List Access)
    (name : String) (x : Value) : Prop where
  kind : w.node.kind = .assign
  token : w.node.tokenAt? 0 = some name
  operand : ∃ u e, w.node.onlyNode? = some u.node ∧ w.Evaluates limit 0 u ∧
    u.result limit = (.ok x, e) ∧ e.accesses = before

/-- A visit that has come to bind `name` to the first of its operands' values is one of an
assignment, and that value is what the operand yielded. -/
theorem Visit.assigns_of_row {v : Visit (Traced σ)} {vs : List Value} {env : Traced σ}
    {name : String} {x : Value} (hwithin : pastLimit limit v.depth = none)
    (hrow : inOrder (evaluate limit (v.depth + 1)) v.node.plan.operands v.env = (.ok vs, env))
    (hasm : v.node.plan.assembly = .bind name) (hhead : vs.head? = some x) :
    v.Assigns limit env.accesses name x := by
  obtain ⟨hkind, htoken, hops⟩ := v.node.rule.of_bind hasm
  refine ⟨hkind, htoken, ?_⟩
  rcases honly : v.node.onlyNode? with _ | u
  · -- without its one node the assignment has no operand, and no value to bind
    rw [hops, honly] at hrow
    cases hrow
    cases hhead
  · rw [hops, honly, Option.toList_some, inOrder_singleton] at hrow
    obtain ⟨hvalues, henv⟩ := Prod.mk.inj hrow
    obtain ⟨y, hy, rfl⟩ := Outcome.map_eq_ok.1 hvalues
    cases hhead
    refine ⟨⟨v.depth + 1, u, v.env⟩, env, rfl, ⟨hwithin, ?_⟩, Prod.ext hy henv, rfl⟩
    rw [hops, honly]
    exact .first

/-- A binding on the record of a visit was made by an assignment that the visit came to. By
induction over visits: the requests of the operands are theirs, and the one that a visit may add is
its own. -/
theorem Visit.exists_assigns {before : List Access} {name : String} {x : Value}
    (v : Visit (Traced σ)) (henv : v.env.accesses <+: before)
    (h : before ++ [.bind name x] <+: (v.result limit).2.accesses) :
    ∃ w, v.Reaches limit w ∧ w.Assigns limit before name x := by
  induction v using Visit.induction (Traced σ) limit with
  | visit v ih =>
    rcases hpast : pastLimit limit v.depth with _ | most
    · rw [Visit.result_of_within hpast] at h
      have inOperands : before ++ [.bind name x] <+:
          (inOrder (evaluate limit (v.depth + 1)) v.node.plan.operands v.env).2.accesses →
          ∃ w, v.Reaches limit w ∧ w.Assigns limit before name x := by
        intro hin
        obtain ⟨i, u, hturn, huenv, hulog⟩ := exists_turn_of_access henv hin
        have hu : v.Evaluates limit i u := ⟨hpast, hturn⟩
        obtain ⟨w, hw, hassigns⟩ := ih i u hu huenv hulog
        exact ⟨w, hu.reaches hw, hassigns⟩
      rcases hrow : inOrder (evaluate limit (v.depth + 1)) v.node.plan.operands v.env with
        ⟨i | vs, env⟩
      all_goals rw [hrow] at h inOperands
      · exact inOperands h
      · have hlog : before ++ [.bind name x] <+:
            (v.node.plan.assembly.run vs env).2.accesses := h
        have hgrows := Traced.movesOn_accesses.run v.node.plan.assembly vs env
        rcases prefix_or_prefix_of_append hlog hgrows with hin | hbehind
        · exact inOperands hin
        · -- behind the requests of all operands: the visit is that of the assignment
          obtain ⟨hasm, hhead, rfl⟩ := Assembly.of_bind hbehind hlog
          exact ⟨v, .refl v, Visit.assigns_of_row hpast hrow hasm hhead⟩
    · rw [Visit.result_of_past hpast] at h
      -- past the limit there are no requests at all
      exact absurd h (append_not_within henv)

end

/-! ## 3. Replaying a record -/

/-- A scope after a request: changed by a binding, and not by a lookup. -/
def Access.replay (s : Scope) : Access → Scope
  | lookup _ _ => s
  | bind name v => s.bind name v

/-- At any moment a traced scope is the scope from before with the record replayed. -/
theorem kept_replay (before : Scope) :
    Kept fun s : Traced Scope => s.inner = s.accesses.foldl Access.replay before where
  lookup name s hs := by
    rw [Traced.accesses_lookup, List.foldl_append, ← hs]
    rfl
  bind name v s hs := by
    rw [Traced.accesses_bind, List.foldl_append, ← hs]
    rfl

/-! ## 4. Requests -/

/-- The first level of a request has the listing of the tree, unless the request fails for not
being about a block. -/
theorem Request.flatMap_roots (q : Request) (t : Tree) (h : q = .evaluateBlock → t.kind = .block) :
    (q.roots t).flatMap Tree.events = t.events := by
  have hblock : t.kind = .block → t.nodes.flatMap Tree.events = t.events := by
    intro hk
    rw [Tree.events_eq]
    simp [Tree.listed, Tree.ownEvents, hk]
  cases q with
  | evaluate => exact List.flatMap_singleton _ _
  | evaluateBlock =>
    rw [roots, if_pos (h rfl)]
    exact hblock (h rfl)
  | run =>
    rw [roots]
    split
    · exact hblock ‹_›
    · exact List.flatMap_singleton _ _

section
variable [Numerics] {σ : Type} [Environment σ]

/-- A request follows the listing of its tree. An outcome of `run` tells nothing about the whole of
it, since a script can end by a `return`. -/
theorem Request.answer_follows (q : Request) (t : Tree) (ev : Evaluator) (s : Traced σ) :
    ∃ as, (q.answer t (ev, s)).2.2.accesses = s.accesses ++ as ∧
      as.map Access.event <+: t.events ∧
      (q ≠ .run → ∀ v, (q.answer t (ev, s)).1 = .ok v → as.map Access.event = t.events) := by
  rw [answer_eq]
  obtain ⟨as, hlog, hbegun, hwhole⟩ := inOrder_follows (q.roots t)
    (fun u _ => evaluate_follows ev.maxDepth u ev.depth) s
  refine ⟨as, hlog, ?_, fun hrun v hv => ?_⟩
  · -- what is no block has no first level to be asked for one
    by_cases hq : q = .evaluateBlock → t.kind = .block
    · rwa [q.flatMap_roots t hq] at hbegun
    · obtain ⟨rfl, hk⟩ := Classical.not_imp.1 hq
      rw [roots, if_neg hk, List.flatMap_nil, List.prefix_nil] at hbegun
      rw [hbegun]
      exact List.nil_prefix
  · obtain ⟨hblock, vs, hvs, -⟩ := finish_eq_ok hrun hv
    rw [hwhole vs hvs, q.flatMap_roots t hblock]

/-- The requests that a host's request makes of its environment. They are no different for being
recorded. They are a prefix of the tree's listing, in its order and each once, and the whole of it
if a node or a block came out with a value. Every binding has the value that the operand of its
assignment yielded right before. And a scope comes out as the bindings made of it, in order, leave
it. -/
theorem Request.accesses_follow_events (q : Request) (t : Tree) (ev : Evaluator) (env : σ) :
    let done := q.answer t (ev, Traced.start env)
    (done.1 = (q.answer t (ev, env)).1 ∧ done.2.2.inner = (q.answer t (ev, env)).2.2) ∧
      done.2.2.accesses.map Access.event <+: t.events ∧
      (q ≠ .run → ∀ v, done.1 = .ok v → done.2.2.accesses.map Access.event = t.events) ∧
      (∀ before name x, before ++ [.bind name x] <+: done.2.2.accesses →
        ∃ w ∈ q.visits t ev (Traced.start env), w.Assigns ev.maxDepth before name x) ∧
      ∀ scope : Scope, (q.answer t (ev, scope)).2.2 =
        (q.answer t (ev, Traced.start scope)).2.2.accesses.foldl Access.replay scope := by
  intro done
  obtain ⟨as, hlog, hbegun, hwhole⟩ := q.answer_follows t ev (Traced.start env)
  have haccesses : done.2.2.accesses = as := hlog
  refine ⟨answer_traced q t ev (Traced.start env), haccesses ▸ hbegun, haccesses ▸ hwhole, ?_, ?_⟩
  · intro before name x hbind
    have hrow : before ++ [.bind name x] <+: (inOrder (Metrology.evaluate ev.maxDepth ev.depth)
        (q.roots t) (Traced.start env)).2.accesses := by
      have hdone := q.answer_eq t ev (Traced.start env)
      rw [show done = _ from hdone] at hbind
      exact hbind
    obtain ⟨i, v, hturn, henv, hvlog⟩ := exists_turn_of_access
      (Traced.accesses_start env ▸ List.nil_prefix) hrow
    obtain ⟨w, hw, hassigns⟩ := v.exists_assigns henv hvlog
    exact ⟨w, (q.mem_visits t ev _ w).2 ⟨i, v, hturn, hw⟩, hassigns⟩
  · intro scope
    have hinner := (answer_traced q t ev (Traced.start scope)).2
    rw [← show _ = (q.answer t (ev, scope)).2.2 from hinner]
    exact (kept_replay scope).answer q t ev (Traced.start scope) rfl

end

end Metrology
