/-
The place of a failure.

A failure is raised without a place, and on its way out it takes the place of the first node that
has one. `Visit.Path` is that way as a list, from the node that raised the failure out to the root,
and `place` reads the first span off it. So the two main statements say which list is read:
`Evaluator.failure_place` for a node, where the way ends in the node itself, and
`Evaluator.script_failure_place` for a script.

Scripts are where the ends of the way differ. A block that is run as a script is not visited, only
its statements are, so the way ends in a statement, and the span of the block is not on it. A signal
that leaves the script becomes a failure there, and this one does get the span of the script.
-/
import Metrology.Evaluation.Scope
import Metrology.Proofs.Interrupts
import Metrology.Proofs.Spans.Erasure
import Metrology.Tree.Build
import Mathlib.Data.List.Permutation
set_option autoImplicit false

namespace Metrology

/-! ## 1. Ways out

On its way out a failure meets `with_span_if_error` once for each node, which gives it a span if it
has none. So the first span on the way is the one it keeps. The way is unique because only one node
of a run raises what comes out. -/

namespace Visit

section
variable {σ : Type}

/-- The first span on a way. -/
def place (way : List (Visit σ)) : Option Span := way.findSome? fun u => u.node.span

/-- The way out of a node that is its own root has the place of the node. -/
theorem place_singleton (v : Visit σ) : place [v] = v.node.span := List.findSome?_singleton

/-- A way that goes on outward keeps its place, and only one without a place takes that of the next
node. -/
theorem place_append_singleton (way : List (Visit σ)) (v : Visit σ) :
    place (way ++ [v]) = (place way).or v.node.span := by
  rw [place, List.findSome?_append, ← place, ← place, place_singleton]

/-- A way has no place just if none of its nodes has a span. -/
theorem place_eq_none_iff {way : List (Visit σ)} :
    place way = none ↔ ∀ u ∈ way, u.node.span = none :=
  List.findSome?_eq_none_iff

end

variable [Numerics] {σ : Type} [Environment σ] {limit : Option Nat}

/-- `v` comes to `w`, and the list has the visits on the way from `w` out to `v`: `w` is the first
of them, `v` the last, and each is an operand of the next. -/
inductive Path (limit : Option Nat) : Visit σ → Visit σ → List (Visit σ) → Prop
  | self {v : Visit σ} : Path limit v v [v]
  | operand {v u w : Visit σ} {way : List (Visit σ)} {k : Nat} : v.Evaluates limit k u →
      Path limit u w way → Path limit v w (way ++ [v])

namespace Path

variable {v w : Visit σ} {way : List (Visit σ)}

/-- A way begins with the visit it comes from, and everything further out on it began its
evaluation, so is within the limit. -/
theorem exists_outer (h : v.Path limit w way) :
    ∃ outer, way = w :: outer ∧ ∀ u ∈ outer, pastLimit limit u.depth = none := by
  induction h with
  | self => exact ⟨[], rfl, fun u hu => absurd hu List.not_mem_nil⟩
  | @operand v u w way k hu _ ih =>
    obtain ⟨outer, rfl, houter⟩ := ih
    refine ⟨outer ++ [v], rfl, fun x hx => ?_⟩
    rcases List.mem_append.1 hx with hx | hx
    · exact houter x hx
    · rw [List.mem_singleton.1 hx]
      exact hu.1

/-- A way ends in the visit it leads out to. -/
theorem mem_outermost (h : v.Path limit w way) : v ∈ way := by
  cases h with
  | self => exact List.mem_singleton_self v
  | operand _ _ => exact List.mem_append_right _ (List.mem_singleton_self v)

/-- The place that is collected on the way out is the first span on it. -/
theorem reachesAt (h : v.Path limit w way) : v.ReachesAt limit w (place way) := by
  induction h with
  | @self v =>
    rw [place_singleton]
    exact .self
  | operand hu _ ih =>
    rw [place_append_singleton]
    exact .operand hu ih

/-- An interrupt raised at the inner end of a way comes out at the outer end, with the first place
on the way. -/
theorem result (h : v.Path limit w way) {i : Interrupt} {e : σ} (hi : w.Raises limit i e) :
    v.result limit = (.error (i.locate (place way)), e) :=
  h.reachesAt.result hi

/-- There is only one way out of a visit that something was raised at. -/
theorem unique {w' : Visit σ} {way' : List (Visit σ)} {i i' : Interrupt} {e e' : σ}
    (h : v.Path limit w way) (hi : w.Raises limit i e) (h' : v.Path limit w' way')
    (hi' : w'.Raises limit i' e') : w' = w ∧ way' = way := by
  induction h generalizing w' way' with
  | self =>
    cases h' with
    | self => exact ⟨rfl, rfl⟩
    | operand hu h' => exact absurd (h'.result hi') (hi.not_error hu)
  | operand hu h ih =>
    cases h' with
    | self => exact absurd (h.result hi) (hi'.not_error hu)
    | operand hu' h' =>
      obtain rfl := hu.eq_of_error hu' (h.result hi) (h'.result hi')
      obtain ⟨rfl, rfl⟩ := ih hi h' hi'
      exact ⟨rfl, rfl⟩

end Path

/-- What is come to is come to on some way. -/
theorem Reaches.exists_path {v w : Visit σ} (h : v.Reaches limit w) :
    ∃ way, v.Path limit w way := by
  induction h using Relation.ReflTransGen.head_induction_on with
  | refl => exact ⟨_, .self⟩
  | head hstep _ ih =>
    obtain ⟨i, hi⟩ := hstep
    obtain ⟨way, hway⟩ := ih
    exact ⟨_, .operand hi hway⟩

/-- What is reached with a place is reached on a way that has this place. -/
theorem ReachesAt.exists_path {v w : Visit σ} {s : Option Span} (h : v.ReachesAt limit w s) :
    ∃ way, v.Path limit w way ∧ s = place way := by
  induction h with
  | @self v => exact ⟨[v], .self, (place_singleton v).symm⟩
  | @operand v u w k s hu _ ih =>
    obtain ⟨way, hway, rfl⟩ := ih
    exact ⟨way ++ [v], .operand hu hway, (place_append_singleton way v).symm⟩

/-- A failure that comes out of a visit was raised at the inner end of a way, has its cause from
there, and has the first place on the way. -/
theorem exists_path_of_failure {v : Visit σ} {f : Failure} {e : σ}
    (h : v.result limit = (.error (.failure f), e)) :
    ∃ w way, v.Path limit w way ∧ w.Raises limit (.failure (.of f.cause)) e ∧
      f = (Failure.of f.cause).locate (place way) := by
  obtain ⟨w, s, i, hw, hi, ha⟩ := v.exists_raises h
  obtain ⟨way, hway, rfl⟩ := hw.exists_path
  -- a signal stays a signal on its way out, so a failure was raised
  cases hi with
  | breaking _ _ _ => nomatch ha
  | continuing _ _ _ => nomatch ha
  | returnNothing _ _ _ _ => nomatch ha
  | returnValue _ _ _ _ _ => nomatch ha
  | @tooDeep most hpast =>
    obtain rfl : f = (Failure.of (.depthExceeded most)).locate (place way) :=
      Interrupt.failure.inj ha
    exact ⟨w, way, hway, .tooDeep hpast, rfl⟩
  | @failure cause vs e₁ _ hwithin hcause hrow hrun =>
    obtain rfl : f = (Failure.of cause).locate (place way) := Interrupt.failure.inj ha
    exact ⟨w, way, hway, .failure hwithin hcause hrow hrun, rfl⟩

/-- No node raises that a signal left the script. -/
theorem Raises.ne_strayControl {w : Visit σ} {cause : Cause} {e : σ}
    (h : w.Raises limit (.failure (.of cause)) e) (keyword : String) :
    cause ≠ .strayControl keyword := by
  rintro rfl
  cases h with
  | failure _ hcause _ _ => exact absurd hcause Bool.false_ne_true

/-- Only a visit past the limit raises that it is. -/
theorem Raises.past_of_depthExceeded {w : Visit σ} {most : Nat} {e : σ}
    (h : w.Raises limit (.failure (.of (.depthExceeded most))) e) :
    limit = some most ∧ most < w.level := by
  cases h with
  | tooDeep hpast =>
    obtain ⟨hlimit, hdeep⟩ := pastLimit_eq_some_iff.1 hpast
    exact ⟨hlimit, Nat.lt_succ_of_le hdeep⟩
  | failure _ hcause _ _ => exact absurd hcause Bool.false_ne_true

end Visit

/-! ## 2. Nodes

What a failure of `evaluate` says about where it was raised, and that spans have no other use. -/

namespace Evaluator

section
variable [Numerics] {σ : Type} [Environment σ]

/-- The place of a failure that comes out of a node: the first span on the way from the node that
raised the failure, for a depth limit the first node past it, out to the node itself; none just if
no node on the way has a span. There is one such way. And this is all that spans are for: without
them a tree gives the same value or signal, the same requests and environment, and a failure of the
same cause with the same notes. -/
theorem failure_place (t : Tree) (ev : Evaluator) (env : σ) :
    let root : Visit σ := ⟨ev.depth, t, env⟩
    execute t (ev, env) = evaluate t (ev, env) ∧
      (∀ f e, evaluate t (ev, env) = (.error (.failure f), (ev, e)) →
        ∃ w outer, root.Path ev.maxDepth w (w :: outer) ∧
          w.Raises ev.maxDepth (.failure (.of f.cause)) e ∧
          (∀ w' way' i' e', root.Path ev.maxDepth w' way' → w'.Raises ev.maxDepth i' e' →
            w' = w ∧ way' = w :: outer) ∧
          f.span = Visit.place (w :: outer) ∧
          (f.span = none ↔ ∀ u ∈ w :: outer, u.node.span = none) ∧
          ∀ most, f.cause = .depthExceeded most →
            ev.maxDepth = some most ∧ most < w.level ∧ ∀ u ∈ outer, u.level ≤ most) ∧
      evaluate t.eraseSpans (ev, env) =
        ((evaluate t (ev, env)).1.mapError Interrupt.eraseSpan, (evaluate t (ev, env)).2) ∧
      (evaluate t.eraseSpans (ev, Traced.start env)).2.2.accesses =
        (evaluate t (ev, Traced.start env)).2.2.accesses := by
  intro root
  refine ⟨rfl, ?_, ?_, ?_⟩
  · intro f e h
    have hresult : root.result ev.maxDepth = (.error (.failure f), e) := by
      rw [evaluate_eq] at h
      exact Prod.ext (Prod.mk.inj h).1 (Prod.mk.inj (Prod.mk.inj h).2).2
    obtain ⟨w, way, hway, hraises, hf⟩ := Visit.exists_path_of_failure hresult
    obtain ⟨outer, rfl, houter⟩ := hway.exists_outer
    have hspan : f.span = Visit.place (w :: outer) := by rw [hf]; rfl
    refine ⟨w, outer, hway, hraises, ?_, hspan, ?_, ?_⟩
    · intro w' way' i' e' hway' hi'
      exact hway.unique hraises hway' hi'
    · rw [hspan]
      exact Visit.place_eq_none_iff
    · intro most hcause
      rw [hcause] at hraises
      obtain ⟨hlimit, hdeep⟩ := hraises.past_of_depthExceeded
      refine ⟨hlimit, hdeep, fun u hu => ?_⟩
      -- further out everything was begun, which the limit allowed
      have hwithin := houter u hu
      rw [hlimit] at hwithin
      exact pastLimit_some_eq_none_iff.1 hwithin
  · rw [evaluate_eq, evaluate_eq, evaluate_eraseSpans]
  · rw [evaluate_eq, evaluate_eq, evaluate_eraseSpans]

/-! ## 3. Scripts

A script is run by `run`, which goes through `eval_block` where its root is a block. The span of the
root is given by the evaluation of a node and not by `eval_block`, and `run` itself gives it to
signals alone. -/

/-- The failure of a script was raised on a way that leads out to the first level, or is a signal
that left the script. -/
theorem failure_cases_of_run {t : Tree} {ev : Evaluator} {env : σ} {f : Failure}
    (h : (run t (ev, env)).1 = .error f) :
    (∃ keyword : Keyword, f = (Failure.of (.strayControl keyword.text)).locate t.span) ∨
      ∃ k first w way e, Turn ev.maxDepth ev.depth (Request.run.roots t) env k first ∧
        first.Path ev.maxDepth w way ∧ w.Raises ev.maxDepth (.failure (.of f.cause)) e ∧
        f = (Failure.of f.cause).locate (Visit.place way) := by
  obtain ⟨k, first, a, e, hturn, herr, rfl | ⟨-, hf⟩ | ⟨-, hf⟩⟩ := exists_turn_of_run h
  · obtain ⟨w, way, hway, hraises, hf⟩ := Visit.exists_path_of_failure herr
    exact .inr ⟨k, first, w, way, e, hturn, hway, hraises, hf⟩
  · exact .inl ⟨.brk, hf⟩
  · exact .inl ⟨.cont, hf⟩

/-- The place of a failure of a script that has a span. A signal that left the script is reported at
the script. Any other failure is reported at the first span on its way out to the script, with one
exception: the way out of a block ends at the statement, so if there is no span up to there the
failure has no place, although the block has one. -/
theorem script_failure_place (t : Tree) (ev : Evaluator) (env : σ) {s : Span}
    (hs : t.span = some s) {f : Failure} (h : (run t (ev, env)).1 = .error f) :
    (∀ keyword, f.cause = .strayControl keyword → f.span = some s) ∧
      ((∀ keyword, f.cause ≠ .strayControl keyword) →
        ∃ k first w way e, Turn ev.maxDepth ev.depth (Request.run.roots t) env k first ∧
          first.Path ev.maxDepth w way ∧ w.Raises ev.maxDepth (.failure (.of f.cause)) e ∧
          (f.span = none ↔ t.kind = .block ∧ ∀ u ∈ way, u.node.span = none) ∧
          (f.span ≠ none → f.span = (Visit.place way).or (some s))) := by
  rcases failure_cases_of_run h with
    ⟨keyword, rfl⟩ | ⟨k, first, w, way, e, hturn, hway, hraises, hf⟩
  · refine ⟨fun _ _ => hs, fun hcause => absurd rfl (hcause keyword.text)⟩
  · have hspan : f.span = Visit.place way := by rw [hf]; rfl
    refine ⟨fun keyword hcause => absurd hcause (hraises.ne_strayControl keyword), fun _ => ?_⟩
    refine ⟨k, first, w, way, e, hturn, hway, hraises, ?_, fun hsome => ?_⟩
    · rw [hspan, Visit.place_eq_none_iff]
      refine ⟨fun hnone => ⟨?_, hnone⟩, And.right⟩
      -- a script that is no block is visited itself, and has a span
      by_contra hk
      have hroot := hturn.mem
      rw [Request.roots, if_neg hk, List.mem_singleton] at hroot
      have hfirst := hnone first hway.mem_outermost
      rw [hroot, hs] at hfirst
      cases hfirst
    · rw [hspan] at hsome ⊢
      obtain ⟨r, hr⟩ := Option.ne_none_iff_exists'.1 hsome
      rw [hr, Option.some_or]

end

/-- A name that is not bound, in a group with a span, in a block with a span. -/
theorem script_failure_place_of_statement :
    let group := (Tree.group (.name "x")).withSpan ⟨1, 4⟩
    let script := (Tree.block [group]).withSpan ⟨0, 5⟩
    let f := (Failure.of (.undefinedVariable "x")).withSpan ⟨1, 4⟩
    script.span = some ⟨0, 5⟩ ∧ (run script (.new, Scope.empty)).1 = .error f ∧
      ∃ k first w way e, Turn none 0 (Request.run.roots script) Scope.empty k first ∧
        first.Path none w way ∧ w.Raises none (.failure (.of f.cause)) e ∧
        (f.span = none ↔ script.kind = .block ∧ ∀ u ∈ way, u.node.span = none) ∧
        (f.span ≠ none → f.span = (Visit.place way).or (some ⟨0, 5⟩)) := by
  intro group script f
  have hroots : Request.run.roots script = [group] := rfl
  have hplan : group.plan = ⟨[.name "x"], .group⟩ := rfl
  have hrun : (run script (.new, Scope.empty)).1 = .error f := by
    simp only [Request.run_eq, hroots, inOrder_singleton, Metrology.evaluate_eq, new, withLimit,
      pastLimit_none, hplan]
    rfl
  exact ⟨rfl, hrun, (script_failure_place script .new Scope.empty rfl hrun).2 fun _ => nofun⟩

/-- A name that is not bound, as the one statement of a block: the block has a span, and the failure
has no place. -/
theorem script_failure_without_place :
    let script := (Tree.block [.name "x"]).withSpan ⟨0, 5⟩
    script.span = some ⟨0, 5⟩ ∧
      (run script (.new, Scope.empty)).1 =
        .error ⟨.undefinedVariable "x", "undefined variable: x", none, []⟩ := by
  intro script
  have hroots : Request.run.roots script = [.name "x"] := rfl
  refine ⟨rfl, ?_⟩
  rw [Request.run_eq, hroots, inOrder_singleton, Metrology.evaluate_eq]
  rfl

end Evaluator

end Metrology
