/-
Where an interrupt comes from, and that nothing changes it on its way.

A visit that is interrupted either raised the interrupt itself, after all its operands had values,
or has it from one operand, the last one whose turn came. So behind every interrupted evaluation
stands one visit that raised what comes out (`result_eq_error_iff`), and only one
(`ReachesAt.raiser_unique`). What a visit can raise by itself is told by `Raises`: a control
statement its own signal, any node a failure, and a node past the limit the failure of that.

On the way out an interrupt meets nothing that looks at it. A failure that has no place takes the
place of the first node that has one, which is what `ReachesAt` keeps track of; a signal has no
place to take. Signals end at `run`, and nowhere else.
-/
import Metrology.Proofs.Entered
import Metrology.Proofs.Rules
set_option autoImplicit false

namespace Metrology

variable [Numerics] {σ : Type} [Environment σ] {limit : Option Nat}

/-! ## 1. Raising

In the engine every interrupt travels as the error of a result, and `?` hands it on. So it is not
written anywhere which node raised it; `Raises` is read off the plans. -/

namespace Visit

/-- The visit raises the interrupt itself and leaves the environment behind. The interrupt is as it
was raised, before it takes a place. -/
inductive Raises (limit : Option Nat) (v : Visit σ) : Interrupt → σ → Prop
  | tooDeep {most : Nat} : pastLimit limit v.depth = some most →
      Raises limit v (.failure (.of (.depthExceeded most))) v.env
  | failure {cause : Cause} {vs : List Value} {e e' : σ} : pastLimit limit v.depth = none →
      cause.ofNode = true →
      inOrder (evaluate limit (v.depth + 1)) v.node.plan.operands v.env = (.ok vs, e) →
      v.node.plan.assembly.run vs e = (Outcome.fail cause, e') →
      Raises limit v (.failure (.of cause)) e'
  | breaking : pastLimit limit v.depth = none → v.node.kind = .control →
      v.node.tokenAt? 0 = some Keyword.brk.text → Raises limit v .breaking v.env
  | continuing : pastLimit limit v.depth = none → v.node.kind = .control →
      v.node.tokenAt? 0 = some Keyword.cont.text → Raises limit v .continuing v.env
  | returnNothing : pastLimit limit v.depth = none → v.node.kind = .control →
      v.node.tokenAt? 0 = some Keyword.ret.text → v.node.nodes = [] →
      Raises limit v (.returning none) v.env
  | returnValue {u : Visit σ} {x : Value} {e : σ} : v.node.kind = .control →
      v.node.tokenAt? 0 = some Keyword.ret.text → v.node.nodes.head? = some u.node →
      v.Evaluates limit 0 u → u.result limit = (.ok x, e) → Raises limit v (.returning (some x)) e

/-- What a visit within the limit raises is what its assembly makes of the values of the
operands. -/
theorem Raises.exists_row {v : Visit σ} {i : Interrupt} {e' : σ} (h : v.Raises limit i e')
    (hwithin : pastLimit limit v.depth = none) :
    ∃ vs e, inOrder (evaluate limit (v.depth + 1)) v.node.plan.operands v.env = (.ok vs, e) ∧
      v.node.plan.assembly.run vs e = (.error i, e') := by
  cases h with
  | tooDeep hpast =>
    rw [hwithin] at hpast
    cases hpast
  | failure _ _ hrow hrun => exact ⟨_, _, hrow, hrun⟩
  | breaking _ hk ht =>
    rw [Tree.plan_of_keyword hk ht]
    exact ⟨[], v.env, rfl, rfl⟩
  | continuing _ hk ht =>
    rw [Tree.plan_of_keyword hk ht]
    exact ⟨[], v.env, rfl, rfl⟩
  | returnNothing _ hk ht hnodes =>
    rw [Tree.plan_of_keyword hk ht, Tree.keywordPlan, hnodes]
    exact ⟨[], v.env, rfl, rfl⟩
  | @returnValue u x _ hk ht hhead hu hresult =>
    have hturn := hu.2
    obtain ⟨us, hnodes⟩ := List.head?_eq_some_iff.1 hhead
    rw [Tree.plan_of_keyword hk ht, Tree.keywordPlan, hnodes] at hturn ⊢
    -- the first turn of the row is the operand's
    have hu' : u = ⟨v.depth + 1, u.node, v.env⟩ := hturn.unique .first
    have hvalue : evaluate limit (v.depth + 1) u.node v.env = (.ok x, e') := by
      rw [hu'] at hresult
      exact hresult
    refine ⟨[x], e', ?_, rfl⟩
    rw [List.take_succ_cons, List.take_zero, inOrder_singleton, hvalue]
    rfl

/-- A visit whose operands have values and whose assembly is interrupted raises that. -/
theorem raises_of_row {v : Visit σ} (hwithin : pastLimit limit v.depth = none) {i : Interrupt}
    {vs : List Value} {e e' : σ}
    (hrow : inOrder (evaluate limit (v.depth + 1)) v.node.plan.operands v.env = (.ok vs, e))
    (hrun : v.node.plan.assembly.run vs e = (.error i, e')) : v.Raises limit i e' := by
  have herror : (v.node.plan.assembly.run vs e).1 = .error i := by rw [hrun]
  -- a failure that states its cause, or a control statement by its keyword
  rcases v.node.rule.error_cases herror with ⟨cause, rfl, hcause⟩ | ⟨hk, k, ht, hplan⟩
  · exact .failure hwithin hcause hrow hrun
  · rw [hplan] at hrow hrun
    cases k with
    | brk =>
      cases hrow
      cases hrun
      exact .breaking hwithin hk ht
    | cont =>
      cases hrow
      cases hrun
      exact .continuing hwithin hk ht
    | ret =>
      rw [Tree.keywordPlan] at hrow hrun
      cases hrun
      -- without an operand the signal carries nothing, and with one it carries its value
      rcases hnodes : v.node.nodes with _ | ⟨u, us⟩
      · -- without an operand there is no row and no value
        rw [hnodes] at hrow
        cases hrow
        exact .returnNothing hwithin hk ht hnodes
      · rw [hnodes, List.take_succ_cons, List.take_zero, inOrder_singleton] at hrow
        obtain ⟨hvalues, henv⟩ := Prod.mk.inj hrow
        obtain ⟨x, hx, rfl⟩ := Outcome.map_eq_ok.1 hvalues
        refine .returnValue (u := ⟨v.depth + 1, u, v.env⟩) hk ht (hnodes ▸ rfl) ⟨hwithin, ?_⟩
          (Prod.ext hx henv)
        rw [hplan, Tree.keywordPlan, hnodes]
        exact .first

/-- A visit past the limit raises the failure of that and nothing else. -/
theorem raises_iff_of_past {v : Visit σ} {most : Nat} (h : pastLimit limit v.depth = some most)
    {i : Interrupt} {e : σ} :
    v.Raises limit i e ↔ i = .failure (.of (.depthExceeded most)) ∧ e = v.env := by
  constructor
  · intro hraises
    have hpast : ∀ {α : Prop}, pastLimit limit v.depth = none → α := by
      intro α hwithin
      rw [h] at hwithin
      cases hwithin
    cases hraises with
    | tooDeep hdeep =>
      rw [h] at hdeep
      cases hdeep
      exact ⟨rfl, rfl⟩
    | failure hwithin _ _ _ => exact hpast hwithin
    | breaking hwithin _ _ => exact hpast hwithin
    | continuing hwithin _ _ => exact hpast hwithin
    | returnNothing hwithin _ _ _ => exact hpast hwithin
    | returnValue _ _ _ hu _ => exact hpast hu.1
  · rintro ⟨rfl, rfl⟩
    exact .tooDeep h

/-- A visit that raises an interrupt comes out with it, at the place of its node. -/
theorem Raises.result {v : Visit σ} {i : Interrupt} {e : σ} (h : v.Raises limit i e) :
    v.result limit = (.error (i.locate v.node.span), e) := by
  rcases hpast : pastLimit limit v.depth with _ | most
  · obtain ⟨vs, e₁, hrow, hrun⟩ := h.exists_row hpast
    rw [result_of_within hpast, hrow, conclude, hrun]
    rfl
  · obtain ⟨rfl, rfl⟩ := (raises_iff_of_past hpast).1 h
    exact result_of_past hpast

/-- A visit raises at most one interrupt. -/
theorem Raises.unique {v : Visit σ} {i j : Interrupt} {e e' : σ} (hi : v.Raises limit i e)
    (hj : v.Raises limit j e') : i = j ∧ e = e' := by
  rcases hpast : pastLimit limit v.depth with _ | most
  · obtain ⟨vs, e₁, hrow, hrun⟩ := hi.exists_row hpast
    obtain ⟨ws, e₂, hrow', hrun'⟩ := hj.exists_row hpast
    rw [hrow] at hrow'
    cases hrow'
    rw [hrun] at hrun'
    cases hrun'
    exact ⟨rfl, rfl⟩
  · obtain ⟨rfl, rfl⟩ := (raises_iff_of_past hpast).1 hi
    obtain ⟨rfl, rfl⟩ := (raises_iff_of_past hpast).1 hj
    exact ⟨rfl, rfl⟩

/-- A visit that raises an interrupt has values for all its operands. -/
theorem Raises.not_error {v w : Visit σ} {i : Interrupt} {e : σ} (h : v.Raises limit i e) {k : Nat}
    (hw : v.Evaluates limit k w) {a : Interrupt} {e' : σ} : w.result limit ≠ (.error a, e') := by
  intro herr
  obtain ⟨vs, e₁, hrow, -⟩ := h.exists_row hw.1
  obtain ⟨x, e₂, hok, -⟩ := hw.2.result_of_inOrder hrow
  rw [hok] at herr
  cases herr

/-! ## 2. Handing on

A visit that hands on an interrupt is the work of one `?`: it neither evaluates further operands nor
puts anything together. -/

/-- A visit whose operand is interrupted comes out with the same interrupt, and with the environment
that the operand left. It may only give it its place, and no other operand has its turn. -/
theorem Evaluates.result_of_error {v w : Visit σ} {i : Nat} (h : v.Evaluates limit i w)
    {a : Interrupt} {e : σ} (herr : w.result limit = (.error a, e)) :
    v.result limit = (.error (a.locate v.node.span), e) ∧
      ∀ j u, v.Evaluates limit j u → j ≤ i := by
  have hrow : inOrder (evaluate limit (v.depth + 1)) v.node.plan.operands v.env = (.error a, e) :=
    inOrder_eq_error_iff.2 ⟨i, w, h.2, herr⟩
  refine ⟨?_, fun j u hu => h.2.le_of_error herr hu.2⟩
  rw [result_of_within h.1, hrow, conclude]

/-- Only one operand of a visit can be interrupted, the last that has its turn. -/
theorem Evaluates.eq_of_error {v u u' : Visit σ} {j k : Nat} (hu : v.Evaluates limit j u)
    (hu' : v.Evaluates limit k u') {a a' : Interrupt} {e e' : σ}
    (herr : u.result limit = (.error a, e)) (herr' : u'.result limit = (.error a', e')) :
    u = u' := by
  have hle := (hu.result_of_error herr).2 k u' hu'
  have hge := (hu'.result_of_error herr').2 j u hu
  rw [Nat.le_antisymm hge hle] at hu
  exact hu.2.unique hu'.2

/-- An interrupted visit raised the interrupt itself or has it from an operand. -/
theorem raises_or_operand {v : Visit σ} {a : Interrupt} {e : σ}
    (h : v.result limit = (.error a, e)) :
    (∃ i, v.Raises limit i e ∧ a = i.locate v.node.span) ∨
      ∃ k w b, v.Evaluates limit k w ∧ w.result limit = (.error b, e) ∧
        a = b.locate v.node.span := by
  rcases hpast : pastLimit limit v.depth with _ | most
  · rw [result_of_within hpast] at h
    rcases hrow : inOrder (evaluate limit (v.depth + 1)) v.node.plan.operands v.env with
      ⟨b | vs, e₁⟩
    all_goals rw [hrow, conclude] at h
    · -- the row was interrupted, which is by one of its members
      cases h
      obtain ⟨k, w, hw, herr⟩ := inOrder_eq_error_iff.1 hrow
      exact .inr ⟨k, w, b, ⟨hpast, hw⟩, herr, rfl⟩
    · rcases hrun : v.node.plan.assembly.run vs e₁ with ⟨i | x, e₂⟩
      all_goals rw [hrun] at h
      all_goals cases h
      exact .inl ⟨i, raises_of_row hpast hrow hrun, rfl⟩
  · rw [result_of_past hpast] at h
    cases h
    exact .inl ⟨_, .tooDeep hpast, rfl⟩

/-! ## 3. Who raised it

The way from an interrupted visit down to the one that raised the interrupt is followed one operand
at a time. `ReachesAt` records the places it passes, since the innermost of them is the one a
failure takes. -/

/-- `v` comes to `w`, and of the nodes on the way from `w` out to `v` the first that has a place has
`s`. -/
inductive ReachesAt (limit : Option Nat) : Visit σ → Visit σ → Option Span → Prop
  | self {v : Visit σ} : ReachesAt limit v v v.node.span
  | operand {v u w : Visit σ} {k : Nat} {s : Option Span} : v.Evaluates limit k u →
      ReachesAt limit u w s → ReachesAt limit v w (s.or v.node.span)

/-- A way with places is a way. -/
theorem ReachesAt.reaches {v w : Visit σ} {s : Option Span} (h : v.ReachesAt limit w s) :
    v.Reaches limit w := by
  induction h with
  | self => exact .refl _
  | operand hu _ ih => exact hu.reaches ih

/-- An interrupt raised by a visit comes out of every visit around it. -/
theorem ReachesAt.result {v w : Visit σ} {s : Option Span} (h : v.ReachesAt limit w s)
    {i : Interrupt} {e : σ} (hi : w.Raises limit i e) :
    v.result limit = (.error (i.locate s), e) := by
  induction h with
  | self => exact hi.result
  | operand hu _ ih =>
    rw [(hu.result_of_error (ih hi)).1, Interrupt.locate_locate]

/-- An interrupted visit comes to one that raised what comes out. By induction over visits: what a
visit did not raise itself it has from an operand. -/
theorem exists_raises (v : Visit σ) {a : Interrupt} {e : σ} (h : v.result limit = (.error a, e)) :
    ∃ w s i, v.ReachesAt limit w s ∧ w.Raises limit i e ∧ a = i.locate s := by
  induction v using Visit.induction σ limit generalizing a with
  | visit v ih =>
    rcases raises_or_operand h with ⟨i, hi, ha⟩ | ⟨k, w, b, hw, herr, ha⟩
    · exact ⟨v, _, i, .self, hi, ha⟩
    · obtain ⟨u, s, i, hu, hi, hb⟩ := ih k w hw herr
      refine ⟨u, s.or v.node.span, i, .operand hw hu, hi, ?_⟩
      rw [ha, hb, Interrupt.locate_locate]

/-- A visit is interrupted exactly by what some visit that it comes to raised, at the first place on
the way out. -/
theorem result_eq_error_iff {v : Visit σ} {a : Interrupt} {e : σ} :
    v.result limit = (.error a, e) ↔
      ∃ w s i, v.ReachesAt limit w s ∧ w.Raises limit i e ∧ a = i.locate s := by
  constructor
  · exact v.exists_raises
  · rintro ⟨w, s, i, hw, hi, rfl⟩
    exact hw.result hi

/-- Only one visit raises anything. At each node on the way the interrupt comes from the last
operand that had its turn, so two ways down to a visit that raised one are the same way. -/
theorem ReachesAt.raiser_unique {v w w' : Visit σ} {s s' : Option Span} {i i' : Interrupt}
    {e e' : σ} (hw : v.ReachesAt limit w s) (hi : w.Raises limit i e)
    (hw' : v.ReachesAt limit w' s') (hi' : w'.Raises limit i' e') : w = w' ∧ s = s' := by
  induction hw generalizing w' s' with
  | self =>
    cases hw' with
    | self => exact ⟨rfl, rfl⟩
    -- a visit that raises something itself has no interrupted operand
    | operand hu hw' => exact absurd (hw'.result hi') (hi.not_error hu)
  | operand hu hw ih =>
    cases hw' with
    | self => exact absurd (hw.result hi) (hi'.not_error hu)
    | operand hu' hw' =>
      obtain rfl := hu.eq_of_error hu' (hw.result hi) (hw'.result hi')
      obtain ⟨rfl, rfl⟩ := ih hi hw' hi'
      exact ⟨rfl, rfl⟩

/-- A failure that comes out of a visit states a cause that nodes raise, or that of the limit. -/
theorem cause_of_failure {v : Visit σ} {f : Failure} {e : σ}
    (h : v.result limit = (.error (.failure f), e)) :
    f.cause.ofNode = true ∨ ∃ most, limit = some most ∧ f.cause = .depthExceeded most := by
  obtain ⟨w, s, i, -, hi, hf⟩ := v.exists_raises h
  cases hi with
  | tooDeep hpast =>
    rw [Interrupt.locate, Interrupt.failure.injEq] at hf
    rw [hf]
    exact .inr ⟨_, (pastLimit_eq_some_iff.1 hpast).1, rfl⟩
  | failure _ hcause _ _ =>
    rw [Interrupt.locate, Interrupt.failure.injEq] at hf
    rw [hf]
    exact .inl hcause
  | breaking _ _ _ => cases hf
  | continuing _ _ _ => cases hf
  | returnNothing _ _ _ _ => cases hf
  | returnValue _ _ _ _ _ => cases hf

end Visit

/-! ## 4. Requests -/

/-- A script that is interrupted settles what interrupted it. -/
theorem Evaluator.run_of_error {t : Tree} {ev : Evaluator} {env : σ} {k : Nat} {w : Visit σ}
    (hw : Turn ev.maxDepth ev.depth (Request.run.roots t) env k w) {a : Interrupt} {e : σ}
    (herr : w.result ev.maxDepth = (.error a, e)) :
    run t (ev, env) = (settle t.span (.error a), (ev, e)) := by
  have hrow : inOrder (Metrology.evaluate ev.maxDepth ev.depth) (Request.run.roots t) env =
      (.error a, e) := inOrder_eq_error_iff.2 ⟨k, w, hw, herr⟩
  rw [Request.run_eq, hrow]
  rfl

/-- A script fails with the failure of a tree at its first level, or for a `break` or a `continue`
that came to the first level. -/
theorem Evaluator.exists_turn_of_run {t : Tree} {ev : Evaluator} {env : σ} {f : Failure}
    (h : (run t (ev, env)).1 = .error f) :
    ∃ k w a e, Turn ev.maxDepth ev.depth (Request.run.roots t) env k w ∧
      w.result ev.maxDepth = (.error a, e) ∧
      (a = .failure f ∨
        a = .breaking ∧ f = (Failure.of (.strayControl Keyword.brk.text)).locate t.span ∨
        a = .continuing ∧ f = (Failure.of (.strayControl Keyword.cont.text)).locate t.span) := by
  rw [Request.run_eq] at h
  rcases hrow : inOrder (Metrology.evaluate ev.maxDepth ev.depth) (Request.run.roots t) env with
    ⟨a | vs, e⟩
  all_goals rw [hrow] at h
  · obtain ⟨k, w, hw, herr⟩ := inOrder_eq_error_iff.1 hrow
    refine ⟨k, w, a, e, hw, herr, ?_⟩
    cases a with
    | failure g => exact .inl (congrArg Interrupt.failure (Except.error.inj h))
    | returning v => cases h
    | breaking => exact .inr (.inl ⟨rfl, (Except.error.inj h).symm⟩)
    | continuing => exact .inr (.inr ⟨rfl, (Except.error.inj h).symm⟩)
  · cases h

/-- A stray signal is reported only for a `break` or a `continue` that came to the first level. -/
theorem Evaluator.stray_of_run {t : Tree} {ev : Evaluator} {env : σ} {f : Failure}
    {keyword : String} (h : (run t (ev, env)).1 = .error f) (hf : f.cause = .strayControl keyword) :
    ∃ k w e, Turn ev.maxDepth ev.depth (Request.run.roots t) env k w ∧
      (w.result ev.maxDepth = (.error .breaking, e) ∧ keyword = Keyword.brk.text ∨
        w.result ev.maxDepth = (.error .continuing, e) ∧ keyword = Keyword.cont.text) := by
  obtain ⟨k, w, a, e, hw, herr, rfl | ⟨rfl, rfl⟩ | ⟨rfl, rfl⟩⟩ := exists_turn_of_run h
  · -- no node raises this cause, and the limit does not
    rcases Visit.cause_of_failure herr with hcause | ⟨most, -, hcause⟩
    · rw [hf] at hcause
      cases hcause
    · rw [hf] at hcause
      cases hcause
  · exact ⟨k, w, e, hw, .inl ⟨herr, (Cause.strayControl.inj hf).symm⟩⟩
  · exact ⟨k, w, e, hw, .inr ⟨herr, (Cause.strayControl.inj hf).symm⟩⟩

/-- A node comes out with what one of the visits that it comes to raised, at the first place on the
way out. -/
theorem Evaluator.evaluate_eq_error_iff {t : Tree} {ev : Evaluator} {env e : σ} {a : Interrupt} :
    evaluate t (ev, env) = (.error a, (ev, e)) ↔
      ∃ w ∈ Request.evaluate.visits t ev env, ∃ s i,
        (Visit.mk ev.depth t env).ReachesAt ev.maxDepth w s ∧
          w.Raises ev.maxDepth i e ∧ a = i.locate s := by
  have hresult : evaluate t (ev, env) = (.error a, (ev, e)) ↔
      (Visit.mk ev.depth t env).result ev.maxDepth = (.error a, e) := by
    rw [evaluate_eq]
    simp [Visit.result, Prod.ext_iff]
  rw [hresult, Visit.result_eq_error_iff]
  constructor
  · rintro ⟨w, s, i, hw, hi, ha⟩
    -- the node itself is the one visit of the first level
    exact ⟨w, (Request.mem_visits _ t ev env w).2 ⟨0, _, .first, hw.reaches⟩, s, i, hw, hi, ha⟩
  · rintro ⟨w, -, s, i, hw, hi, ha⟩
    exact ⟨w, s, i, hw, hi, ha⟩

/-- A block comes out with what interrupted one of its statements, and that as it is. -/
theorem Evaluator.evaluateBlock_eq_error_iff {t : Tree} {ev : Evaluator} {env e : σ}
    {a : Interrupt} (hk : t.kind = .block) :
    evaluateBlock t (ev, env) = (.error a, (ev, e)) ↔
      ∃ k w, Turn ev.maxDepth ev.depth t.nodes env k w ∧ w.result ev.maxDepth = (.error a, e) := by
  rw [Request.evaluateBlock_eq t ev env hk, ← inOrder_eq_error_iff]
  simp [Prod.ext_iff, Outcome.map_eq_error]

/-- An interrupted tree at the first level is the last that has its turn, and the request ends with
the environment that it left. -/
theorem Request.answer_of_error {q : Request} {t : Tree} {ev : Evaluator} {env e : σ} {k : Nat}
    {w : Visit σ} {a : Interrupt} (hw : Turn ev.maxDepth ev.depth (q.roots t) env k w)
    (herr : w.result ev.maxDepth = (.error a, e)) :
    (q.answer t (ev, env)).2 = (ev, e) ∧
      ∀ j u, Turn ev.maxDepth ev.depth (q.roots t) env j u → j ≤ k := by
  refine ⟨?_, fun j u hu => hw.le_of_error herr hu⟩
  rw [answer_eq, inOrder_eq_error_iff.2 ⟨k, w, hw, herr⟩]

/-- A script never reports a `return`. -/
theorem Evaluator.not_stray_return {t : Tree} {ev : Evaluator} {env : σ} {f : Failure}
    (h : (run t (ev, env)).1 = .error f) : f.cause ≠ .strayControl Keyword.ret.text := by
  intro hf
  obtain ⟨k, w, e, -, ⟨-, hkeyword⟩ | ⟨-, hkeyword⟩⟩ := stray_of_run h hf
  · exact absurd hkeyword (by decide)
  · exact absurd hkeyword (by decide)

/-- What becomes of an interrupt in a node, on the stack of the machine, at the first level and at
the end of a script. -/
structure InterruptsPass (t : Tree) (ev : Evaluator) (env : σ) : Prop where
  /-- A node whose operand is interrupted does nothing more and comes out with the same interrupt,
  which it may give its place. -/
  handedOn : ∀ (v w : Visit σ) (k : Nat) (a : Interrupt) (e : σ), v.Evaluates ev.maxDepth k w →
    w.result ev.maxDepth = (.error a, e) →
    v.result ev.maxDepth = (.error (a.locate v.node.span), e) ∧
      ∀ j u, v.Evaluates ev.maxDepth j u → j ≤ k
  /-- A machine that has an interrupt to deliver enters nothing and asks for nothing, whatever waits
  on its stack. -/
  unwound : ∀ (depth : Nat) (stack : List Begun) (a : Interrupt) (e : σ),
    let m := Machine.delivering ev.maxDepth depth stack (.error a, e)
    m.visits = [] ∧ m.run.1 = .error (Machine.unwound stack a) ∧ m.run.2.env = e
  /-- So what comes out of a node was raised at a visit that the node came to, and `Visit.Raises`
  has all that can be raised. -/
  raised : ∀ (a : Interrupt) (e : σ), Evaluator.evaluate t (ev, env) = (.error a, (ev, e)) ↔
    ∃ w ∈ Request.evaluate.visits t ev env, ∃ s i,
      (Visit.mk ev.depth t env).ReachesAt ev.maxDepth w s ∧
        w.Raises ev.maxDepth i e ∧ a = i.locate s
  /-- There is one such visit, and it raised one interrupt, with one way out. -/
  once : ∀ (w w' : Visit σ) (s s' : Option Span) (i i' : Interrupt) (e e' : σ),
    (Visit.mk ev.depth t env).ReachesAt ev.maxDepth w s → w.Raises ev.maxDepth i e →
    (Visit.mk ev.depth t env).ReachesAt ev.maxDepth w' s' → w'.Raises ev.maxDepth i' e' →
    w = w' ∧ s = s' ∧ i = i' ∧ e = e'
  /-- At the first level an interrupted tree is the last one. -/
  firstLevel : ∀ (q : Request) (k : Nat) (w : Visit σ) (a : Interrupt) (e : σ),
    Turn ev.maxDepth ev.depth (q.roots t) env k w → w.result ev.maxDepth = (.error a, e) →
    (q.answer t (ev, env)).2 = (ev, e) ∧
      ∀ j u, Turn ev.maxDepth ev.depth (q.roots t) env j u → j ≤ k
  /-- A block hands on what interrupted a statement as it is. -/
  block : t.kind = .block → ∀ (a : Interrupt) (e : σ),
    Evaluator.evaluateBlock t (ev, env) = (.error a, (ev, e)) ↔
      ∃ k w, Turn ev.maxDepth ev.depth t.nodes env k w ∧ w.result ev.maxDepth = (.error a, e)
  /-- A script takes a `return` for its value and reports the other two signals by their
  keywords. -/
  script : ∀ (k : Nat) (w : Visit σ) (a : Interrupt) (e : σ),
    Turn ev.maxDepth ev.depth (Request.run.roots t) env k w → w.result ev.maxDepth = (.error a, e) →
    Evaluator.run t (ev, env) =
      (match a with
        | .returning v => .ok v
        | .failure f => .error f
        | .breaking => .error ((Failure.of (.strayControl Keyword.brk.text)).locate t.span)
        | .continuing => .error ((Failure.of (.strayControl Keyword.cont.text)).locate t.span),
        (ev, e))
  /-- It never reports a `return`. -/
  noReturn : ∀ f : Failure, (Evaluator.run t (ev, env)).1 = .error f →
    f.cause ≠ .strayControl Keyword.ret.text

/-- Interrupts are never swallowed, converted or wrapped, other than by a script at its end. -/
theorem interrupts_pass (t : Tree) (ev : Evaluator) (env : σ) : InterruptsPass t ev env where
  handedOn _ _ _ _ _ hw herr := hw.result_of_error herr
  unwound depth stack a e :=
    ⟨Machine.visits_of_error ev.maxDepth depth stack a e,
      Machine.run_of_error ev.maxDepth depth stack a e⟩
  raised _ _ := Evaluator.evaluate_eq_error_iff
  once w w' s s' i i' e e' hw hi hw' hi' := by
    obtain ⟨rfl, rfl⟩ := hw.raiser_unique hi hw' hi'
    exact ⟨rfl, rfl, hi.unique hi'⟩
  firstLevel _ _ _ _ _ hw herr := Request.answer_of_error hw herr
  block hk _ _ := Evaluator.evaluateBlock_eq_error_iff hk
  script k w a e hw herr := by
    rw [Evaluator.run_of_error hw herr]
    cases a <;> rfl
  noReturn _ h := Evaluator.not_stray_return h

end Metrology
