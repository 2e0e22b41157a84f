/-
The depth limit.

An evaluation under a limit does what the one without a limit does until that comes to a node at a
level past the limit. If it never does, nothing tells the two apart: not the outcome, not the
environment, not the requests made of it. If it does, the limited one ends there, with the failure
that says so (`Request.limit_exact`).

`Truncates` is this alternative for a node, for a row and for a request. The induction on the tree
runs the two evaluations side by side: an operand under which the limit strikes ends the row in the
one run, and in the other the row may go on, but the environment only moves on along the order in
which requests are made.
-/
import Metrology.Proofs.Interrupts
import Metrology.Proofs.Record
set_option autoImplicit false

namespace Metrology

variable [Numerics] {σ : Type} [Environment σ]

/-! ## 1. Past the limit

The condition is one about the unlimited run: which levels it comes to. Nothing of the limited run
goes into it. -/

/-- Without a limit the visit would come to a level past `most`. -/
def Visit.Exceeds (most : Nat) (v : Visit σ) : Prop :=
  ∃ w, v.Reaches none w ∧ most < w.level

/-- Without a limit the row would come to a level past `most`. -/
def RowExceeds (most depth : Nat) (ts : List Tree) (s : σ) : Prop :=
  ∃ w, RowReaches none depth ts s w ∧ most < w.level

section
variable {most depth : Nat} {t : Tree} {ts : List Tree} {s s' : σ}

theorem not_rowExceeds_nil : ¬ RowExceeds most depth [] s := by
  rintro ⟨w, hw, -⟩
  exact not_rowReaches_nil hw

/-- A row whose first member has a value comes past the level in that member or behind it. -/
theorem rowExceeds_cons_of_ok {v : Value} (h : evaluate none depth t s = (.ok v, s')) :
    RowExceeds most depth (t :: ts) s ↔
      (Visit.mk depth t s).Exceeds most ∨ RowExceeds most depth ts s' := by
  simp only [RowExceeds, Visit.Exceeds, rowReaches_cons_of_ok h, or_and_right, exists_or]

/-- A row whose first member is interrupted comes past the level in that member or not at all. -/
theorem rowExceeds_cons_of_error {a : Interrupt} (h : evaluate none depth t s = (.error a, s')) :
    RowExceeds most depth (t :: ts) s ↔ (Visit.mk depth t s).Exceeds most := by
  simp only [RowExceeds, Visit.Exceeds, rowReaches_cons_of_error h]

/-- A visit within the limit comes past it through an operand. -/
theorem Visit.exceeds_iff (h : depth < most) :
    (Visit.mk depth t s).Exceeds most ↔ RowExceeds most (depth + 1) t.plan.operands s := by
  have hreaches : ∀ w, (Visit.mk depth t s).Reaches none w ↔
      w = ⟨depth, t, s⟩ ∨ RowReaches none (depth + 1) t.plan.operands s w :=
    fun w => reaches_iff_of_within (pastLimit_none depth)
  constructor
  · rintro ⟨w, hw, hdeep⟩
    rcases (hreaches w).1 hw with rfl | hrow
    · exact absurd hdeep (Nat.not_lt.2 h)
    · exact ⟨w, hrow, hdeep⟩
  · rintro ⟨w, hrow, hdeep⟩
    exact ⟨w, (hreaches w).2 (.inr hrow), hdeep⟩

end

/-- Everything that a visit comes to fits under the height of its node. -/
theorem Visit.Reaches.depth_add_height_le {limit : Option Nat} {v w : Visit σ}
    (h : v.Reaches limit w) : w.depth + w.node.height ≤ v.depth + v.node.height := by
  induction h with
  | refl => exact Nat.le_refl _
  | tail _ hstep ih =>
    obtain ⟨i, hi⟩ := hstep
    have hdepth := hi.depth_eq
    have hheight := Tree.height_lt_of_mem_nodes hi.mem_nodes
    omega

/-! ## 2. Side by side

The two runs part at the first node past the limit. From there on the limited run only unwinds
(`eval_nested` refuses the node), while the other one may go anywhere, so that all that can be said
is how their environments are ordered. -/

/-- What comes out under the limit `most` beside what comes out without one. Where something is past
the limit, a failure for that, no further on than the other; where nothing is, the same. -/
inductive Truncates (most : Nat) (le : σ → σ → Prop) (exceeds : Prop) {α : Type} :
    Outcome α × σ → Outcome α × σ → Prop
  | cut {f : Failure} {s : σ} {r : Outcome α × σ} : exceeds → f.cause = .depthExceeded most →
      le s r.2 → Truncates most le exceeds (.error (.failure f), s) r
  | same {r : Outcome α × σ} : ¬ exceeds → Truncates most le exceeds r r

omit [Numerics] [Environment σ] in
/-- What is made of the values makes no difference. -/
theorem Truncates.map {most : Nat} {le : σ → σ → Prop} {exceeds : Prop} {α β : Type}
    {r r' : Outcome α × σ} (h : Truncates most le exceeds r r') (f : α → β) :
    Truncates most le exceeds (r.1.map f, r.2) (r'.1.map f, r'.2) := by
  cases h with
  | cut hdeep hf hlog => exact .cut hdeep hf hlog
  | same hnone => exact .same hnone

section
variable {most : Nat} {le : σ → σ → Prop}

/-- A row is cut where its first member to be cut is. -/
theorem inOrder_truncates (hle : MovesOn le) (depth : Nat) (ts : List Tree)
    (h : ∀ t ∈ ts, ∀ s, Truncates most le ((Visit.mk depth t s).Exceeds most)
      (evaluate (some most) depth t s) (evaluate none depth t s)) (s : σ) :
    Truncates most le (RowExceeds most depth ts s)
      (inOrder (evaluate (some most) depth) ts s) (inOrder (evaluate none depth) ts s) := by
  induction ts generalizing s with
  | nil => exact .same not_rowExceeds_nil
  | cons t ts ih =>
    have hfirst := h t List.mem_cons_self s
    rcases hout : evaluate none depth t s with ⟨i | v, s₁⟩
    all_goals rw [hout] at hfirst
    · -- without a limit the row ends here, so that the first member decides
      rw [rowExceeds_cons_of_error hout, inOrder_cons_error hout]
      generalize hlimited : evaluate (some most) depth t s = limited at hfirst
      -- the first member is cut, and the row with it, or it is the same in both runs
      cases hfirst with
      | cut hdeep hf hlog =>
        rw [inOrder_cons_error hlimited]
        exact .cut hdeep hf hlog
      | same hnone =>
        rw [inOrder_cons_error hlimited]
        exact .same hnone
    · rw [rowExceeds_cons_of_ok hout, inOrder_cons_ok hout]
      generalize hlimited : evaluate (some most) depth t s = limited at hfirst
      cases hfirst with
      | cut hdeep hf hlog =>
        -- the other run goes on with the row
        rw [inOrder_cons_error hlimited]
        exact .cut (.inl hdeep) hf (hle.trans hlog (hle.inOrder none depth ts s₁))
      | same hnone =>
        have hrest := ih (fun u hu => h u (List.mem_cons_of_mem t hu)) s₁
        rw [inOrder_cons_ok hlimited, or_iff_right hnone]
        exact hrest.map (v :: ·)

/-- The evaluation of a node under a limit beside the one without. -/
theorem evaluate_truncates (hle : MovesOn le) (most : Nat) (t : Tree) : ∀ (depth : Nat) (s : σ),
    Truncates most le ((Visit.mk depth t s).Exceeds most)
      (evaluate (some most) depth t s) (evaluate none depth t s) := by
  induction t using Tree.induction with
  | node t ih =>
    intro depth s
    -- one more level fits under the limit, or the node itself is past it
    rcases Nat.lt_or_ge depth most with hwithin | hpast
    · have hnone : pastLimit (some most) depth = none := pastLimit_some_eq_none_iff.2 hwithin
      have hrow := inOrder_truncates hle (depth + 1) t.plan.operands
        (fun u hu => ih u (Tree.mem_nodes_of_mem_operands hu) (depth + 1)) s
      rw [evaluate_eq, evaluate_eq, hnone, pastLimit_none, Visit.exceeds_iff hwithin]
      simp only
      generalize inOrder (evaluate (some most) (depth + 1)) t.plan.operands s = limited at hrow ⊢
      generalize inOrder (evaluate none (depth + 1)) t.plan.operands s = row at hrow ⊢
      cases hrow with
      | cut hdeep hf hlog =>
        obtain ⟨r, s₂⟩ := row
        refine .cut hdeep hf ?_
        -- the other run may have all values and make the node's own request
        rcases r with i | vs
        · exact hlog
        · exact hle.trans hlog (hle.run t.plan.assembly vs s₂)
      | same hnone => exact .same hnone
    · have hcut : evaluate (some most) depth t s =
          ((Outcome.fail (.depthExceeded most)).locate t.span, s) := by
        rw [evaluate_eq, pastLimit_some, if_pos hpast]
      rw [hcut]
      exact .cut ⟨_, .refl _, Nat.lt_succ_of_le hpast⟩ rfl (hle.evaluate none depth t s)

end

/-! ## 3. Requests

A request runs its roots as a row. The failure of an overflow is neither a signal that was caught
nor the report of a stray one, so what a request does at its end leaves it alone. -/

/-- Interrupted by the failure of a depth limit. -/
def Outcome.Overflows {α : Type} (r : Outcome α) : Prop :=
  ∃ f most, r = .error (.failure f) ∧ f.cause = .depthExceeded most

namespace Truncates

variable {most : Nat} {le : σ → σ → Prop} {exceeds : Prop} {α : Type} {r r' : Outcome α × σ}

omit [Numerics] [Environment σ] in
/-- The limited run overflows exactly where the other one comes past the limit, if the other one
does not overflow by itself. -/
theorem overflows_iff (h : Truncates most le exceeds r r') (hr' : ¬ r'.1.Overflows) :
    r.1.Overflows ↔ exceeds := by
  cases h with
  | cut hdeep hf _ => exact iff_of_true ⟨_, most, rfl, hf⟩ hdeep
  | same hnone => exact iff_of_false hr' hnone

omit [Numerics] [Environment σ] in
/-- What an overflow of the limited run is: it names the limit, and the environment has not gone
further than in the other run. -/
theorem of_overflows (h : Truncates most le exceeds r r') (hr' : ¬ r'.1.Overflows)
    (hover : r.1.Overflows) :
    (∃ f, r.1 = .error (.failure f) ∧ f.cause = .depthExceeded most) ∧ le r.2 r'.2 := by
  cases h with
  | cut _ hf hlog => exact ⟨⟨_, rfl, hf⟩, hlog⟩
  | same _ => exact absurd hover hr'

omit [Numerics] [Environment σ] in
/-- Without an overflow the two runs are the same. -/
theorem eq_of_not_overflows (h : Truncates most le exceeds r r') (hr : ¬ r.1.Overflows) :
    r = r' := by
  cases h with
  | cut _ hf _ => exact absurd ⟨_, most, rfl, hf⟩ hr
  | same _ => rfl

end Truncates

namespace Request

omit [Numerics] [Environment σ] in
/-- A request that has a first level hands on its failure. -/
theorem finish_failure {q : Request} {t : Tree} (h : q.roots t ≠ []) (f : Failure) :
    q.finish t (.error (.failure f)) = .error (.failure f) := by
  cases q with
  | evaluate => rfl
  | run => rfl
  | evaluateBlock =>
    rw [roots] at h
    split at h
    · rw [finish, if_pos ‹_›]
      rfl
    · exact absurd rfl h

omit [Numerics] [Environment σ] in
/-- What a request makes of its first level is no overflow of its own. -/
theorem overflows_of_finish {q : Request} {t : Tree} {r : Outcome (List Value)}
    (h : (q.finish t r).Overflows) : r.Overflows := by
  obtain ⟨f, most, hr, hf⟩ := h
  rcases finish_eq_failure hr with hr | ⟨-, -, rfl⟩ | ⟨-, keyword, -, rfl⟩
  · exact ⟨f, most, hr, hf⟩
  · cases hf
  · cases hf

/-- Without a limit nothing overflows. -/
theorem not_overflows_new (q : Request) (t : Tree) (s : σ) :
    ¬ (q.answer t (Evaluator.new, s)).1.Overflows := by
  rw [answer_eq]
  intro h
  obtain ⟨f, most, hrow, hf⟩ := overflows_of_finish h
  obtain ⟨k, w, -, herr⟩ := inOrder_eq_error_iff.1 (Prod.ext hrow rfl)
  rcases Visit.cause_of_failure herr with hcause | ⟨most', hlimit, -⟩
  · rw [hf] at hcause
    cases hcause
  · cases hlimit

/-- A request under a limit beside the one without. -/
theorem answer_truncates {le : σ → σ → Prop} (hle : MovesOn le) (most : Nat) (q : Request)
    (t : Tree) (s : σ) :
    Truncates most le (∃ w ∈ q.visits t Evaluator.new s, most < w.level)
      ((q.answer t (Evaluator.withLimit (some most), s)).1,
        (q.answer t (Evaluator.withLimit (some most), s)).2.2)
      ((q.answer t (Evaluator.new, s)).1, (q.answer t (Evaluator.new, s)).2.2) := by
  have hrow := inOrder_truncates hle 0 (q.roots t)
    (fun u _ => evaluate_truncates hle most u 0) s
  have hexceeds : (∃ w ∈ q.visits t Evaluator.new s, most < w.level) ↔
      RowExceeds most 0 (q.roots t) s :=
    exists_congr fun w => and_congr_left' (q.mem_visits t Evaluator.new s w)
  rw [answer_eq, answer_eq, hexceeds]
  simp only [Evaluator.new, Evaluator.withLimit]
  generalize inOrder (Metrology.evaluate (some most) 0) (q.roots t) s = limited at hrow ⊢
  generalize inOrder (Metrology.evaluate none 0) (q.roots t) s = row at hrow ⊢
  cases hrow with
  | cut hdeep hf hlog =>
    -- something was cut, so there was a first level, and its failure is handed on
    have hroots : q.roots t ≠ [] := by
      intro hnil
      rw [hnil] at hdeep
      exact not_rowExceeds_nil hdeep
    rw [finish_failure hroots]
    exact .cut hdeep hf hlog
  | same hnone => exact .same hnone

/-- Visits fit under the height of the trees at the first level. -/
theorem level_le_of_mem_visits {q : Request} {t : Tree} {s : σ} {w : Visit σ} {most : Nat}
    (hw : w ∈ q.visits t Evaluator.new s) (h : ∀ u ∈ q.roots t, u.height ≤ most) :
    w.level ≤ most := by
  obtain ⟨i, v, hturn, hreaches⟩ := (q.mem_visits t Evaluator.new s w).1 hw
  have hroot : v.node.height ≤ most := h v.node hturn.mem
  have hdepth : v.depth = 0 := hturn.depth_eq
  have hfits := hreaches.depth_add_height_le
  have hpos := w.node.height_pos
  rw [Visit.level]
  omega

section
variable (q : Request) (t : Tree) (env : σ)

/-- A request overflows just if without a limit it would enter a node at a level past the limit. -/
theorem overflows_iff_visits (most : Nat) :
    (q.answer t (Evaluator.withLimit (some most), env)).1.Overflows ↔
      ∃ w ∈ q.visits t Evaluator.new env, most < w.level :=
  (answer_truncates MovesOn.trivial most q t env).overflows_iff (q.not_overflows_new t env)

/-- With a record beside it a request comes to the same outcome. -/
theorem answer_traced_fst (limit : Option Nat) :
    (q.answer t (Evaluator.withLimit limit, Traced.start env)).1 =
      (q.answer t (Evaluator.withLimit limit, env)).1 :=
  (answer_traced q t _ (Traced.start env)).1

variable {q t env} {most : Nat}

/-- An overflow states its limit, and comes after the first requests of the unlimited run. -/
theorem of_overflows (h : (q.answer t (Evaluator.withLimit (some most), env)).1.Overflows) :
    (∃ f, (q.answer t (Evaluator.withLimit (some most), env)).1 = .error (.failure f) ∧
        f.cause = .depthExceeded most) ∧
      (q.answer t (Evaluator.withLimit (some most), Traced.start env)).2.2.accesses <+:
        (q.answer t (Evaluator.new, Traced.start env)).2.2.accesses := by
  have hplain := answer_truncates MovesOn.trivial most q t env
  have hrecord := answer_truncates Traced.movesOn_accesses most q t (Traced.start env)
  refine ⟨(hplain.of_overflows (q.not_overflows_new t env) h).1, ?_⟩
  rw [← answer_traced_fst q t env (some most)] at h
  exact (hrecord.of_overflows (q.not_overflows_new t (Traced.start env)) h).2

/-- A request that does not overflow comes to what it comes to without a limit, by the same
requests. -/
theorem eq_new_of_not_overflows
    (h : ¬ (q.answer t (Evaluator.withLimit (some most), env)).1.Overflows) :
    (q.answer t (Evaluator.withLimit (some most), env)).1 = (q.answer t (Evaluator.new, env)).1 ∧
      (q.answer t (Evaluator.withLimit (some most), env)).2.2 =
        (q.answer t (Evaluator.new, env)).2.2 ∧
      (q.answer t (Evaluator.withLimit (some most), Traced.start env)).2.2.accesses =
        (q.answer t (Evaluator.new, Traced.start env)).2.2.accesses := by
  have hplain := answer_truncates MovesOn.trivial most q t env
  have hrecord := answer_truncates Traced.movesOn_accesses most q t (Traced.start env)
  obtain ⟨hout, henv⟩ := Prod.mk.inj (hplain.eq_of_not_overflows h)
  rw [← answer_traced_fst q t env (some most)] at h
  obtain ⟨-, hlog⟩ := Prod.mk.inj (hrecord.eq_of_not_overflows h)
  exact ⟨hout, henv, congrArg Traced.accesses hlog⟩

/-- What fits under a limit fits under every higher one. -/
theorem not_overflows_mono {more : Nat} (hle : most ≤ more)
    (h : ¬ (q.answer t (Evaluator.withLimit (some most), env)).1.Overflows) :
    ¬ (q.answer t (Evaluator.withLimit (some more), env)).1.Overflows := by
  rw [overflows_iff_visits] at h ⊢
  rintro ⟨w, hw, hdeep⟩
  exact h ⟨w, hw, Nat.lt_of_le_of_lt hle hdeep⟩

/-- Trees that are no higher than the limit fit under it. -/
theorem not_overflows_of_height (h : ∀ u ∈ q.roots t, u.height ≤ most) :
    ¬ (q.answer t (Evaluator.withLimit (some most), env)).1.Overflows := by
  rw [overflows_iff_visits]
  rintro ⟨w, hw, hdeep⟩
  exact absurd hdeep (Nat.not_lt.2 (level_le_of_mem_visits hw h))

end

/-- The limit is exact and is not noticed otherwise. A request overflows under a limit just if
without one it would enter a node at a level past it. The failure then states this limit, and the
requests made of the environment by then are the first ones of the unlimited run. Otherwise outcome,
environment and record are those of the unlimited run, and of every run under a higher limit. Trees
that are no higher than the limit do not overflow. -/
theorem limit_exact (q : Request) (t : Tree) (env : σ) (most : Nat) :
    let limited := fun n : Nat => q.answer t (Evaluator.withLimit (some n), env)
    let unlimited := q.answer t (Evaluator.new, env)
    let record := fun limit : Option Nat =>
      (q.answer t (Evaluator.withLimit limit, Traced.start env)).2.2.accesses
    ((limited most).1.Overflows ↔ ∃ w ∈ q.visits t Evaluator.new env, most < w.level) ∧
      ((limited most).1.Overflows →
        (∃ f, (limited most).1 = .error (.failure f) ∧ f.cause = .depthExceeded most) ∧
          record (some most) <+: record none) ∧
      (¬ (limited most).1.Overflows →
        (limited most).1 = unlimited.1 ∧ (limited most).2.2 = unlimited.2.2 ∧
          record (some most) = record none) ∧
      (¬ (limited most).1.Overflows → ∀ more, most ≤ more →
        (limited more).1 = (limited most).1 ∧ (limited more).2.2 = (limited most).2.2 ∧
          record (some more) = record (some most)) ∧
      ((∀ u ∈ q.roots t, u.height ≤ most) → ¬ (limited most).1.Overflows) := by
  intro limited unlimited record
  refine ⟨q.overflows_iff_visits t env most, of_overflows, eq_new_of_not_overflows, ?_,
    not_overflows_of_height⟩
  intro hfits more hle
  -- both are the unlimited run
  obtain ⟨hout, henv, hlog⟩ := eq_new_of_not_overflows hfits
  obtain ⟨hout', henv', hlog'⟩ := eq_new_of_not_overflows (not_overflows_mono hle hfits)
  exact ⟨hout'.trans hout.symm, henv'.trans henv.symm, hlog'.trans hlog.symm⟩

end Request

end Metrology
