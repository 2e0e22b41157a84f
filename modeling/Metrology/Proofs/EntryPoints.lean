/-
The ways into an evaluation, side by side.

A host can hand the same block over as a node, as a block or as a script. The three begin the
recursion at different levels and treat what comes out of it differently, and `entry_points_agree`
says that this is all there is between them.

Between a node and its statements stands one level. `evaluate_succ` removes it: one level further
in, under a limit of one level more, a tree does what it does here, except that a failure of the
limit states the higher number (`Interrupt.deepen`). Between a node and a script stands what becomes
of an interrupt at the end; `exists_outcome` gives the outcome that both have in common, so that
nothing but `settle` and the node's span has to be compared.
-/
import Metrology.Proofs.Interrupts
import Metrology.Proofs.Record
set_option autoImplicit false

namespace Metrology

/-! ## 1. One level more

The depth counts in two ways, from the outermost level and against the limit, and a shift of both
cannot be noticed but in the number that an overflow states. -/

/-- The cause under a limit of one level more. -/
def Cause.deepen : Cause → Cause
  | depthExceeded most => depthExceeded (most + 1)
  | cause => cause

/-- The failure under a limit of one level more. The limit stands in its text too, so that one is
worded anew; any other failure stays as it is. -/
def Failure.deepen (f : Failure) : Failure :=
  match f.cause with
  | .depthExceeded _ => { f with cause := f.cause.deepen, message := f.cause.deepen.message }
  | _ => f

/-- The interrupt under a limit of one level more: only a failure of the limit changes, in the
number that it states. -/
def Interrupt.deepen : Interrupt → Interrupt := mapFailure Failure.deepen

/-- No failure that a node raises by itself states a limit. -/
theorem Failure.deepen_of_ofNode {f : Failure} (h : f.cause.ofNode = true) : f.deepen = f := by
  unfold deepen
  split
  · -- the one cause that does belongs to the limit
    rename_i most hcause
    rw [hcause] at h
    exact absurd h Bool.false_ne_true
  · rfl

/-- The text states no place, so it makes no difference which of the two comes first. -/
theorem Failure.deepen_locate (f : Failure) (s : Option Span) :
    (f.locate s).deepen = f.deepen.locate s := by
  unfold deepen locate
  split <;> simp_all

/-- An interrupt can be given its place before or after its limit is raised. -/
theorem Interrupt.deepen_locate (i : Interrupt) (s : Option Span) :
    (i.locate s).deepen = i.deepen.locate s := by
  cases i with
  | failure f => exact congrArg Interrupt.failure (f.deepen_locate s)
  | _ => rfl

/-- One level further in under a limit of one level more, a node is past the limit if it was before,
and the limit that is named is one more. -/
theorem pastLimit_succ (limit : Option Nat) (depth : Nat) :
    pastLimit (limit.map (· + 1)) (depth + 1) = (pastLimit limit depth).map (· + 1) := by
  cases limit with
  | none => rfl
  | some most =>
    rw [Option.map_some, pastLimit_some, pastLimit_some]
    by_cases h : most ≤ depth
    · rw [if_pos h, if_pos (Nat.succ_le_succ h), Option.map_some]
    · rw [if_neg h, if_neg fun hle => h (Nat.le_of_succ_le_succ hle), Option.map_none]

/-- The outermost level is within every limit of one level more. -/
theorem pastLimit_succ_zero (limit : Option Nat) : pastLimit (limit.map (· + 1)) 0 = none := by
  cases limit with
  | none => rfl
  | some most => rw [Option.map_some, pastLimit_some, if_neg (Nat.not_succ_le_zero most)]

/-- A row whose steps are interrupted by the images of the interrupts of another row's steps is
interrupted by the image of what interrupts the other. -/
theorem inOrder_mapError {α β σ : Type} {step step' : α → σ → Outcome β × σ}
    {g : Interrupt → Interrupt} (as : List α)
    (h : ∀ a ∈ as, ∀ s, step' a s = ((step a s).1.mapError g, (step a s).2)) (s : σ) :
    inOrder step' as s = ((inOrder step as s).1.mapError g, (inOrder step as s).2) := by
  induction as generalizing s with
  | nil => rfl
  | cons a as ih =>
    have hfirst := h a List.mem_cons_self s
    rcases hstep : step a s with ⟨i | b, s₁⟩
    all_goals rw [hstep] at hfirst
    · rw [inOrder_cons_error hstep, inOrder_cons_error hfirst]
      rfl
    · rw [inOrder_cons_ok hstep, inOrder_cons_ok hfirst,
        ih fun a' ha' => h a' (List.mem_cons_of_mem a ha')]
      rcases inOrder step as s₁ with ⟨i | bs, s₂⟩ <;> rfl

section
variable [Numerics] {σ : Type} [Environment σ]

/-- One level further in and under a limit of one level more, a tree does what it does here. By
induction on the tree; the node itself is past its limit in both places or in neither. -/
theorem evaluate_succ (limit : Option Nat) (t : Tree) : ∀ (depth : Nat) (s : σ),
    evaluate (limit.map (· + 1)) (depth + 1) t s =
      ((evaluate limit depth t s).1.mapError Interrupt.deepen, (evaluate limit depth t s).2) := by
  induction t using Tree.induction with
  | node t ih =>
    intro depth s
    have hrow := inOrder_mapError t.plan.operands
      (fun u hu => ih u (Tree.mem_nodes_of_mem_operands hu) (depth + 1)) s
    rw [evaluate_eq, evaluate_eq, pastLimit_succ]
    rcases pastLimit limit depth with _ | most
    · simp only [Option.map_none]
      rw [hrow]
      rcases inOrder (evaluate limit (depth + 1)) t.plan.operands s with ⟨i | vs, s₁⟩
      · simp only [conclude, Except.mapError, Interrupt.deepen_locate]
      · simp only [conclude, Except.mapError]
        rcases hrun : t.plan.assembly.run vs s₁ with ⟨i | v, s₂⟩
        · -- what a node raises itself states no limit
          have hraised : i.deepen = i :=
            t.mapFailure_of_run_eq_error (fun cause => Failure.deepen_of_ofNode (f := .of cause))
              (congrArg Prod.fst hrun)
          simp only [Outcome.locate, Interrupt.deepen_locate, hraised]
        · rfl
    · rfl

/-! ## 2. A block as a node -/

namespace Evaluator

/-- A block with statements as a node, beside the same statements as a block: the node stands one
level further out, and gives an interrupt its span. -/
theorem evaluate_of_block {t : Tree} (hk : t.kind = .block) (hn : t.nodes ≠ [])
    (limit : Option Nat) (env : σ) :
    let block := evaluateBlock t (withLimit limit, env)
    let node := evaluate t (withLimit (limit.map (· + 1)), env)
    node.1.map some = block.1.mapError (fun i => i.deepen.locate t.span) ∧
      node.2.2 = block.2.2 := by
  intro block node
  have hrow := inOrder_mapError t.nodes (fun u _ => evaluate_succ limit u 0) env
  have hnode : node = _ := evaluate_eq t (withLimit (limit.map (· + 1))) env
  have hblock : block = _ := Request.evaluateBlock_eq t (withLimit limit) env hk
  rw [hnode, hblock]
  simp only [withLimit]
  rw [Metrology.evaluate_eq, pastLimit_succ_zero, Tree.plan_of_block hk]
  simp only [Nat.zero_add] at hrow ⊢
  rw [hrow]
  rcases hout : inOrder (Metrology.evaluate limit 0) t.nodes env with ⟨i | vs, env'⟩
  · exact ⟨rfl, rfl⟩
  · -- there is a statement, so there is a last value
    have hvs : vs ≠ [] := by
      rintro rfl
      exact hn (List.eq_nil_of_length_eq_zero (length_of_inOrder hout).symm)
    obtain ⟨v, hv⟩ := Option.ne_none_iff_exists'.1 (mt List.getLast?_eq_none_iff.1 hvs)
    have hrun : Assembly.block.run vs env' = (.ok v, env') := by rw [Assembly.run, hv]
    refine ⟨?_, by simp only [conclude, Except.mapError, hrun]⟩
    simp only [conclude, Except.mapError, hrun]
    exact congrArg Except.ok hv.symm

/-- Without a limit no failure of one comes out of a block. -/
theorem deepen_of_evaluateBlock {t : Tree} {env : σ} {i : Interrupt} (hk : t.kind = .block)
    (h : (evaluateBlock t (.new, env)).1 = .error i) : i.deepen = i := by
  cases i with
  | failure f =>
    rw [Request.evaluateBlock_eq t .new env hk] at h
    have hrow := Outcome.map_eq_error.1 h
    obtain ⟨k, w, -, herr⟩ := inOrder_eq_error_iff.1 (Prod.ext hrow rfl)
    rcases Visit.cause_of_failure herr with hcause | ⟨most, hlimit, -⟩
    · exact congrArg Interrupt.failure (Failure.deepen_of_ofNode hcause)
    · cases hlimit
  | _ => rfl

/-! ## 3. A script and a node -/

/-- A failure of a node has its place already. -/
theorem evaluate_located (t : Tree) (ev : Evaluator) (env : σ) :
    (evaluate t (ev, env)).1 = (evaluate t (ev, env)).1.mapError (Interrupt.locate t.span) := by
  rw [evaluate_eq, Metrology.evaluate_eq]
  have hself : ∀ i : Interrupt, (i.locate t.span).locate t.span = i.locate t.span := by
    intro i
    rw [Interrupt.locate_locate]
    cases t.span <;> rfl
  rcases pastLimit ev.maxDepth ev.depth with _ | most
  · rcases inOrder (Metrology.evaluate ev.maxDepth (ev.depth + 1)) t.plan.operands env with
      ⟨i | vs, env'⟩
    · simp only [conclude, Except.mapError, hself]
    · simp only [conclude]
      rcases (t.plan.assembly.run vs env').1 with i | v
      · simp only [Outcome.locate, Except.mapError, hself]
      · rfl
  · simp only [Outcome.fail, Outcome.locate, Except.mapError, hself]

/-- What a script and a node have in common. Without a limit, one outcome stands behind both: the
script settles it, and the node gives it its place. -/
theorem exists_outcome {t : Tree} (ht : t.kind = .block → t.nodes ≠ []) (env : σ) :
    ∃ r : Outcome (Option Value), (run t (.new, env)).1 = settle t.span r ∧
      (evaluate t (.new, env)).1.map some = r.mapError (Interrupt.locate t.span) ∧
      (run t (.new, env)).2 = (evaluate t (.new, env)).2 := by
  by_cases hk : t.kind = .block
  · obtain ⟨hout, henv⟩ := evaluate_of_block hk (ht hk) none env
    refine ⟨(evaluateBlock t (.new, env)).1, by rw [run, if_pos hk], ?_, ?_⟩
    · refine hout.trans ?_
      rcases hr : (evaluateBlock t (.new, env)).1 with i | v
      · have hblock : (evaluateBlock t (withLimit none, env)).1 = .error i := hr
        rw [hblock]
        simp only [Except.mapError, deepen_of_evaluateBlock hk hr]
      · have hblock : (evaluateBlock t (withLimit none, env)).1 = .ok v := hr
        rw [hblock]
        rfl
    · rw [run, if_pos hk]
      refine Prod.ext ?_ henv.symm
      rw [Request.evaluateBlock_eq t .new env hk, evaluate_eq]
  · refine ⟨(evaluate t (.new, env)).1.map some, by rw [run, if_neg hk], ?_, by rw [run, if_neg hk]⟩
    have hlocated := evaluate_located t .new env
    rcases hr : (evaluate t (.new, env)).1 with i | v
    · rw [hr] at hlocated
      exact congrArg (Except.map some) hlocated
    · rfl

/-- What a script fails with, by what the node comes to: its failure without the last place it took,
or the signal that was left. -/
theorem cases_of_run_error {t : Tree} (ht : t.kind = .block → t.nodes ≠ []) {env : σ} {f : Failure}
    (h : (run t (.new, env)).1 = .error f) :
    (evaluate t (.new, env)).1 = .error (.failure (f.locate t.span)) ∧
        (∀ keyword, f.cause ≠ .strayControl keyword) ∨
      (evaluate t (.new, env)).1 = .error .breaking ∧ f.cause = .strayControl Keyword.brk.text ∨
      (evaluate t (.new, env)).1 = .error .continuing ∧
        f.cause = .strayControl Keyword.cont.text := by
  obtain ⟨r, hrun, hnode, -⟩ := exists_outcome ht env
  rw [hrun] at h
  have herror : ∀ i, r = .error i →
      (evaluate t (.new, env)).1 = .error (i.locate t.span) := by
    rintro i rfl
    exact Outcome.map_eq_error.1 hnode
  rcases r with i | v
  · have hi := herror i rfl
    cases i with
    | failure g =>
      obtain rfl : g = f := Except.error.inj h
      refine .inl ⟨hi, fun keyword hstray => ?_⟩
      -- no node fails with a stray signal
      have hresult : (Visit.mk 0 t env).result none =
          (.error (.failure (g.locate t.span)), (evaluate t (.new, env)).2.2) := by
        rw [evaluate_eq] at hi ⊢
        exact Prod.ext hi rfl
      rcases Visit.cause_of_failure hresult with hcause | ⟨most, hlimit, -⟩
      · rw [Failure.locate_cause, hstray] at hcause
        cases hcause
      · cases hlimit
    | returning v => cases h
    | breaking =>
      obtain rfl := Except.error.inj h
      exact .inr (.inl ⟨hi, rfl⟩)
    | continuing =>
      obtain rfl := Except.error.inj h
      exact .inr (.inr ⟨hi, rfl⟩)
  · cases h

/-- A script has the value that a call of the node has. -/
theorem run_eq_ok_iff {t : Tree} (ht : t.kind = .block → t.nodes ≠ []) (env : σ)
    (v : Option Value) :
    (run t (.new, env)).1 = .ok v ↔ (evaluate t (.new, env)).1.catchReturn = .ok v := by
  obtain ⟨r, hrun, hnode, -⟩ := exists_outcome ht env
  rw [hrun]
  generalize (evaluate t (.new, env)).1 = out at hnode ⊢
  rcases r with i | w
  · obtain rfl := Outcome.map_eq_error.1 hnode
    cases i <;> simp [settle, Interrupt.locate, Outcome.catchReturn]
  · obtain ⟨x, rfl, rfl⟩ := Outcome.map_eq_ok.1 hnode
    simp [settle, Outcome.catchReturn]

/-- A script fails with a stray signal exactly if the node ends in a `break` or a `continue`. -/
theorem stray_iff {t : Tree} (ht : t.kind = .block → t.nodes ≠ []) (env : σ) :
    (∃ f keyword, (run t (.new, env)).1 = .error f ∧ f.cause = .strayControl keyword) ↔
      (evaluate t (.new, env)).1 = .error .breaking ∨
        (evaluate t (.new, env)).1 = .error .continuing := by
  constructor
  · rintro ⟨f, keyword, hf, hstray⟩
    rcases cases_of_run_error ht hf with ⟨-, hno⟩ | ⟨hnode, -⟩ | ⟨hnode, -⟩
    · exact absurd hstray (hno keyword)
    · exact .inl hnode
    · exact .inr hnode
  · intro hnode
    -- such a node has no value, so the script fails, and not with a failure of the node
    rcases hrun : (run t (.new, env)).1 with f | v
    · rcases cases_of_run_error ht hrun with ⟨hfailure, -⟩ | ⟨-, hstray⟩ | ⟨-, hstray⟩
      · rcases hnode with hnode | hnode
        all_goals
          rw [hnode] at hfailure
          cases hfailure
      · exact ⟨f, _, rfl, hstray⟩
      · exact ⟨f, _, rfl, hstray⟩
    · have hvalue := (run_eq_ok_iff ht env v).1 hrun
      rcases hnode with hnode | hnode
      all_goals
        rw [hnode] at hvalue
        cases hvalue

/-- A block without statements has no value for a block and for a script. -/
theorem run_empty_block {t : Tree} (hk : t.kind = .block) (hn : t.nodes = []) (ev : Evaluator)
    (env : σ) :
    evaluateBlock t (ev, env) = (.ok none, (ev, env)) ∧
      run t (ev, env) = (.ok none, (ev, env)) := by
  have hblock : evaluateBlock t (ev, env) = (.ok none, (ev, env)) := by
    rw [Request.evaluateBlock_eq t ev env hk, hn]
    rfl
  refine ⟨hblock, ?_⟩
  rw [run, if_pos hk, hblock]
  rfl

/-- As a node it fails for that, if it is not past the limit. -/
theorem evaluate_empty_block {t : Tree} (hk : t.kind = .block) (hn : t.nodes = [])
    (ev : Evaluator) (env : σ) (hwithin : pastLimit ev.maxDepth ev.depth = none) :
    evaluate t (ev, env) =
      (.error (.failure
          ((Failure.of (.malformedNode .block "empty block has no value")).locate t.span)),
        (ev, env)) := by
  rw [evaluate_eq, Metrology.evaluate_eq, hwithin, Tree.plan_of_block hk, hn]
  rfl

/-! ## 4. All of them -/

/-- The entry points agree. A block with statements gives as a node, under a limit of one level more
or under none, what it gives as a block: the same value or signal, or a failure that differs in its
place and in the limit it states, from the same requests and with the same environment afterwards.
Without a limit a script that is not an empty block has the values that a call of the node has; it
fails with the failure of the node, up to its place, or, if the node ends in a `break` or `continue`
and only then, with a stray signal. An empty block has no value for a block and for a script, and is
malformed as a node. -/
theorem entry_points_agree (t : Tree) (env : σ) :
    (t.kind = .block → t.nodes ≠ [] → ∀ limit : Option Nat,
      let deeper := limit.map (· + 1)
      let block := evaluateBlock t (withLimit limit, env)
      let node := evaluate t (withLimit deeper, env)
      node.1.map some = block.1.mapError (fun i => i.deepen.locate t.span) ∧
        node.2.2 = block.2.2 ∧
        (evaluate t (withLimit deeper, Traced.start env)).2.2.accesses =
          (evaluateBlock t (withLimit limit, Traced.start env)).2.2.accesses) ∧
      ((t.kind = .block → t.nodes ≠ []) →
        let script := run t (.new, env)
        let node := evaluate t (.new, env)
        (∀ v, script.1 = .ok v ↔ node.1.catchReturn = .ok v) ∧
          (∀ f, script.1 = .error f →
            node.1 = .error (.failure (f.locate t.span)) ∨
              ∃ keyword, f.cause = .strayControl keyword) ∧
          ((∃ f keyword, script.1 = .error f ∧ f.cause = .strayControl keyword) ↔
            node.1 = .error .breaking ∨ node.1 = .error .continuing) ∧
          script.2 = node.2 ∧
          (run t (.new, Traced.start env)).2.2.accesses =
            (evaluate t (.new, Traced.start env)).2.2.accesses) ∧
      (t.kind = .block → t.nodes = [] → ∀ limit : Option Nat,
        (evaluateBlock t (withLimit limit, env)).1 = .ok none ∧
          (run t (withLimit limit, env)).1 = .ok none ∧
          ∃ f, (evaluate t (withLimit (limit.map (· + 1)), env)).1 = .error (.failure f) ∧
            f.cause = .malformedNode .block "empty block has no value") := by
  refine ⟨fun hk hn limit => ?_, fun ht => ?_, fun hk hn limit => ?_⟩
  · obtain ⟨hout, henv⟩ := evaluate_of_block hk hn limit env
    obtain ⟨-, hrecord⟩ := evaluate_of_block hk hn limit (Traced.start env)
    exact ⟨hout, henv, congrArg Traced.accesses hrecord⟩
  · obtain ⟨-, -, -, henv⟩ := exists_outcome ht env
    obtain ⟨-, -, -, hrecord⟩ := exists_outcome ht (Traced.start env)
    refine ⟨run_eq_ok_iff ht env, fun f hf => ?_, stray_iff ht env, henv,
      congrArg (·.2.accesses) hrecord⟩
    rcases cases_of_run_error ht hf with ⟨hnode, -⟩ | ⟨-, hstray⟩ | ⟨-, hstray⟩
    · exact .inl hnode
    · exact .inr ⟨_, hstray⟩
    · exact .inr ⟨_, hstray⟩
  · obtain ⟨hblock, hrun⟩ := run_empty_block hk hn (withLimit limit) env
    have hnode := evaluate_empty_block hk hn (withLimit (limit.map (· + 1))) env
      (pastLimit_succ_zero limit)
    exact ⟨congrArg Prod.fst hblock, congrArg Prod.fst hrun, _, congrArg Prod.fst hnode, rfl⟩

end Evaluator

end

end Metrology
