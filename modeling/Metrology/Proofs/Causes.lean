/-
Failures tell the truth.

A cause says something about the node that raised it: that a name has no value there, that a token
is no function, that a call has the wrong number of arguments. `Cause.TrueOf` writes down what each
cause says, of a visit and of the environment it leaves, and `Visit.Raises.trueOf` is that a visit
raises what is true of it. Some causes say what cannot be, so they are never raised: no node
resolves a package.

On the way out a failure takes a place and keeps everything else. So what is true where it was
raised is true of every failure that a host is handed, and two are left that no node raises: that a
block was asked for, and that a `break` or `continue` left the script (`Request.failure_cases`).
-/
import Metrology.Proofs.ScopeEffects
import Metrology.Proofs.Spans.Places
set_option autoImplicit false

namespace Metrology

/-! ## 1. What a cause says

A cause names a token, a count, a limit or a kind. What it says is that the visit it comes from has
just these: `unknown_keyword` names the token of a control statement, `wrong_arg_count` the
arguments of a call, `stack_overflow` the limit. -/

/-- Nodes that compute a value from the values of their operands. -/
def Kind.computes : Kind → Bool
  | .binary | .unary | .call => true
  | _ => false

section
variable {σ : Type} [Environment σ]

/-- What a cause says of the visit that raised it, where `e` is the environment that the visit
left. -/
def Cause.TrueOf (limit : Option Nat) (w : Visit σ) (e : σ) : Cause → Prop
  | malformedLiteral _ => w.node.kind = .number
  | arithmetic _ => w.node.kind.computes = true
  | strayControl _ => False
  | unknownKeyword keyword =>
    w.node.kind = .control ∧ w.node.tokenAt? 0 = some keyword ∧ Keyword.ofToken? keyword = none
  | undefinedVariable name =>
    w.node.kind = .name ∧ w.node.tokenAt? 0 = some name ∧ Environment.lookup name w.env = (none, e)
  | undefinedFunction name =>
    w.node.kind = .call ∧ w.node.tokenAt? 0 = some name ∧ Intrinsic.isName name = false
  | unresolvedPackage _ => False
  | typeMismatch .. => w.node.kind.computes = true
  | operandMismatch .. => w.node.kind.computes = true
  | arityMismatch name expected got =>
    w.node.kind = .call ∧ w.node.tokenAt? 0 = some name ∧
      ∃ f, Intrinsic.ofName? name = some f ∧ expected = f.arity ∧ got = w.node.nodes.length ∧
        got ≠ expected
  | malformedNode kind _ => w.node.kind = kind
  | depthExceeded most => limit = some most ∧ most < w.level

variable {limit : Option Nat} {w : Visit σ} {e : σ} {cause : Cause}

/-- What lies with a node as it is written is true of every visit of it. -/
theorem Cause.trueOf_of_liesWith (h : cause.liesWith w.node = true) : cause.TrueOf limit w e := by
  cases cause with
  | malformedLiteral detail => exact beq_iff_eq.1 h
  | malformedNode kind detail => exact beq_iff_eq.1 h
  | unknownKeyword keyword =>
    rw [liesWith, Bool.and_eq_true, Bool.and_eq_true, beq_iff_eq, beq_iff_eq,
      Option.isNone_iff_eq_none] at h
    exact ⟨h.1.1, h.1.2, h.2⟩
  | _ => cases h

/-- What lies with operands says no more of a visit than that its node has operands to compute
with. -/
theorem Cause.trueOf_of_ofOperands (hk : w.node.kind.computes = true)
    (h : cause.ofOperands = true) : cause.TrueOf limit w e := by
  cases cause with
  | arithmetic fault => exact hk
  | typeMismatch expected got => exact hk
  | operandMismatch op left right => exact hk
  | _ => cases h

end

/-! ## 2. A node raises what is true of it -/

section
variable [Numerics] {σ : Type} [Environment σ]

/-- A call that fails has a name without a function, or a number of arguments that the function does
not take, or arguments to blame. -/
theorem Intrinsic.cause_of_call {name : String} {vs : List Value} {cause : Cause}
    (h : call name vs = Outcome.fail cause) :
    (cause = .undefinedFunction name ∧ isName name = false) ∨
      (∃ f, ofName? name = some f ∧ vs.length ≠ f.arity ∧
        cause = .arityMismatch name f.arity vs.length) ∨ cause.ofOperands = true := by
  rw [call] at h
  rcases hname : ofName? name with _ | f
  all_goals simp only [hname] at h
  · cases h
    exact .inl ⟨rfl, isName_eq_false_iff.2 hname⟩
  · by_cases hlen : vs.length = f.arity
    · exact .inr (.inr ((apply_failsWith f hlen).cause_of_eq h))
    · rw [apply_of_length_ne f hlen, name_of_ofName? hname] at h
      cases h
      exact .inr (.inl ⟨f, rfl, hlen, rfl⟩)

/-- A node whose operands have values and that fails by itself tells the truth about itself. By the
rule of the node: most can only be short of an operand, which is a fault of the node, and what is
left is a lookup, a block, an operator and a call. -/
theorem Tree.Rule.trueOf_of_run {t : Tree} {p : Plan} (h : t.Rule p) {limit : Option Nat}
    {depth : Nat} {env e e' : σ} {vs : List Value} {cause : Cause}
    (hrow : inOrder (evaluate limit (depth + 1)) p.operands env = (.ok vs, e))
    (hrun : p.assembly.run vs e = (Outcome.fail cause, e')) :
    cause.TrueOf limit ⟨depth, t, env⟩ e' := by
  cases h with
  | literal _ => cases hrun
  | malformed hcause =>
    cases hrun
    exact Cause.trueOf_of_liesWith hcause
  | @name token hk ht =>
    -- a name has no operands, so that it is looked up where its visit begins
    cases hrow
    simp only [Assembly.run] at hrun
    rcases hlookup : Environment.lookup token env with ⟨_ | v, env'⟩
    all_goals rw [hlookup] at hrun
    · cases hrun
      exact ⟨hk, ht, hlookup⟩
    · cases hrun
  | assign hk _ =>
    rcases vs with _ | ⟨v, vs⟩
    · cases hrun
      exact hk
    · cases hrun
  | group hk =>
    rcases vs with _ | ⟨v, vs⟩
    · cases hrun
      exact hk
    · cases hrun
  | @binary op hk _ =>
    rcases vs with _ | ⟨v, _ | ⟨w, vs⟩⟩
    · cases hrun
      exact hk
    · cases hrun
      exact hk
    · exact Cause.trueOf_of_ofOperands (by rw [hk]; rfl)
        ((Operation.binary_failsWith op v w).cause_of_eq (Prod.mk.inj hrun).1)
  | @unary op hk _ =>
    rcases vs with _ | ⟨v, vs⟩
    · cases hrun
      exact hk
    · exact Cause.trueOf_of_ofOperands (by rw [hk]; rfl)
        ((Operation.unary_failsWith op v).cause_of_eq (Prod.mk.inj hrun).1)
  | @call token hk ht =>
    have hlen : vs.length = t.nodes.length := length_of_inOrder hrow
    rcases Intrinsic.cause_of_call (Prod.mk.inj hrun).1 with
      ⟨rfl, hname⟩ | ⟨f, hf, harity, rfl⟩ | hcause
    · exact ⟨hk, ht, hname⟩
    · exact ⟨hk, ht, f, hf, rfl, hlen, harity⟩
    · exact Cause.trueOf_of_ofOperands (by rw [hk]; rfl) hcause
  | list _ => cases hrun
  | block hk =>
    simp only [Assembly.run] at hrun
    split at hrun
    · cases hrun
    · cases hrun
      exact hk
  | @control k _ _ => cases k <;> cases hrun

/-- What a visit raises is true of it. -/
theorem Visit.Raises.trueOf {limit : Option Nat} {w : Visit σ} {cause : Cause} {e : σ}
    (h : w.Raises limit (.failure (.of cause)) e) : cause.TrueOf limit w e := by
  cases h with
  | tooDeep hpast =>
    obtain ⟨hlimit, hdeep⟩ := pastLimit_eq_some_iff.1 hpast
    exact ⟨hlimit, Nat.lt_succ_of_le hdeep⟩
  | failure _ _ hrow hrun => exact w.node.rule.trueOf_of_run hrow hrun

/-! ## 3. The visit that raised it -/

/-- What is come to stands in the node that it is come to from. -/
theorem Visit.Reaches.holds {limit : Option Nat} {v w : Visit σ} (h : v.Reaches limit w) :
    v.node.Holds w.node := by
  induction h with
  | refl => exact Relation.ReflTransGen.refl
  | tail _ hstep ih =>
    obtain ⟨i, hi⟩ := hstep
    exact ih.tail hi.mem_nodes

/-- Of all that a row comes to one visit at most raises anything: the members with an interrupted
visit under them are interrupted, and only the last that has its turn can be. -/
theorem RowReaches.raiser_unique {limit : Option Nat} {depth : Nat} {ts : List Tree} {env : σ}
    {w w' : Visit σ} {i i' : Interrupt} {e e' : σ} (hw : RowReaches limit depth ts env w)
    (hi : w.Raises limit i e) (hw' : RowReaches limit depth ts env w')
    (hi' : w'.Raises limit i' e') : w' = w := by
  obtain ⟨j, v, hv, hreaches⟩ := hw
  obtain ⟨k, v', hv', hreaches'⟩ := hw'
  obtain ⟨way, hway⟩ := hreaches.exists_path
  obtain ⟨way', hway'⟩ := hreaches'.exists_path
  have hle : k ≤ j := hv.le_of_error (hway.result hi) hv'
  have hge : j ≤ k := hv'.le_of_error (hway'.result hi') hv
  obtain rfl : k = j := Nat.le_antisymm hle hge
  obtain rfl := hv.unique hv'
  exact (hway.unique hi hway' hi').1

namespace Request

omit [Numerics] in
/-- The trees at the first level of a request stand in its tree. -/
theorem holds_of_mem_roots {q : Request} {t u : Tree} (h : u ∈ q.roots t) : t.Holds u := by
  have hnodes : u ∈ t.nodes → t.Holds u := fun hu => Relation.ReflTransGen.single hu
  have hself : u ∈ [t] → t.Holds u := by
    intro hu
    rw [List.mem_singleton.1 hu]
    exact Relation.ReflTransGen.refl
  cases q with
  | evaluate => exact hself h
  | evaluateBlock =>
    rw [roots] at h
    split at h
    · exact hnodes h
    · exact absurd h List.not_mem_nil
  | run =>
    rw [roots] at h
    split at h
    · exact hnodes h
    · exact hself h

/-- What a request comes to stands in its tree. -/
theorem holds_of_mem_visits {q : Request} {t : Tree} {ev : Evaluator} {env : σ} {w : Visit σ}
    (h : w ∈ q.visits t ev env) : t.Holds w.node := by
  obtain ⟨i, v, hv, hreaches⟩ := (q.mem_visits t ev env w).1 h
  exact (holds_of_mem_roots hv.mem).trans hreaches.holds

/-- A request fails for what one of its visits raised, or for one of the two reasons that belong to
the request. A failure has notes in neither case. -/
theorem failure_cases {q : Request} {t : Tree} {ev : Evaluator} {env : σ} {f : Failure}
    (h : (q.answer t (ev, env)).1 = .error (.failure f)) :
    f.Plain ∧
      ((∃ w ∈ q.visits t ev env,
          w.Raises ev.maxDepth (.failure (.of f.cause)) (q.answer t (ev, env)).2.2) ∨
        q = .evaluateBlock ∧ t.kind ≠ .block ∧
          f.cause = .malformedNode t.kind "expected a block" ∨
        q = .run ∧ ∃ keyword : Keyword, keyword ≠ .ret ∧ f.cause = .strayControl keyword.text) := by
  rw [answer_eq] at h ⊢
  -- a row that was interrupted, a tree that is no block, a signal that left the script
  rcases finish_eq_failure h with hrow | ⟨hq, hk, rfl⟩ | ⟨hq, keyword, hret, rfl⟩
  · obtain ⟨k, v, hv, herr⟩ := inOrder_eq_error_iff.1 (Prod.ext hrow rfl)
    obtain ⟨w, way, hway, hraises, hf⟩ := Visit.exists_path_of_failure herr
    have hreached : w ∈ q.visits t ev env :=
      (q.mem_visits t ev env w).2 ⟨k, v, hv, hway.reachesAt.reaches⟩
    -- it was plain where it was raised, and on the way it took nothing but a place
    have hplain : f.Plain := by
      rw [hf]
      exact (Failure.plain_of _).locate _
    exact ⟨hplain, .inl ⟨w, hreached, hraises⟩⟩
  · exact ⟨Failure.plain_of _, .inr (.inl ⟨hq, hk, rfl⟩)⟩
  · exact ⟨(Failure.plain_of _).locate _, .inr (.inr ⟨hq, keyword, hret, rfl⟩)⟩

/-- A cause that belongs to no request was raised by a visit, and is true of it. -/
theorem exists_raiser {q : Request} {t : Tree} {ev : Evaluator} {env : σ} {f : Failure}
    (h : (q.answer t (ev, env)).1 = .error (.failure f)) {cause : Cause} (hcause : f.cause = cause)
    (hnode : ∀ detail, cause ≠ .malformedNode t.kind detail)
    (hsignal : ∀ keyword, cause ≠ .strayControl keyword) :
    ∃ w ∈ q.visits t ev env, cause.TrueOf ev.maxDepth w (q.answer t (ev, env)).2.2 := by
  subst hcause
  rcases (failure_cases h).2 with ⟨w, hw, hraises⟩ | ⟨-, -, hcause⟩ | ⟨-, keyword, -, hcause⟩
  · exact ⟨w, hw, hraises.trueOf⟩
  · exact absurd hcause (hnode _)
  · exact absurd hcause (hsignal _)

/-! ## 4. Requests

The clauses of `TellsTruth` are proved one by one, most of them as lemmas of their own. They share
`failure_cases`: a failure was raised by a visit, and then `Raises.trueOf` applies, or it is one of
the two that a request adds. -/

/-- What a failure with which a request ends says, and that it is so. -/
structure TellsTruth (q : Request) (t : Tree) (ev : Evaluator) (env : σ) (f : Failure) : Prop where
  /-- The text is the wording of the cause. -/
  wording : f.message = f.cause.message
  noNotes : f.notes = []
  noPackage : ∀ name, f.cause ≠ .unresolvedPackage name
  /-- The limit that was exceeded is the one there is. -/
  limit : ∀ most, f.cause = .depthExceeded most → ev.maxDepth = some most
  /-- A stray signal left a script, and it was not a `return`. -/
  stray : ∀ keyword, f.cause = .strayControl keyword →
    q = .run ∧ (keyword = "break" ∨ keyword = "continue")
  /-- An undefined variable is the token of a name in the tree. The last request made of the
  environment was to look it up, and nothing was found. -/
  unbound : ∀ name, f.cause = .undefinedVariable name →
    ∃ w ∈ q.visits t ev (Traced.start env), t.Holds w.node ∧ w.node.kind = .name ∧
      w.node.tokenAt? 0 = some name ∧ (Environment.lookup name w.env).1 = none ∧
      (q.answer t (ev, Traced.start env)).2.2.accesses = w.env.accesses ++ [.lookup name false]
  /-- A malformed node has the kind of the one visit that raised anything, or of a tree that was
  taken for a block. -/
  malformed : ∀ kind detail, f.cause = .malformedNode kind detail →
    (q = .evaluateBlock ∧ t.kind ≠ .block ∧ kind = t.kind) ∨
      ∃ w ∈ q.visits t ev env, w.node.kind = kind ∧
        ∀ w' ∈ q.visits t ev env, (∃ i e, w'.Raises ev.maxDepth i e) ↔ w' = w
  /-- An undefined function is the token of a call that was come to, and not in the list of
  names. -/
  unknown : ∀ name, f.cause = .undefinedFunction name →
    ∃ w ∈ q.visits t ev env, w.node.kind = .call ∧ w.node.tokenAt? 0 = some name ∧
      Intrinsic.isName name = false
  /-- A wrong number of arguments is that of a call that was come to, by a name in the list. -/
  arity : ∀ name expected got, f.cause = .arityMismatch name expected got →
    ∃ w ∈ q.visits t ev env, w.node.kind = .call ∧ w.node.tokenAt? 0 = some name ∧
      Intrinsic.isName name = true ∧ got = w.node.nodes.length ∧ got ≠ expected

section
variable {q : Request} {t : Tree} {ev : Evaluator} {env : σ} {f : Failure}
  (h : (q.answer t (ev, env)).1 = .error (.failure f))
include h

/-- No visit raises that a signal left the script, so this one is the request's. -/
theorem stray_of_failure {keyword : String} (hcause : f.cause = .strayControl keyword) :
    q = .run ∧ (keyword = "break" ∨ keyword = "continue") := by
  rcases (failure_cases h).2 with ⟨w, -, hraises⟩ | ⟨-, -, hother⟩ | ⟨hq, k, hret, hk⟩
  · rw [hcause] at hraises
    exact hraises.trueOf.elim
  · rw [hcause] at hother
    cases hother
  · rw [hcause] at hk
    cases hk
    refine ⟨hq, ?_⟩
    cases k with
    | ret => exact absurd rfl hret
    | brk => exact .inl rfl
    | cont => exact .inr rfl

/-- The visit that raised an undefined variable made the last request, and found nothing. -/
theorem lookup_of_failure {name : String} (hcause : f.cause = .undefinedVariable name) :
    ∃ w ∈ q.visits t ev (Traced.start env), t.Holds w.node ∧ w.node.kind = .name ∧
      w.node.tokenAt? 0 = some name ∧ (Environment.lookup name w.env).1 = none ∧
      (q.answer t (ev, Traced.start env)).2.2.accesses =
        w.env.accesses ++ [.lookup name false] := by
  -- the same request with a record fails alike
  have htraced : (q.answer t (ev, Traced.start env)).1 = .error (.failure f) :=
    (answer_traced q t ev (Traced.start env)).1.trans h
  obtain ⟨w, hw, hk, ht, hlookup⟩ := exists_raiser htraced hcause nofun nofun
  have hnone : (Environment.lookup name w.env).1 = none := by rw [hlookup]
  -- and the record ends with the lookup, whose answer is that of the environment inside
  have hlog := Traced.accesses_lookup name w.env
  have hinner : (Environment.lookup name w.env.inner).1 = none := hnone
  rw [hinner, hlookup] at hlog
  exact ⟨w, hw, holds_of_mem_visits hw, hk, ht, hnone, hlog⟩

/-- A malformed node is the one visit that raised anything, or there was no node to visit. -/
theorem raiser_of_malformed {kind : Kind} {detail : String}
    (hcause : f.cause = .malformedNode kind detail) :
    (q = .evaluateBlock ∧ t.kind ≠ .block ∧ kind = t.kind) ∨
      ∃ w ∈ q.visits t ev env, w.node.kind = kind ∧
        ∀ w' ∈ q.visits t ev env, (∃ i e, w'.Raises ev.maxDepth i e) ↔ w' = w := by
  -- raised by a visit, or the request wanted a block; a stray signal has another cause
  rcases (failure_cases h).2 with ⟨w, hw, hraises⟩ | ⟨hq, hk, hother⟩ | ⟨-, k, -, hother⟩
  · refine .inr ⟨w, hw, ?_, fun w' hw' => ⟨?_, ?_⟩⟩
    · rw [hcause] at hraises
      exact hraises.trueOf
    · rintro ⟨i, e, hi⟩
      exact RowReaches.raiser_unique ((q.mem_visits t ev env w).1 hw) hraises
        ((q.mem_visits t ev env w').1 hw') hi
    · rintro rfl
      exact ⟨_, _, hraises⟩
  · rw [hcause] at hother
    cases hother
    exact .inl ⟨hq, hk, rfl⟩
  · rw [hcause] at hother
    cases hother

end

/-- Failures tell the truth about where and why evaluation failed. Each is made plain where it is
raised and takes nothing but a place on its way out, so its text is that of its cause; and what the
cause says is true of the visit that raised it, or of the request. -/
theorem failure_tells_truth (q : Request) (t : Tree) (ev : Evaluator) (env : σ) (f : Failure)
    (h : (q.answer t (ev, env)).1 = .error (.failure f)) : q.TellsTruth t ev env f where
  wording := (failure_cases h).1.message
  noNotes := (failure_cases h).1.notes
  noPackage name hcause := by
    obtain ⟨w, -, htrue⟩ := exists_raiser h hcause nofun nofun
    exact htrue
  limit most hcause := by
    obtain ⟨w, -, hlimit, -⟩ := exists_raiser h hcause nofun nofun
    exact hlimit
  stray _ hcause := stray_of_failure h hcause
  unbound _ hcause := lookup_of_failure h hcause
  malformed _ _ hcause := raiser_of_malformed h hcause
  unknown _ hcause := exists_raiser h hcause nofun nofun
  arity name expected got hcause := by
    obtain ⟨w, hw, hk, ht, f', hf, -, hgot, hne⟩ := exists_raiser h hcause nofun nofun
    exact ⟨w, hw, hk, ht, Intrinsic.isName_iff_ofName?.2 ⟨f', hf⟩, hgot, hne⟩

end Request

end

/-- A script that looks up a name without a value, behind one that it has bound. -/
theorem Request.failure_tells_truth_of_name :
    let script := Tree.block [.assign "x" (.text "'one'"), .list [.name "x", .name "y"]]
    let f := Failure.of (.undefinedVariable "y")
    (run.answer script (.new, Scope.empty)).1 = .error (.failure f) ∧
      f.message = "undefined variable: y" ∧ run.TellsTruth script .new Scope.empty f := by
  intro script f
  have hroots : run.roots script =
      [.assign "x" (.text "'one'"), .list [.name "x", .name "y"]] := rfl
  have hassign : (Tree.assign "x" (.text "'one'")).plan = ⟨[.text "'one'"], .bind "x"⟩ := rfl
  have hlist : (Tree.list [.name "x", .name "y"]).plan = ⟨[.name "x", .name "y"], .list⟩ := rfl
  have hfails : (run.answer script (.new, Scope.empty)).1 = .error (.failure f) := by
    simp only [answer_eq, hroots, inOrder_cons, inOrder_nil, Metrology.evaluate_eq, Evaluator.new,
      Evaluator.withLimit, pastLimit_none, hassign, hlist]
    rfl
  exact ⟨hfails, rfl, failure_tells_truth run script .new Scope.empty f hfails⟩

end Metrology
