/-
Trees that are built by the builders never fail for their shape.

A builder fixes where tokens and nodes stand in a row, and evaluation reads them back by place or by
kind. The two meet in the plans of the builders' nodes (`plan_list`, `plan_binary`, ...): each plan
has the arguments of its builder as operands and nothing of the brackets and separators around them.
Once the operands have values there is one for each, so the assembly does not miss any.

`WellBuilt` says of a whole tree that it is built so, with tokens that are what their places ask
for. A block without statements (`Vacant`) is well built and has no value, so it may not stand where
one is wanted. What evaluation comes to in such a tree is then well built again and not vacant.
Whatever is raised is raised by a node that was come to, and so none of it is about a shape.
-/
import Metrology.Proofs.Interrupts
import Metrology.Tree.Build
import Metrology.Binary64.Numerics
import Metrology.Evaluation.Scope
import Mathlib.Data.List.Basic
set_option autoImplicit false

namespace Metrology

/-! ## 1. Failures for a shape -/

/-- The causes that lie with the shape of a tree: children that do not fit the kind, and a control
statement by no keyword. -/
def Cause.ofShape : Cause → Bool
  | malformedNode .. => true
  | unknownKeyword _ => true
  | _ => false

/-- What lies with values does not lie with a shape. -/
theorem Cause.ofShape_of_ofValues {cause : Cause} (h : cause.ofValues = true) :
    cause.ofShape = false := by
  cases cause with
  | malformedNode kind detail => cases h
  | unknownKeyword keyword => cases h
  | _ => rfl

/-- What fails for its values only does not fail for a shape. -/
theorem Outcome.FailsWith.not_ofShape {α : Type} {r : Outcome α}
    (h : r.FailsWith Cause.ofValues) {cause : Cause} (hr : r = Outcome.fail cause) :
    cause.ofShape = false :=
  Cause.ofShape_of_ofValues (h.cause_of_eq hr)

namespace Tree

/-! ## 2. What evaluation reads of a row

The builders put brackets, commas and operators around what they are given (`delimited`). Evaluation
asks for nested nodes or for the token at a place, and so passes over them. -/

/-- A separator is left out by any filter that does not take it. -/
theorem filter_token?_separated {separator : String} {p : String → Bool}
    (hp : p separator = false) (cs : List (Part Tree)) :
    ((separated separator cs).filterMap Part.token?).filter p =
      (cs.filterMap Part.token?).filter p := by
  fun_induction separated separator cs with
  | case1 => rfl
  | case2 => rfl
  | case3 item rest _ ih => cases item <;> simp [List.filterMap_cons, List.filter_cons, hp, ih]

section
variable (s : Span) (t u : Tree) (ts : List Tree) (token : String) (tokens : List String)

/-- A number literal holds the numeric tokens it was built of, and no nodes. -/
theorem tokens_number : (number tokens).tokens.filter (fun s => !Literal.isSeparator s) =
    tokens.filter fun s => !Literal.isSeparator s := by
  have htokens : (tokens.map (Part.token (α := Tree))).filterMap Part.token? = tokens := by
    rw [List.filterMap_map]
    exact List.filterMap_some
  rw [number, Tree.tokens, ofParts, children, filter_token?_separated rfl, htokens]

/-- A number literal holds no nodes. -/
@[simp] theorem nodes_number : (number tokens).nodes = [] := by
  rw [number, nodes_ofParts, filterMap_node?_separated, List.filterMap_map,
    List.filterMap_eq_nil_iff]
  exact fun token _ => rfl

/-- The nodes of a control statement are its operand. -/
@[simp] theorem nodes_control (operand : Option Tree) :
    (control token operand).nodes = operand.toList := by
  cases operand <;> rfl

/-! ## 3. The plans of the builders

Most of these are read off the definitions. The rows with a variable number of parts need the lemmas
on what a builder's row holds. -/

/-- A place given to a node does not change what is done with it. -/
@[simp] theorem plan_withSpan : (t.withSpan s).plan = t.plan := by
  cases t
  rfl

/-- A number literal is decoded from its tokens without separators. -/
theorem plan_number : (number tokens).plan = .settled ((Outcome.ofExcept
    (Literal.decode (tokens.filter fun s => !Literal.isSeparator s))).map .number) := by
  have hnodes : (number tokens).nodes.isEmpty = true := by rw [nodes_number, List.isEmpty_nil]
  show Plan.settled (number tokens).numberValue = _
  rw [numberValue, if_pos hnodes, tokens_number]

/-- A text literal is its token without the quotation marks. -/
theorem plan_text : (text token).plan = .settled (textValue token) := rfl

theorem plan_symbol : (symbol token).plan = .settled (.ok (.symbol token)) := rfl

theorem plan_package : (package token).plan = .settled (.ok (.package token)) := rfl

theorem plan_name : (name token).plan = ⟨[], .lookup token⟩ := rfl

/-- A list evaluates its items. -/
theorem plan_list : (list ts).plan = ⟨ts, .list⟩ := by
  have hplan : (list ts).plan = ⟨(list ts).nodes, .list⟩ := rfl
  rw [hplan, nodes_list]

/-- A block evaluates its statements. -/
theorem plan_block : (block ts).plan = ⟨ts, .block⟩ := by
  rw [plan_of_block rfl, nodes_block]

/-- A control statement has the plan of its keyword. -/
theorem plan_control (k : Keyword) (operand : Option Tree) :
    (control k.text operand).plan = (control k.text operand).keywordPlan k :=
  plan_of_keyword rfl rfl

/-- A `return` evaluates its operand if it has one. -/
theorem plan_ret (operand : Option Tree) : (ret operand).plan = ⟨operand.toList, .ret⟩ := by
  cases operand <;> rfl

theorem plan_assign : (assign token t).plan = ⟨[t], .bind token⟩ := rfl

/-- An operator evaluates both of its sides, the left one first. -/
theorem plan_binary (op : BinaryOperator) :
    (binary t op.symbol u).plan = ⟨[t, u], .binary op⟩ := by
  cases op <;> rfl

/-- An operator before a node evaluates that node. -/
theorem plan_unary (op : UnaryOperator) : (unary op.symbol t).plan = ⟨[t], .unary op⟩ := by
  cases op <;> rfl

theorem plan_group : (group t).plan = ⟨[t], .group⟩ := rfl

/-- A call evaluates its arguments. -/
theorem plan_call : (call token ts).plan = ⟨ts, .call token⟩ := by
  have hplan : (call token ts).plan = ⟨(call token ts).nodes, .call token⟩ := plan_of_call rfl rfl
  rw [hplan, nodes_call]

end

/-! ## 4. Well-built trees -/

/-- A block without statements. -/
def Vacant (t : Tree) : Prop := t.kind = .block ∧ t.nodes = []

/-- Built by the builders, with a text in its quotation marks, with operators and keywords that
there are, and with no vacant block where a value or a statement is wanted. -/
inductive WellBuilt : Tree → Prop
  | number (tokens : List String) : WellBuilt (number tokens)
  | text {quoted : String} : 2 ≤ quoted.length → WellBuilt (text quoted)
  | symbol (token : String) : WellBuilt (symbol token)
  | package (token : String) : WellBuilt (package token)
  | name (token : String) : WellBuilt (name token)
  | list {ts : List Tree} : (∀ t ∈ ts, WellBuilt t) → (∀ t ∈ ts, ¬ t.Vacant) → WellBuilt (list ts)
  | block {ts : List Tree} : (∀ t ∈ ts, WellBuilt t) → (∀ t ∈ ts, ¬ t.Vacant) →
      WellBuilt (block ts)
  | ret {operand : Option Tree} : (∀ t ∈ operand, WellBuilt t) → (∀ t ∈ operand, ¬ t.Vacant) →
      WellBuilt (ret operand)
  -- as in `brk` and `cont`; nothing behind these two is evaluated, so anything may stand there
  | breaking (operand : Option Tree) : WellBuilt (control Keyword.brk.text operand)
  | continuing (operand : Option Tree) : WellBuilt (control Keyword.cont.text operand)
  | assign (token : String) {t : Tree} : WellBuilt t → ¬ t.Vacant → WellBuilt (assign token t)
  | binary (op : BinaryOperator) {t u : Tree} : WellBuilt t → ¬ t.Vacant → WellBuilt u →
      ¬ u.Vacant → WellBuilt (binary t op.symbol u)
  | unary (op : UnaryOperator) {t : Tree} : WellBuilt t → ¬ t.Vacant →
      WellBuilt (unary op.symbol t)
  | group {t : Tree} : WellBuilt t → ¬ t.Vacant → WellBuilt (group t)
  | call (token : String) {ts : List Tree} : (∀ t ∈ ts, WellBuilt t) → (∀ t ∈ ts, ¬ t.Vacant) →
      WellBuilt (call token ts)
  | withSpan (s : Span) {t : Tree} : WellBuilt t → WellBuilt (t.withSpan s)

/-- A place does not change whether a block is vacant. -/
theorem vacant_withSpan {t : Tree} (s : Span) : (t.withSpan s).Vacant ↔ t.Vacant := by
  cases t
  rfl

/-- Fit to stand where a value or a statement is wanted. -/
def Fit (t : Tree) : Prop := t.WellBuilt ∧ ¬ t.Vacant

/-- The operands of a well-built node are fit for their places. -/
theorem WellBuilt.operand {t u : Tree} (h : t.WellBuilt) (hu : u ∈ t.plan.operands) : u.Fit := by
  -- by the builder of the node: the literals and the two loop signals have no operands, and the
  -- others have the nodes they were given
  induction h with
  | number tokens =>
    rw [plan_number] at hu
    exact absurd hu List.not_mem_nil
  | text _ =>
    rw [plan_text] at hu
    exact absurd hu List.not_mem_nil
  | symbol token =>
    rw [plan_symbol] at hu
    exact absurd hu List.not_mem_nil
  | package token =>
    rw [plan_package] at hu
    exact absurd hu List.not_mem_nil
  | name token =>
    rw [plan_name] at hu
    exact absurd hu List.not_mem_nil
  | breaking _ =>
    rw [plan_control] at hu
    exact absurd hu List.not_mem_nil
  | continuing _ =>
    rw [plan_control] at hu
    exact absurd hu List.not_mem_nil
  | list hts hv _ =>
    rw [plan_list] at hu
    exact ⟨hts u hu, hv u hu⟩
  | block hts hv _ =>
    rw [plan_block] at hu
    exact ⟨hts u hu, hv u hu⟩
  | call token hts hv _ =>
    rw [plan_call] at hu
    exact ⟨hts u hu, hv u hu⟩
  | ret ht hv _ =>
    rw [plan_ret] at hu
    have hoperand := Option.mem_toList.1 hu
    exact ⟨ht u hoperand, hv u hoperand⟩
  | assign token ht hv _ =>
    rw [plan_assign, List.mem_singleton] at hu
    rw [hu]
    exact ⟨ht, hv⟩
  | binary op ht hv hw hwv _ _ =>
    rw [plan_binary, List.mem_cons, List.mem_singleton] at hu
    rcases hu with rfl | rfl
    · exact ⟨ht, hv⟩
    · exact ⟨hw, hwv⟩
  | unary op ht hv _ =>
    rw [plan_unary, List.mem_singleton] at hu
    rw [hu]
    exact ⟨ht, hv⟩
  | group ht hv _ =>
    rw [plan_group, List.mem_singleton] at hu
    rw [hu]
    exact ⟨ht, hv⟩
  | withSpan s _ ih =>
    rw [plan_withSpan] at hu
    exact ih hu

/-- The first level of a script is fit, whatever well-built tree the script is. -/
theorem WellBuilt.fit_of_mem_roots {t u : Tree} (h : t.WellBuilt)
    (hu : u ∈ Request.run.roots t) : u.Fit := by
  rw [Request.roots] at hu
  split at hu
  · rename_i hk
    refine h.operand ?_
    rw [plan_of_block hk]
    exact hu
  · rw [List.mem_singleton.1 hu]
    exact ⟨h, fun hv => absurd hv.1 ‹_›⟩

/-! ## 5. What a well-built node fails with -/

/-- A text in its quotation marks has a content. -/
theorem textValue_of_length {quoted : String} (h : 2 ≤ quoted.length) :
    ∃ content, textValue quoted = .ok (.text content) := by
  have htwo : 2 ≤ quoted.toList.length := by rwa [String.length_toList]
  unfold textValue Literal.unquote?
  rcases hcs : quoted.toList with _ | ⟨a, _ | ⟨b, cs⟩⟩
  · rw [hcs] at htwo
    exact absurd htwo (by decide)
  · rw [hcs] at htwo
    exact absurd htwo (by simp)
  · exact ⟨_, rfl⟩

/-- A well-built node with a value for each operand does not fail for its shape, other than as a
vacant block. -/
theorem Fit.cause_of_run [Numerics] {σ : Type} [Environment σ] {t : Tree} (h : t.Fit)
    {vs : List Value} (hvs : vs.length = t.plan.operands.length) {env : σ} {cause : Cause}
    (hrun : (t.plan.assembly.run vs env).1 = Outcome.fail cause) : cause.ofShape = false := by
  obtain ⟨hbuilt, hvacant⟩ := h
  -- by the builder: a value for each operand leaves an assembly nothing to miss, and operators,
  -- calls and literals fail for values only
  induction hbuilt with
  | number tokens =>
    rw [plan_number] at hrun
    exact (((Literal.decode_failsWith _).map _).mono Cause.ofValues_of_ofLiteral).not_ofShape hrun
  | text hquoted =>
    obtain ⟨content, hvalue⟩ := textValue_of_length hquoted
    rw [plan_text, Plan.settled, Assembly.run, hvalue] at hrun
    cases hrun
  | symbol token => cases hrun
  | package token => cases hrun
  | name token =>
    rw [plan_name, Assembly.run] at hrun
    split at hrun
    · cases hrun
    · cases hrun
      rfl
  | list _ _ _ =>
    rw [plan_list] at hrun
    cases hrun
  | @block ts _ _ _ =>
    rw [plan_block] at hvs hrun
    have hne : vs ≠ [] := by
      rintro rfl
      exact hvacant ⟨rfl, (nodes_block ts).trans (List.length_eq_zero_iff.1 hvs.symm)⟩
    rw [Assembly.run, List.getLast?_eq_some_getLast hne] at hrun
    cases hrun
  | ret _ _ _ =>
    rw [plan_ret] at hrun
    cases hrun
  | breaking operand =>
    rw [plan_control] at hrun
    cases hrun
  | continuing operand =>
    rw [plan_control] at hrun
    cases hrun
  | assign token _ _ _ =>
    obtain ⟨v, rfl⟩ := List.length_eq_one_iff.1 hvs
    cases hrun
  | binary op _ _ _ _ _ _ =>
    rw [plan_binary] at hvs hrun
    obtain ⟨v, w, rfl⟩ := List.length_eq_two.1 hvs
    exact ((Operation.binary_failsWith op v w).mono Cause.ofValues_of_ofOperands).not_ofShape hrun
  | unary op _ _ _ =>
    rw [plan_unary] at hvs hrun
    obtain ⟨v, rfl⟩ := List.length_eq_one_iff.1 hvs
    exact ((Operation.unary_failsWith op v).mono Cause.ofValues_of_ofOperands).not_ofShape hrun
  | group _ _ _ =>
    obtain ⟨v, rfl⟩ := List.length_eq_one_iff.1 hvs
    cases hrun
  | call token _ _ _ =>
    rw [plan_call] at hrun
    exact (Intrinsic.call_failsWith token vs).not_ofShape hrun
  | withSpan s _ ih =>
    rw [plan_withSpan] at hvs hrun
    exact ih hvs hrun fun hv => hvacant ((vacant_withSpan s).2 hv)

end Tree

/-! ## 6. Visits -/

section
variable [Numerics] {σ : Type} [Environment σ] {limit : Option Nat}

namespace Visit

/-- What is come to from a fit node is fit. -/
theorem Reaches.fit {v w : Visit σ} (h : v.Reaches limit w) (hv : v.node.Fit) : w.node.Fit := by
  induction h with
  | refl => exact hv
  | tail _ hstep ih =>
    obtain ⟨i, hi⟩ := hstep
    exact ih.1.operand hi.2.mem

/-- A visit of a fit node does not raise a failure for a shape. -/
theorem Raises.cause_of_fit {v : Visit σ} (hv : v.node.Fit) {f : Failure} {e : σ}
    (h : v.Raises limit (.failure f) e) : f.cause.ofShape = false := by
  cases h with
  | tooDeep _ => rfl
  | failure _ _ hrow hrun =>
    exact hv.cause_of_run (length_of_inOrder hrow) (congrArg Prod.fst hrun)

/-- A fit node does not come out with a failure for a shape. By `exists_raises` some node that was
come to raised what comes out, and on its way the failure only takes a place. -/
theorem cause_of_fit {v : Visit σ} (hv : v.node.Fit) {f : Failure} {e : σ}
    (h : v.result limit = (.error (.failure f), e)) : f.cause.ofShape = false := by
  obtain ⟨w, s, i, hw, hi, hf⟩ := v.exists_raises h
  cases i with
  | failure g =>
    rw [Interrupt.locate, Interrupt.failure.injEq] at hf
    rw [hf, Failure.locate_cause]
    exact hi.cause_of_fit (hw.reaches.fit hv)
  | returning v => cases hf
  | breaking => cases hf
  | continuing => cases hf

end Visit

/-! ## 7. Requests -/

/-- A script of a well-built tree does not fail for a shape. -/
theorem Evaluator.cause_of_run {t : Tree} (ht : t.WellBuilt) {ev : Evaluator} {env : σ}
    {f : Failure}
    (h : (run t (ev, env)).1 = .error f) : f.cause.ofShape = false := by
  obtain ⟨k, w, a, e, hw, herr, rfl | ⟨-, rfl⟩ | ⟨-, rfl⟩⟩ := exists_turn_of_run h
  · exact Visit.cause_of_fit (ht.fit_of_mem_roots hw.mem) herr
  · rfl
  · rfl

/-- Well-built trees do not fail for their shape, in no environment and under no limit: not as a
node, unless the root is a vacant block, and never as a block or as a script. And what a builder was
given stands where evaluation reads it. -/
theorem well_built_never_misshapen {t : Tree} (ht : t.WellBuilt) (ev : Evaluator) (env : σ) :
    (¬ t.Vacant → ∀ f, (Evaluator.evaluate t (ev, env)).1 = .error (.failure f) →
        f.cause.ofShape = false) ∧
      (t.kind = .block → ∀ f, (Evaluator.evaluateBlock t (ev, env)).1 = .error (.failure f) →
        f.cause.ofShape = false) ∧
      (∀ f, (Evaluator.run t (ev, env)).1 = .error f → f.cause.ofShape = false) ∧
      ∀ (token : String) (tokens : List String) (l r : Tree) (ts : List Tree)
        (operand : Option Tree),
        ((Tree.number tokens).nodes = [] ∧
          (Tree.number tokens).tokens.filter (fun s => !Literal.isSeparator s) =
            tokens.filter fun s => !Literal.isSeparator s) ∧
        (Tree.text token).tokenAt? 0 = some token ∧
        (Tree.symbol token).tokenAt? 0 = some token ∧
        (Tree.package token).tokenAt? 0 = some token ∧
        (Tree.name token).tokenAt? 0 = some token ∧
        (Tree.list ts).nodes = ts ∧
        (Tree.block ts).nodes = ts ∧
        ((Tree.call token ts).tokenAt? 0 = some token ∧ (Tree.call token ts).nodes = ts) ∧
        ((Tree.control token operand).tokenAt? 0 = some token ∧
          (Tree.control token operand).nodes = operand.toList) ∧
        ((Tree.assign token r).tokenAt? 0 = some token ∧
          (Tree.assign token r).onlyNode? = some r) ∧
        ((Tree.binary l token r).nodeAt? 0 = some l ∧
          (Tree.binary l token r).tokenAt? 1 = some token ∧
          (Tree.binary l token r).nodeAt? 2 = some r) ∧
        ((Tree.unary token r).tokenAt? 0 = some token ∧ (Tree.unary token r).nodeAt? 1 = some r) ∧
        (Tree.group r).onlyNode? = some r := by
  refine ⟨?_, ?_, ?_, ?_⟩
  · intro hvacant f hf
    rw [Evaluator.evaluate_eq] at hf
    have hresult : (Visit.mk ev.depth t env).result ev.maxDepth = (.error (.failure f), _) :=
      Prod.ext hf rfl
    exact Visit.cause_of_fit ⟨ht, hvacant⟩ hresult
  · intro hk f hf
    rw [Request.evaluateBlock_eq t ev env hk] at hf
    -- the statements of a block are what a script of it has at its first level
    have hroots : Request.run.roots t = t.nodes := if_pos hk
    obtain ⟨k, w, hw, herr⟩ := inOrder_eq_error_iff.1 (Prod.ext (Outcome.map_eq_error.1 hf) rfl)
    exact Visit.cause_of_fit (ht.fit_of_mem_roots (hroots ▸ hw.mem)) herr
  · intro f hf
    exact Evaluator.cause_of_run ht hf
  · intro token tokens l r ts operand
    exact ⟨⟨Tree.nodes_number tokens, Tree.tokens_number tokens⟩, rfl, rfl, rfl, rfl,
      Tree.nodes_list ts, Tree.nodes_block ts, ⟨rfl, Tree.nodes_call token ts⟩,
      ⟨rfl, Tree.nodes_control token operand⟩, ⟨rfl, rfl⟩, ⟨rfl, rfl, rfl⟩, ⟨rfl, rfl⟩, rfl⟩

end

/-- A script that fails, for the text among its numbers; its shape is in order. -/
theorem well_built_never_misshapen_of_text :
    let t := Tree.block [
      .assign "x" (.group (.binary (.number ["1", "2"]) "+" (.unary "-" (.number ["3"])))),
      .ret (some (.call "avg" [.list [.name "x", .text "'x'"]]))]
    t.WellBuilt ∧ ∃ f, (Evaluator.run t (.new, Scope.empty)).1 = .error f ∧
      f.cause.ofShape = false := by
  intro t
  have hassign : Tree.WellBuilt (.assign "x"
      (.group (.binary (.number ["1", "2"]) "+" (.unary "-" (.number ["3"]))))) :=
    .assign "x" (.group (.binary .add (.number _) nofun (.unary .negate (.number _) nofun) nofun)
      nofun) nofun
  have hlist : Tree.WellBuilt (.list [.name "x", .text "'x'"]) :=
    .list (List.forall_mem_cons.2 ⟨.name "x", List.forall_mem_singleton.2 (.text (by decide))⟩)
      (List.forall_mem_cons.2 ⟨nofun, List.forall_mem_singleton.2 nofun⟩)
  have hcall : Tree.WellBuilt (.call "avg" [.list [.name "x", .text "'x'"]]) :=
    .call "avg" (List.forall_mem_singleton.2 hlist) (List.forall_mem_singleton.2 nofun)
  have hret : Tree.WellBuilt (.ret (some (.call "avg" [.list [.name "x", .text "'x'"]]))) := by
    refine .ret ?_ ?_
    all_goals
      intro u hu
      obtain rfl := Option.some.inj hu
    · exact hcall
    · exact nofun
  have ht : t.WellBuilt :=
    .block (List.forall_mem_cons.2 ⟨hassign, List.forall_mem_singleton.2 hret⟩)
      (List.forall_mem_cons.2 ⟨nofun, List.forall_mem_singleton.2 nofun⟩)
  have hfails : (Evaluator.run t (.new, Scope.empty)).1.isOk = false := by decide +kernel
  rcases hrun : (Evaluator.run t (.new, Scope.empty)).1 with f | v
  · exact ⟨ht, f, rfl, (well_built_never_misshapen ht .new Scope.empty).2.2.1 f hrun⟩
  · rw [hrun] at hfails
    cases hfails

end Metrology
