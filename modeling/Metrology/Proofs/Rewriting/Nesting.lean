/-
Parentheses and nested blocks.

Parentheses around an expression and a block around a single one are there for the reader of a text,
and so is a block among the statements of another block: it opens no scope, and its last value is
the value of the statement that it is. Without a depth limit, taking such a layer away changes the
place of a failure and nothing else.

What is left of an evaluation without depth and without places is `Tree.meaning`. It is evaluation
of the tree without its spans, and has a recursion of its own (`meaning_eq`) in which nothing but
plans and operands occurs. A layer that is taken away is an equation of meanings, by cases for
parentheses and for a single expression, and for a block among statements because the last value of
a row is that of its last part (`inOrder_append`).
-/
import Metrology.Proofs.Rewriting.Contexts
import Metrology.Proofs.Spans.Erasure
import Metrology.Tree.Build
set_option autoImplicit false

namespace Metrology

/-! ## 1. Rows in two parts -/

/-- A row goes on with its second part where the first has ended. -/
theorem inOrder_append {α β σ : Type} (step : α → σ → Outcome β × σ) (as bs : List α) (s : σ) :
    inOrder step (as ++ bs) s =
      match inOrder step as s with
      | (.error i, s') => (.error i, s')
      | (.ok vs, s') =>
        ((inOrder step bs s').1.map (vs ++ ·), (inOrder step bs s').2) := by
  induction as generalizing s with
  | nil =>
    simp only [List.nil_append, inOrder_nil]
    rcases inOrder step bs s with ⟨i | vs, s'⟩ <;> rfl
  | cons a as ih =>
    rcases hstep : step a s with ⟨i | v, s'⟩
    · rw [List.cons_append, inOrder_cons_error hstep, inOrder_cons_error hstep]
    · rw [List.cons_append, inOrder_cons_ok hstep, inOrder_cons_ok hstep, ih]
      rcases inOrder step as s' with ⟨i | vs, s''⟩
      · rfl
      · simp only [Except.map]
        rcases inOrder step bs s'' with ⟨i | ws, s'''⟩ <;> rfl

/-- The members of a row can be changed before it is run. -/
theorem inOrder_map {α β γ σ : Type} (step : α → σ → Outcome β × σ) (f : γ → α) (cs : List γ)
    (s : σ) : inOrder step (cs.map f) s = inOrder (fun c => step (f c)) cs s := by
  induction cs generalizing s with
  | nil => rfl
  | cons c cs ih => simp only [List.map_cons, inOrder_cons, ih]

/-- Values before a row are not the last ones if the row has any. -/
theorem last_append (us : List Value) (r : Outcome (List Value)) :
    (r.map (us ++ ·)).map List.getLast? = (r.map List.getLast?).map (·.or us.getLast?) := by
  rcases r with i | vs
  · rfl
  · exact congrArg Except.ok List.getLast?_append

/-! ## 2. Meaning -/

section
variable [Numerics] {σ : Type} [Environment σ]

/-- Without a limit it does not matter how deep a tree stands. -/
theorem evaluate_none (t : Tree) : ∀ (depth : Nat) (s : σ),
    evaluate none depth t s = evaluate none 0 t s := by
  induction t using Tree.induction with
  | node t ih =>
    intro depth s
    -- the operands stand one level deeper than the node, wherever that is
    have hrow : inOrder (evaluate none (depth + 1)) t.plan.operands s =
        inOrder (evaluate none 1) t.plan.operands s := by
      refine inOrder_congr (List.forall₂_same.2 fun u hu s' => ?_) s
      have hu' := ih u (Tree.mem_nodes_of_mem_operands hu)
      rw [hu' (depth + 1), hu' 1]
    rw [evaluate_eq, evaluate_eq]
    simp only [pastLimit_none, Nat.zero_add, hrow]

/-- The outcome of a tree without limit and without places, and the environment afterwards. -/
def Tree.meaning (t : Tree) (s : σ) : Outcome Value × σ := evaluate none 0 t.eraseSpans s

/-- Evaluation has the meaning of the tree, and a place for its failure besides. -/
theorem Tree.meaning_eq_evaluate (t : Tree) (s : σ) :
    t.meaning s = ((evaluate none 0 t s).1.mapError Interrupt.eraseSpan, (evaluate none 0 t s).2) :=
  evaluate_eraseSpans none 0 t s

/-- What becomes of the values of operands where nothing is located. -/
def Assembly.finish (a : Assembly) : Outcome (List Value) × σ → Outcome Value × σ
  | (.error i, s) => (.error i, s)
  | (.ok vs, s) => a.run vs s

/-- The meaning of a node comes from the meanings of its operands. -/
theorem Tree.meaning_eq (t : Tree) (s : σ) :
    t.meaning s = t.plan.assembly.finish (inOrder Tree.meaning t.plan.operands s) := by
  have hrow : inOrder (evaluate none 1) (t.plan.operands.map eraseSpans) s =
      inOrder Tree.meaning t.plan.operands s := by
    rw [inOrder_map]
    exact inOrder_congr (List.forall₂_same.2 fun u _ s' => evaluate_none u.eraseSpans 1 s') s
  rw [meaning, evaluate_eq, plan_eraseSpans, span_eraseSpans]
  simp only [pastLimit_none, Plan.mapOperands, Nat.zero_add, hrow]
  rcases inOrder Tree.meaning t.plan.operands s with ⟨i | vs, s'⟩
  · simp only [conclude, Interrupt.locate_none, Assembly.finish]
  · simp only [conclude, Assembly.finish]
    rcases t.plan.assembly.run vs s' with ⟨i | v, s''⟩
    · simp only [Outcome.locate, Interrupt.locate_none]
    · rfl

/-! ## 3. Layers -/

/-- A layer is taken away: parentheses or a block around one nested node, or a block with statements
from around its statements among those of another block. -/
inductive Tree.Unwrapping : Tree → Tree → Prop
  | group {t u : Tree} : t.kind = .group → t.nodes = [u] → Tree.Unwrapping t u
  | block {t u : Tree} : t.kind = .block → t.nodes = [u] → Tree.Unwrapping t u
  | splice {inner : Tree} (before parts after : List (Part Tree)) {span : Option Span} :
      inner.kind = .block → inner.nodes ≠ [] → parts.filterMap Part.node? = inner.nodes →
      Tree.Unwrapping (.mk .block (before ++ .node inner :: after) span)
        (.mk .block (before ++ (parts ++ after)) span)

/-- The trees differ in such layers only, taken away or put around at any number of places and
depths. -/
def Tree.SameButNesting : Tree → Tree → Prop := Relation.EqvGen (Tree.Inside Tree.Unwrapping)

/-- A row of one is its member. -/
theorem meaning_of_single {t u : Tree} (hoperands : t.plan.operands = [u])
    (hrun : ∀ (v : Value) (s : σ), t.plan.assembly.run [v] s = (.ok v, s)) (s : σ) :
    t.meaning s = u.meaning s := by
  rw [Tree.meaning_eq, hoperands, inOrder_singleton]
  rcases u.meaning s with ⟨i | v, s'⟩
  · rfl
  · exact hrun v s'

/-- Of the values of its statements a block keeps the last one. -/
theorem Assembly.finish_block_congr {r r' : Outcome (List Value) × σ}
    (hlast : r.1.map List.getLast? = r'.1.map List.getLast?) (henv : r.2 = r'.2) :
    Assembly.block.finish r = Assembly.block.finish r' := by
  obtain ⟨out, s⟩ := r
  obtain ⟨out', s'⟩ := r'
  obtain rfl : s = s' := henv
  rcases out with i | vs
  all_goals rcases out' with i' | vs'
  · obtain rfl : i = i' := Except.error.inj hlast
    rfl
  · cases hlast
  · cases hlast
  · have hvalues : vs.getLast? = vs'.getLast? := Except.ok.inj hlast
    simp only [Assembly.finish, Assembly.run, hvalues]

/-- Statements of a nested block in place of the block: the row ends alike and with the same last
value. -/
theorem inOrder_splice {inner : Tree} (hk : inner.kind = .block) (hn : inner.nodes ≠ [])
    (after : List Tree) (s : σ) :
    let nested := inOrder Tree.meaning (inner :: after) s
    let spliced := inOrder Tree.meaning (inner.nodes ++ after) s
    nested.1.map List.getLast? = spliced.1.map List.getLast? ∧ nested.2 = spliced.2 := by
  intro nested spliced
  have hinner : inner.meaning s = Assembly.block.finish (inOrder Tree.meaning inner.nodes s) := by
    rw [Tree.meaning_eq, Tree.plan_of_block hk]
  have hspliced : spliced = _ := inOrder_append Tree.meaning inner.nodes after s
  rcases hrow : inOrder Tree.meaning inner.nodes s with ⟨i | vs, s'⟩
  all_goals rw [hrow] at hinner hspliced
  · -- an interrupt inside ends both rows
    have hnested : nested = (.error i, s') := inOrder_cons_error hinner after
    rw [hnested, hspliced]
    exact ⟨rfl, rfl⟩
  · -- the block has a value because it has a statement, and it is the last one
    have hvs : vs ≠ [] := by
      rintro rfl
      exact hn (List.eq_nil_of_length_eq_zero (length_of_inOrder hrow).symm)
    obtain ⟨v, hv⟩ := Option.ne_none_iff_exists'.1 (mt List.getLast?_eq_none_iff.1 hvs)
    have hvalue : inner.meaning s = (.ok v, s') := by
      rw [hinner]
      simp only [Assembly.finish, Assembly.run, hv]
    have hnested : nested = _ := inOrder_cons_ok hvalue after
    rw [hnested, hspliced]
    dsimp only
    rcases inOrder Tree.meaning after s' with ⟨i | ws, s''⟩
    · exact ⟨rfl, rfl⟩
    · refine ⟨congrArg Except.ok ?_, rfl⟩
      rw [List.getLast?_append, hv, List.getLast?_cons]
      cases ws.getLast? <;> rfl

/-- A layer has no meaning of its own. -/
theorem Tree.Unwrapping.meaning_eq {t u : Tree} (h : Tree.Unwrapping t u) (s : σ) :
    t.meaning s = u.meaning s := by
  cases h with
  | group hk hn =>
    have hplan : t.plan = ⟨[u], .group⟩ := by
      rw [Tree.plan, hk, Tree.onlyNode?, hn]
      rfl
    exact meaning_of_single (by rw [hplan]) (fun v s' => by rw [hplan]; rfl) s
  | block hk hn =>
    have hplan := Tree.plan_of_block hk
    rw [hn] at hplan
    exact meaning_of_single (by rw [hplan]) (fun v s' => by rw [hplan]; rfl) s
  | @splice inner before parts after span hk hn hparts =>
    have hnested : (Tree.mk .block (before ++ .node inner :: after) span).nodes =
        before.filterMap Part.node? ++ inner :: after.filterMap Part.node? := by
      simp [Tree.nodes, Tree.children]
    have hspliced : (Tree.mk .block (before ++ (parts ++ after)) span).nodes =
        before.filterMap Part.node? ++ (inner.nodes ++ after.filterMap Part.node?) := by
      simp [Tree.nodes, Tree.children, hparts]
    rw [Tree.meaning_eq, Tree.meaning_eq, Tree.plan_of_block rfl, Tree.plan_of_block rfl, hnested,
      hspliced]
    simp only [inOrder_append Tree.meaning (before.filterMap Part.node?)]
    rcases inOrder Tree.meaning (before.filterMap Part.node?) s with ⟨i | us, s'⟩
    · rfl
    · -- the statements before are the same, so only what follows them can make a difference
      obtain ⟨hlast, henv⟩ := inOrder_splice hk hn (after.filterMap Part.node?) s'
      refine Assembly.finish_block_congr ?_ henv
      rw [last_append, hlast, ← last_append]

/-- A node lets meanings through from its children. -/
theorem Tree.Alike.meaning_eq {t u : Tree}
    (h : t.Alike (fun v w => ∀ s : σ, v.meaning s = w.meaning s) u) (s : σ) :
    t.meaning s = u.meaning s := by
  obtain ⟨hassembly, hoperands⟩ := h.plan
  rw [Tree.meaning_eq, Tree.meaning_eq u, hassembly, inOrder_congr hoperands s]

/-- Layers that are added or taken away, any number of them and anywhere, change no meaning. -/
theorem Tree.SameButNesting.meaning_eq {t u : Tree} (h : t.SameButNesting u) (s : σ) :
    t.meaning s = u.meaning s := by
  refine (eq_equivalence.comap fun v : Tree => v.meaning s).eqvGen_iff.1 ?_
  refine Relation.EqvGen.mono (fun v w hvw => ?_) _ _ h
  exact Tree.Inside.lift (E := fun v w => ∀ s : σ, v.meaning s = w.meaning s) (fun _ _ => rfl)
    (fun _ _ hrule s => hrule.meaning_eq s) (fun _ _ halike s => halike.meaning_eq s) hvw s

end

/-! ## 4. Scopes -/

section
variable [Numerics] {name : String} {value : Tree} {depth : Nat} {scope scope' : Scope} {v : Value}

/-- An assignment that has a value leaves it in the scope. -/
theorem lookup_of_evaluate_assign
    (h : evaluate none depth (Tree.assign name value) scope = (.ok v, scope')) :
    scope'.lookup name = some v := by
  have hplan : (Tree.assign name value).plan = ⟨[value], .bind name⟩ := rfl
  rw [evaluate_eq, hplan] at h
  dsimp only [pastLimit_none] at h
  rw [inOrder_singleton] at h
  rcases hvalue : evaluate none (depth + 1) value scope with ⟨i | w, scope₁⟩
  all_goals rw [hvalue] at h
  · cases h
  · cases h
    exact (Scope.lookup_bind name name v scope₁).trans (if_pos rfl)

/-- So does a block that ends with the assignment: nothing closes a scope behind it. -/
theorem lookup_of_evaluate_block {before : List Tree}
    (h : evaluate none depth (Tree.block (before ++ [Tree.assign name value])) scope =
      (.ok v, scope')) :
    scope'.lookup name = some v := by
  rw [evaluate_eq, Tree.plan_of_block rfl, Tree.nodes_block] at h
  dsimp only [pastLimit_none] at h
  rw [inOrder_append] at h
  rcases hbefore : inOrder (evaluate none (depth + 1)) before scope with ⟨i | vs, scope₁⟩
  all_goals rw [hbefore] at h
  · cases h
  · dsimp only at h
    rw [inOrder_singleton] at h
    rcases hlast : evaluate none (depth + 1) (Tree.assign name value) scope₁ with ⟨i | w, scope₂⟩
    all_goals rw [hlast] at h
    · cases h
    · -- the last value is that of the assignment
      simp only [Except.map, conclude, Assembly.run, List.getLast?_append, List.getLast?_singleton,
        Option.some_or] at h
      cases h
      exact lookup_of_evaluate_assign hlast

/-- A name read behind a nested block that ends with its assignment has the value assigned. -/
theorem evaluate_name_after_block (before : List Tree) (name : String) (value : Tree)
    (scope : Scope) :
    evaluate none 0
        (Tree.block [Tree.block (before ++ [Tree.assign name value]), Tree.name name]) scope =
      evaluate none 0 (Tree.block (before ++ [Tree.assign name value])) scope := by
  rw [evaluate_eq, Tree.plan_of_block rfl, Tree.nodes_block]
  dsimp only [pastLimit_none]
  rw [inOrder_cons, Nat.zero_add, evaluate_none _ 1]
  rcases hinner : evaluate none 0 (Tree.block (before ++ [Tree.assign name value])) scope with
    ⟨i | v, scope'⟩
  · exact Prod.ext (congrArg Except.error i.locate_none) rfl
  · have hfound : Environment.lookup name scope' = (some v, scope') :=
      Prod.ext (lookup_of_evaluate_block hinner) rfl
    have hname : evaluate none 1 (Tree.name name) scope' = (.ok v, scope') := by
      have hplan : (Tree.name name).plan = ⟨[], .lookup name⟩ := rfl
      rw [evaluate_eq, hplan]
      dsimp only [pastLimit_none, inOrder_nil, conclude, Assembly.run]
      rw [hfound]
      rfl
    dsimp only
    rw [inOrder_singleton, hname]
    rfl

end

/-! ## 5. Transparency -/

/-- Parentheses and nested blocks are transparent. Without a limit, trees that differ in such layers
only, at any places and depths, come as nodes to the same value or signal or fail for the same cause
with the same notes, from the same requests and with the same environment afterwards; only the place
of a failure can differ. In particular a nested block opens no scope: what it assigns is read after
it. -/
theorem nesting_is_transparent [Numerics] :
    (∀ {t u : Tree}, t.SameButNesting u → ∀ {σ : Type} [Environment σ] (env : σ),
      let nested := Evaluator.evaluate t (.new, env)
      let plain := Evaluator.evaluate u (.new, env)
      nested.1.mapError Interrupt.eraseSpan = plain.1.mapError Interrupt.eraseSpan ∧
        nested.2 = plain.2 ∧
        (Evaluator.evaluate t (.new, Traced.start env)).2.2.accesses =
          (Evaluator.evaluate u (.new, Traced.start env)).2.2.accesses) ∧
      ∀ (before : List Tree) (name : String) (value : Tree) (scope : Scope),
        Evaluator.evaluate
            (Tree.block [Tree.block (before ++ [Tree.assign name value]), Tree.name name])
            (.new, scope) =
          Evaluator.evaluate (Tree.block (before ++ [Tree.assign name value])) (.new, scope) := by
  refine ⟨fun {t u} h σ _ env => ?_, fun before name value scope => ?_⟩
  · have hagree : ∀ {τ : Type} [Environment τ] (s : τ),
        (evaluate none 0 t s).1.mapError Interrupt.eraseSpan =
            (evaluate none 0 u s).1.mapError Interrupt.eraseSpan ∧
          (evaluate none 0 t s).2 = (evaluate none 0 u s).2 := by
      intro τ _ s
      have hmeaning := h.meaning_eq s
      rw [Tree.meaning_eq_evaluate, Tree.meaning_eq_evaluate] at hmeaning
      exact Prod.ext_iff.1 hmeaning
    simp only [Evaluator.evaluate_eq, Evaluator.new, Evaluator.withLimit]
    exact ⟨(hagree env).1, by rw [(hagree env).2],
      congrArg Traced.accesses (hagree (Traced.start env)).2⟩
  · simp only [Evaluator.evaluate_eq, Evaluator.new, Evaluator.withLimit,
      evaluate_name_after_block]

/-- A parenthesized one that is assigned in a nested block, and the same statements without
parentheses and without the block. -/
theorem nested_assignment_is_transparent :
    (Tree.block [Tree.block [Tree.assign "x" (Tree.group (Tree.number ["1"]))],
        Tree.name "x"]).SameButNesting
        (Tree.block [Tree.assign "x" (Tree.number ["1"]), Tree.name "x"]) ∧
      (Evaluator.evaluate
          (Tree.block [Tree.block [Tree.assign "x" (Tree.group (Tree.number ["1"]))],
            Tree.name "x"])
          (.new, Scope.empty)).1.mapError Interrupt.eraseSpan =
        (Evaluator.evaluate (Tree.block [Tree.assign "x" (Tree.number ["1"]), Tree.name "x"])
          (.new, Scope.empty)).1.mapError Interrupt.eraseSpan := by
  have hblock : Tree.Inside Tree.Unwrapping
      (Tree.block [Tree.block [Tree.assign "x" (Tree.group (Tree.number ["1"]))], Tree.name "x"])
      (Tree.block [Tree.assign "x" (Tree.group (Tree.number ["1"])), Tree.name "x"]) :=
    .root (.splice [] [.node (Tree.assign "x" (Tree.group (Tree.number ["1"])))]
      [.node (Tree.name "x")] rfl (List.cons_ne_nil _ _) rfl)
  have hgroup : Tree.Inside Tree.Unwrapping
      (Tree.block [Tree.assign "x" (Tree.group (Tree.number ["1"])), Tree.name "x"])
      (Tree.block [Tree.assign "x" (Tree.number ["1"]), Tree.name "x"]) :=
    .child [] _ (.child [.token "x", .token "="] [] (.root (.group rfl rfl)))
  have hsame : (Tree.block [Tree.block [Tree.assign "x" (Tree.group (Tree.number ["1"]))],
      Tree.name "x"]).SameButNesting
      (Tree.block [Tree.assign "x" (Tree.number ["1"]), Tree.name "x"]) :=
    .trans _ _ _ (.rel _ _ hblock) (.rel _ _ hgroup)
  exact ⟨hsame, (nesting_is_transparent.1 hsame Scope.empty).1⟩

end Metrology
