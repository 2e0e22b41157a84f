/-
Loops that a host builds, and what they leave of a scope.

A loop is a row of rounds, and only the outcome of a round decides whether there is a next one
(`stop?`). So a loop is told by its items: it goes through all of them, or through some and one more
that ends it (`forEach_rounds`), and what is left behind is in both cases what those rounds leave.

What a round leaves comes from an invariant of its body. While the body runs there is one frame more
than before, the loop's variable has a slot in it, and a name that is bound further out has none
(`Inside`). A binding keeps this: it finds the variable in the new frame and every other bound name
below it. So the frame that the round closes takes the variable and new names along and nothing
else. Both this and what the bound names are worth (`Access.lastBound`) are properties of
environments that the two requests keep, so that they hold of whole bodies without a word about
trees.
-/
import Metrology.Evaluation.Loop
import Metrology.Proofs.Accesses
import Metrology.Proofs.ScopeStack
set_option autoImplicit false

namespace Metrology

/-! ## 1. Rounds

What a host does with the outcome of a body is `to_loop_action`: go on, exit, or pass the rest on.
Here the same is asked as one question, how the round ends its loop if it does, so that a loop that
goes on and a loop that has ended are the two cases of every proof. -/

namespace Loop

/-- How a round with this outcome ends its loop, if it does. -/
def stop? : Outcome (Option Value) → Option LoopEnd
  | .ok _ => none
  | .error .continuing => none
  | .error .breaking => some .exited
  | .error (.returning v) => some (.passed (.returning v))
  | .error (.failure f) => some (.passed (.failure f))

/-- A loop that a round ends is not finished, and neither of its own interrupts passes through
it. -/
theorem stop?_eq_some {r : Outcome (Option Value)} {e : LoopEnd} (h : stop? r = some e) :
    e ≠ .finished ∧ e ≠ .passed .breaking ∧ e ≠ .passed .continuing := by
  rcases r with i | v
  · cases i with
    | failure f =>
      cases h
      exact ⟨nofun, nofun, nofun⟩
    | returning v =>
      cases h
      exact ⟨nofun, nofun, nofun⟩
    | breaking =>
      cases h
      exact ⟨nofun, nofun, nofun⟩
    | continuing => cases h
  · cases h

section
variable [Numerics] {σ : Type} [Scoped σ] (binding : String) (body : Tree)

/-- What the rounds for the items leave, one after the other. -/
def rounds (items : List Value) (s : Evaluator × σ) : Evaluator × σ :=
  items.foldl (fun s item => (round binding body item s).2) s

/-- None of the rounds for the items ends the loop. -/
def GoesThrough (items : List Value) (s : Evaluator × σ) : Prop :=
  ∀ earlier item rest, items = earlier ++ item :: rest →
    stop? (round binding body item (rounds binding body earlier s)).1 = none

@[simp] theorem rounds_nil (s : Evaluator × σ) : rounds binding body [] s = s := rfl

@[simp] theorem rounds_cons (item : Value) (items : List Value) (s : Evaluator × σ) :
    rounds binding body (item :: items) s =
      rounds binding body items (round binding body item s).2 := rfl

theorem rounds_concat (items : List Value) (item : Value) (s : Evaluator × σ) :
    rounds binding body (items ++ [item]) s =
      (round binding body item (rounds binding body items s)).2 :=
  List.foldl_append

theorem goesThrough_nil (s : Evaluator × σ) : GoesThrough binding body [] s :=
  fun _ _ _ h => absurd h.symm (List.append_ne_nil_of_right_ne_nil _ (List.cons_ne_nil _ _))

variable {binding body}

/-- A loop goes through its items if its first round does not end it and what follows goes through
the others. -/
theorem GoesThrough.cons {item : Value} {items : List Value} {s : Evaluator × σ}
    (hfirst : stop? (round binding body item s).1 = none)
    (hrest : GoesThrough binding body items (round binding body item s).2) :
    GoesThrough binding body (item :: items) s := by
  intro earlier other rest h
  cases earlier with
  | nil =>
    obtain ⟨rfl, -⟩ := List.cons.inj h
    exact hfirst
  | cons a earlier =>
    obtain ⟨rfl, htail⟩ := List.cons.inj h
    exact hrest earlier other rest htail

variable (binding body)

/-- The first round ends the loop, or the loop goes on with the other items. -/
theorem forEach_cons (item : Value) (items : List Value) (s : Evaluator × σ) :
    forEach binding body (item :: items) s =
      match stop? (round binding body item s).1 with
      | some e => ((1, e), (round binding body item s).2)
      | none =>
        let later := forEach binding body items (round binding body item s).2
        ((later.1.1 + 1, later.1.2), later.2) := by
  rw [forEach]
  obtain ⟨i | v, s'⟩ := round binding body item s
  · cases i <;> rfl
  · rfl

/-- A loop has a round for every item, or one for each of the first items up to one that ends it. -/
theorem forEach_rounds (items : List Value) (s : Evaluator × σ) :
    (GoesThrough binding body items s ∧
        forEach binding body items s = ((items.length, .finished), rounds binding body items s)) ∨
      ∃ earlier item rest e, items = earlier ++ item :: rest ∧
        GoesThrough binding body earlier s ∧
        stop? (round binding body item (rounds binding body earlier s)).1 = some e ∧
        forEach binding body items s =
          ((earlier.length + 1, e), rounds binding body (earlier ++ [item]) s) := by
  induction items generalizing s with
  | nil => exact .inl ⟨goesThrough_nil binding body s, rfl⟩
  | cons item items ih =>
    rw [forEach_cons]
    rcases hstop : stop? (round binding body item s).1 with _ | e
    · simp only
      -- the loop goes on, and its rounds are one more than those for the other items
      rcases ih (round binding body item s).2 with
        ⟨hthrough, hend⟩ | ⟨earlier, last, rest, e, rfl, hthrough, hlast, hend⟩
      · rw [hend]
        exact .inl ⟨.cons hstop hthrough, rfl⟩
      · rw [hend]
        exact .inr ⟨item :: earlier, last, rest, e, rfl, .cons hstop hthrough, hlast, rfl⟩
    · exact .inr ⟨[], item, items, e, rfl, goesThrough_nil binding body s, hstop, rfl⟩

/-- What is left behind is what some of the rounds leave. -/
theorem exists_rounds (items : List Value) (s : Evaluator × σ) :
    ∃ begun, begun <+: items ∧ (forEach binding body items s).2 = rounds binding body begun s := by
  rcases forEach_rounds binding body items s with
    ⟨-, hend⟩ | ⟨earlier, item, rest, e, rfl, -, -, hend⟩
  · exact ⟨items, List.prefix_refl _, by rw [hend]⟩
  · refine ⟨earlier ++ [item], ⟨rest, List.append_assoc _ _ _⟩, by rw [hend]⟩

/-- A round hands the evaluator back as it was. -/
theorem round_evaluator (item : Value) (s : Evaluator × σ) :
    (round binding body item s).2.1 = s.1 :=
  congrArg (·.2.1)
    (Request.evaluateBlock.answer_eq body s.1 (Scoped.define binding item (Scoped.push s.2)))

/-- All rounds are run by one evaluator with one limit, and none of them leaves its depth counter
changed. -/
theorem rounds_evaluator (items : List Value) (s : Evaluator × σ) :
    (rounds binding body items s).1 = s.1 := by
  induction items generalizing s with
  | nil => rfl
  | cons item items ih => rw [rounds_cons, ih, round_evaluator]

/-- A loop hands the evaluator back as it was. -/
theorem forEach_evaluator (items : List Value) (s : Evaluator × σ) :
    (forEach binding body items s).2.1 = s.1 := by
  obtain ⟨begun, -, hbegun⟩ := exists_rounds binding body items s
  rw [hbegun, rounds_evaluator]

/-- Neither of a loop's own signals passes through the loop. -/
theorem forEach_ne_passed (items : List Value) (s : Evaluator × σ) :
    (forEach binding body items s).1.2 ≠ .passed .breaking ∧
      (forEach binding body items s).1.2 ≠ .passed .continuing := by
  rcases forEach_rounds binding body items s with
    ⟨-, hloop⟩ | ⟨earlier, item, rest, e, -, -, hstop, hloop⟩
  · rw [hloop]
    exact ⟨nofun, nofun⟩
  · rw [hloop]
    exact (stop?_eq_some hstop).2

/-! ## 2. A record of a loop

Rounds are evaluations of a block between two operations on the scope, and a record passes through
all three. -/

/-- A round is no different for being recorded. -/
theorem round_traced (item : Value) (ev : Evaluator) (t : Traced σ) :
    (round binding body item (ev, t)).1 = (round binding body item (ev, t.inner)).1 ∧
      (round binding body item (ev, t)).2.2.inner =
        (round binding body item (ev, t.inner)).2.2 := by
  obtain ⟨hout, hinner⟩ := answer_traced .evaluateBlock body ev
    (Scoped.define binding item (Scoped.push t))
  exact ⟨hout, congrArg Scoped.pop hinner⟩

/-- A whole loop is no different for being recorded: the record sees all of its rounds, and neither
its end nor the scope it leaves is changed by it. -/
theorem forEach_traced (items : List Value) (ev : Evaluator) (t : Traced σ) :
    (forEach binding body items (ev, t)).1 = (forEach binding body items (ev, t.inner)).1 ∧
      (forEach binding body items (ev, t)).2.2.inner =
        (forEach binding body items (ev, t.inner)).2.2 := by
  induction items generalizing t with
  | nil => exact ⟨rfl, rfl⟩
  | cons item items ih =>
    obtain ⟨hout, hinner⟩ := round_traced binding body item ev t
    rw [forEach_cons, forEach_cons, hout]
    rcases stop? (round binding body item (ev, t.inner)).1 with _ | e
    · simp only
      have htraced : (round binding body item (ev, t)).2 =
          (ev, (round binding body item (ev, t)).2.2) :=
        Prod.ext (round_evaluator binding body item _) rfl
      have hplain : (round binding body item (ev, t.inner)).2 =
          (ev, (round binding body item (ev, t.inner)).2.2) :=
        Prod.ext (round_evaluator binding body item _) rfl
      obtain ⟨hend, hscope⟩ := ih (round binding body item (ev, t)).2.2
      rw [htraced, hplain, ← hinner, hend, hscope]
      exact ⟨rfl, rfl⟩
    · exact ⟨rfl, hinner⟩

end

end Loop

/-! ## 3. Inside a round

A body can bind any name, the loop's variable among them. What keeps it from the frames outside is
that the variable is held by the frame of the round, so a binding of it ends there, and that a name
with no frame at all is bound in the innermost one, which the round closes. -/

namespace Scope

/-- The second scope is the first one from within a round of a loop. A frame has been opened and
holds the loop's variable, and no name that is bound further out has come into it. Below it names
have come to no frame and gone from none, and the variable's slots are untouched. -/
structure Inside (binding : String) (s c : Scope) : Prop where
  depth : c.depth = s.depth + 1
  held : (c.slot s.depth binding).isSome = true
  apart : ∀ name, name ≠ binding → s.lookup name ≠ none → c.slot s.depth name = none
  names : ∀ level < s.depth, ∀ name, (c.slot level name).isSome = (s.slot level name).isSome
  hidden : ∀ level < s.depth, c.slot level binding = s.slot level binding

/-- The second scope has the frames of the first, with the same names in each of them, and the same
values of one name. -/
structure Neutral (binding : String) (s s' : Scope) : Prop where
  depth : s'.depth = s.depth
  names : ∀ level name, (s'.slot level name).isSome = (s.slot level name).isSome
  hidden : ∀ level, s'.slot level binding = s.slot level binding

variable {binding name : String} {s c : Scope}

/-- The scope in which a body starts: one slot more than before, for the loop's variable, in a frame
of its own. -/
theorem slot_opened (binding : String) (item : Value) (s : Scope) (level : Nat) (name : String) :
    (s.push.define binding item).slot level name =
      if level = s.depth ∧ name = binding then some item else s.slot level name := by
  rw [slot_define, slot_push, depth_push]
  simp only [Nat.add_right_cancel_iff]

/-- Where the body of a round starts. -/
theorem Inside.opened (binding : String) (item : Value) (s : Scope) :
    Inside binding s (s.push.define binding item) where
  depth := rfl
  held := by
    rw [slot_opened, if_pos ⟨rfl, rfl⟩]
    rfl
  apart name hname _ := by
    rw [slot_opened, if_neg fun hboth => hname hboth.2]
    exact s.slot_eq_none name (Nat.le_refl _)
  names level hlevel name := by
    rw [slot_opened, if_neg fun hboth => Nat.ne_of_lt hlevel hboth.1]
  hidden level hlevel := by
    rw [slot_opened, if_neg fun hboth => Nat.ne_of_lt hlevel hboth.1]

/-- A name that is bound around the round is bound inside it. -/
theorem Inside.bound (h : Inside binding s c) (hbound : s.lookup name ≠ none) :
    ¬ c.Unheld name := by
  intro hunheld
  refine hbound ((s.lookup_eq_none_iff name).2 fun level => ?_)
  by_cases hlevel : level < s.depth
  · have hsome := h.names level hlevel name
    rw [hunheld level] at hsome
    exact Option.isNone_iff_eq_none.1 (Option.isSome_eq_false_iff.1 hsome.symm)
  · exact s.slot_eq_none name (Nat.le_of_not_lt hlevel)

/-- A binding finds the variable in the frame of the round, any other name that is bound below it,
and puts a new name into it. -/
theorem Inside.bind (h : Inside binding s c) (target : String) (v : Value) :
    Inside binding s (c.bind target v) := by
  have hfloor : s.depth < c.depth := by
    rw [h.depth]
    exact Nat.lt_succ_self _
  -- what one binding does below the frame of the round is known from the stack alone
  have hbelow := fun level (hlevel : level < s.depth) (name : String) =>
    step_below (.bind target v) hfloor nofun hlevel name
  obtain ⟨home, -, hhome, hslots⟩ := c.slot_bind target v
  refine ⟨(depth_bind target v c).trans h.depth, ?_, ?_, ?_, ?_⟩
  · rw [hslots]
    split
    · rfl
    · exact h.held
  · intro name hname hbound
    rw [hslots]
    split
    · -- a bound name is held, and not by the frame of the round
      rename_i hboth
      obtain ⟨rfl, rfl⟩ := hboth
      rcases hhome with ⟨hheld, -⟩ | ⟨hunheld, -⟩
      · rw [h.apart name hname hbound] at hheld
        cases hheld
      · exact absurd hunheld (h.bound hbound)
    · exact h.apart name hname hbound
  · intro level hlevel name
    exact (hbelow level hlevel name).1.trans (h.names level hlevel name)
  · intro level hlevel
    have hsame : (c.bind target v).slot level binding = c.slot level binding := by
      by_contra hchanged
      obtain ⟨-, -, hnone⟩ := (hbelow level hlevel binding).2 hchanged
      have hheld := h.held
      rw [hnone s.depth (Nat.le_refl _)] at hheld
      cases hheld
    exact hsame.trans (h.hidden level hlevel)

/-- Closing the round's scope takes its frame away, and leaves all others. -/
theorem Inside.slot_pop (h : Inside binding s c) {level : Nat} (hlevel : level < s.depth) :
    c.pop.slot level name = c.slot level name := by
  refine c.slot_pop name ?_
  rw [h.depth]
  exact Nat.succ_lt_succ hlevel

/-- Closing the scope of a round leaves as many frames as there were before it. -/
theorem Inside.depth_pop (h : Inside binding s c) : c.pop.depth = s.depth := by
  have hpos := s.depth_pos
  rw [Scope.depth_pop, h.depth]
  omega

/-- A round that has been closed has left no name behind and has not touched the variable's outer
slots, whatever its body did. -/
theorem Inside.closed (h : Inside binding s c) : Neutral binding s c.pop := by
  have outside : ∀ {level name}, ¬ level < s.depth → c.pop.slot level name = s.slot level name := by
    intro level name hlevel
    have hle := Nat.le_of_not_lt hlevel
    rw [s.slot_eq_none name hle, c.pop.slot_eq_none name (h.depth_pop ▸ hle)]
  refine ⟨h.depth_pop, fun level name => ?_, fun level => ?_⟩
  · by_cases hlevel : level < s.depth
    · rw [h.slot_pop hlevel]
      exact h.names level hlevel name
    · rw [outside hlevel]
  · by_cases hlevel : level < s.depth
    · rw [h.slot_pop hlevel]
      exact h.hidden level hlevel
    · exact outside hlevel

/-- A name that is bound around the round, other than the variable, keeps the value that it has in
the round. -/
theorem Inside.lookup_pop (h : Inside binding s c) (hname : name ≠ binding)
    (hbound : s.lookup name ≠ none) : c.pop.lookup name = c.lookup name := by
  refine lookup_congr fun level => ?_
  rcases Nat.lt_trichotomy level s.depth with hlevel | rfl | hlevel
  · exact h.slot_pop hlevel
  · rw [h.apart name hname hbound]
    exact c.pop.slot_eq_none name (Nat.le_of_eq h.depth_pop)
  · rw [c.slot_eq_none name (by rw [h.depth]; exact hlevel)]
    exact c.pop.slot_eq_none name (by rw [h.depth_pop]; exact Nat.le_of_lt hlevel)

/-- Where a body starts, every name but the loop's variable has the value that it has around the
round. -/
theorem lookup_opened (item : Value) (s : Scope) (hname : name ≠ binding) :
    (s.push.define binding item).lookup name = s.lookup name := by
  refine lookup_congr fun level => ?_
  rw [slot_opened, if_neg fun hboth => hname hboth.2]

end Scope

/-! ## 4. What names are worth

The values of names are followed through a record: a name has the value of the last binding of it,
or the one it had before. That is again kept by both requests, so that loops need no argument of
their own for it. -/

section
variable [Numerics] {σ : Type} [Environment σ] {limit : Option Nat} {le : σ → σ → Prop}

/-- A row moves on from where any of its turns ends. -/
theorem MovesOn.turn (h : MovesOn le) {depth i : Nat} {ts : List Tree} {env : σ} {w : Visit σ}
    (hw : Turn limit depth ts env i w) :
    le (w.result limit).2 (Metrology.inOrder (Metrology.evaluate limit depth) ts env).2 := by
  induction hw with
  | @first t ts env =>
    rw [Visit.result]
    rcases ht : Metrology.evaluate limit depth t env with ⟨i | v, env'⟩
    · rw [inOrder_cons_error ht]
      exact h.refl env'
    · rw [inOrder_cons_ok ht]
      exact h.inOrder limit depth ts env'
  | later hok _ ih =>
    rw [inOrder_cons_ok hok]
    exact ih

/-- A visit moves on from where any visit that it comes to ends. -/
theorem MovesOn.reaches (h : MovesOn le) {v w : Visit σ} (hw : v.Reaches limit w) :
    le (w.result limit).2 (v.result limit).2 := by
  induction hw using Relation.ReflTransGen.head_induction_on with
  | refl => exact h.refl _
  | @head v u hstep _ ih =>
    obtain ⟨i, hwithin, hturn⟩ := hstep
    have hrow := h.turn hturn
    refine h.trans ih ?_
    rw [Visit.result_of_within hwithin]
    rcases hops : Metrology.inOrder (Metrology.evaluate limit (v.depth + 1)) v.node.plan.operands
      v.env with ⟨i | vs, env⟩
    all_goals rw [hops] at hrow
    · exact hrow
    · exact h.trans hrow (h.run v.node.plan.assembly vs env)

/-- An assignment that is come to leaves its binding on the record. -/
theorem Request.record_of_assigns (q : Request) (t : Tree) (ev : Evaluator) (s : Traced σ)
    {w : Visit (Traced σ)} (hw : w ∈ q.visits t ev s) {before : List Access} {name : String}
    {x : Value} (h : w.Assigns ev.maxDepth before name x) :
    before ++ [.bind name x] <+: (q.answer t (ev, s)).2.2.accesses := by
  obtain ⟨i, v, hturn, hreach⟩ := (q.mem_visits t ev s w).1 hw
  obtain ⟨⟨depth, node, env⟩, e, honly, ⟨hwithin, hoperand⟩, hvalue, hbefore⟩ := h.operand
  have hplan : w.node.plan = ⟨[node], .bind name⟩ := by
    rw [Tree.plan_of_assign h.kind h.token, honly]
    rfl
  -- the operand is the only one, so it starts where the assignment does
  rw [hplan] at hoperand
  cases hoperand
  have hrow : inOrder (Metrology.evaluate ev.maxDepth (w.depth + 1)) [node] w.env =
      (.ok [x], e) := by
    rw [inOrder_singleton]
    rw [Visit.result] at hvalue
    rw [hvalue]
    rfl
  have hrecord : (w.result ev.maxDepth).2.accesses = before ++ [.bind name x] := by
    rw [Visit.result_of_within hwithin, hplan, hrow, ← hbefore]
    exact Traced.accesses_bind name x e
  rw [← hrecord, answer_eq]
  exact (Traced.movesOn_accesses.reaches hreach).trans (Traced.movesOn_accesses.turn hturn)

end

namespace Access

/-- The value that a name was last given on a record, if it was given any. -/
def lastBound (name : String) : List Access → Option Value
  | [] => none
  | lookup _ _ :: as => lastBound name as
  | bind other v :: as => (lastBound name as).or (if name = other then some v else none)

/-- Of two records one after the other the later one decides, if it binds the name at all. -/
theorem lastBound_append (name : String) (as bs : List Access) :
    lastBound name (as ++ bs) = (lastBound name bs).or (lastBound name as) := by
  induction as with
  | nil => exact (Option.or_none).symm
  | cons a as ih =>
    cases a with
    | lookup other found => exact ih
    | bind other v =>
      rw [List.cons_append, lastBound, lastBound, ih, Option.or_assoc]

end Access

/-- At any moment a name is worth what it was last given, or else what it was worth before. -/
theorem kept_lastBound (before : Traced Scope) :
    Kept fun t : Traced Scope => ∃ as, t.accesses = before.accesses ++ as ∧
      ∀ name, t.inner.lookup name = (Access.lastBound name as).or (before.inner.lookup name) where
  lookup name t := by
    rintro ⟨as, hrecord, hworth⟩
    refine ⟨as ++ [.lookup name (t.inner.lookup name).isSome], ?_, fun other => ?_⟩
    · rw [Traced.accesses_lookup, hrecord, List.append_assoc]
      rfl
    · rw [Access.lastBound_append]
      exact hworth other
  bind name v t := by
    rintro ⟨as, hrecord, hworth⟩
    refine ⟨as ++ [.bind name v], ?_, fun other => ?_⟩
    · rw [Traced.accesses_bind, hrecord, List.append_assoc]
    · have hbind : (Environment.bind name v t).inner.lookup other =
          if other = name then some v else t.inner.lookup other :=
        Scope.lookup_bind name other v t.inner
      rw [hbind, Access.lastBound_append, hworth]
      simp only [Access.lastBound]
      by_cases ho : other = name
      · rw [if_pos ho, if_pos ho]
        rfl
      · rw [if_neg ho, if_neg ho]
        rfl

/-- A binding or a lookup from within a round stays within it. -/
theorem kept_inside (binding : String) (s : Scope) :
    Kept fun t : Traced Scope => Scope.Inside binding s t.inner where
  lookup _ _ h := h
  bind name v _ h := h.bind name v

/-! ## 5. Loops

A round leaves little (`Leaves`), and this is closed under doing one thing after the other. So whole
loops are an induction on the items, and the theorem about them puts the parts side by side. -/

namespace Loop

/-- What a loop over the variable may have done when the first environment has become the second. -/
structure Leaves (binding : String) (t t' : Traced Scope) : Prop where
  neutral : Scope.Neutral binding t.inner t'.inner
  worth : ∃ as, t'.accesses = t.accesses ++ as ∧
    ∀ name, name ≠ binding → t.inner.lookup name ≠ none →
      t'.inner.lookup name = (Access.lastBound name as).or (t.inner.lookup name)

/-- A loop without rounds leaves everything as it is. -/
theorem Leaves.refl (binding : String) (t : Traced Scope) : Leaves binding t t where
  neutral := ⟨rfl, fun _ _ => rfl, fun _ => rfl⟩
  worth := ⟨[], (List.append_nil _).symm, fun _ _ _ => rfl⟩

/-- What two rounds leave one after the other. A name that is bound before the first is still bound
before the second, which is what lets the two records be put together. -/
theorem Leaves.trans {binding : String} {t t' t'' : Traced Scope} (h : Leaves binding t t')
    (h' : Leaves binding t' t'') : Leaves binding t t'' := by
  obtain ⟨⟨hdepth, hnames, hhidden⟩, as, hrecord, hworth⟩ := h
  obtain ⟨⟨hdepth', hnames', hhidden'⟩, bs, hrecord', hworth'⟩ := h'
  -- frames and names are carried from scope to scope; only what a name is worth needs both records
  refine ⟨⟨hdepth'.trans hdepth, fun level name => (hnames' level name).trans (hnames level name),
    fun level => (hhidden' level).trans (hhidden level)⟩, as ++ bs, ?_, fun name hname hbound => ?_⟩
  · rw [hrecord', hrecord, List.append_assoc]
  · have hstill : t'.inner.lookup name ≠ none := fun hnone =>
      hbound ((Scope.lookup_eq_none_congr fun level => hnames level name).1 hnone)
    rw [hworth' name hname hstill, hworth name hname hbound, Access.lastBound_append,
      Option.or_assoc]

variable [Numerics] (binding : String) (body : Tree)

/-- One round: its body keeps `Inside` and the account of last bindings, and closing its scope gives
what a loop may leave. -/
theorem round_leaves (item : Value) (s : Evaluator × Traced Scope) :
    Leaves binding s.2 (round binding body item s).2.2 := by
  obtain ⟨ev, t⟩ := s
  let start : Traced Scope := Scoped.define binding item (Scoped.push t)
  -- the body keeps both properties, from a scope in which the variable has just been defined
  have hinside := (kept_inside binding t.inner).answer .evaluateBlock body ev start
    (Scope.Inside.opened binding item t.inner)
  obtain ⟨as, hrecord, hworth⟩ := (kept_lastBound start).answer .evaluateBlock body ev start
    ⟨[], (List.append_nil _).symm, fun _ => rfl⟩
  refine ⟨hinside.closed, as, hrecord, fun name hname hbound => ?_⟩
  have hstart : start.inner.lookup name = t.inner.lookup name :=
    Scope.lookup_opened item t.inner hname
  have hend := hworth name
  rw [hstart] at hend
  exact (hinside.lookup_pop hname hbound).trans hend

/-- All rounds together leave what a single round may leave, however many there are. -/
theorem rounds_leaves (items : List Value) (s : Evaluator × Traced Scope) :
    Leaves binding s.2 (rounds binding body items s).2 := by
  induction items generalizing s with
  | nil => exact .refl binding s.2
  | cons item items ih => exact (round_leaves binding body item s).trans (ih _)

/-- A whole loop leaves what a round may leave, since it leaves what its rounds leave. -/
theorem forEach_leaves (items : List Value) (s : Evaluator × Traced Scope) :
    Leaves binding s.2 (forEach binding body items s).2.2 := by
  obtain ⟨begun, -, hbegun⟩ := exists_rounds binding body items s
  rw [hbegun]
  exact rounds_leaves binding body begun s

/-- A name that is bound around the loop has, where the body of a round starts, the value that a
body last gave it. -/
theorem lookup_in_round (earlier : List Value) (item : Value) (ev : Evaluator) (s : Scope) :
    let inside : Traced Scope := Scoped.define binding item
      (Scoped.push (rounds binding body earlier (ev, Traced.start s)).2)
    ∀ name, name ≠ binding → s.lookup name ≠ none →
      inside.inner.lookup name =
        (Access.lastBound name inside.accesses).or (s.lookup name) := by
  intro inside name hname hbound
  obtain ⟨-, as, hrecord, hworth⟩ := rounds_leaves binding body earlier (ev, Traced.start s)
  rw [show inside.accesses = as from hrecord]
  exact (Scope.lookup_opened item _ hname).trans (hworth name hname hbound)

/-- An assignment in the body of a round is on the record when the round has ended. -/
theorem record_of_round (earlier : List Value) (item : Value) (ev : Evaluator) (s : Scope)
    {w : Visit (Traced Scope)} {before : List Access} {name : String} {x : Value}
    (hw : w ∈ Request.evaluateBlock.visits body ev (Scoped.define binding item
      (Scoped.push (rounds binding body earlier (ev, Traced.start s)).2)))
    (h : w.Assigns ev.maxDepth before name x) :
    before ++ [.bind name x] <+:
      (rounds binding body (earlier ++ [item]) (ev, Traced.start s)).2.accesses := by
  have hround := Request.evaluateBlock.record_of_assigns body ev _ hw h
  have hev : rounds binding body earlier (ev, Traced.start s) =
      (ev, (rounds binding body earlier (ev, Traced.start s)).2) :=
    Prod.ext (rounds_evaluator binding body earlier _) rfl
  rw [rounds_concat, hev]
  exact hround

/-- A loop, its interrupts and its scope. The rounds are those for the items in order, all of them
or up to and with the first whose outcome ends the loop. A `break` exits it, and a `return` or a
failure passes through it as it is; a `break` or `continue` never does. However the loop ends, no
frame has come or gone, none has got or lost a name, and the variable has the values that it had.
And a name that was bound before the loop, other than the variable, has the value that an assignment
in a body last gave it: after the loop, and in every round at its start. -/
theorem forEach_scope_neutral (items : List Value) (ev : Evaluator) (s : Scope) :
    let loop := forEach binding body items (ev, s)
    let recorded := forEach binding body items (ev, Traced.start s)
    (recorded.1 = loop.1 ∧ recorded.2.2.inner = loop.2.2 ∧ loop.2.1 = ev) ∧
      (GoesThrough binding body items (ev, s) ∧
          loop = ((items.length, .finished), rounds binding body items (ev, s)) ∨
        ∃ earlier item rest e, items = earlier ++ item :: rest ∧
          GoesThrough binding body earlier (ev, s) ∧
          stop? (round binding body item (rounds binding body earlier (ev, s))).1 = some e ∧
          loop = ((earlier.length + 1, e), rounds binding body (earlier ++ [item]) (ev, s))) ∧
      (loop.1.2 ≠ .passed .breaking ∧ loop.1.2 ≠ .passed .continuing) ∧
      Scope.Neutral binding s loop.2.2 ∧
      (∀ name, name ≠ binding → s.lookup name ≠ none →
        loop.2.2.lookup name =
          (Access.lastBound name recorded.2.2.accesses).or (s.lookup name)) ∧
      ∀ earlier item,
        let inside : Traced Scope := Scoped.define binding item
          (Scoped.push (rounds binding body earlier (ev, Traced.start s)).2)
        (∀ name, name ≠ binding → s.lookup name ≠ none →
          inside.inner.lookup name =
            (Access.lastBound name inside.accesses).or (s.lookup name)) ∧
          ∀ w ∈ Request.evaluateBlock.visits body ev inside, ∀ before name x,
            w.Assigns ev.maxDepth before name x → before ++ [.bind name x] <+:
              (rounds binding body (earlier ++ [item]) (ev, Traced.start s)).2.accesses := by
  intro loop recorded
  obtain ⟨hend, hinner⟩ := forEach_traced binding body items ev (Traced.start s)
  obtain ⟨hneutral, as, hrecord, hworth⟩ := forEach_leaves binding body items (ev, Traced.start s)
  rw [show (forEach binding body items (ev, Traced.start s)).2.2.inner = loop.2.2 from hinner]
    at hneutral hworth
  refine ⟨⟨hend, hinner, forEach_evaluator binding body items (ev, s)⟩,
    forEach_rounds binding body items (ev, s), forEach_ne_passed binding body items (ev, s),
    hneutral, fun name hname hbound => ?_, fun earlier item => ?_⟩
  · rw [show recorded.2.2.accesses = as from hrecord]
    exact hworth name hname hbound
  · exact ⟨lookup_in_round binding body earlier item ev s,
      fun w hw before name x hassigns => record_of_round binding body earlier item ev s hw hassigns⟩

end Loop

end Metrology
