/-
The requests of an evaluation, foretold from the tree.

`Tree.events` lists the lookups and bindings of a tree in the order in which its nodes would make
them, by looking at the tree alone. An evaluation can stop early in many ways: at a signal, at a
failure, at the depth limit, at a node that is put together wrongly. What it cannot do is ask for
anything out of order, twice, or after it has stopped: what it asked for is a prefix of the listing,
and the whole of it if it came out with a value (`evaluate_follows`).

Two facts carry this. A plan works through the listed nodes from the first one on, and makes the
node's own request after them; where it stops short of a listed node it has no value
(`Rule.listed`). And a row of nodes makes the requests of its members one after the other, each
before the turn of the next, up to the first that is interrupted.
-/
import Metrology.Proofs.Record
import Metrology.Proofs.Rules
import Mathlib.Data.List.Infix
set_option autoImplicit false

namespace Metrology

/-! ## 1. The listing of a tree

Which children a kind evaluates, and in which order, is read off `eval_inner` and the functions it
hands the node to. Tokens and children in places that are not looked at are not listed. -/

namespace Tree

/-- The nodes whose events a node lists, in order. -/
def listed (t : Tree) : List Tree :=
  match t.kind with
  | .list | .block | .call => t.nodes
  | .group | .assign => t.onlyNode?.toList
  | .binary => (t.nodeAt? 0).toList ++ (t.nodeAt? 2).toList
  | .unary => (t.nodeAt? 1).toList
  | .control => if t.tokenAt? 0 = some Keyword.ret.text then t.nodes.take 1 else []
  | .name | .number | .text | .symbol | .package => []

/-- What a node asks for itself, after the nodes it lists. -/
def ownEvents (t : Tree) : List Event :=
  match t.kind with
  | .name => (t.tokenAt? 0).toList.map .lookup
  | .assign => (t.tokenAt? 0).toList.map .bind
  | _ => []

/-- A node lists child nodes only. -/
theorem mem_nodes_of_mem_listed {t u : Tree} (h : u ∈ t.listed) : u ∈ t.nodes := by
  have hplace : ∀ i, u ∈ (t.nodeAt? i).toList → u ∈ t.nodes :=
    fun i hu => (nodeAt?_toList_sublist t i).subset hu
  unfold listed at h
  split at h
  · exact h
  · exact h
  · exact h
  · exact (onlyNode?_toList_sublist t).subset h
  · exact (onlyNode?_toList_sublist t).subset h
  · rcases List.mem_append.1 h with h | h
    · exact hplace 0 h
    · exact hplace 2 h
  · exact hplace 1 h
  · split at h
    · exact List.mem_of_mem_take h
    · exact absurd h List.not_mem_nil
  -- names and literals list nothing
  all_goals exact absurd h List.not_mem_nil

/-- The requests that the evaluation of a tree makes, in order, if nothing stops it. -/
def events (t : Tree) : List Event :=
  (t.listed.attach.flatMap fun u => events u.1) ++ t.ownEvents
termination_by sizeOf t
decreasing_by exact sizeOf_lt_of_mem_nodes (mem_nodes_of_mem_listed u.2)

/-- A tree lists what its listed nodes list, and then what it asks for itself. -/
theorem events_eq (t : Tree) : t.events = t.listed.flatMap events ++ t.ownEvents := by
  rw [events, List.flatMap_def, List.flatMap_def, List.attach_map_val]

end Tree

/-! ## 2. A plan and the listing

A plan has the children in hand that evaluation really takes, which are fewer than those listed
where a node is malformed. -/

/-- A plan works through the listed nodes and makes the node's own request; or it breaks off before
one of them, and then it asks for nothing more and has no value. -/
theorem Tree.Rule.listed [Numerics] {t : Tree} {p : Plan} (h : t.Rule p) :
    (p.operands = t.listed ∧ p.assembly.events = t.ownEvents) ∨
      (p.operands <+: t.listed ∧ p.assembly.events = [] ∧
        ∀ {σ : Type} [Environment σ] (vs : List Value) (env : σ) (v : Value),
          vs.length = p.operands.length → (p.assembly.run vs env).1 ≠ .ok v) := by
  cases h with
  | literal hk =>
    have hnone : t.listed = [] ∧ t.ownEvents = [] := by
      unfold Tree.listed Tree.ownEvents
      generalize t.kind = k at hk ⊢
      cases k <;> first | exact ⟨rfl, rfl⟩ | exact absurd hk Bool.false_ne_true
    exact .inl ⟨hnone.1.symm, hnone.2.symm⟩
  -- a node that is put together wrongly is found out before its first operand
  | malformed _ => exact .inr ⟨List.nil_prefix, rfl, fun vs env v _ hv => by cases hv⟩
  | @binary op hk _ =>
    rcases hl : t.nodeAt? 0 with _ | l
    · -- without a left side the right one is not looked at
      have hsides : t.sides = [] := by simp [Tree.sides, hl]
      refine .inr ⟨hsides ▸ List.nil_prefix, rfl, fun vs env v hlen => ?_⟩
      rw [hsides, List.length_nil, List.length_eq_zero_iff] at hlen
      rw [hlen]
      intro hv
      cases hv
    · exact .inl ⟨by simp [Tree.listed, Tree.sides, hk, hl],
        by simp [Tree.ownEvents, Assembly.events, hk]⟩
  | name hk ht | assign hk ht =>
    exact .inl ⟨by simp [Tree.listed, hk], by simp [Tree.ownEvents, Assembly.events, hk, ht]⟩
  | group hk | list hk | block hk | unary hk _ | call hk _ =>
    exact .inl ⟨by simp [Tree.listed, hk], by simp [Tree.ownEvents, Assembly.events, hk]⟩
  | @control k hk ht =>
    refine .inl ⟨?_, ?_⟩
    · cases k <;> simp [Tree.listed, Tree.keywordPlan, Plan.settled, Keyword.text, hk, ht]
    · cases k <;>
        simp [Tree.ownEvents, Tree.keywordPlan, Assembly.events, Plan.settled, hk]

/-- The events of the operands come first in the listing. -/
theorem Tree.operands_within_events [Numerics] (t : Tree) :
    t.plan.operands.flatMap Tree.events <+: t.events := by
  rw [events_eq]
  rcases t.rule.listed with ⟨hops, -⟩ | ⟨hops, -⟩
  · rw [hops]
    exact List.prefix_append _ _
  · exact (hops.flatMap _).trans (List.prefix_append _ _)

/-! ## 3. Following a listing

`Follows` is closed under stopping and under going on, which are the two things that a row can do
after a member. -/

section
variable {σ : Type}

/-- From `s` on the requests of `es` were made in order, all of them if there is a value. -/
def Follows {α : Type} (es : List Event) (s : Traced σ) (r : Outcome α × Traced σ) : Prop :=
  ∃ as : List Access, r.2.accesses = s.accesses ++ as ∧ as.map Access.event <+: es ∧
    ∀ a, r.1 = .ok a → as.map Access.event = es

namespace Follows

variable {α β : Type} {es fs : List Event} {s s' : Traced σ}

/-- Nothing was asked for and nothing was to be. -/
theorem refl (r : Outcome α) (s : Traced σ) : Follows [] s (r, s) :=
  ⟨[], (List.append_nil _).symm, List.nil_prefix, fun _ _ => rfl⟩

/-- One request made where one was to be made. -/
theorem single {r : Outcome α} {a : Access} (h : s'.accesses = s.accesses ++ [a]) :
    Follows [a.event] s (r, s') :=
  ⟨[a], h, List.prefix_refl _, fun _ _ => rfl⟩

/-- Without a value a longer listing is followed as well. -/
theorem stop {r : Outcome α × Traced σ} (h : Follows es s r) (hes : es <+: fs)
    (hr : ∀ a, r.1 ≠ .ok a) : Follows fs s r := by
  obtain ⟨as, hlog, hbegun, -⟩ := h
  exact ⟨as, hlog, hbegun.trans hes, fun a ha => absurd ha (hr a)⟩

/-- A listing followed to its end, and another one from there on. -/
theorem andThen {r : Outcome β × Traced σ} {a : α} (h : Follows es s (.ok a, s'))
    (h' : Follows fs s' r) : Follows (es ++ fs) s r := by
  obtain ⟨as, hlog, -, hwhole⟩ := h
  obtain ⟨bs, hlog', hbegun, hwhole'⟩ := h'
  have hes : as.map Access.event = es := hwhole a rfl
  refine ⟨as ++ bs, ?_, ?_, fun b hb => ?_⟩
  · rw [hlog', hlog, List.append_assoc]
  · rw [List.map_append, hes]
    exact (List.prefix_append_right_inj es).2 hbegun
  · rw [List.map_append, hes, hwhole' b hb]

/-- What is made of an outcome is of no matter if it makes no value out of none. -/
theorem of_values {r : Outcome α} {r' : Outcome β} (h : Follows es s (r, s'))
    (hr : ∀ b, r' = .ok b → ∃ a, r = .ok a) : Follows es s (r', s') := by
  obtain ⟨as, hlog, hbegun, hwhole⟩ := h
  refine ⟨as, hlog, hbegun, fun b hb => ?_⟩
  obtain ⟨a, ha⟩ := hr b hb
  exact hwhole a ha

end Follows

/-- A row follows the listings of its members, one after the other. -/
theorem inOrder_follows {α β : Type} {listing : α → List Event}
    {step : α → Traced σ → Outcome β × Traced σ} (as : List α)
    (h : ∀ a ∈ as, ∀ s, Follows (listing a) s (step a s)) (s : Traced σ) :
    Follows (as.flatMap listing) s (inOrder step as s) := by
  induction as generalizing s with
  | nil => exact .refl _ s
  | cons a as ih =>
    have hfirst := h a List.mem_cons_self s
    rw [List.flatMap_cons]
    rcases hstep : step a s with ⟨i | b, s₁⟩
    all_goals rw [hstep] at hfirst
    · -- the first member stops the row: the listings of the others are not begun
      rw [inOrder_cons_error hstep]
      have hstop := hfirst.stop (List.prefix_append _ (as.flatMap listing)) fun b hb => by cases hb
      exact hstop.of_values fun bs hbs => by cases hbs
    · -- the first listing is behind us as a whole, and the row has got as far as its rest has
      have hrest := ih (fun a' ha' => h a' (List.mem_cons_of_mem a ha')) s₁
      rw [inOrder_cons_ok hstep]
      refine hfirst.andThen (hrest.of_values fun cs hcs => ?_)
      obtain ⟨bs, hbs, -⟩ := Outcome.map_eq_ok.1 hcs
      exact ⟨bs, hbs⟩

variable [Numerics] [Environment σ]

/-- Putting values together asks for what the assembly says. -/
theorem Assembly.run_follows (a : Assembly) (vs : List Value) (s : Traced σ) :
    Follows a.events s (a.run vs s) := by
  rcases a.events_cases with ⟨name, rfl⟩ | ⟨name, rfl⟩ | hnone
  · have hlog := Traced.accesses_lookup name s
    simp only [Assembly.run]
    generalize Environment.lookup name s = answer at hlog ⊢
    obtain ⟨_ | v, s'⟩ := answer
    · exact .single hlog
    · exact .single hlog
  · rcases vs with _ | ⟨v, vs⟩
    · exact (Follows.refl _ s).stop List.nil_prefix fun v hv => by cases hv
    · exact .single (Traced.accesses_bind name v s)
  · obtain ⟨r, hrun⟩ := Assembly.run_of_events_eq_nil hnone vs
    rw [hrun s, hnone]
    exact .refl r s

/-- An evaluation follows the listing of its tree. By induction on the tree: the operands follow
theirs, and what the plan leaves out of the listing it leaves out for want of a value. -/
theorem evaluate_follows (limit : Option Nat) (t : Tree) :
    ∀ (depth : Nat) (s : Traced σ), Follows t.events s (evaluate limit depth t s) := by
  induction t using Tree.induction with
  | node t ih =>
    intro depth s
    rw [evaluate_eq]
    rcases pastLimit limit depth with _ | most
    · have hrow : Follows (t.plan.operands.flatMap Tree.events) s
          (inOrder (evaluate limit (depth + 1)) t.plan.operands s) :=
        inOrder_follows t.plan.operands
          (fun u hu => ih u (Tree.mem_nodes_of_mem_operands hu) (depth + 1)) s
      have hlisted := t.operands_within_events
      simp only
      rcases hout : inOrder (evaluate limit (depth + 1)) t.plan.operands s with ⟨i | vs, s₁⟩
      all_goals rw [hout] at hrow
      · -- an operand was interrupted: the node's own request is not made
        have hstop := hrow.stop hlisted fun vs hvs => by cases hvs
        exact hstop.of_values fun v hv => by cases hv
      · have hown := t.plan.assembly.run_follows vs s₁
        have hboth := hrow.andThen hown
        simp only [conclude]
        rcases t.rule.listed with ⟨hops, hasm⟩ | ⟨hops, hasm, hnone⟩
        · rw [hops, hasm, ← Tree.events_eq] at hboth
          exact hboth.of_values fun v hv => ⟨v, Outcome.locate_eq_ok.1 hv⟩
        · -- broken off: all that was listed so far, and no value
          rw [hasm, List.append_nil] at hboth
          have hstop := hboth.stop hlisted fun v => hnone vs s₁ v (length_of_inOrder hout)
          exact hstop.of_values fun v hv => ⟨v, Outcome.locate_eq_ok.1 hv⟩
    · -- past the limit nothing of the node is looked at
      exact (Follows.refl _ s).stop List.nil_prefix fun v hv => by cases hv

end

end Metrology
