/-
What evaluation does to a scope, and what it sees of one.

It does little: it replaces values of names that the tree assigns, wherever they are bound, and
defines such names in the innermost frame. Frames, packages and all other slots stay as they were.
`Scope.Updates` is that much, a binding of an assigned name keeps it (`Updates.bind`), and the scope
that comes out is the one that went in with the bindings of the record replayed, which are bindings
of assigned names (`Tree.assigns_of_mem_events`).

It sees even less. The frames of a scope are never looked at, only the values of the names that the
tree mentions. Two scopes with the same values for these are the same to it, however they are
layered, and since a binding gives a name the same value in both they stay so (`lookupLockstep`).
-/
import Metrology.Proofs.Accesses
set_option autoImplicit false

namespace Metrology

/-! ## 1. Names of a tree

What a tree can ask for is bounded by its text: lookups come from name nodes and bindings from
assignments, with the name as their first token. -/

namespace Tree

/-- The second tree is the first one or stands somewhere in it. -/
def Holds : Tree → Tree → Prop := Relation.ReflTransGen fun t u => u ∈ t.nodes

/-- The name is the target of an assignment somewhere in the tree. -/
def Assigns (t : Tree) (name : String) : Prop :=
  ∃ u, t.Holds u ∧ u.kind = .assign ∧ u.tokenAt? 0 = some name

/-- The name is looked up or assigned somewhere in the tree. -/
def Mentions (t : Tree) (name : String) : Prop :=
  ∃ u, t.Holds u ∧ (u.kind = .name ∨ u.kind = .assign) ∧ u.tokenAt? 0 = some name

variable {t u : Tree} {name : String}

/-- What a child node assigns, the tree assigns. -/
theorem Assigns.of_mem_nodes (hu : u ∈ t.nodes) (h : u.Assigns name) : t.Assigns name := by
  obtain ⟨v, hv, hkind⟩ := h
  exact ⟨v, Relation.ReflTransGen.head hu hv, hkind⟩

/-- What a child node mentions, the tree mentions. -/
theorem Mentions.of_mem_nodes (hu : u ∈ t.nodes) (h : u.Mentions name) : t.Mentions name := by
  obtain ⟨v, hv, hkind⟩ := h
  exact ⟨v, Relation.ReflTransGen.head hu hv, hkind⟩

/-- A node asks for a binding itself only if it is an assignment, and of its target. -/
theorem of_bind_mem_ownEvents (h : Event.bind name ∈ t.ownEvents) :
    t.kind = .assign ∧ t.tokenAt? 0 = some name := by
  unfold ownEvents at h
  split at h
  · obtain ⟨token, -, hevent⟩ := List.mem_map.1 h
    cases hevent
  · rename_i hk
    obtain ⟨token, htoken, hevent⟩ := List.mem_map.1 h
    cases hevent
    exact ⟨hk, Option.mem_toList.1 htoken⟩
  · exact absurd h List.not_mem_nil

/-- A tree lists bindings of names that it assigns only. -/
theorem assigns_of_mem_events (h : Event.bind name ∈ t.events) : t.Assigns name := by
  induction t using Tree.induction with
  | node t ih =>
    rw [events_eq] at h
    rcases List.mem_append.1 h with h | h
    · obtain ⟨u, hu, hevent⟩ := List.mem_flatMap.1 h
      have hnode := mem_nodes_of_mem_listed hu
      exact (ih u hnode hevent).of_mem_nodes hnode
    · exact ⟨t, Relation.ReflTransGen.refl, of_bind_mem_ownEvents h⟩

end Tree

/-! ## 2. Updates

The four fields are what a binding (`bind`) can and cannot do to a stack of frames, in a form that
is reflexive and closed under further bindings. The record of a request is then a row of them. -/

namespace Scope

/-- The second scope is the first one after bindings of some of the names: outer frames have the
names they had, the innermost may have more, and no other name has changed its value anywhere. -/
structure Updates (names : String → Prop) (s s' : Scope) : Prop where
  packages : s'.packages = s.packages
  outer : List.Forall₂ (fun f g : Frame => ∀ name, g.contains name = f.contains name)
    s.outer s'.outer
  innermost : ∀ name, s.innermost.contains name = true → s'.innermost.contains name = true
  slots : List.Forall₂ (fun f g : Frame => ∀ name, g.get? name ≠ f.get? name → names name)
    s.frames s'.frames

/-- What holds frame by frame, and in any frame that has the name after it is set there, holds after
the name is set in the first frame that has it. -/
theorem forall₂_replaceIn {R : Frame → Frame → Prop} {name : String} {v : Value}
    (hR : ∀ f g, R f g → g.contains name = true → R f (g.insert name v)) {fs gs hs : List Frame}
    (h : List.Forall₂ R fs gs) (hr : replaceIn name v gs = some hs) : List.Forall₂ R fs hs := by
  induction h generalizing hs with
  | nil => cases hr
  | @cons f g fs gs hf hfs ih =>
    rw [replaceIn] at hr
    split at hr
    · rename_i hc
      rw [← Option.some.inj hr]
      exact .cons (hR f g hf hc) hfs
    · obtain ⟨rest, hrest, rfl⟩ := Option.map_eq_some_iff.1 hr
      exact .cons hf (ih hrest)

/-- A frame in which a name has been set contains that name, and otherwise what it contained. -/
theorem contains_insert (f : Frame) (name other : String) (v : Value) :
    (f.insert name v).contains other = (decide (other = name) || f.contains other) := by
  rw [Bindings.contains, Bindings.contains, Bindings.get?_insert]
  by_cases h : other = name
  · rw [if_pos h, decide_eq_true h, Option.isSome_some, Bool.true_or]
  · rw [if_neg h, decide_eq_false h, Bool.false_or]

namespace Updates

variable {names : String → Prop} {s s' : Scope} {name : String}

theorem refl (names : String → Prop) (s : Scope) : Updates names s s where
  packages := rfl
  outer := List.forall₂_same.2 fun _ _ _ => rfl
  innermost _ h := h
  slots := List.forall₂_same.2 fun _ _ _ h => absurd rfl h

theorem depth_eq (h : Updates names s s') : s'.depth = s.depth := h.slots.length_eq.symm

/-- In a frame that is set at one of the names no other slot has changed. -/
theorem slot_insert {f g : Frame} (hname : names name) (v : Value)
    (h : ∀ other, g.get? other ≠ f.get? other → names other) :
    ∀ other, (g.insert name v).get? other ≠ f.get? other → names other := by
  intro other hother
  by_cases ho : other = name
  · rw [ho]
    exact hname
  · rw [Bindings.get?_insert, if_neg ho] at hother
    exact h other hother

/-- A definition of one of the names in the innermost frame is an update. This frame is the only one
that can get a name. -/
theorem define (h : Updates names s s') (hname : names name) (v : Value) :
    Updates names s (s'.define name v) where
  packages := h.packages
  outer := h.outer
  innermost other hother := by
    rw [Scope.define, contains_insert, h.innermost other hother, Bool.or_true]
  slots := by
    rcases h.slots with _ | ⟨hinnermost, houter⟩
    exact .cons (slot_insert hname v hinnermost) houter

/-- A binding of one of the names is an update, in whichever frame it finds the name. -/
theorem bind (h : Updates names s s') (hname : names name) (v : Value) :
    Updates names s (s'.bind name v) := by
  rw [Scope.bind]
  split
  · exact h.define hname v
  · split
    · rename_i fs hr
      rcases h.slots with _ | ⟨hinnermost, houter⟩
      refine ⟨h.packages, forall₂_replaceIn ?_ h.outer hr, h.innermost,
        .cons hinnermost (forall₂_replaceIn ?_ houter hr)⟩
      · -- the frame has the name already, so that it gets no new one
        intro f g hfg hc other
        rw [contains_insert, ← hfg other]
        by_cases ho : other = name
        · rw [ho, hc, Bool.or_true]
        · rw [decide_eq_false ho, Bool.false_or]
      · exact fun f g hfg _ => slot_insert hname v hfg
    · exact h.define hname v

/-- A whole record is an update if every binding on it is of one of the names. -/
theorem replay (as : List Access) (has : ∀ name v, Access.bind name v ∈ as → names name)
    (h : Updates names s s') : Updates names s (as.foldl Access.replay s') := by
  induction as generalizing s' with
  | nil => exact h
  | cons a as ih =>
    have hrest : ∀ name v, Access.bind name v ∈ as → names name :=
      fun name v hmem => has name v (List.mem_cons_of_mem a hmem)
    rw [List.foldl_cons]
    cases a with
    | lookup name found => exact ih hrest h
    | bind name v => exact ih hrest (h.bind (has name v List.mem_cons_self) v)

end Updates

end Scope

/-- A request updates a scope at the names that the tree assigns. -/
theorem Request.updates [Numerics] (q : Request) (t : Tree) (ev : Evaluator) (s : Scope) :
    Scope.Updates t.Assigns s (q.answer t (ev, s)).2.2 := by
  obtain ⟨as, hrecord, hbegun, -⟩ := q.answer_follows t ev (Traced.start s)
  have hreplay := (kept_replay s).answer q t ev (Traced.start s) rfl
  have hinner : (q.answer t (ev, Traced.start s)).2.2.inner = (q.answer t (ev, s)).2.2 :=
    (answer_traced q t ev (Traced.start s)).2
  have hscope : (q.answer t (ev, s)).2.2 = as.foldl Access.replay s := by
    rw [← hinner, hreplay, hrecord, Traced.accesses_start, List.nil_append]
  rw [hscope]
  refine (Scope.Updates.refl t.Assigns s).replay as fun name v hmem => ?_
  -- every request on the record is listed
  exact Tree.assigns_of_mem_events (hbegun.subset (List.mem_map_of_mem hmem))

/-! ## 3. What is seen

This part runs two evaluations side by side in two different scopes. That their records agree is
part of the relation, so that not only the outcomes but the requests come out the same. -/

section
variable [Numerics]

/-- One tree that mentions only some names, with records that are the same so far, in scopes that
have the same values for these names. -/
def lookupLockstep (names : String → Prop) : Lockstep (Traced Scope) (Traced Scope) where
  tree t u := t = u ∧ ∀ name, t.Mentions name → names name
  value := Eq
  interrupt := Eq
  env s s' := s.recent = s'.recent ∧ ∀ name, names name → s.inner.lookup name = s'.inner.lookup name

/-- Two scopes that agree on the names of a tree stay in lockstep: a lookup in the tree is of one of
these names, and a binding gives its name the same value in both. The tree's names are those of its
operands and its own, so that the agreement is handed down. -/
theorem lookupLockstep_lawful (names : String → Prop) : (lookupLockstep names).Lawful where
  operands := by
    rintro t _ ⟨rfl, hnames⟩
    refine List.forall₂_same.2 fun u hu => ⟨rfl, fun name hname => ?_⟩
    exact hnames name (hname.of_mem_nodes (Tree.mem_nodes_of_mem_operands hu))
  assemble := by
    rintro t _ vs ws s s' ⟨rfl, hnames⟩ hvs ⟨hrecent, hlookup⟩
    obtain rfl : vs = ws := List.forall₂_eq_eq_eq ▸ hvs
    have hself : t.Holds t := Relation.ReflTransGen.refl
    rcases t.plan.assembly.events_cases with ⟨name, ha⟩ | ⟨name, ha⟩ | hnone
    · -- the name is mentioned, so both scopes answer alike
      obtain ⟨hk, ht⟩ := t.rule.of_lookup ha
      have hname := hlookup name (hnames name ⟨t, hself, .inl hk, ht⟩)
      rw [ha]
      simp only [Assembly.run, Environment.lookup]
      rw [hname, hrecent]
      rcases s'.inner.lookup name with _ | v
      · exact ⟨.error rfl, rfl, hlookup⟩
      · exact ⟨.ok rfl, rfl, hlookup⟩
    · obtain ⟨hk, ht, -⟩ := t.rule.of_bind ha
      rw [ha]
      rcases vs with _ | ⟨v, vs⟩
      · exact ⟨.error rfl, hrecent, hlookup⟩
      · refine ⟨.ok rfl, congrArg (Access.bind name v :: ·) hrecent, fun other hother => ?_⟩
        show (s.inner.bind name v).lookup other = (s'.inner.bind name v).lookup other
        rw [Scope.lookup_bind, Scope.lookup_bind, hlookup other hother]
    · obtain ⟨r, hrun⟩ := Assembly.run_of_events_eq_nil hnone vs
      rw [hrun s, hrun s']
      exact ⟨ExceptRel.of_eq r, hrecent, hlookup⟩
  locate := by
    rintro t _ i _ ⟨rfl, -⟩ rfl
    rfl
  tooDeep most := rfl

omit [Numerics] in
/-- The first level of a request mentions what the tree mentions. -/
theorem Request.mentions_of_mem_roots {q : Request} {t u : Tree} (hu : u ∈ q.roots t)
    {name : String} (h : u.Mentions name) : t.Mentions name := by
  have hnodes : u ∈ t.nodes → t.Mentions name := fun hmem => h.of_mem_nodes hmem
  have hroot : u ∈ [t] → t.Mentions name := fun hmem => List.mem_singleton.1 hmem ▸ h
  cases q with
  | evaluate => exact hroot hu
  | evaluateBlock =>
    rw [roots] at hu
    split at hu
    · exact hnodes hu
    · exact absurd hu List.not_mem_nil
  | run =>
    rw [roots] at hu
    split at hu
    · exact hnodes hu
    · exact hroot hu

/-- What a request does to a scope and what it sees of it. The stack keeps its depth, the packages
stay, every outer frame keeps its names, the innermost loses none, and a slot anywhere changes or
comes into being only for a name that the tree assigns. And any other scope in which the names that
the tree mentions have the same values, whatever its frames are, gives the same outcome and is asked
the same, and the two still agree afterwards. -/
theorem Request.scope_effects (q : Request) (t : Tree) (ev : Evaluator) (s : Scope) :
    let after := (q.answer t (ev, s)).2.2
    after.depth = s.depth ∧ after.packages = s.packages ∧
      List.Forall₂ (fun f g : Frame => ∀ name, g.contains name = f.contains name)
        s.outer after.outer ∧
      (∀ name, s.innermost.contains name = true → after.innermost.contains name = true) ∧
      List.Forall₂ (fun f g : Frame => ∀ name, g.get? name ≠ f.get? name → t.Assigns name)
        s.frames after.frames ∧
      ∀ (names : String → Prop) (s' : Scope), (∀ name, t.Mentions name → names name) →
        (∀ name, names name → s.lookup name = s'.lookup name) →
        (q.answer t (ev, s)).1 = (q.answer t (ev, s')).1 ∧
          (q.answer t (ev, Traced.start s)).2.2.accesses =
            (q.answer t (ev, Traced.start s')).2.2.accesses ∧
          ∀ name, names name →
            after.lookup name = (q.answer t (ev, s')).2.2.lookup name := by
  intro after
  have hupdates : Scope.Updates t.Assigns s after := q.updates t ev s
  refine ⟨hupdates.depth_eq, hupdates.packages, hupdates.outer, hupdates.innermost,
    hupdates.slots, fun names s' hnames hlookup => ?_⟩
  have hroots : List.Forall₂ (lookupLockstep names).tree (q.roots t) (q.roots t) :=
    List.forall₂_same.2 fun u hu =>
      ⟨rfl, fun name hname => hnames name (mentions_of_mem_roots hu hname)⟩
  have henv : (lookupLockstep names).env (Traced.start s) (Traced.start s') := ⟨rfl, hlookup⟩
  obtain ⟨hanswer, hrecent, hafter⟩ := Lockstep.answer_lockstep (lookupLockstep_lawful names) q ev
    hroots (fun _ _ hr => q.finish_of_eq t hr) henv
  obtain ⟨hout, hinner⟩ := answer_traced q t ev (Traced.start s)
  obtain ⟨hout', hinner'⟩ := answer_traced q t ev (Traced.start s')
  refine ⟨?_, congrArg List.reverse hrecent, fun name hname => ?_⟩
  · have hsame := (hanswer.imp fun _ _ => optionRel_eq_iff.1).eq
    exact hout.symm.trans (hsame.trans hout')
  · have hsame := hafter name hname
    rw [hinner, hinner'] at hsame
    exact hsame

end

end Metrology
