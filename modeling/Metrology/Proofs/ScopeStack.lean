/-
A scope as a stack of finite maps, over whole runs of its operations.

The view of a scope is its slots. A slot is a level and a name, and levels count from the global
frame inward, so that a frame keeps its level for as long as it is on the stack. Opening and closing
a scope leaves the slots of all other frames alone, a definition sets one slot of the innermost
frame and a binding one slot of the frame that `HeldAt` points to. Those are the equations of the
four operations, and behind them nobody looks at frames.

What a host builds from the operations is a region: it opens a scope, does something and closes the
scope again. If what it does never closes more than it has opened (`openAfter`), nothing of the
stack below can be lost or gained by it, and a slot there changes only by a binding that no frame of
the region keeps to itself. The proof follows the steps of the region one by one (`step_below`),
with the number of frames opened so far in hand.
-/
import Metrology.Evaluation.Scope
set_option autoImplicit false

namespace Metrology

/-! ## 1. Frames are finite maps

A frame is a row of entries in the order in which the names came. Setting a name that is there
changes its entry, and setting a new one adds an entry, so that no name ever has two. -/

namespace Bindings

variable {α : Type}

/-- The names that have an entry. -/
def names (b : Bindings α) : List String := b.entries.map Prod.fst

/-- A search finds something exactly for the names in the row. -/
theorem find?_isSome_iff (name : String) (entries : List (String × α)) :
    (find? name entries).isSome = true ↔ name ∈ entries.map Prod.fst := by
  induction entries with
  | nil => simp [find?]
  | cons p rest ih =>
    obtain ⟨k, w⟩ := p
    by_cases hk : k = name
    · simp [find?, hk]
    · simp [find?, hk, ih, Ne.symm hk]

/-- A frame contains a name exactly if the name is one of its names. -/
theorem contains_iff_mem_names (b : Bindings α) (name : String) :
    b.contains name = true ↔ name ∈ b.names :=
  find?_isSome_iff name b.entries

/-- Setting a name adds no name but that one. -/
theorem eq_or_mem_of_mem_insertEntry {name k : String} {v : α} {entries : List (String × α)}
    (h : k ∈ (insertEntry name v entries).map Prod.fst) :
    k = name ∨ k ∈ entries.map Prod.fst := by
  induction entries with
  | nil => exact .inl (List.mem_singleton.1 h)
  | cons p rest ih =>
    obtain ⟨l, w⟩ := p
    rw [insertEntry] at h
    split at h
    · exact .inr h
    · rcases List.mem_cons.1 h with rfl | hrest
      · exact .inr List.mem_cons_self
      · exact (ih hrest).imp_right fun hmem => List.mem_cons_of_mem l hmem

/-- No name gets a second entry. -/
theorem nodup_names_insert {b : Bindings α} (h : b.names.Nodup) (name : String) (v : α) :
    (b.insert name v).names.Nodup := by
  obtain ⟨entries⟩ := b
  show ((insertEntry name v entries).map Prod.fst).Nodup
  replace h : (entries.map Prod.fst).Nodup := h
  induction entries with
  | nil => exact List.pairwise_singleton (· ≠ ·) name
  | cons p rest ih =>
    obtain ⟨k, w⟩ := p
    obtain ⟨hk, hrest⟩ := List.nodup_cons.1 h
    rw [insertEntry]
    split
    · exact h
    · rename_i hne
      refine List.nodup_cons.2 ⟨fun hmem => ?_, ih hrest⟩
      exact (eq_or_mem_of_mem_insertEntry hmem).elim hne hk

end Bindings

namespace Scope

/-! ## 2. Slots

Rows of frames have the innermost frame first, as the program searches them, while levels count from
the other end. The lemmas of this part translate between the two, for the two searches that the
program makes: the first frame that has a name (`lookup`), and the first one in which a name can be
replaced (`bind`). -/

/-- The value in a slot of a row of frames that has the innermost first. -/
def slotIn (fs : List Frame) (level : Nat) (name : String) : Option Value :=
  fs.reverse[level]?.bind fun f => f.get? name

/-- The value in the slot of a name at a level; none where there is no frame at the level or the
frame has no such name. -/
def slot (s : Scope) (level : Nat) (name : String) : Option Value := slotIn s.frames level name

/-- The frame at the level holds the name, and no frame inside that one does. -/
def HeldAt (s : Scope) (name : String) (level : Nat) : Prop :=
  (s.slot level name).isSome = true ∧ ∀ inner, level < inner → s.slot inner name = none

/-- No frame holds the name. -/
def Unheld (s : Scope) (name : String) : Prop := ∀ level, s.slot level name = none

section
variable {f : Frame} {fs gs : List Frame} {level : Nat} {name : String} {v : Value}

/-- The frame on top has the highest level, and all levels below belong to the frames beneath it. -/
theorem slotIn_cons (f : Frame) (fs : List Frame) (level : Nat) (name : String) :
    slotIn (f :: fs) level name =
      if level = fs.length then f.get? name else slotIn fs level name := by
  rw [slotIn, slotIn, List.reverse_cons, List.getElem?_append, List.length_reverse]
  by_cases hlt : level < fs.length
  · rw [if_pos hlt, if_neg (Nat.ne_of_lt hlt)]
  · rw [if_neg hlt]
    by_cases heq : level = fs.length
    · rw [if_pos heq, heq, Nat.sub_self]
      rfl
    · rw [if_neg heq, List.getElem?_eq_none (by rw [List.length_singleton]; omega),
        List.getElem?_eq_none (by rw [List.length_reverse]; omega)]

/-- Past the innermost frame there are no slots. -/
theorem slotIn_eq_none (h : fs.length ≤ level) : slotIn fs level name = none := by
  rw [slotIn, List.getElem?_eq_none (by rw [List.length_reverse]; exact h)]
  rfl

/-- A frame that does not have a name adds nothing to the slots of the name. -/
theorem slotIn_cons_of_none (h : f.get? name = none) (level : Nat) :
    slotIn (f :: fs) level name = slotIn fs level name := by
  rw [slotIn_cons]
  split
  · rename_i heq
    rw [h, slotIn_eq_none (Nat.le_of_eq heq.symm)]
  · rfl

/-- The first frame that has a name is the innermost one that holds it. -/
theorem findSome?_eq_some_iff : fs.findSome? (·.get? name) = some v ↔
    ∃ level, slotIn fs level name = some v ∧
      ∀ inner, level < inner → slotIn fs inner name = none := by
  induction fs with
  | nil => simp [slotIn]
  | cons f fs ih =>
    rcases hf : f.get? name with _ | w
    · rw [List.findSome?_cons, hf]
      simp only [slotIn_cons_of_none hf]
      exact ih
    · rw [List.findSome?_cons, hf]
      have htop : slotIn (f :: fs) fs.length name = some w := by
        rw [slotIn_cons, if_pos rfl, hf]
      constructor
      · -- a frame that has the name ends the search, and is the innermost that holds it
        intro h
        refine ⟨fs.length, htop.trans h, fun inner hinner => slotIn_eq_none ?_⟩
        exact hinner
      · rintro ⟨level, hlevel, hinner⟩
        -- the top holds the name, so the level is not below it, and past it there is nothing
        have hge : ¬ level < fs.length := fun hlt => by
          rw [hinner fs.length hlt] at htop
          cases htop
        have hle : ¬ (f :: fs).length ≤ level := fun hlt => by
          rw [slotIn_eq_none hlt] at hlevel
          cases hlevel
        rw [List.length_cons] at hle
        have heq : level = fs.length := by omega
        rw [heq, htop] at hlevel
        exact hlevel

/-- Replacing sets the slot of the innermost frame that holds the name, and no other. -/
theorem slotIn_replaceIn (h : replaceIn name v fs = some gs) :
    ∃ home, (slotIn fs home name).isSome = true ∧
      (∀ inner, home < inner → slotIn fs inner name = none) ∧
      ∀ level other, slotIn gs level other =
        if level = home ∧ other = name then some v else slotIn fs level other := by
  induction fs generalizing gs with
  | nil => cases h
  | cons f fs ih =>
    rw [replaceIn] at h
    split at h
    · rename_i hc
      -- the frame on top has the name
      rw [← Option.some.inj h]
      refine ⟨fs.length, ?_, fun inner hinner => slotIn_eq_none hinner, fun level other => ?_⟩
      · rw [slotIn_cons, if_pos rfl]
        exact hc
      · rw [slotIn_cons, slotIn_cons, Bindings.get?_insert]
        by_cases hl : level = fs.length
        · by_cases ho : other = name
          · rw [if_pos hl, if_pos ho, if_pos ⟨hl, ho⟩]
          · rw [if_pos hl, if_neg ho, if_neg fun hboth => ho hboth.2, if_pos hl]
        · rw [if_neg hl, if_neg fun hboth => hl hboth.1, if_neg hl]
    · rename_i hc
      obtain ⟨rest, hrest, rfl⟩ := Option.map_eq_some_iff.1 h
      have hf : f.get? name = none := by simpa [Bindings.contains] using hc
      obtain ⟨home, hheld, hinner, hslots⟩ := ih hrest
      have hlength := length_replaceIn hrest
      refine ⟨home, ?_, fun inner hin => ?_, fun level other => ?_⟩
      · rw [slotIn_cons_of_none hf]
        exact hheld
      · rw [slotIn_cons_of_none hf]
        exact hinner inner hin
      · rw [slotIn_cons, slotIn_cons, hlength, hslots]
        by_cases hl : level = fs.length
        · -- the frame on top is not the one that holds the name
          have hne : ¬ (level = home ∧ other = name) := by
            rintro ⟨rfl, -⟩
            rw [slotIn_eq_none (Nat.le_of_eq hl.symm)] at hheld
            cases hheld
          rw [if_pos hl, if_neg hne, if_pos hl]
        · rw [if_neg hl, if_neg hl]

/-- Nothing is replaced only where no frame holds the name. -/
theorem slotIn_of_replaceIn_eq_none (h : replaceIn name v fs = none) (level : Nat) :
    slotIn fs level name = none := by
  induction fs with
  | nil => rfl
  | cons f fs ih =>
    rw [replaceIn] at h
    split at h
    · cases h
    · rename_i hc
      rw [slotIn_cons_of_none (by simpa [Bindings.contains] using hc)]
      exact ih (Option.map_eq_none_iff.1 h)

end

/-! ## 3. The operations on slots

One equation for each of `push`, `pop`, `define` and `bind`, and the two readings of a lookup. -/

variable (s : Scope) (name : String) (v : Value)

theorem depth_eq : s.depth = s.outer.length + 1 := rfl

theorem depth_pos : 0 < s.depth := Nat.succ_pos _

/-- A slot is one of the innermost frame or of the outer ones, by its level. -/
theorem slot_eq (level : Nat) (name : String) : s.slot level name =
    if level + 1 = s.depth then s.innermost.get? name else slotIn s.outer level name := by
  rw [slot, frames, slotIn_cons, depth_eq]
  by_cases h : level = s.outer.length
  · rw [if_pos h, if_pos (congrArg (· + 1) h)]
  · rw [if_neg h, if_neg fun heq => h (Nat.succ.inj heq)]

/-- There are no slots at levels that no frame has. -/
theorem slot_eq_none {level : Nat} (h : s.depth ≤ level) : s.slot level name = none :=
  slotIn_eq_none h

/-- A slot with a value is one of a frame of the stack. -/
theorem lt_depth_of_isSome {level : Nat} (h : (s.slot level name).isSome = true) :
    level < s.depth := by
  refine Nat.lt_of_not_le fun hle => ?_
  rw [s.slot_eq_none name hle] at h
  cases h

/-- A lookup gives the value of the innermost frame that holds the name. -/
theorem lookup_eq_some_iff :
    s.lookup name = some v ↔ ∃ level, s.HeldAt name level ∧ s.slot level name = some v := by
  rw [lookup, findSome?_eq_some_iff]
  constructor
  · rintro ⟨level, hslot, hinner⟩
    exact ⟨level, ⟨by rw [slot, hslot]; rfl, hinner⟩, hslot⟩
  · rintro ⟨level, ⟨-, hinner⟩, hslot⟩
    exact ⟨level, hslot, hinner⟩

/-- A name is looked up in vain only if no frame holds it. -/
theorem lookup_eq_none_iff : s.lookup name = none ↔ s.Unheld name := by
  have hin : ∀ fs : List Frame,
      fs.findSome? (·.get? name) = none ↔ ∀ level, slotIn fs level name = none := by
    intro fs
    induction fs with
    | nil => exact iff_of_true rfl fun _ => rfl
    | cons f fs ih =>
      rcases hf : f.get? name with _ | w
      · rw [List.findSome?_cons, hf]
        simp only [slotIn_cons_of_none hf]
        exact ih
      · rw [List.findSome?_cons, hf]
        refine iff_of_false (Option.some_ne_none w) fun hnone => ?_
        have htop := hnone fs.length
        rw [slotIn_cons, if_pos rfl, hf] at htop
        cases htop
  exact hin s.frames

variable {name} in
/-- A lookup sees nothing but the slots of its name. -/
theorem lookup_congr {s s' : Scope} (h : ∀ level, s.slot level name = s'.slot level name) :
    s.lookup name = s'.lookup name := by
  refine Option.ext fun v => ?_
  rw [lookup_eq_some_iff, lookup_eq_some_iff]
  simp only [HeldAt, h]

variable {name} in
/-- A name is bound or not as long as no frame gets it or loses it. -/
theorem lookup_eq_none_congr {s s' : Scope}
    (h : ∀ level, (s.slot level name).isSome = (s'.slot level name).isSome) :
    s.lookup name = none ↔ s'.lookup name = none := by
  have hslot : ∀ level, s.slot level name = none ↔ s'.slot level name = none := by
    intro level
    rw [← Option.isSome_eq_false_iff.trans Option.isNone_iff_eq_none, h,
      Option.isSome_eq_false_iff.trans Option.isNone_iff_eq_none]
  rw [lookup_eq_none_iff, lookup_eq_none_iff]
  exact forall_congr' hslot

@[simp] theorem slot_push (level : Nat) : s.push.slot level name = s.slot level name :=
  slotIn_cons_of_none rfl level

/-- Closing a scope takes one frame away, but never the last. -/
theorem depth_pop : s.pop.depth = max 1 (s.depth - 1) := by
  rw [pop]
  split
  · rename_i h
    rw [depth_eq, h]
    rfl
  · rename_i f fs h
    rw [depth_eq s, h, depth_eq, List.length_cons]
    simp only
    omega

/-- The global frame is not closed. -/
theorem pop_eq_self (h : s.depth = 1) : s.pop = s := by
  have houter : s.outer = [] := List.eq_nil_of_length_eq_zero (Nat.succ.inj h)
  rw [pop, houter]

/-- Below the innermost frame closing a scope changes nothing. -/
theorem slot_pop {level : Nat} (h : level + 1 < s.depth) :
    s.pop.slot level name = s.slot level name := by
  have hlevel : ¬ level + 1 = s.depth := Nat.ne_of_lt h
  rw [pop]
  split
  · rfl
  · rename_i f fs hfs
    rw [s.slot_eq, if_neg hlevel, hfs]
    rfl

/-- A definition sets one slot, in the innermost frame. -/
theorem slot_define (level : Nat) (other : String) :
    (s.define name v).slot level other =
      if level + 1 = s.depth ∧ other = name then some v else s.slot level other := by
  rw [slot_eq, s.slot_eq, depth_define, define]
  simp only [Bindings.get?_insert]
  by_cases hl : level + 1 = s.depth
  · by_cases ho : other = name
    · rw [if_pos hl, if_pos ho, if_pos ⟨hl, ho⟩]
    · rw [if_pos hl, if_neg ho, if_neg fun hboth => ho hboth.2, if_pos hl]
  · rw [if_neg hl, if_neg fun hboth => hl hboth.1, if_neg hl]

/-- A binding sets one slot: in the frame that holds the name or, if there is none, in the innermost
frame. -/
theorem slot_bind : ∃ home < s.depth,
    (s.HeldAt name home ∨ s.Unheld name ∧ home + 1 = s.depth) ∧
      ∀ level other, (s.bind name v).slot level other =
        if level = home ∧ other = name then some v else s.slot level other := by
  have hdefine : ∀ level other, (s.define name v).slot level other =
      if level = s.outer.length ∧ other = name then some v else s.slot level other := by
    intro level other
    rw [slot_define, depth_eq]
    simp only [Nat.add_right_cancel_iff]
  have htop : s.outer.length < s.depth := Nat.lt_succ_self _
  rw [bind]
  split
  · -- the innermost frame has the name
    rename_i hc
    refine ⟨s.outer.length, htop, .inl ⟨?_, fun inner hinner => s.slot_eq_none name hinner⟩,
      hdefine⟩
    rw [slot_eq, if_pos (depth_eq s).symm]
    exact hc
  · rename_i hc
    have hslot : ∀ level, s.slot level name = slotIn s.outer level name :=
      slotIn_cons_of_none (by simpa [Bindings.contains] using hc)
    split
    · -- one of the outer frames has it
      rename_i fs hr
      obtain ⟨home, hheld, hinner, hslots⟩ := slotIn_replaceIn hr
      rw [← hslot] at hheld
      refine ⟨home, s.lt_depth_of_isSome name hheld, .inl ⟨hheld, fun inner hin => ?_⟩, ?_⟩
      · rw [hslot]
        exact hinner inner hin
      · intro level other
        rw [slot_eq, s.slot_eq, depth_eq, depth_eq]
        simp only
        rw [length_replaceIn hr, hslots]
        by_cases hl : level + 1 = s.outer.length + 1
        · -- the innermost frame is not the one that holds the name
          have hne : ¬ (level = home ∧ other = name) := by
            rintro ⟨rfl, -⟩
            rw [hslot, slotIn_eq_none (Nat.le_of_eq (Nat.succ.inj hl).symm)] at hheld
            cases hheld
          rw [if_pos hl, if_neg hne, if_pos hl]
        · rw [if_neg hl, if_neg hl]
    · rename_i hr
      refine ⟨s.outer.length, htop, .inr ⟨fun level => ?_, (depth_eq s).symm⟩, hdefine⟩
      rw [hslot]
      exact slotIn_of_replaceIn_eq_none hr level

/-! ## 4. Runs

A property of single frames is one of all frames at any time, if the empty frame has it and setting
a name keeps it. That no name has two entries is such a property. -/

/-- One operation of a host on a scope. -/
inductive Step where
  | push
  | pop
  | define (name : String) (v : Value)
  | bind (name : String) (v : Value)

/-- The scope after an operation. -/
def Step.apply : Step → Scope → Scope
  | push, s => s.push
  | pop, s => s.pop
  | define name v, s => s.define name v
  | bind name v, s => s.bind name v

/-- The scope after a run of operations. -/
def after (s : Scope) (steps : List Step) : Scope := steps.foldl (fun s step => step.apply s) s

@[simp] theorem after_nil : s.after [] = s := rfl

@[simp] theorem after_cons (step : Step) (steps : List Step) :
    s.after (step :: steps) = (step.apply s).after steps := rfl

/-- What setting a name keeps of each frame holds of each after the name is set in one of them. -/
theorem forall_mem_replaceIn {P : Frame → Prop} (hinsert : ∀ f name v, P f → P (f.insert name v))
    {name : String} {v : Value} {fs gs : List Frame} (hr : replaceIn name v fs = some gs)
    (h : ∀ f ∈ fs, P f) : ∀ g ∈ gs, P g := by
  induction fs generalizing gs with
  | nil => cases hr
  | cons f fs ih =>
    rw [List.forall_mem_cons] at h
    rw [replaceIn] at hr
    split at hr
    · rw [← Option.some.inj hr, List.forall_mem_cons]
      exact ⟨hinsert f name v h.1, h.2⟩
    · obtain ⟨rest, hrest, rfl⟩ := Option.map_eq_some_iff.1 hr
      rw [List.forall_mem_cons]
      exact ⟨h.1, ih hrest h.2⟩

/-- What the empty frame has and setting a name keeps, every frame has after an operation. -/
theorem Step.forall_frames {P : Frame → Prop} (hempty : P .empty)
    (hinsert : ∀ f name v, P f → P (f.insert name v)) (step : Step) {s : Scope}
    (h : ∀ f ∈ s.frames, P f) : ∀ f ∈ (step.apply s).frames, P f := by
  obtain ⟨hinnermost, houter⟩ := List.forall_mem_cons.1 h
  have hdefine : ∀ (name : String) (v : Value), ∀ f ∈ (s.define name v).frames, P f :=
    fun name v => List.forall_mem_cons.2 ⟨hinsert _ name v hinnermost, houter⟩
  cases step with
  | push => exact List.forall_mem_cons.2 ⟨hempty, h⟩
  | pop =>
    show ∀ f ∈ s.pop.frames, P f
    rw [Scope.pop]
    split
    · exact h
    · rename_i f fs hfs
      rw [hfs] at houter
      exact houter
  | define name v => exact hdefine name v
  | bind name v =>
    show ∀ f ∈ (s.bind name v).frames, P f
    rw [Scope.bind]
    split
    · exact hdefine name v
    · split
      · exact List.forall_mem_cons.2 ⟨hinnermost, forall_mem_replaceIn hinsert ‹_› houter⟩
      · exact hdefine name v

/-- What the empty frame has and setting a name keeps, every frame has at the end of any run. -/
theorem forall_frames_after {P : Frame → Prop} (hempty : P .empty)
    (hinsert : ∀ f name v, P f → P (f.insert name v)) {s : Scope} (h : ∀ f ∈ s.frames, P f)
    (steps : List Step) : ∀ f ∈ (s.after steps).frames, P f := by
  induction steps generalizing s with
  | nil => exact h
  | cons step steps ih => exact ih (step.forall_frames hempty hinsert h)

/-! ## 5. Regions

The steps between the opening of a scope and its closing are a balanced word. The induction follows
it with the number of frames that the region has opened so far, and speaks of the frames below
only. -/

/-- The number of scopes that are open after the steps, of `n` that are open before and those that
the steps open; none if the steps close one more than these. -/
def openAfter : List Step → Nat → Option Nat
  | [], n => some n
  | .push :: steps, n => openAfter steps (n + 1)
  | .pop :: _, 0 => none
  | .pop :: steps, n + 1 => openAfter steps n
  | .define _ _ :: steps, n => openAfter steps n
  | .bind _ _ :: steps, n => openAfter steps n

/-- At some moment of the steps the name is bound while no frame from the level `floor` up holds
it. -/
def BindsBelow (s : Scope) (steps : List Step) (floor : Nat) (name : String) : Prop :=
  ∃ before v rest, steps = before ++ .bind name v :: rest ∧
    ∀ level, floor ≤ level → (s.after before).slot level name = none

/-- A binding among the later steps is one of all steps. -/
theorem BindsBelow.later {s : Scope} {step : Step} {steps : List Step} {floor : Nat} {name : String}
    (h : (step.apply s).BindsBelow steps floor name) : s.BindsBelow (step :: steps) floor name := by
  obtain ⟨before, v, rest, rfl, hnone⟩ := h
  exact ⟨step :: before, v, rest, rfl, hnone⟩

/-- What one step does below a frame that stays. A frame further out keeps its names, and a slot of
it is changed only by a binding of its name that no inner frame holds. -/
theorem step_below {c : Scope} (step : Step) {floor level : Nat} (hfloor : floor < c.depth)
    (hpop : step = .pop → floor + 1 < c.depth) (hlevel : level < floor) (name : String) :
    ((step.apply c).slot level name).isSome = (c.slot level name).isSome ∧
      ((step.apply c).slot level name ≠ c.slot level name →
        ∃ v, step = .bind name v ∧ ∀ inner, floor ≤ inner → c.slot inner name = none) := by
  have same : ∀ {d : Scope}, d.slot level name = c.slot level name →
      (d.slot level name).isSome = (c.slot level name).isSome ∧
        (d.slot level name ≠ c.slot level name →
          ∃ v, step = .bind name v ∧ ∀ inner, floor ≤ inner → c.slot inner name = none) :=
    fun h => ⟨congrArg Option.isSome h, fun hne => absurd h hne⟩
  cases step with
  | push => exact same (c.slot_push name level)
  | pop =>
    have hdepth := hpop rfl
    exact same (c.slot_pop name (by omega))
  | define other v =>
    refine same ?_
    rw [Step.apply, slot_define, if_neg]
    rintro ⟨htop, -⟩
    omega
  | bind other v =>
    obtain ⟨home, -, hhome, hslots⟩ := c.slot_bind other v
    rw [Step.apply, hslots]
    by_cases hset : level = home ∧ name = other
    · obtain ⟨rfl, rfl⟩ := hset
      rw [if_pos ⟨rfl, rfl⟩]
      rcases hhome with ⟨hheld, hinner⟩ | ⟨-, htop⟩
      · exact ⟨hheld.symm, fun _ => ⟨v, rfl, fun inner hin => hinner inner (by omega)⟩⟩
      · -- unheld names are bound in the innermost frame, which is further in
        omega
    · rw [if_neg hset]
      exact ⟨rfl, fun hne => absurd rfl hne⟩

/-- A region and the closing of its scope, from a moment at which the frame of the region is at
`floor` and `n` more are open. By induction on the steps. -/
theorem pop_after_region {steps : List Step} {c : Scope} {floor n : Nat} (hfloor : 0 < floor)
    (hdepth : c.depth = floor + 1 + n) (hopen : openAfter steps n = some 0) :
    (c.after steps).pop.depth = floor ∧ ∀ level < floor, ∀ name,
      ((c.after steps).pop.slot level name).isSome = (c.slot level name).isSome ∧
        ((c.after steps).pop.slot level name ≠ c.slot level name →
          c.BindsBelow steps floor name) := by
  induction steps generalizing c n with
  | nil =>
    obtain rfl : n = 0 := Option.some.inj hopen
    rw [after_nil, depth_pop]
    refine ⟨by omega, fun level hlevel name => ?_⟩
    rw [c.slot_pop name (by omega)]
    exact ⟨rfl, fun hne => absurd rfl hne⟩
  | cons step steps ih =>
    -- how many are open after the step, and that the frame of the region is still there
    have hnext : ∃ m, (step.apply c).depth = floor + 1 + m ∧ openAfter steps m = some 0 ∧
        (step = .pop → floor + 1 < c.depth) := by
      cases step with
      | push => exact ⟨n + 1, congrArg (· + 1) hdepth, hopen, nofun⟩
      | pop =>
        cases n with
        | zero => cases hopen
        | succ n =>
          refine ⟨n, ?_, hopen, fun _ => by omega⟩
          rw [Step.apply, depth_pop]
          omega
      | define name v => exact ⟨n, hdepth, hopen, nofun⟩
      | bind name v => exact ⟨n, (depth_bind name v c).trans hdepth, hopen, nofun⟩
    obtain ⟨m, hm, hopen', hpop⟩ := hnext
    obtain ⟨hend, hslots⟩ := ih hm hopen'
    refine ⟨hend, fun level hlevel name => ?_⟩
    obtain ⟨hnames, hchanged⟩ := hslots level hlevel name
    obtain ⟨hstepNames, hstepChanged⟩ := step_below step (by omega) hpop hlevel name
    refine ⟨hnames.trans hstepNames, fun hne => ?_⟩
    -- the slot is changed by this step or by a later one
    by_cases hstep : (step.apply c).slot level name = c.slot level name
    · exact (hchanged fun heq => hne (heq.trans hstep)).later
    · obtain ⟨v, rfl, hnone⟩ := hstepChanged hstep
      exact ⟨[], v, steps, rfl, hnone⟩

/-- A whole region: its scope is opened, the steps close what they open, and its scope is closed. -/
theorem region {s : Scope} {steps : List Step} (hopen : openAfter steps 0 = some 0) :
    (s.push.after steps).pop.depth = s.depth ∧ ∀ level name,
      ((s.push.after steps).pop.slot level name).isSome = (s.slot level name).isSome ∧
        ((s.push.after steps).pop.slot level name ≠ s.slot level name →
          s.push.BindsBelow steps s.depth name) := by
  obtain ⟨hend, hslots⟩ := pop_after_region (c := s.push) s.depth_pos (depth_push s) hopen
  refine ⟨hend, fun level name => ?_⟩
  by_cases hlevel : level < s.depth
  · rw [← s.slot_push name level]
    exact hslots level hlevel name
  · rw [slot_eq_none _ name (Nat.le_of_not_lt hlevel),
      slot_eq_none _ name (hend ▸ Nat.le_of_not_lt hlevel)]
    exact ⟨rfl, fun hne => absurd rfl hne⟩

/-! ## 6. Whole runs

All of this holds of every scope that a host can have, since it comes from a new one by steps. -/

/-- A scope is a stack of finite maps at the end of every run from a new one. There is a frame,
every frame has each of its names once, and closing the last scope changes nothing. A lookup finds
the innermost frame that holds the name. Opening and closing a scope change no slot of the other
frames; a definition sets one slot of the innermost frame, and a binding the slot of the frame that
holds the name or else of the innermost, so that the name then has the bound value and all others
have theirs. And whatever happens between the opening of a scope and its closing, with every scope
closed that was opened in between, the frames around it keep their names, and their slots keep their
values up to bindings of a name that no frame inside held at the time. -/
theorem stack_of_finite_maps (history : List Step) :
    let s := empty.after history
    (0 < s.depth ∧ (s.depth = 1 → s.pop = s) ∧
        ∀ f ∈ s.frames, f.names.Nodup ∧ ∀ name, f.contains name = true ↔ name ∈ f.names) ∧
      (∀ name v, s.lookup name = some v ↔
        ∃ level, s.HeldAt name level ∧ s.slot level name = some v) ∧
      (s.push.depth = s.depth + 1 ∧ ∀ level name, s.push.slot level name = s.slot level name) ∧
      (s.pop.depth = max 1 (s.depth - 1) ∧ ∀ level name, level + 1 < s.depth →
        s.pop.slot level name = s.slot level name) ∧
      (∀ name v level other, (s.define name v).slot level other =
        if level + 1 = s.depth ∧ other = name then some v else s.slot level other) ∧
      (∀ name v, (∃ home < s.depth,
          (s.HeldAt name home ∨ s.Unheld name ∧ home + 1 = s.depth) ∧
            ∀ level other, (s.bind name v).slot level other =
              if level = home ∧ other = name then some v else s.slot level other) ∧
        ∀ other, (s.bind name v).lookup other = if other = name then some v else s.lookup other) ∧
      ∀ steps, openAfter steps 0 = some 0 →
        let t := (s.push.after steps).pop
        t.depth = s.depth ∧
          (∀ level name, (t.slot level name).isSome = (s.slot level name).isSome) ∧
          (∀ level name, t.slot level name ≠ s.slot level name →
            s.push.BindsBelow steps s.depth name) ∧
          ∀ name, s.lookup name = none → t.lookup name = none := by
  intro s
  have hnodup : ∀ f ∈ s.frames, f.names.Nodup := by
    refine forall_frames_after List.nodup_nil (fun f name v h => f.nodup_names_insert h name v) ?_
      history
    intro f hf
    rw [List.mem_singleton.1 hf]
    exact List.nodup_nil
  refine ⟨⟨s.depth_pos, s.pop_eq_self, fun f hf => ⟨hnodup f hf, f.contains_iff_mem_names⟩⟩,
    s.lookup_eq_some_iff, ⟨s.depth_push, fun level name => s.slot_push name level⟩,
    ⟨s.depth_pop, fun level name h => s.slot_pop name h⟩, s.slot_define,
    fun name v => ⟨s.slot_bind name v, fun other => lookup_bind name other v s⟩, ?_⟩
  intro steps hopen t
  obtain ⟨hdepth, hslots⟩ := region (s := s) hopen
  refine ⟨hdepth, fun level name => (hslots level name).1, fun level name => (hslots level name).2,
    fun name hnone => ?_⟩
  exact (lookup_eq_none_congr fun level => (hslots level name).1).2 hnone

end Scope

end Metrology
