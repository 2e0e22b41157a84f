/-
Equality of values that share payloads.

Two payloads of one identity are taken for equal unseen, at every level of a list. That is right as
long as equal contents are equal at all, and the only contents that are not equal to themselves are
those with NaN somewhere in them. So the look at identity and the comparison of contents differ just
where both values have the same list with NaN in it at the same place (`SharesNaN`), and equality by
identity is an equivalence on all values but bare numbers with NaN, which the comparison of contents
is not.

What an identity stands for is fixed by a storage. All statements are about values of one storage,
which may share whatever they like with each other and within themselves.
-/
import Metrology.Value.Stored
import Mathlib.Data.List.Forall2
set_option autoImplicit false

namespace Metrology

/-! ## 1. Equality of numbers

What the comparison of numbers fails to be is an equivalence at one point only: NaN is equal to
nothing. Everything below inherits its exceptions from here. -/

namespace Binary64

variable {x y z : Binary64}

/-- Only NaN has no place on the line. -/
theorem place_eq_none_iff : x.place = none ↔ x = .nan := by
  cases x with
  | finite s n h => exact iff_of_false nofun nofun
  | infinite s => exact iff_of_false nofun nofun
  | nan => exact iff_of_true rfl rfl

/-- Numbers are equal where they have the same place on the line. -/
theorem eq_iff : x.eq y = true ↔ x.place = y.place ∧ x.place ≠ none := by
  unfold eq
  cases x.place with
  | none => simp
  | some a => cases y.place <;> simp

/-- Only NaN differs from itself. -/
theorem eq_self_iff : x.eq x = true ↔ x ≠ .nan := by
  rw [eq_iff, ne_eq, place_eq_none_iff, and_iff_right rfl]

/-- Equality of numbers is transitive, since they share a place. -/
theorem eq_trans (hxy : x.eq y = true) (hyz : y.eq z = true) : x.eq z = true := by
  rw [eq_iff] at *
  exact ⟨hxy.1.trans hyz.1, hxy.2⟩

end Binary64

namespace Measurement

variable {m n k : Measurement}

/-- One of the three numbers is NaN. -/
def HoldsNaN (m : Measurement) : Prop :=
  m.magnitude = .nan ∨ m.readingError = .nan ∨ m.standardError = .nan

/-- A measured value equals itself unless one of its three numbers is NaN. -/
theorem eq_self_iff : m.eq m = true ↔ ¬ m.HoldsNaN := by
  simp only [eq, HoldsNaN, Bool.and_eq_true, Binary64.eq_self_iff, not_or, and_assoc, ne_eq]

/-- Equality of measured values is symmetric, number by number. -/
theorem eq_comm (m n : Measurement) : m.eq n = n.eq m := by
  rw [eq, Binary64.eq_comm m.magnitude, Binary64.eq_comm m.readingError,
    Binary64.eq_comm m.standardError, eq]

/-- Equality of measured values is transitive, number by number. -/
theorem eq_trans (hmn : m.eq n = true) (hnk : n.eq k = true) : m.eq k = true := by
  simp only [eq, Bool.and_eq_true] at *
  obtain ⟨⟨hm, hr⟩, hs⟩ := hmn
  obtain ⟨⟨hm', hr'⟩, hs'⟩ := hnk
  exact ⟨⟨Binary64.eq_trans hm hm', Binary64.eq_trans hr hr'⟩, Binary64.eq_trans hs hs'⟩

end Measurement

/-! ## 2. Storage

A text that is stored once is shared by pointer in the engine (`Heap`), and a pointer stands for one
content for as long as it is held. `Storage` is that agreement, and `Holds` that a value keeps to
it. -/

/-- A text or a name, symbol or package. -/
def Value.isWord : Value → Bool
  | number _ => false
  | list _ => false
  | _ => true

/-- What each identity stands for, among the payloads of its sort. -/
structure Storage where
  text : Nat → String
  symbol : Nat → String
  package : Nat → String
  list : Nat → List Stored

/-- Every payload in the value is the one that the storage has under its identity. -/
inductive Storage.Holds (s : Storage) : Stored → Prop
  | number {m : Measurement} : Holds s (.number m)
  | text {i : Nat} {c : String} : s.text i = c → Holds s (.text i c)
  | symbol {i : Nat} {c : String} : s.symbol i = c → Holds s (.symbol i c)
  | package {i : Nat} {c : String} : s.package i = c → Holds s (.package i c)
  | list {i : Nat} {vs : List Stored} : s.list i = vs → (∀ v ∈ vs, Holds s v) →
      Holds s (.list i vs)

namespace Stored

variable {s : Storage} {i j : Nat} {u v w a b : Stored} {us vs ws : List Stored}

/-- Induction over a value by way of the items of its lists. -/
theorem induction {motive : Stored → Prop} (number : ∀ m, motive (number m))
    (text : ∀ i c, motive (text i c)) (symbol : ∀ i c, motive (symbol i c))
    (package : ∀ i c, motive (package i c))
    (list : ∀ i vs, (∀ v ∈ vs, motive v) → motive (list i vs)) : ∀ v, motive v
  | .number m => number m
  | .text i c => text i c
  | .symbol i c => symbol i c
  | .package i c => package i c
  | .list i vs => list i vs fun v _ => induction number text symbol package list v
termination_by v => sizeOf v

/-- Values of one storage have the same items behind the same identity. -/
theorem items_eq (hv : s.Holds (list i vs)) (hw : s.Holds (list i ws)) : vs = ws := by
  cases hv with
  | list hvs =>
    cases hw with
    | list hws => exact hvs.symm.trans hws

/-- The items of a stored list are stored. -/
theorem holds_item (h : s.Holds (list i vs)) (hv : v ∈ vs) : s.Holds v := by
  cases h with
  | list _ hitems => exact hitems v hv

/-! ## 3. Lists

Both comparisons go item by item, so both are put in terms of `List.Forall₂`. -/

/-- Items are compared one by one by identity. -/
theorem eqAll_iff : eqAll vs ws = true ↔ List.Forall₂ (fun v w => v.eq w = true) vs ws := by
  induction vs generalizing ws with
  | nil => cases ws <;> simp [eqAll]
  | cons v vs ih => cases ws <;> simp [eqAll, ih]

/-- Contents of items are compared one by one. -/
theorem eqAll_contents_iff : Value.eqAll (contentsAll vs) (contentsAll ws) = true ↔
    List.Forall₂ (fun v w => v.contents.eq w.contents = true) vs ws := by
  induction vs generalizing ws with
  | nil => cases ws <;> simp [contentsAll, Value.eqAll]
  | cons v vs ih => cases ws <;> simp [contentsAll, Value.eqAll, ih]

/-- Two lists are equal if they are one payload or their items are equal (`eq` of `Heap`). -/
theorem eq_list_iff : (list i vs).eq (list j ws) = true ↔
    i = j ∨ List.Forall₂ (fun v w => v.eq w = true) vs ws := by
  rw [eq, Bool.or_eq_true, beq_iff_eq, eqAll_iff]

/-- The contents of two lists are equal if those of their items are. -/
theorem eq_contents_list_iff : (list i vs).contents.eq (list j ws).contents = true ↔
    List.Forall₂ (fun v w => v.contents.eq w.contents = true) vs ws := by
  rw [contents, contents, Value.eq, eqAll_contents_iff]

/-! ## 4. Texts and names -/

/-- In a storage the look at the identity of a text or name changes nothing. -/
theorem payload_eq_iff {named : Nat → String} {c d : String} (hc : named i = c)
    (hd : named j = d) : (i == j || c == d) = true ↔ c = d := by
  rw [Bool.or_eq_true, beq_iff_eq, beq_iff_eq]
  refine ⟨fun h => h.elim (fun hij => ?_) id, .inr⟩
  rw [← hc, ← hd, hij]

/-- Texts and names are equal just if they are the same up to identities. -/
theorem eq_iff_of_isWord (hword : v.contents.isWord = true) (hv : s.Holds v) (hw : s.Holds w) :
    v.eq w = true ↔ v.contents = w.contents := by
  cases hv with
  | number => cases hword
  | list => cases hword
  | text hc =>
    cases hw with
    | text hd => rw [eq, payload_eq_iff hc hd, contents, contents, Value.text.injEq]
    | _ => simp [eq, contents]
  | symbol hc =>
    cases hw with
    | symbol hd => rw [eq, payload_eq_iff hc hd, contents, contents, Value.symbol.injEq]
    | _ => simp [eq, contents]
  | package hc =>
    cases hw with
    | package hd => rw [eq, payload_eq_iff hc hd, contents, contents, Value.package.injEq]
    | _ => simp [eq, contents]

/-- The contents of texts and names are equal just if they are the same. -/
theorem eq_contents_iff_of_isWord (hword : v.contents.isWord = true) :
    v.contents.eq w.contents = true ↔ v.contents = w.contents := by
  cases v with
  | number m => cases hword
  | list i vs => cases hword
  | _ => cases w <;> simp [contents, Value.eq]

/-! ## 5. Equivalence

Symmetry needs no storage. Transitivity does: from one payload to the next the contents have to be
the same for both comparisons it takes part in. -/

/-- Equal values are of one type. -/
theorem typeName_eq_of_eq (h : v.eq w = true) : v.contents.typeName = w.contents.typeName := by
  cases v <;> cases w <;> first | rfl | cases h

/-- Items are compared the same way from both sides. -/
theorem eqAll_comm (h : ∀ v ∈ vs, ∀ w, v.eq w = w.eq v) (ws : List Stored) :
    eqAll vs ws = eqAll ws vs := by
  induction vs generalizing ws with
  | nil => cases ws <;> rfl
  | cons v vs ih =>
    obtain ⟨hv, hvs⟩ := List.forall_mem_cons.1 h
    cases ws with
    | nil => rfl
    | cons w ws => rw [eqAll, eqAll, hv w, ih hvs ws]

/-- Equality by identity is symmetric. By induction on the first value; values of two sorts differ
from both sides. -/
theorem eq_comm (v w : Stored) : v.eq w = w.eq v := by
  induction v using Stored.induction generalizing w with
  | number m =>
    cases w with
    | number n => exact m.eq_comm n
    | _ => rfl
  | text i c =>
    cases w with
    | text j d => rw [eq, eq, Bool.beq_comm, Bool.beq_comm (a := c)]
    | _ => rfl
  | symbol i c =>
    cases w with
    | symbol j d => rw [eq, eq, Bool.beq_comm, Bool.beq_comm (a := c)]
    | _ => rfl
  | package i c =>
    cases w with
    | package j d => rw [eq, eq, Bool.beq_comm, Bool.beq_comm (a := c)]
    | _ => rfl
  | list i vs ih =>
    cases w with
    | list j ws => rw [eq, eq, Bool.beq_comm, eqAll_comm ih]
    | _ => rfl

/-- Rows whose items are equal one by one, and the items of the second to those of the third, are
equal at the ends, if equality is transitive on the items. -/
theorem forall₂_trans
    (h : ∀ u ∈ us, ∀ v ∈ vs, ∀ w ∈ ws, u.eq v = true → v.eq w = true → u.eq w = true)
    (huv : List.Forall₂ (fun u v => u.eq v = true) us vs)
    (hvw : List.Forall₂ (fun v w => v.eq w = true) vs ws) :
    List.Forall₂ (fun u w => u.eq w = true) us ws := by
  induction huv generalizing ws with
  | nil =>
    cases hvw with
    | nil => exact .nil
  | @cons u v us vs hfirst _ ih =>
    cases hvw with
    | @cons _ w _ ws hfirst' hrest' =>
      refine .cons ?_ (ih (fun a ha b hb c hc => ?_) hrest')
      · exact h u List.mem_cons_self v List.mem_cons_self w List.mem_cons_self hfirst hfirst'
      · exact h a (.tail _ ha) b (.tail _ hb) c (.tail _ hc)

/-- On texts and names transitivity is that of equality of contents. -/
theorem eq_trans_of_isWord (hword : u.contents.isWord = true) (hu : s.Holds u) (hv : s.Holds v)
    (hw : s.Holds w) (huv : u.eq v = true) (hvw : v.eq w = true) : u.eq w = true := by
  rw [eq_iff_of_isWord hword hu hv] at huv
  rw [eq_iff_of_isWord (huv ▸ hword) hv hw] at hvw
  rw [eq_iff_of_isWord hword hu hw, huv, hvw]

/-- Equality by identity is transitive on values of one storage. By induction on the first value:
numbers and words by the lemmas above, and lists by their items, unless two of them are one payload
and have the same items anyway. -/
theorem eq_trans (hu : s.Holds u) (hv : s.Holds v) (hw : s.Holds w) (huv : u.eq v = true)
    (hvw : v.eq w = true) : u.eq w = true := by
  induction u using Stored.induction generalizing v w with
  | number m =>
    cases v with
    | number n =>
      cases w with
      | number k => exact Measurement.eq_trans huv hvw
      | _ => cases hvw
    | _ => cases huv
  | text i c => exact eq_trans_of_isWord rfl hu hv hw huv hvw
  | symbol i c => exact eq_trans_of_isWord rfl hu hv hw huv hvw
  | package i c => exact eq_trans_of_isWord rfl hu hv hw huv hvw
  | list i us ih =>
    cases v with
    | list j vs =>
      cases w with
      | list k ws =>
        rw [eq_list_iff] at *
        -- two of the three may be the same payload
        rcases huv with rfl | huv
        · rwa [items_eq hu hv]
        rcases hvw with rfl | hvw
        · rw [← items_eq hv hw]
          exact .inr huv
        · refine .inr (forall₂_trans (fun a ha b hb c hc => ?_) huv hvw)
          exact ih a ha (holds_item hu ha) (holds_item hv hb) (holds_item hw hc)
      | _ => cases hvw
    | _ => cases huv

/-! ## 6. Shared NaN

The one disagreement needs the same list at the same place of both values, and NaN somewhere in it.
`Beside` walks down both values at once, and any list on the way that is one payload ends the walk.
-/

/-- A number with NaN, or a list with such a number somewhere in it. -/
inductive HoldsNaN : Stored → Prop
  | number {m : Measurement} : m.HoldsNaN → HoldsNaN (.number m)
  | item {i : Nat} {v : Stored} {vs : List Stored} : v ∈ vs → HoldsNaN v → HoldsNaN (.list i vs)

/-- A list with NaN in it. -/
def NestsNaN (v : Stored) : Prop := ∃ i vs, v = list i vs ∧ v.HoldsNaN

/-- The third and fourth value stand at the same place in the first and second. -/
inductive Beside : Stored → Stored → Stored → Stored → Prop
  | top {v w : Stored} : Beside v w v w
  | item {i j : Nat} {vs ws : List Stored} {v w a b : Stored} :
      (v, w) ∈ vs.zip ws → Beside v w a b → Beside (.list i vs) (.list j ws) a b

/-- At the same place in both values stands the same payload, a list with NaN in it. -/
def SharesNaN (v w : Stored) : Prop :=
  ∃ i vs, Beside v w (list i vs) (list i vs) ∧ (list i vs).HoldsNaN

/-- NaN in a list is in one of its items. -/
theorem HoldsNaN.of_list (h : (list i vs).HoldsNaN) : ∃ v ∈ vs, v.HoldsNaN := by
  cases h with
  | item hmem hnan => exact ⟨_, hmem, hnan⟩

/-- NaN further down on the first side is NaN in the first value. -/
theorem Beside.left (h : Beside v w a b) (ha : a.HoldsNaN) : v.HoldsNaN := by
  induction h with
  | top => exact ha
  | item hmem _ ih => exact .item (List.of_mem_zip hmem).1 (ih ha)

/-- NaN further down on the second side is NaN in the second value. -/
theorem Beside.right (h : Beside v w a b) (hb : b.HoldsNaN) : w.HoldsNaN := by
  induction h with
  | top => exact hb
  | item hmem _ ih => exact .item (List.of_mem_zip hmem).2 (ih hb)

/-- Only lists with NaN in them share one. -/
theorem SharesNaN.nestsNaN (h : SharesNaN v w) : v.NestsNaN ∧ w.NestsNaN := by
  obtain ⟨i, vs, hbeside, hnan⟩ := h
  have hv := hbeside.left hnan
  have hw := hbeside.right hnan
  cases hbeside with
  | top => exact ⟨⟨_, _, rfl, hv⟩, ⟨_, _, rfl, hw⟩⟩
  | item => exact ⟨⟨_, _, rfl, hv⟩, ⟨_, _, rfl, hw⟩⟩

/-- A value that is no list shares none. -/
theorem not_sharesNaN (h : ∀ i vs, v ≠ list i vs) : ¬ SharesNaN v w := by
  intro hshares
  obtain ⟨i, vs, heq, -⟩ := hshares.nestsNaN.1
  exact h i vs heq

/-- A list shares NaN with itself just if it holds NaN. -/
theorem sharesNaN_self_iff : SharesNaN (list i vs) (list i vs) ↔ (list i vs).HoldsNaN :=
  ⟨fun ⟨_, _, hbeside, hnan⟩ => hbeside.left hnan, fun h => ⟨i, vs, .top, h⟩⟩

/-- Different payloads share NaN where items of theirs do. -/
theorem sharesNaN_list_iff (hij : i ≠ j) :
    SharesNaN (list i vs) (list j ws) ↔ ∃ v w, (v, w) ∈ vs.zip ws ∧ SharesNaN v w := by
  constructor
  · rintro ⟨k, us, hbeside, hnan⟩
    -- the shared list is not at the top, because the two are different payloads
    cases hbeside with
    | top => exact absurd rfl hij
    | item hmem hbeside => exact ⟨_, _, hmem, k, us, hbeside, hnan⟩
  · rintro ⟨v, w, hmem, k, us, hbeside, hnan⟩
    exact ⟨k, us, .item hmem hbeside, hnan⟩

/-- Contents are equal to themselves if there is no NaN in them. -/
theorem eq_contents_self_iff (v : Stored) : v.contents.eq v.contents = true ↔ ¬ v.HoldsNaN := by
  induction v using Stored.induction with
  | number m =>
    rw [contents, Value.eq, Measurement.eq_self_iff, not_iff_not]
    exact ⟨.number, fun h => by cases h with | number hm => exact hm⟩
  | text i c => exact iff_of_true (by simp [contents, Value.eq]) nofun
  | symbol i c => exact iff_of_true (by simp [contents, Value.eq]) nofun
  | package i c => exact iff_of_true (by simp [contents, Value.eq]) nofun
  | list i vs ih =>
    rw [eq_contents_list_iff, List.forall₂_same]
    constructor
    · intro hall hnan
      obtain ⟨v, hv, hvnan⟩ := hnan.of_list
      exact (ih v hv).1 (hall v hv) hvnan
    · exact fun hnone v hv => (ih v hv).2 fun hvnan => hnone (.item hv hvnan)

/-! ## 7. Identity against contents

One direction holds always; the other is settled by induction down both values, which stops where
one payload is met on both sides. -/

/-- Values with equal contents are equal. -/
theorem eq_of_eq_contents (h : v.contents.eq w.contents = true) : v.eq w = true := by
  induction v using Stored.induction generalizing w with
  | number m =>
    cases w with
    | number n => exact h
    | _ => cases h
  | list i vs ih =>
    cases w with
    | list j ws =>
      rw [eq_contents_list_iff, List.forall₂_iff_zip] at h
      rw [eq_list_iff, List.forall₂_iff_zip]
      exact .inr ⟨h.1, fun hmem => ih _ (List.of_mem_zip hmem).1 (h.2 hmem)⟩
    | _ => cases h
  | _ =>
    rw [eq_contents_iff_of_isWord rfl] at h
    cases w <;> cases h
    simp [eq]

/-- Equal values have equal contents unless they share NaN. -/
theorem eq_contents_iff (hv : s.Holds v) (hw : s.Holds w) (h : v.eq w = true) :
    v.contents.eq w.contents = true ↔ ¬ SharesNaN v w := by
  induction v using Stored.induction generalizing w with
  | number m =>
    cases w with
    | number n => exact iff_of_true h (not_sharesNaN nofun)
    | _ => cases h
  | list i vs ih =>
    cases w with
    | list j ws =>
      -- one payload: its contents are equal to themselves just without NaN; two payloads: item by
      -- item
      by_cases hij : i = j
      · obtain rfl := hij
        obtain rfl := items_eq hv hw
        rw [eq_contents_self_iff, sharesNaN_self_iff]
      · have hitems := List.forall₂_iff_zip.1 ((eq_list_iff.1 h).resolve_left hij)
        rw [eq_contents_list_iff, List.forall₂_iff_zip, sharesNaN_list_iff hij]
        have hitem : ∀ {a b}, (a, b) ∈ vs.zip ws →
            (a.contents.eq b.contents = true ↔ ¬ SharesNaN a b) := fun hmem =>
          ih _ (List.of_mem_zip hmem).1 (holds_item hv (List.of_mem_zip hmem).1)
            (holds_item hw (List.of_mem_zip hmem).2) (hitems.2 hmem)
        constructor
        · rintro ⟨-, hall⟩ ⟨a, b, hmem, hshares⟩
          exact (hitem hmem).1 (hall hmem) hshares
        · intro hnone
          exact ⟨hitems.1, fun hmem => (hitem hmem).2 fun hshares => hnone ⟨_, _, hmem, hshares⟩⟩
    | _ => cases h
  | _ =>
    refine iff_of_true ?_ (not_sharesNaN nofun)
    rwa [eq_contents_iff_of_isWord rfl, ← eq_iff_of_isWord rfl hv hw]

/-- On values of one storage equality by identity is symmetric and transitive, and it is equality of
contents but for lists with NaN in them that both values have at the same place. Values of different
types are never equal, and only a bare number with NaN differs from its own copy. -/
theorem identity_agrees_with_contents (hu : s.Holds u) (hv : s.Holds v) (hw : s.Holds w) :
    v.eq w = w.eq v ∧
      (u.eq v = true → v.eq w = true → u.eq w = true) ∧
      (v.contents.eq w.contents = true → v.eq w = true) ∧
      (v.eq w = true → ¬ v.NestsNaN ∨ ¬ w.NestsNaN → v.contents.eq w.contents = true) ∧
      (v.eq w ≠ v.contents.eq w.contents ↔ v.eq w = true ∧ SharesNaN v w) ∧
      (v.contents.typeName ≠ w.contents.typeName → v.eq w = false) ∧
      (v.eq v = true ↔ ∀ m, v = number m → ¬ m.HoldsNaN) := by
  refine ⟨eq_comm v w, eq_trans hu hv hw, eq_of_eq_contents, ?_, ?_, ?_, ?_⟩
  · intro h hnone
    refine (eq_contents_iff hv hw h).2 fun hshares => ?_
    exact hnone.elim (· hshares.nestsNaN.1) (· hshares.nestsNaN.2)
  · constructor
    · intro hne
      have h : v.eq w = true := by
        by_contra hfalse
        refine hne (Bool.eq_iff_iff.2 (iff_of_false hfalse fun hcontents => ?_))
        exact hfalse (eq_of_eq_contents hcontents)
      refine ⟨h, not_not.1 fun hnone => hne ?_⟩
      rw [h, (eq_contents_iff hv hw h).2 hnone]
    · rintro ⟨h, hshares⟩ heq
      exact (eq_contents_iff hv hw h).1 (heq ▸ h) hshares
  · exact fun hne => Bool.eq_false_iff.2 fun h => hne (typeName_eq_of_eq h)
  · constructor
    · rintro h m rfl
      exact Measurement.eq_self_iff.1 h
    · exact fun h => eq_self v fun m hm => Measurement.eq_self_iff.2 (h m hm)

/-- Lists that are put together apart from each other around one list with NaN: any two of them are
equal, and their contents are not. -/
theorem identity_agrees_with_contents_around_nan :
    let failed := list 0 [number (.exact .nan)]
    let around := fun i => list i [failed, text i "V"]
    ∃ s : Storage, s.Holds (around 1) ∧ s.Holds (around 2) ∧ s.Holds (around 3) ∧
      (around 1).eq (around 3) = true ∧ SharesNaN (around 2) (around 3) ∧
      (around 2).contents.eq (around 3).contents = false := by
  intro failed around
  let s : Storage :=
    { text := fun _ => "V"
      symbol := fun _ => ""
      package := fun _ => ""
      list := fun i => if i = 0 then [number (.exact .nan)] else [failed, text i "V"] }
  have hfailed : s.Holds failed := .list rfl (by simp [Storage.Holds.number])
  have haround : ∀ i, i ≠ 0 → s.Holds (around i) := by
    intro i hi
    have htext : s.Holds (text i "V") := .text rfl
    exact .list (if_neg hi) (by simp [hfailed, htext])
  have hu := haround 1 (by decide)
  have hv := haround 2 (by decide)
  have hw := haround 3 (by decide)
  have hcontents : (around 2).contents.eq (around 3).contents = false := by decide
  have huv : (around 1).eq (around 2) = true := by decide
  have hvw : (around 2).eq (around 3) = true := by decide
  obtain ⟨-, htrans, -, -, hdiffer, -, -⟩ := identity_agrees_with_contents hu hv hw
  have hshares := (hdiffer.1 (by rw [hvw, hcontents]; decide)).2
  exact ⟨s, hu, hv, hw, htrans huv hvw, hshares, hcontents⟩

end Stored

end Metrology
