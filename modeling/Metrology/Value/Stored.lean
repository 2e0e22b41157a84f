/-
Values in storage, and equality that looks at identity first.

Texts, names and lists are stored once and shared by every copy of a value, so each such payload
has an identity. Two payloads of one identity are equal without a look inside; only payloads of
different identity are compared part by part. The two ways agree on contents, with one exception: a
list that holds NaN is equal to its own copy, because NaN is not looked at.

Identities are numbers, given out in order as a value is stored.
-/
import Metrology.Value.Basic
set_option autoImplicit false

namespace Metrology

/-- A value whose payloads carry identities (the payloads that `Heap` holds). -/
inductive Stored where
  | number (value : Measurement)
  | text (id : Nat) (content : String)
  | symbol (id : Nat) (name : String)
  | package (id : Nat) (name : String)
  | list (id : Nat) (items : List Stored)

namespace Stored

instance : Inhabited Stored := ⟨.list 0 []⟩

/-! ## Contents -/

mutual

/-- The value without identities. -/
def contents : Stored → Value
  | number m => .number m
  | text _ s => .text s
  | symbol _ s => .symbol s
  | package _ s => .package s
  | list _ vs => .list (contentsAll vs)

/-- The items without identities. -/
def contentsAll : List Stored → List Value
  | [] => []
  | v :: vs => contents v :: contentsAll vs

end

/-! ## Storing -/

mutual

/-- A value stored in payloads of its own, numbered from `next` up, and the first number left.
(`text`, `symbol`, `package`, `list`) -/
def ofValue (next : Nat) : Value → Stored × Nat
  | .number m => (.number m, next)
  | .text s => (.text next s, next + 1)
  | .symbol s => (.symbol next s, next + 1)
  | .package s => (.package next s, next + 1)
  | .list vs =>
    let stored := ofValues (next + 1) vs
    (.list next stored.1, stored.2)

/-- Values stored one after another, each in payloads of its own, and the first number left. -/
def ofValues (next : Nat) : List Value → List Stored × Nat
  | [] => ([], next)
  | v :: vs =>
    let first := ofValue next v
    let rest := ofValues first.2 vs
    (first.1 :: rest.1, rest.2)

end

mutual

/-- Storing loses nothing. -/
theorem contents_ofValue (next : Nat) : ∀ v : Value, (ofValue next v).1.contents = v
  | .number _ => by simp [ofValue, contents]
  | .text _ => by simp [ofValue, contents]
  | .symbol _ => by simp [ofValue, contents]
  | .package _ => by simp [ofValue, contents]
  | .list vs => by simp [ofValue, contents, contents_ofValues (next + 1) vs]

/-- Storing the items of a list loses nothing. -/
theorem contents_ofValues (next : Nat) : ∀ vs : List Value,
    contentsAll (ofValues next vs).1 = vs
  | [] => by simp [ofValues, contentsAll]
  | v :: vs => by
    simp [ofValues, contentsAll, contents_ofValue next v, contents_ofValues _ vs]

end

/-! ## Equality -/

mutual

/-- Equality by identity or else by contents; numbers have no identity (`eq` of `Heap`). -/
def eq : Stored → Stored → Bool
  | number m, number n => m.eq n
  | text i s, text j t => i == j || s == t
  | symbol i s, symbol j t => i == j || s == t
  | package i s, package j t => i == j || s == t
  | list i vs, list j ws => i == j || eqAll vs ws
  | _, _ => false

/-- Equality item by item, which stops at the first two that differ. -/
def eqAll : List Stored → List Stored → Bool
  | [], [] => true
  | v :: vs, w :: ws => eq v w && eqAll vs ws
  | _, _ => false

end

/-- A value equals its own copy unless it is a bare number with NaN. -/
theorem eq_self (v : Stored) (h : ∀ m, v = number m → m.eq m = true) : v.eq v = true := by
  cases v with
  | number m => simpa [eq] using h m rfl
  | text i s => simp [eq]
  | symbol i s => simp [eq]
  | package i s => simp [eq]
  | list i vs => simp [eq]

end Stored

end Metrology
