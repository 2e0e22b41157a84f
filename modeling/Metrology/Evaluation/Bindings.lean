/-
Finite maps from names.

A map is its entries in the order in which the names first came. The view is `get?`; one equation
says what an insertion does to it, and after that nobody looks at entries.
-/
set_option autoImplicit false

namespace Metrology

/-- A finite map from names; an insertion never makes a second entry of a name. -/
structure Bindings (α : Type) where
  entries : List (String × α)

namespace Bindings

variable {α : Type}

/-- The map without names. -/
def empty : Bindings α := ⟨[]⟩

instance : Inhabited (Bindings α) := ⟨empty⟩

/-- The value in the first entry of a name. -/
def find? (name : String) : List (String × α) → Option α
  | [] => none
  | (k, w) :: rest => if k = name then some w else find? name rest

/-- The value of a name. -/
def get? (b : Bindings α) (name : String) : Option α := find? name b.entries

/-- The name has a value. -/
def contains (b : Bindings α) (name : String) : Bool := (b.get? name).isSome

/-- The entries with the name's value replaced, or with a new entry at the end. -/
def insertEntry (name : String) (v : α) : List (String × α) → List (String × α)
  | [] => [(name, v)]
  | (k, w) :: rest => if k = name then (k, v) :: rest else (k, w) :: insertEntry name v rest

/-- The map with the name's value set. -/
def insert (b : Bindings α) (name : String) (v : α) : Bindings α :=
  ⟨insertEntry name v b.entries⟩

/-- The map of a list of pairs; of two with one name the later counts. -/
def ofList (pairs : List (String × α)) : Bindings α :=
  pairs.foldl (fun b p => b.insert p.1 p.2) empty

@[simp] theorem get?_empty (name : String) : (empty : Bindings α).get? name = none := rfl

/-- Among the entries the insertion is seen at the inserted name alone. -/
theorem find?_insertEntry (name other : String) (v : α) (entries : List (String × α)) :
    find? other (insertEntry name v entries) =
      if other = name then some v else find? other entries := by
  induction entries with
  | nil => simp [insertEntry, find?, eq_comm]
  | cons p rest ih =>
    obtain ⟨k, w⟩ := p
    -- the entry of the name is replaced in place; any other entry is passed over
    by_cases hk : k = name
    · have he : insertEntry name v ((k, w) :: rest) = (k, v) :: rest := by simp [insertEntry, hk]
      rw [he, hk]
      by_cases h : name = other
      · simp [find?, h]
      · simp [find?, h, Ne.symm h]
    · by_cases h : k = other
      · subst h
        simp [insertEntry, find?, hk]
      · simp [insertEntry, find?, hk, h, ih]

/-- An insertion changes the inserted name and no other. -/
theorem get?_insert (b : Bindings α) (name other : String) (v : α) :
    (b.insert name v).get? other = if other = name then some v else b.get? other :=
  find?_insertEntry name other v b.entries

@[simp] theorem get?_insert_self (b : Bindings α) (name : String) (v : α) :
    (b.insert name v).get? name = some v := by
  simp [get?_insert]

end Bindings

end Metrology
