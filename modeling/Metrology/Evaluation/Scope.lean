/-
The stock environment: a stack of frames, and packages by name.

The stack is never empty. Its outermost frame is the global one, and closing the last scope leaves
it in place. A lookup goes outward and takes the first frame that has the name. A binding goes
outward too and replaces the value there; a name that no frame has is defined in the innermost one.
Packages stand beside the frames and are not affected by scopes.
-/
import Metrology.Evaluation.Bindings
import Metrology.Evaluation.Environment
import Metrology.Evaluation.Failure
set_option autoImplicit false

namespace Metrology

/-- The names of one scope. -/
abbrev Frame := Bindings Value

/-- A named collection of exported values (`PackageHandle`). -/
structure Package where
  name : String
  exports : Bindings Value

/-- A stack of frames, innermost first, with the packages that are known (`Scope`). -/
structure Scope where
  innermost : Frame
  outer : List Frame
  packages : Bindings Package

namespace Scope

/-- Only a global frame, without names or packages (`new`). -/
def empty : Scope := ⟨.empty, [], .empty⟩

instance : Inhabited Scope := ⟨empty⟩

/-- The frames, innermost first (`frames`). -/
def frames (s : Scope) : List Frame := s.innermost :: s.outer

/-- The number of frames, the global one included (`depth`). -/
def depth (s : Scope) : Nat := s.frames.length

/-- Opens a scope (`push_scope`). -/
def push (s : Scope) : Scope := { s with innermost := .empty, outer := s.innermost :: s.outer }

/-- Closes the innermost scope; the global frame stays (`pop_scope`). -/
def pop (s : Scope) : Scope :=
  match s.outer with
  | [] => s
  | f :: fs => { s with innermost := f, outer := fs }

/-- Gives a name a value in the innermost frame, hiding what outer frames hold (`define`). -/
def define (name : String) (v : Value) (s : Scope) : Scope :=
  { s with innermost := s.innermost.insert name v }

/-- The value of a name in the first frame that has it (`lookup`). -/
def lookup (name : String) (s : Scope) : Option Value :=
  s.frames.findSome? fun f => f.get? name

/-- The frames with the value of the name replaced in the first frame that has it; none where no
frame does. -/
def replaceIn (name : String) (v : Value) : List Frame → Option (List Frame)
  | [] => none
  | f :: fs =>
    if f.contains name then some (f.insert name v :: fs)
    else (replaceIn name v fs).map (f :: ·)

/-- Replaces the value of a name where it is bound, or defines it in the innermost frame
(`bind`). -/
def bind (name : String) (v : Value) (s : Scope) : Scope :=
  if s.innermost.contains name then s.define name v
  else
    match replaceIn name v s.outer with
    | some fs => { s with outer := fs }
    | none => s.define name v

instance : Scoped Scope where
  lookup name s := (s.lookup name, s)
  bind := bind
  push := push
  pop := pop
  define := define

/-! ## Packages -/

/-- Makes a package known under its name, in place of any earlier one (`register_package`). -/
def register (p : Package) (s : Scope) : Scope :=
  { s with packages := s.packages.insert p.name p }

/-- The package that a value refers to (`resolve_package`). Only a package reference does, and only
to a package that is known. -/
def resolve (v : Value) (s : Scope) : Except Failure Package :=
  match v with
  | .package name =>
    match s.packages.get? name with
    | some p => .ok p
    | none => .error (.of (.unresolvedPackage name))
  | v => .error (.of (.typeMismatch "package" v.typeName))

/-! ## What the operations do to the stack -/

@[simp] theorem depth_push (s : Scope) : s.push.depth = s.depth + 1 := rfl

/-- Closing a scope just opened undoes the opening. -/
@[simp] theorem pop_push (s : Scope) : s.push.pop = s := rfl

@[simp] theorem depth_define (name : String) (v : Value) (s : Scope) :
    (s.define name v).depth = s.depth := rfl

/-- A replacement in the frames keeps their number. -/
theorem length_replaceIn {name : String} {v : Value} {fs gs : List Frame}
    (h : replaceIn name v fs = some gs) : gs.length = fs.length := by
  induction fs generalizing gs with
  | nil => simp [replaceIn] at h
  | cons f fs ih =>
    unfold replaceIn at h
    split at h
    · simp only [Option.some.injEq] at h
      simp [← h]
    · obtain ⟨r, hr, rfl⟩ := Option.map_eq_some_iff.1 h
      simp [ih hr]

/-- A binding moves no frame. -/
@[simp] theorem depth_bind (name : String) (v : Value) (s : Scope) :
    (s.bind name v).depth = s.depth := by
  unfold bind
  split
  · rfl
  · split
    · simp [depth, frames, length_replaceIn ‹_›]
    · rfl

/-- After a replacement the name is found with the new value, and every other name as before. -/
theorem findSome?_replaceIn {name : String} {v : Value} {fs gs : List Frame} (other : String)
    (h : replaceIn name v fs = some gs) :
    gs.findSome? (·.get? other) = if other = name then some v else fs.findSome? (·.get? other) := by
  induction fs generalizing gs with
  | nil => simp [replaceIn] at h
  | cons f fs ih =>
    unfold replaceIn at h
    split at h
    · simp only [Option.some.injEq] at h
      subst h
      by_cases ho : other = name <;> simp [List.findSome?_cons, Bindings.get?_insert, ho]
    · -- the first frame lacks the name, so it answers no lookup of it and hides nothing
      rename_i hc
      obtain ⟨r, hr, rfl⟩ := Option.map_eq_some_iff.1 h
      have hn : f.get? name = none := by simpa [Bindings.contains] using hc
      by_cases ho : other = name
      · subst ho
        simp [hn, ih hr]
      · simp [List.findSome?_cons, ih hr, ho]

/-- A name that is bound has the value bound to it, and every other name the value it had. -/
theorem lookup_bind (name other : String) (v : Value) (s : Scope) :
    (s.bind name v).lookup other = if other = name then some v else s.lookup other := by
  unfold bind
  -- the innermost frame has the name, or an outer one has it, or none has
  split
  · by_cases ho : other = name <;>
      simp [lookup, frames, define, List.findSome?_cons, Bindings.get?_insert, ho]
  · rename_i hc
    have hn : s.innermost.get? name = none := by simpa [Bindings.contains] using hc
    split
    · rename_i fs hr
      by_cases ho : other = name
      · subst ho
        simp [lookup, frames, hn, findSome?_replaceIn _ hr]
      · simp [lookup, frames, List.findSome?_cons, findSome?_replaceIn _ hr, ho]
    · by_cases ho : other = name <;>
        simp [lookup, frames, define, List.findSome?_cons, Bindings.get?_insert, ho]

end Scope

end Metrology
