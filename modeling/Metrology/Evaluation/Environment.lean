/-
Where names get their values.

Evaluation owns no names. It is handed an environment, looks names up in it and binds names in it,
and that is all it can do with one; whatever answers these two requests is an environment. A lookup
hands the environment back as well, so that one which keeps a record of its use is an environment
too. `Traced` is such a record over any other environment.
-/
import Metrology.Value.Basic
set_option autoImplicit false

namespace Metrology

/-- What evaluation asks of an environment (`Environment`). -/
class Environment (σ : Type) where
  /-- The value of a name, if it has one. -/
  lookup : String → σ → Option Value × σ
  /-- Gives a name a value. -/
  bind : String → Value → σ → σ

/-- An environment with scopes that a host opens and closes. -/
class Scoped (σ : Type) extends Environment σ where
  /-- Opens a scope inside the current one. -/
  push : σ → σ
  /-- Closes the current scope. -/
  pop : σ → σ
  /-- Gives a name a value in the current scope. -/
  define : String → Value → σ → σ

/-! ## A record of use -/

/-- One request of an environment. -/
inductive Access where
  /-- A lookup, and whether the name had a value. -/
  | lookup (name : String) (found : Bool)
  /-- A binding, and the value bound. -/
  | bind (name : String) (value : Value)

/-- An environment with a record of the requests made of it, the latest first. -/
structure Traced (σ : Type) where
  inner : σ
  recent : List Access

namespace Traced

variable {σ : Type}

/-- No request made yet. -/
def start (inner : σ) : Traced σ := ⟨inner, []⟩

/-- The requests in the order in which they were made. -/
def accesses (t : Traced σ) : List Access := t.recent.reverse

instance [Environment σ] : Environment (Traced σ) where
  lookup name t :=
    let (found, inner) := Environment.lookup name t.inner
    (found, ⟨inner, .lookup name found.isSome :: t.recent⟩)
  bind name v t := ⟨Environment.bind name v t.inner, .bind name v :: t.recent⟩

/-- What the host does with scopes is no request of evaluation and is not recorded. -/
instance [Scoped σ] : Scoped (Traced σ) where
  push t := { t with inner := Scoped.push t.inner }
  pop t := { t with inner := Scoped.pop t.inner }
  define name v t := { t with inner := Scoped.define name v t.inner }

end Traced

end Metrology
