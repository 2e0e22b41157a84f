/-
What ends an evaluation without a value, and how the constructs around it take it.

A failure and the three control statements travel the same way, outward through whatever is being
evaluated. Control statements are no failures: a loop takes `break` and `continue`, a call takes
`return`, and each lets the others pass.
-/
import Metrology.Evaluation.Failure
import Metrology.Value.Basic
set_option autoImplicit false

namespace Metrology

/-! ## 1. Keywords -/

/-- The keywords of control statements (`ControlKeyword`). -/
inductive Keyword where
  | ret
  | brk
  | cont
  deriving DecidableEq

namespace Keyword

/-- The word of a keyword, as it stands in a tree and in messages (`as_str`). -/
def text : Keyword → String
  | ret => "return"
  | brk => "break"
  | cont => "continue"

/-- The keyword that a token is. -/
def ofToken? : String → Option Keyword
  | "return" => some ret
  | "break" => some brk
  | "continue" => some cont
  | _ => none

/-- The keyword that a token is, or the failure of a token that is none (`parse`). -/
def ofToken (token : String) : Except Failure Keyword :=
  match ofToken? token with
  | some k => .ok k
  | none => .error (.of (.unknownKeyword token))

/-- The word of a keyword is read back as that keyword. -/
theorem ofToken?_text (k : Keyword) : ofToken? k.text = some k := by cases k <;> rfl

/-- A token is a keyword only by being its text. -/
theorem text_of_ofToken? {token : String} {k : Keyword} (h : ofToken? token = some k) :
    token = k.text := by
  unfold ofToken? at h
  split at h <;> simp_all [text] <;> (subst h; rfl)

end Keyword

/-! ## 2. Interrupts -/

/-- What ends an evaluation without a value (`ControlAction`). -/
inductive Interrupt where
  | failure (f : Failure)
  /-- `return`, with the value of its operand if it has one. -/
  | returning (value : Option Value)
  | breaking
  | continuing

namespace Interrupt

/-- The keyword of a control statement; a failure has none (`keyword`). -/
def keyword? : Interrupt → Option Keyword
  | failure _ => none
  | returning _ => some .ret
  | breaking => some .brk
  | continuing => some .cont

/-- Tells failures from control statements (`is_error`). -/
def isFailure : Interrupt → Bool
  | failure _ => true
  | _ => false

/-- The failure that an interrupt is where nothing can catch it any more (`into_eval_error`). -/
def toFailure : Interrupt → Failure
  | failure f => f
  | returning _ => .of (.strayControl Keyword.ret.text)
  | breaking => .of (.strayControl Keyword.brk.text)
  | continuing => .of (.strayControl Keyword.cont.text)

/-- Gives a failure without a place the place `s`; control statements have none
(`with_span_if_error`). -/
def locate (s : Option Span) : Interrupt → Interrupt
  | failure f => failure (f.locate s)
  | i => i

/-- Seen from a node without a place, an interrupt stays as it is. -/
@[simp] theorem locate_none (i : Interrupt) : i.locate none = i := by
  cases i <;> simp [locate]

/-- Of two nodes around it, an interrupt takes the place of the inner one if that has one. -/
theorem locate_locate (s r : Option Span) (i : Interrupt) :
    (i.locate s).locate r = i.locate (s.or r) := by
  cases i <;> simp [locate, Failure.locate_locate]

end Interrupt

/-- The outcome of an evaluation that yields an `α` unless interrupted (`EvalResult`). -/
abbrev Outcome (α : Type) := Except Interrupt α

/-- A failure outcome that only states its cause. -/
def Outcome.fail {α : Type} (cause : Cause) : Outcome α := .error (.failure (.of cause))

/-- The outcome of arithmetic on measured values. -/
def Outcome.ofArithmetic : Except ArithmeticFault Measurement → Outcome Value
  | .ok m => .ok (.number m)
  | .error f => Outcome.fail (.arithmetic f)

/-- An outcome seen from a place around it. -/
def Outcome.locate {α : Type} (s : Option Span) : Outcome α → Outcome α
  | .ok v => .ok v
  | .error i => .error (i.locate s)

/-- A function applied to the value of an outcome yields a value exactly where there was one. -/
theorem Outcome.map_eq_ok {α β : Type} {f : α → β} {r : Outcome α} {b : β} :
    r.map f = .ok b ↔ ∃ a, r = .ok a ∧ f a = b := by
  cases r <;> simp [Except.map]

/-- A function applied to the value of an outcome leaves every interrupt as it is. -/
theorem Outcome.map_eq_error {α β : Type} {f : α → β} {r : Outcome α} {i : Interrupt} :
    r.map f = .error i ↔ r = .error i := by
  cases r <;> simp [Except.map]

/-- A place neither makes a value nor takes one away. -/
@[simp] theorem Outcome.locate_eq_ok {α : Type} {s : Option Span} {r : Outcome α} {a : α} :
    r.locate s = .ok a ↔ r = .ok a := by
  cases r <;> simp [locate]

/-! ## 3. Catching -/

/-- What a loop does when its body was interrupted (`LoopAction`). -/
inductive LoopReaction where
  /-- Go on with the next round. -/
  | next
  /-- Leave the loop. -/
  | exit
  /-- Hand the interrupt to what is around the loop. -/
  | pass (i : Interrupt)

/-- A loop takes `continue` and `break` (`to_loop_action`). -/
def Interrupt.inLoop : Interrupt → LoopReaction
  | .continuing => .next
  | .breaking => .exit
  | i => .pass i

/-- A call takes `return`, whose operand is then its value; a body that ends by itself gives its own
value (`catch_return`). -/
def Outcome.catchReturn : Outcome Value → Outcome (Option Value)
  | .ok v => .ok (some v)
  | .error (.returning v) => .ok v
  | .error i => .error i

end Metrology
