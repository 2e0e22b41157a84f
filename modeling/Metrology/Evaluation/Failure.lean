/-
Why evaluation fails.

A failure is a cause, the text that a reader is shown, the place it is about where one is known, and
notes. The code of a failure is read off its cause each time. Its text is not: it is worded once, by
`Failure.of`, and stored, and from there on nothing ties it to the cause any more. That the two
agree in every failure that a host is handed is a property of what happens to failures in between,
and is proved with the rest of what they say (`Request.failure_tells_truth`).

The program's names for these are `EvalErrorKind` for a cause, `EvalError` for a failure and
`EvalNote` for a note. Its factories, one for each cause, all come down to `from_kind`, which is
`Failure.of`.
-/
import Metrology.Measurement.Fault
import Metrology.Tree.Basic
import Metrology.Tree.Operator
set_option autoImplicit false

namespace Metrology

/-! ## 1. Causes -/

/-- The causes of a failure (`EvalErrorKind`). -/
inductive Cause where
  /-- A number literal that cannot be read. -/
  | malformedLiteral (detail : String)
  /-- Arithmetic on measured values without a result. -/
  | arithmetic (fault : ArithmeticFault)
  /-- A control statement with nothing around it to catch it. -/
  | strayControl (keyword : String)
  /-- A control statement whose keyword is none. -/
  | unknownKeyword (keyword : String)
  /-- A name that the environment has no value for. -/
  | undefinedVariable (name : String)
  /-- A call by a name that no function has. -/
  | undefinedFunction (name : String)
  /-- A package that cannot be had. Evaluation does not resolve packages, a host does. -/
  | unresolvedPackage (name : String)
  /-- A value of the wrong type. -/
  | typeMismatch (expected got : String)
  /-- An operator between two types that it does not join. -/
  | operandMismatch (operator : BinaryOperator) (left right : String)
  /-- A call with the wrong number of arguments. -/
  | arityMismatch (name : String) (expected got : Nat)
  /-- A node whose children do not fit its kind. -/
  | malformedNode (kind : Kind) (detail : String)
  /-- Nesting past the limit. -/
  | depthExceeded (limit : Nat)
  deriving DecidableEq

namespace Cause

/-- The code of a cause in diagnostics (`code`). -/
def code : Cause → String
  | malformedLiteral _ => "E6001"
  | arithmetic _ => "E6002"
  | strayControl _ => "E6003"
  | unknownKeyword _ => "E6004"
  | undefinedVariable _ => "E6010"
  | undefinedFunction _ => "E6011"
  | unresolvedPackage _ => "E6012"
  | typeMismatch .. => "E6020"
  | operandMismatch .. => "E6021"
  | arityMismatch .. => "E6022"
  | malformedNode .. => "E6030"
  | depthExceeded _ => "E6031"

/-- The name of a cause in machine-readable diagnostics (`variant_name`). -/
def tag : Cause → String
  | malformedLiteral _ => "MalformedLiteral"
  | arithmetic _ => "Arithmetic"
  | strayControl _ => "UnresolvedControlSignal"
  | unknownKeyword _ => "UnknownKeyword"
  | undefinedVariable _ => "UndefinedVariable"
  | undefinedFunction _ => "UndefinedFunction"
  | unresolvedPackage _ => "UnresolvedPackage"
  | typeMismatch .. => "TypeMismatch"
  | operandMismatch .. => "BinaryTypeMismatch"
  | arityMismatch .. => "ArityMismatch"
  | malformedNode .. => "MalformedNode"
  | depthExceeded _ => "StackOverflow"

/-- The wording of a cause, which is how the program displays it. -/
def message : Cause → String
  | malformedLiteral detail => "malformed number literal: " ++ detail
  | arithmetic fault => fault.message
  | strayControl keyword => "`" ++ keyword ++ "` outside of a loop"
  | unknownKeyword keyword => "unknown control keyword `" ++ keyword ++ "`"
  | undefinedVariable name => "undefined variable: " ++ name
  | undefinedFunction name => "undefined function: " ++ name
  | unresolvedPackage name => "unresolved package: @" ++ name
  | typeMismatch expected got => "type mismatch: expected " ++ expected ++ ", got " ++ got
  | operandMismatch op left right =>
    "cannot apply operator `" ++ op.symbol ++ "` to `" ++ left ++ "` and `" ++ right ++ "`"
  | arityMismatch name expected got =>
    name ++ " expects " ++ Nat.repr expected ++
      (if expected = 1 then " argument" else " arguments") ++ ", got " ++ Nat.repr got
  | malformedNode kind detail => "malformed " ++ kind.label ++ " node: " ++ detail
  | depthExceeded limit =>
    "maximum nesting depth exceeded (limit: " ++ Nat.repr limit ++ ")"

end Cause

/-! ## 2. Failures -/

/-- A remark on a failure, with its own place if it has one (`EvalNote`). -/
structure Note where
  message : String
  span : Option Span
  deriving DecidableEq

/-- A cause, a text, where it arose if that is known, and remarks (`EvalError`). -/
structure Failure where
  cause : Cause
  /-- What a reader is shown. Any text can stand here, whatever the cause is. -/
  message : String
  span : Option Span
  notes : List Note
  deriving DecidableEq

namespace Failure

/-- A failure that only states its cause, in the wording of it (`from_kind`). -/
def of (cause : Cause) : Failure := ⟨cause, cause.message, none, []⟩

/-- The code of the cause (`code`). -/
def code (f : Failure) : String := f.cause.code

/-- The failure at the given place, whatever place it had (`with_span`). -/
def withSpan (f : Failure) (s : Span) : Failure := { f with span := some s }

/-- The failure with one more remark at the end (`with_note`). -/
def withNote (f : Failure) (n : Note) : Failure := { f with notes := f.notes ++ [n] }

/-- The failure at the given place unless it has a place already. -/
def locate (s : Option Span) (f : Failure) : Failure := { f with span := f.span.or s }

/-- Code and text, and the place if there is one. -/
def text (f : Failure) : String :=
  "[" ++ f.code ++ "] " ++ f.message ++
    match f.span with
    | some s => " at " ++ s.text
    | none => ""

@[simp] theorem locate_none (f : Failure) : f.locate none = f := by
  simp [locate]

@[simp] theorem locate_cause (s : Option Span) (f : Failure) : (f.locate s).cause = f.cause := rfl

@[simp] theorem locate_message (s : Option Span) (f : Failure) :
    (f.locate s).message = f.message := rfl

@[simp] theorem locate_notes (s : Option Span) (f : Failure) : (f.locate s).notes = f.notes := rfl

/-- The inner place wins. -/
theorem locate_locate (s r : Option Span) (f : Failure) :
    (f.locate s).locate r = f.locate (s.or r) := by
  simp [locate, Option.or_assoc]

/-! ## 3. Failures that say what their cause says -/

/-- The text is the wording of the cause, and nothing is remarked on it. -/
structure Plain (f : Failure) : Prop where
  message : f.message = f.cause.message
  notes : f.notes = []

/-- A failure is made plain. -/
theorem plain_of (cause : Cause) : (of cause).Plain := ⟨rfl, rfl⟩

/-- A place takes nothing of that away. -/
theorem Plain.locate {f : Failure} (h : f.Plain) (s : Option Span) : (f.locate s).Plain :=
  ⟨h.message, h.notes⟩

end Failure

end Metrology
