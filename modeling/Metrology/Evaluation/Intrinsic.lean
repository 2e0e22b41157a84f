/-
Functions that every script can call.

The nine names stand in two places. `names` is the list that is shown to hosts and asked by
`isName`; `ofName?` is the dispatch of a call, which decides by names of its own and never looks at
the list. So a function could be callable and not listed, or listed and not callable, and that it is
neither is a theorem about calls (`Intrinsic.call_in_order`).

A call checks the name, the number of arguments and their types in this order, and only then
computes. The program has all of it in one function, `call_intrinsic`; here the dispatch comes out
with an `Intrinsic`, and `apply` is the rest of its branch.
-/
import Metrology.Evaluation.Interrupt
set_option autoImplicit false

namespace Metrology

/-- The functions that every script can call. -/
inductive Intrinsic where
  | sin
  | cos
  | tan
  | asin
  | atan
  | abs
  | avg
  | avgReadings
  | latex
  deriving DecidableEq

namespace Intrinsic

/-- All of them, in the order of the list of names. -/
def all : List Intrinsic := [sin, cos, tan, asin, atan, abs, avg, avgReadings, latex]

/-- The list leaves no intrinsic out. -/
theorem mem_all (f : Intrinsic) : f ∈ all := by cases f <;> decide

/-! ## Names -/

/-- The list of names (`INTRINSICS`). -/
def names : List String :=
  ["sin", "cos", "tan", "asin", "atan", "abs", "avg", "avg_readings", "latex"]

/-- The name is in the list (`is_intrinsic`). -/
def isName (name : String) : Bool := names.contains name

/-- The function that a call by this name comes to, if there is one. -/
def ofName? : String → Option Intrinsic
  | "sin" => some sin
  | "cos" => some cos
  | "tan" => some tan
  | "asin" => some asin
  | "atan" => some atan
  | "abs" => some abs
  | "avg" => some avg
  | "avg_readings" => some avgReadings
  | "latex" => some latex
  | _ => none

/-- The name that a call gives it, for the text of a failure. -/
def name : Intrinsic → String
  | sin => "sin"
  | cos => "cos"
  | tan => "tan"
  | asin => "asin"
  | atan => "atan"
  | abs => "abs"
  | avg => "avg"
  | avgReadings => "avg_readings"
  | latex => "latex"

/-- The number of arguments. -/
def arity : Intrinsic → Nat
  | avgReadings => 2
  | _ => 1

/-- A name leads back to its intrinsic. -/
theorem ofName?_name (f : Intrinsic) : ofName? f.name = some f := by cases f <;> rfl

/-- The dispatch comes to a function by its name and by no other. -/
theorem name_of_ofName? {s : String} {f : Intrinsic} (h : ofName? s = some f) : f.name = s := by
  unfold ofName? at h
  split at h <;> cases h <;> rfl

/-- The dispatch comes to a function just by its name. -/
theorem ofName?_eq_some_iff {s : String} {f : Intrinsic} : ofName? s = some f ↔ f.name = s := by
  constructor
  · exact name_of_ofName?
  · rintro rfl
    exact ofName?_name f

/-- No two functions have one name. -/
theorem name_injective {f g : Intrinsic} (h : f.name = g.name) : f = g := by
  have hf := ofName?_name f
  rw [h, ofName?_name] at hf
  exact (Option.some.inj hf).symm

/-- The list holds the names of the functions and no others. -/
theorem isName_iff {s : String} : isName s = true ↔ ∃ f : Intrinsic, f.name = s := by
  have hnames : names = all.map Intrinsic.name := rfl
  rw [isName, List.contains_iff_mem, hnames, List.mem_map]
  exact exists_congr fun f => and_iff_right f.mem_all

/-- What the list says of a name is what the dispatch makes of it. -/
theorem isName_iff_ofName? {s : String} : isName s = true ↔ ∃ f, ofName? s = some f := by
  rw [isName_iff]
  exact exists_congr fun f => ofName?_eq_some_iff.symm

/-- A name that is not in the list falls through the dispatch, and no other does. -/
theorem isName_eq_false_iff {s : String} : isName s = false ↔ ofName? s = none := by
  rw [← Bool.not_eq_true, isName_iff_ofName?, not_exists, Option.eq_none_iff_forall_ne_some]

/-! ## Arguments -/

/-- The measured value that an argument is (`number`). -/
def number (v : Value) : Outcome Measurement :=
  match v.number? with
  | some m => .ok m
  | none => .fail (.typeMismatch "number" v.typeName)

/-- The measured values that a list holds; the first item that is none is reported. -/
def numbersOf : List Value → Outcome (List Measurement)
  | [] => .ok []
  | v :: vs => do
    let m ← number v
    let ms ← numbersOf vs
    return m :: ms

/-- The measured values of an argument that is a list of them (`numbers`). -/
def numbers (v : Value) : Outcome (List Measurement) :=
  match v.list? with
  | some vs => numbersOf vs
  | none => .fail (.typeMismatch "list" v.typeName)

/-! ## Calls -/

variable [Numerics]

/-- The result for the arguments of a call. The number of arguments is looked at before any of
them, the arguments from left to right, and all of them before the arithmetic. -/
def apply : Intrinsic → List Value → Outcome Value
  | sin, [x] => do return .number (← number x).sine
  | cos, [x] => do return .number (← number x).cosine
  | tan, [x] => do .ofArithmetic (← number x).tangent
  | asin, [x] => do .ofArithmetic (← number x).arcsine
  | atan, [x] => do return .number (← number x).arctangent
  | abs, [x] => do return .number (← number x).abs
  | avg, [list] => do .ofArithmetic (Measurement.averageOfMeasurements (← numbers list))
  | avgReadings, [list, readingError] => do
    let sample ← numbers list
    let e ← number readingError
    .ofArithmetic (Measurement.averageOfReadings (sample.map Measurement.magnitude) e.magnitude)
  | latex, [x] => do return .text (← number x).latex
  | f, arguments => .fail (.arityMismatch f.name f.arity arguments.length)

/-- A call with the wrong number of arguments says so before it looks at any of them. -/
theorem apply_of_length_ne (f : Intrinsic) {vs : List Value} (h : vs.length ≠ f.arity) :
    f.apply vs = .fail (.arityMismatch f.name f.arity vs.length) := by
  match vs with
  | [] => cases f <;> rfl
  | [v] => cases f <;> first | rfl | exact absurd rfl h
  | [v, w] => cases f <;> first | rfl | exact absurd rfl h
  | _ :: _ :: _ :: _ => cases f <;> rfl

/-- The call of a function by name (`call_intrinsic`). -/
def call (name : String) (arguments : List Value) : Outcome Value :=
  match ofName? name with
  | some f => f.apply arguments
  | none => .fail (.undefinedFunction name)

end Intrinsic

end Metrology
