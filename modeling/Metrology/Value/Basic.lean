/-
The values of a script.

A value is a measured number, a text, a symbol or package reference held by name, or a list of
values of any kinds. Values never change.
-/
import Metrology.Measurement.Notation
set_option autoImplicit false

namespace Metrology

/-- A value of a script (`Value`). -/
inductive Value where
  | number (value : Measurement)
  | text (content : String)
  | symbol (name : String)
  | package (name : String)
  | list (items : List Value)

namespace Value

instance : Inhabited Value := ⟨.list []⟩

/-- A number free of uncertainty (`scalar`). -/
def scalar (magnitude : Binary64) : Value := .number (.exact magnitude)

/-- The type of a value, as messages name it (`type_name`). -/
def typeName : Value → String
  | number _ => "number"
  | text _ => "text"
  | symbol _ => "symbol"
  | package _ => "package"
  | list _ => "list"

/-! ## Views -/

/-- The number that a value is, if it is one (`as_number`). -/
def number? : Value → Option Measurement
  | number m => some m
  | _ => none

/-- The content of a text (`as_text`). -/
def text? : Value → Option String
  | text s => some s
  | _ => none

/-- The items of a list (`as_list`). -/
def list? : Value → Option (List Value)
  | list vs => some vs
  | _ => none

/-! ## Equality

Numbers compare as arithmetic has it, so a value that holds NaN somewhere differs from itself.
Values of different types are never equal, a symbol and a package of one name included. -/

mutual

/-- Structural equality (`eq` of `Value`). -/
def eq : Value → Value → Bool
  | number m, number n => m.eq n
  | text s, text t => s == t
  | symbol s, symbol t => s == t
  | package s, package t => s == t
  | list vs, list ws => eqAll vs ws
  | _, _ => false

/-- Structural equality item by item. -/
def eqAll : List Value → List Value → Bool
  | [], [] => true
  | v :: vs, w :: ws => eq v w && eqAll vs ws
  | _, _ => false

end

/-! ## Text -/

mutual

/-- The text of a value: a number with its uncertainty, a text between quotation marks, a symbol
bare, a package behind `@`, a list in brackets (`fmt` of `Display`). -/
def render : Value → String
  | number m => m.text
  | text s => "\"" ++ s ++ "\""
  | symbol s => s
  | package s => "@" ++ s
  | list vs => "[" ++ renderAll vs ++ "]"

/-- The texts of the items with a comma and a blank between each two. -/
def renderAll : List Value → String
  | [] => ""
  | [v] => render v
  | v :: vs => render v ++ ", " ++ renderAll vs

end

/-! ## Structure -/

/-- A text between quotation marks, with a backslash before each quotation mark and backslash. -/
def quoted (s : String) : String :=
  let escaped := s.toList.flatMap fun c =>
    if c = '"' ∨ c = '\\' then ['\\', c] else [c]
  "\"" ++ String.ofList escaped ++ "\""

/-- All three numbers of a measured value by name, each in full. -/
def inspectNumber (m : Measurement) : String :=
  let full (x : Binary64) := String.ofList (x.numeral .pointed)
  "MeasuredValue \x7b magnitude: " ++ full m.magnitude ++ ", reading_error: " ++
    full m.readingError ++ ", standard_error: " ++ full m.standardError ++ " \x7d"

mutual

/-- The structure of a value, with every part in full and named (`fmt` of `Debug`). -/
def inspect : Value → String
  | number m => "Number(" ++ inspectNumber m ++ ")"
  | text s => "Text(" ++ quoted s ++ ")"
  | symbol s => "Symbol(" ++ quoted s ++ ")"
  | package s => "PackageRef(" ++ quoted s ++ ")"
  | list vs => "List([" ++ inspectAll vs ++ "])"

/-- The structures of the items with a comma and a blank between each two. -/
def inspectAll : List Value → String
  | [] => ""
  | [v] => inspect v
  | v :: vs => inspect v ++ ", " ++ inspectAll vs

end

end Value

end Metrology
