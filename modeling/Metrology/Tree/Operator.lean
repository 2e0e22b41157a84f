/-
The operators that a token can name.
-/
set_option autoImplicit false

namespace Metrology

/-- Operators between two values; a power has an integer exponent (`BinaryOp`). -/
inductive BinaryOperator where
  | add
  | sub
  | mul
  | div
  | pow
  deriving DecidableEq

/-- Operators before one value (`UnaryOp`). -/
inductive UnaryOperator where
  | negate
  | keep
  deriving DecidableEq

namespace BinaryOperator

/-- The token of an operator (`as_symbol`). -/
def symbol : BinaryOperator → String
  | add => "+"
  | sub => "-"
  | mul => "*"
  | div => "/"
  | pow => "^"

/-- The operator a token names, if any (`from_symbol`). -/
def ofSymbol? : String → Option BinaryOperator
  | "+" => some add
  | "-" => some sub
  | "*" => some mul
  | "/" => some div
  | "^" => some pow
  | _ => none

/-- An operator is read back from its own symbol. -/
theorem ofSymbol?_symbol (op : BinaryOperator) : ofSymbol? op.symbol = some op := by
  cases op <;> rfl

/-- A token names an operator only by being its symbol. -/
theorem symbol_of_ofSymbol? {s : String} {op : BinaryOperator} (h : ofSymbol? s = some op) :
    s = op.symbol := by
  unfold ofSymbol? at h
  split at h <;> simp_all [symbol] <;> (subst h; rfl)

end BinaryOperator

namespace UnaryOperator

/-- The token of an operator (`as_symbol`). The minus is that of the difference too; which of the
two a token stands for is decided by the kind of its node. -/
def symbol : UnaryOperator → String
  | negate => "-"
  | keep => "+"

/-- The operator a token names, if any (`from_symbol`). -/
def ofSymbol? : String → Option UnaryOperator
  | "-" => some negate
  | "+" => some keep
  | _ => none

/-- An operator before an operand is read back from its own symbol. -/
theorem ofSymbol?_symbol (op : UnaryOperator) : ofSymbol? op.symbol = some op := by
  cases op <;> rfl

/-- A token names an operator only by being its symbol. -/
theorem symbol_of_ofSymbol? {s : String} {op : UnaryOperator} (h : ofSymbol? s = some op) :
    s = op.symbol := by
  unfold ofSymbol? at h
  split at h <;> simp_all [symbol] <;> (subst h; rfl)

end UnaryOperator

end Metrology
