/-
Trees built in the layout that evaluation reads.

Each builder fixes where the tokens of its kind stand. Brackets and separators are part of the row
because a tree keeps the text it was read from.
-/
import Metrology.Tree.Basic
set_option autoImplicit false

namespace Metrology.Tree

/-- A node with the one token (`leaf`). -/
def leaf (kind : Kind) (token : String) : Tree := ofParts kind [.token token]

/-- The items with the token `separator` between each two of them. -/
def separated (separator : String) : List (Part Tree) → List (Part Tree)
  | [] => []
  | [item] => [item]
  | item :: rest => item :: .token separator :: separated separator rest

/-- Comma-separated nodes between two bracket tokens (`delimited`). -/
def bracketed (left right : String) (items : List Tree) : List (Part Tree) :=
  .token left :: separated "," (items.map .node) ++ [.token right]

/-! ## Literals and names -/

/-- A number literal of numeric tokens, with `±` between magnitude and uncertainty (`number`). -/
def number (tokens : List String) : Tree :=
  ofParts .number (separated "±" (tokens.map .token))

/-- A text literal; the token includes the quotation marks (`text`). -/
def text (quoted : String) : Tree := leaf .text quoted

/-- A symbol by its name (`symbol`). -/
def symbol (name : String) : Tree := leaf .symbol name

/-- A reference to a package by its name (`package`). -/
def package (name : String) : Tree := leaf .package name

/-- A name to be looked up (`name`). -/
def name (name : String) : Tree := leaf .name name

/-- A list literal, `[a, b]` (`list`). -/
def list (elements : List Tree) : Tree := ofParts .list (bracketed "[" "]" elements)

/-! ## Statements -/

/-- A block of statements (`block`). It is the one kind that nothing is written around. -/
def block (statements : List Tree) : Tree := ofParts .block (statements.map .node)

/-- A control statement with its keyword and operand (`control`). -/
def control (keyword : String) (operand : Option Tree) : Tree :=
  ofParts .control (.token keyword :: operand.toList.map .node)

/-- A `return`, with an operand or without one (`ret`). -/
def ret (operand : Option Tree) : Tree := control "return" operand

/-- A `break` (`brk`). -/
def brk : Tree := control "break" none

/-- A `continue` (`cont`). -/
def cont : Tree := control "continue" none

/-- An assignment, `name = value` (`assign`). -/
def assign (name : String) (value : Tree) : Tree :=
  ofParts .assign [.token name, .token "=", .node value]

/-! ## Expressions -/

/-- Two operands around an operator token (`binary`). -/
def binary (left : Tree) (operator : String) (right : Tree) : Tree :=
  ofParts .binary [.node left, .token operator, .node right]

/-- An operand after an operator token (`unary`). -/
def unary (operator : String) (operand : Tree) : Tree :=
  ofParts .unary [.token operator, .node operand]

/-- A parenthesized expression (`group`). -/
def group (inner : Tree) : Tree := ofParts .group [.token "(", .node inner, .token ")"]

/-- A call, `name(a, b)` (`call`). -/
def call (name : String) (arguments : List Tree) : Tree :=
  ofParts .call (.token name :: bracketed "(" ")" arguments)

/-! ## What a builder's row holds -/

/-- The nodes of a built node are those of its row. -/
theorem nodes_ofParts (kind : Kind) (cs : List (Part Tree)) :
    (ofParts kind cs).nodes = cs.filterMap Part.node? := rfl

/-- Separators are no nodes. -/
theorem filterMap_node?_separated (separator : String) (cs : List (Part Tree)) :
    (separated separator cs).filterMap Part.node? = cs.filterMap Part.node? := by
  fun_induction separated separator cs with
  | case1 => rfl
  | case2 => rfl
  | case3 item rest _ ih => cases item <;> simp [List.filterMap_cons, ih]

/-- The nodes of a bracketed row are the items. -/
@[simp] theorem filterMap_node?_bracketed (left right : String) (items : List Tree) :
    (bracketed left right items).filterMap Part.node? = items := by
  simp [bracketed, List.filterMap_cons, filterMap_node?_separated]

/-- The brackets and commas of a list are tokens, so its nested nodes are its items. -/
@[simp] theorem nodes_list (ts : List Tree) : (list ts).nodes = ts := by
  simp [list, nodes_ofParts]

/-- The nested nodes of a block are its statements. -/
@[simp] theorem nodes_block (ts : List Tree) : (block ts).nodes = ts := by
  simp [block, nodes_ofParts]

/-- The nested nodes of a call are its arguments; the name is a token. -/
@[simp] theorem nodes_call (f : String) (ts : List Tree) : (call f ts).nodes = ts := by
  simp [call, nodes_ofParts, List.filterMap_cons]

end Metrology.Tree
