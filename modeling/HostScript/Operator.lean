/-!
# Operators

The operators of the script language and their spellings. Binary operators are grouped in nine
levels; an operator of a higher level binds more tightly.
-/

set_option autoImplicit false

namespace HostScript

/-- Operators between two operands. -/
inductive BinaryOp where
  | add | sub | mul | div | mod
  | equal | notEqual | less | lessEqual | greater | greaterEqual
  | and | or | bitAnd | bitOr | bitXor
  deriving DecidableEq, Repr

/-- How an operator is written. -/
def BinaryOp.symbol : BinaryOp → String
  | .add => "+"
  | .sub => "-"
  | .mul => "*"
  | .div => "/"
  | .mod => "%"
  | .equal => "=="
  | .notEqual => "!="
  | .less => "<"
  | .lessEqual => "<="
  | .greater => ">"
  | .greaterEqual => ">="
  | .and => "&&"
  | .or => "||"
  | .bitAnd => "&"
  | .bitOr => "|"
  | .bitXor => "^"

/-- How many levels of binary operators there are. -/
def BinaryOp.levels : Nat := 9

/-- The level of an operator, from 0 for the loosest to 8 for the tightest. -/
def BinaryOp.level : BinaryOp → Nat
  | .or => 0
  | .and => 1
  | .bitOr => 2
  | .bitXor => 3
  | .bitAnd => 4
  | .equal | .notEqual => 5
  | .less | .lessEqual | .greater | .greaterEqual => 6
  | .add | .sub => 7
  | .mul | .div | .mod => 8

/-- Operators before one operand. -/
inductive UnaryOp where
  | negate | plus | not
  deriving DecidableEq, Repr

/-- How a unary operator is written. -/
def UnaryOp.symbol : UnaryOp → String
  | .negate => "-"
  | .plus => "+"
  | .not => "!"

/-- The two steps of a counter. -/
inductive Step where
  | increment | decrement
  deriving DecidableEq, Repr

/-- How much a step adds. -/
def Step.delta : Step → Int32
  | .increment => 1
  | .decrement => -1

end HostScript
