import HostScript.ValueType

/-!
# Values

What script expressions evaluate to. Arrays and host objects are references to cells of the store,
scripted objects are references to frames; each such reference is a claim that keeps its cell or
frame alive for as long as the value is owned by someone.
-/

set_option autoImplicit false

namespace HostScript

/-- The name of a frame: a slot and how often the slot had been freed when the frame was made. -/
structure ScopeId where
  index : Nat
  generation : UInt32
  deriving DecidableEq, Repr

/-- How a frame is written in messages. -/
def ScopeId.text (id : ScopeId) : String := s!"#{id.index}.{id.generation}"

/-- A script value. -/
inductive Value where
  | primitive (p : Primitive)
  | text (s : String)
  | array (cell : Nat) (element : ValueType)
  | object (scope : ScopeId) (name : String)
  | host (cell : Nat) (className : String)
  | hostClass (id : Nat) (name : String)

/-- Something that is kept alive by being owned. -/
inductive Claim where
  | frame (id : ScopeId)
  | cell (id : Nat)
  deriving DecidableEq, Repr

namespace Value

/-- The value of a statement without one. -/
def void : Value := .primitive .void

/-- The missing reference. -/
def null : Value := .primitive .null

/-- A truth value. -/
def bool (b : Bool) : Value := .primitive (.bool b)

/-- An `int`. -/
def int (n : Int32) : Value := .primitive (.int n)

/-- The value of a literal. -/
def ofLiteral : Literal → Value
  | .number n => .primitive n.value
  | .char c => .primitive (.char c)
  | .bool b => .bool b
  | .text s => .text s
  | .null => null
  | .void => void

/-- Whether this is null. -/
def isNull : Value → Bool
  | .primitive p => p.isNull
  | _ => false

/-- Whether this is void. -/
def isVoid : Value → Bool
  | .primitive p => p.isVoid
  | _ => false

/-- The primitive that a value is. -/
def primitive? : Value → Option Primitive
  | .primitive p => some p
  | _ => none

/-- The primitive that a value is, unless it is null. -/
def operand? : Value → Option Primitive
  | .primitive p => if p.isNull then none else some p
  | _ => none

/-- The integer that a value of an integral kind is. -/
def integer? : Value → Option Int64
  | .primitive p => if p.kind.isIntegral then p.toInt64? else none
  | _ => none

/-- The text that a value is. -/
def text? : Value → Option String
  | .text s => some s
  | _ => none

/-- The name of a value's type in messages. -/
def typeName : Value → String
  | .primitive p => p.kind.name
  | .text _ => "String"
  | .array _ element => element.display ++ "[]"
  | .object .. => "this"
  | .host _ className => className
  | .hostClass .. => "Class"

/-- The claim that owning a value is. -/
def claim? : Value → Option Claim
  | .array cell _ => some (.cell cell)
  | .object scope _ => some (.frame scope)
  | .host cell _ => some (.cell cell)
  | _ => none

/-- Equality of values: primitives of one kind and texts by content, arrays, scripted objects and
host objects by identity, classes by name. -/
def same : Value → Value → Bool
  | .primitive a, .primitive b => a == b
  | .text a, .text b => a == b
  | .array a _, .array b _ => a == b
  | .object a _, .object b _ => a == b
  | .host a _, .host b _ => a == b
  | .hostClass _ a, .hostClass _ b => a == b
  | _, _ => false

end Value

/-- The value that a fresh variable or array slot of a type holds. -/
def ValueType.initial : ValueType → Value
  | .primitive kind => .primitive (.zero kind)
  | _ => .null

end HostScript
