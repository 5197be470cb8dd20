import HostScript.Primitive
import HostScript.Syntax

/-!
# Types of values

The types that variables, array elements and parameters can be declared with. A class is known by
its name alone, so a type can be written before its class exists.
-/

set_option autoImplicit false

namespace HostScript

/-- A declared type. -/
inductive ValueType where
  | primitive (kind : Kind)
  | text
  | object
  | named (name : String)
  | array (element : ValueType)
  deriving DecidableEq, Repr

namespace ValueType

/-- The type with a number of array dimensions around it. -/
def arrayOf (element : ValueType) : Nat → ValueType
  | 0 => element
  | dims + 1 => .array (arrayOf element dims)

/-- The type that a name means before imports are consulted. -/
def ofTypeName (t : TypeName) : ValueType :=
  let element : ValueType :=
    match Kind.ofName? t.name with
    | some kind => .primitive kind
    | none =>
      if t.name == "String" || t.name == "lang.String" then .text
      else if t.name == "Object" || t.name == "lang.Object" then .object
      else .named t.name
  element.arrayOf t.dims

/-- Whether this is the type of a primitive. -/
def isPrimitive : ValueType → Bool
  | .primitive _ => true
  | _ => false

/-- How a type is written. -/
def display : ValueType → String
  | .primitive kind => kind.name
  | .text => "String"
  | .object => "Object"
  | .named name => name
  | .array element => element.display ++ "[]"

end ValueType

end HostScript
