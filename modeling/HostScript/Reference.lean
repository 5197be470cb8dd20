import HostScript.Host.Class

/-!
# References

Places that can be read and assigned to. A reference owns the object or array that it goes through,
but not the frame of a variable.
-/

set_option autoImplicit false

namespace HostScript

/-- A place that can be assigned to. -/
inductive Reference where
  | variable (scope : ScopeId) (name : String)
  | field (object : Value) (hostClass : HostClass) (name : String)
  | staticField (hostClass : HostClass) (name : String)
  | element (cell : Nat) (type : ValueType) (index : Nat)
  /-- A property that is read and written by methods. -/
  | property (object : Value) (hostClass : HostClass) (name : String)

/-- The value that a reference owns. -/
def Reference.owned? : Reference → Option Value
  | .field object .. | .property object .. => some object
  | .element cell type _ => some (.array cell type)
  | .variable .. | .staticField .. => none

/-- Whether a reference is to a variable. -/
def Reference.isVariable : Reference → Bool
  | .variable .. => true
  | _ => false

end HostScript
