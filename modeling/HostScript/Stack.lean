import HostScript.Value

/-!
# Call stacks

The frames being evaluated in, innermost first, and the changes that evaluation makes to them. A
host can make them to a stack of its own.
-/

set_option autoImplicit false

namespace HostScript

/-- A change to a call stack. -/
inductive StackChange where
  | push (id : ScopeId)
  | pop
  | clear
  /-- Leaves one frame alone on the stack. -/
  | reset (id : ScopeId)
  deriving DecidableEq, Repr

namespace StackChange

/-- The stack after a change, and the frame that was taken off. -/
def apply (stack : List ScopeId) : StackChange → Option ScopeId × List ScopeId
  | .push id => (none, id :: stack)
  | .pop => (stack.head?, stack.tail)
  | .clear => (none, [])
  | .reset id => (none, [id])

/-- What each of a row of changes leads to. -/
def trace (stack : List ScopeId) : List StackChange → List (Option ScopeId × List ScopeId)
  | [] => []
  | change :: rest =>
    let next := change.apply stack
    next :: trace next.2 rest

end StackChange

end HostScript
