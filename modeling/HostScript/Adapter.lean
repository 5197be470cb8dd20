import HostScript.Frame.Arena
import HostScript.Host.Class

/-!
# Adapters

An adapter presents a frame to the host as an implementation of interfaces. Where a call on it goes
is looked up once per interface method and kept until some method table changes.
-/

set_option autoImplicit false

namespace HostScript

/-- The class name that adapters report. -/
def adapterClassName : String := "sprig.ScriptAdapter"

/-- The calls that every object answers. -/
inductive Identity where
  | toText
  | hashCode
  | equals
  deriving DecidableEq, Repr

/-- The identity call of that name and number of arguments. -/
def Identity.of? : String → Nat → Option Identity
  | "toString", 0 => some .toText
  | "hashCode", 0 => some .hashCode
  | "equals", 1 => some .equals
  | _, _ => none

/-- Where a call on an adapter goes. -/
inductive Handler where
  /-- A scripted method with the name and number of parameters of the call. -/
  | named (method : ScriptMethod)
  /-- The scripted `invoke` that takes any call. -/
  | generic (method : ScriptMethod)
  | identity (call : Identity)
  | missing

/-- The handlers of the interface methods as of some number of method changes. -/
structure HandlerTable where
  asOf : Nat
  handlers : List ((String × Nat) × Handler)

/-- A frame bound to interfaces. -/
structure Adapter where
  scope : ScopeId
  label : String
  interfaces : List HostClass
  table : HandlerTable

/-- The text of a scripted object in a namespace. -/
def namespaceText (name : String) : String := s!"'this' reference to NameSpace: {name}"

/-- The text of an adapter. -/
def Adapter.text (a : Adapter) : String :=
  let names := a.interfaces.map fun c => c.name
  s!"{namespaceText a.label} implementing {commaSeparated names}"

/-- The handler of a call as the frames stand: a method of that name and arity along the chain, else
a generic `invoke` along the chain, else an identity call. -/
def Adapter.resolve (scope : ScopeId) (name : String) (arity : Nat) (arena : Arena) :
    Except ScopeId Handler := do
  match ← arena.methodByArity? scope name arity with
  | some method => return .named method
  | none =>
    match ← arena.methodByArity? scope "invoke" 2 with
    | some method => return .generic method
    | none =>
      match Identity.of? name arity with
      | some call => return .identity call
      | none => return .missing

end HostScript
