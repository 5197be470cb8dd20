import HostScript.Table
import HostScript.Text.Listing
import HostScript.Value

/-!
# Frames

A frame is one level of a namespace: variables, scripted methods, imports, and at most one host
object whose members are visible without a qualifier.
-/

set_option autoImplicit false

namespace HostScript

/-- How a frame came to exist. -/
inductive FrameKind where
  | root
  | call
  | block
  deriving DecidableEq, Repr

/-- A variable: its value and the type it was declared with. -/
structure Variable where
  value : Value
  declared : Option ValueType

/-- A scripted method, closed over the frame that declared it. -/
structure ScriptMethod where
  name : String
  params : List Param
  returns : Option TypeName
  body : List Stmt
  declaring : ScopeId

namespace ScriptMethod

/-- The number of parameters. -/
def arity (m : ScriptMethod) : Nat := m.params.length

/-- How a parameter is written. -/
def paramText (p : Param) : String :=
  match p.type with
  | some type => s!"{type.text} {p.name}"
  | none => p.name

/-- How a method is written in messages. -/
def signature (m : ScriptMethod) : String :=
  s!"{m.name}({commaSeparated (m.params.map paramText)})"

/-- Whether two methods spell the same parameter types, so that one replaces the other. -/
def sameSignature (a b : ScriptMethod) : Bool :=
  a.params.map (·.type) == b.params.map (·.type)

end ScriptMethod

/-- One level of a namespace. -/
structure Frame where
  name : String
  kind : FrameKind
  parent : Option ScopeId
  vars : Table Variable := {}
  methods : Table (List ScriptMethod) := {}
  /-- Simple names of imported classes and what they stand for. -/
  classImports : Table String := {}
  packageImports : List String := []
  /-- The bound host object: its cell and class name. -/
  bound : Option (Nat × String) := none
  /-- How many owners the frame has. -/
  owners : Nat := 1

namespace Frame

/-- The claims that a frame owns: those of its variables in table order, then its bound object. -/
def claims (f : Frame) : List Claim :=
  f.vars.values.filterMap (·.value.claim?) ++ (f.bound.map fun b => .cell b.1).toList

/-- The overloads with a method added: one of the same signature is replaced in its place. -/
def declareIn (method : ScriptMethod) : List ScriptMethod → List ScriptMethod
  | [] => [method]
  | m :: rest => if m.sameSignature method then method :: rest else m :: declareIn method rest

/-- The frame with a method declared in it. -/
def declare (f : Frame) (method : ScriptMethod) : Frame :=
  let overloads := (f.methods.get? method.name).getD []
  { f with methods := f.methods.insert method.name (declareIn method overloads) }

/-- The frame with a variable written. -/
def setVariable (f : Frame) (name : String) (v : Variable) : Frame :=
  { f with vars := f.vars.insert name v }

/-- The qualified names that a simple class name may stand for in a frame, in order. -/
def classCandidates (f : Frame) (name : String) : List String :=
  (f.classImports.get? name).toList ++ f.packageImports.map fun package => s!"{package}.{name}"

end Frame

end HostScript
