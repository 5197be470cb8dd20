import HostScript.Eval.Run
import HostScript.Host.Lang

/-!
# The interpreter

What an embedding host does with an interpreter: set it up, evaluate texts and files in its
namespaces, read and write variables, and wrap namespaces as implementations of interfaces.
-/

set_option autoImplicit false

namespace HostScript

/-- The version that scripts see. -/
def languageVersion : String := "0.1.0"

/-- Changes a frame if it is live. -/
def Arena.adjust (a : Arena) (id : ScopeId) (change : Frame → Frame) : Arena :=
  match a.frame? id with
  | some f => a.setFrame id (change f)
  | none => a

/-- The frames that an interpreter starts with: the global namespace, the namespace whose variables
are visible everywhere, and the object `system` in it. -/
def Arena.initial (config : Config) (directory : String) : ScopeId × ScopeId × Arena :=
  let (global, a) := ({} : Arena).create "global" .root none
  let (utilities, a) := a.create "utilities" .root none
  let (system, a) := a.create "system" .root none
  let a := a.retain system
  let a := a.adjust system (·.setVariable "version" ⟨.text languageVersion, none⟩)
  let a := a.adjust utilities (·.setVariable "system" ⟨.object system "system", none⟩)
  let a := a.adjust global fun f =>
    { f.setVariable workingDirectoryName ⟨.text directory, none⟩ with
      packageImports := config.imports }
  (global, utilities, a)

/-- An interpreter that has run nothing yet. -/
def Machine.initial (config : Config) (files : Files) (directory : String)
    (input : List String) : Machine :=
  let (global, utilities, arena) := Arena.initial config directory
  { store := { arena }
    classes := Lang.classes.foldl Classes.register {}
    console := { input }
    files
    config
    global
    utilities
    stack := [global] }

/-- A text with a semicolon at its end unless it is blank or a statement ends there. -/
def terminated (text : String) : String :=
  if (Text.trimEnd text.toList).isEmpty then "" else closeStatement text

namespace Exec

/-- The expression that a host names a place with. -/
def parsePath (text : String) : Exec Expr :=
  match parseExpression text with
  | .ok e => return e
  | .error d => throw (.unread d)

/-- Makes a namespace under a frame; it is never released. -/
def child (scope : ScopeId) (name : String) : Exec ScopeId := do
  let _ ← frame scope
  makeFrame name .call (some scope)

/-- Makes the members of a host object visible in a frame, which takes it over. -/
def bindObject (scope : ScopeId) (cell : Nat) (className : String) : Exec Unit :=
  unlessFailed (.host cell className) <| changeFrame scope fun f =>
    ({ f with bound := some (cell, className) }, f.bound.map fun b => .host b.1 b.2, ())

/-- Removes all overloads of a name from a frame and says whether there were any. -/
def removeMethod (scope : ScopeId) (name : String) : Exec Bool := fun m =>
  let m := m.settle
  match m.store.arena.removeMethod scope name with
  | .ok (removed, arena) => .ok removed { m with store := { m.store with arena } }
  | .error id => .error (.broken (.staleFrame id)) m

/-- The number of live frames. -/
def liveFrames : Exec Nat := look fun arena => .ok arena.liveCount

end Exec

namespace Evaluator

open Exec

/-- Evaluates a text in a frame; failures name its label. -/
def evalLabelled (ev : Evaluator) (text : String) (scope : ScopeId) (label : Option String) :
    Exec Value := fun m =>
  let depth := m.stack.length
  let pushed := m.stack.head? != some scope
  let m := if pushed then (m.restack (.push scope)).2 else m
  let close (m : Machine) : Machine := if pushed then (m.restack .pop).2 else m
  let cut (m : Machine) : Exec.Result Value :=
    let found := m.stack.length
    .error (.broken (.depthChanged found depth)) { m with stack := m.stack.drop (found - depth) }
  match ev.runText text label m with
  | .ok v m =>
    let m := close m
    if m.stack.length == depth then .ok v m else cut (m.drop v)
  | .error f m =>
    let m := close m
    if m.stack.length == depth then .error f m else cut m

/-- Evaluates a text in a frame. -/
def eval (ev : Evaluator) (text : String) (scope : ScopeId) : Exec Value :=
  ev.evalLabelled (terminated text) scope none

/-- Evaluates bytes in a frame; failures name the label. -/
def evalBytes (ev : Evaluator) (bytes : ByteArray) (scope : ScopeId) (label : String) :
    Exec Value := do
  match decodeText bytes with
  | .ok text => ev.evalLabelled (terminated text) scope (some label)
  | .error cause => throw (.input cause)

/-- Assigns an owned value to a variable or a dotted path. -/
def setPath (ev : Evaluator) (path : String) (value : Value) : Exec Unit := do
  let e ← unlessFailed value (parsePath path)
  let r ← unlessFailed value (ev.reference e)
  afterwards (do drop (← ev.assign r value)) (dropReference r)

/-- The value of an expression; null and void count as nothing. -/
def getPath (ev : Evaluator) (path : String) : Exec (Option Value) := do
  let v ← ev.expr (← parsePath path)
  if v.isNull || v.isVoid then return none else return some v

/-- Removes the variable that a path leads to. -/
def unsetPath (ev : Evaluator) (path : String) : Exec Unit := do
  let r ← ev.reference (← parsePath path)
  unsetReference r (.namesNoVariable path)

end Evaluator

end HostScript
