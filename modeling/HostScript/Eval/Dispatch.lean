import HostScript.Eval.Names
import HostScript.Eval.Units

/-!
# Calls

Where a call goes. A call without a receiver is tried on the scripted methods in sight, on the
methods of bound objects, on the commands, and last on a scripted `invoke` that takes any call.
-/

set_option autoImplicit false

namespace HostScript

/-- The commands that every script can call. -/
inductive Command where
  | print
  | error
  | eval
  | source
  | pwd
  | cd
  | unset
  deriving DecidableEq, Repr

/-- The command of a name and number of arguments. -/
def Command.of? : String → Nat → Option Command
  | "print", 1 => some .print
  | "error", 1 => some .error
  | "eval", 1 => some .eval
  | "source", 1 => some .source
  | "pwd", 0 => some .pwd
  | "cd", 1 => some .cd
  | "unset", 1 => some .unset
  | _, _ => none

/-- Whether a text ends where a statement can end. -/
def endsStatement (cs : List Char) : Bool :=
  match cs.getLast? with
  | some c => c == ';' || c == '\x7d'
  | none => false

/-- A text without blanks at its end, with a semicolon unless a statement ends there. -/
def closeStatement (text : String) : String :=
  let cs := Text.trimEnd text.toList
  if endsStatement cs then String.ofList cs else String.ofList (cs ++ [';'])

/-- How a call is written in messages. -/
def callText (name : String) (args : List Value) : String :=
  s!"{name}({commaSeparated (args.map Value.typeName)})"

/-- A number that tells frames apart. -/
def ScopeId.hash (id : ScopeId) : Int32 := Int32.ofNat (id.index + 65536 * id.generation.toNat)

/-- What a call without a receiver lands on. -/
inductive Callee where
  | scripted (method : ScriptMethod)
  | host (receiver : Value) (method : HostMethod)
  | command (c : Command)
  | generic (method : ScriptMethod)

namespace Exec

/-- The text argument of a command. -/
def textArgument (command : String) (args : List Value) : Exec String :=
  match args with
  | .text s :: _ => return s
  | v :: _ => fault (.commandArgument command v.typeName)
  | [] => fault (.commandArgument command "nothing")

/-- Removes the variable that a reference is to; the fault is for any other place. -/
def unsetReference (r : Reference) (otherwise : Fault) : Exec Unit :=
  afterwards (do
    match r with
    | .variable scope name =>
      let _ ← throughReference (undefine scope name)
    | _ => fault otherwise) (dropReference r)

/-- The method of a bound object that arguments select, with the object. -/
def selectBound (name : String) (args : List Value) :
    List (Nat × String) → Exec (Option (Value × HostMethod))
  | [] => return none
  | bound :: rest => do
    match (← get).classes.load? bound.2 with
    | none => selectBound name args rest
    | some c =>
      match ← selectHost ((c.methodsNamed name).filter fun m => !m.isStatic) args with
      | some method => return some (← copy (.host bound.1 bound.2), method)
      | none => selectBound name args rest

/-- What a call without a receiver lands on in a frame. -/
def callee? (scope : ScopeId) (name : String) (args : List Value) : Exec (Option Callee) := do
  if let some method ← resolveMethod scope name args then
    return some (.scripted method)
  let frames ← look fun arena => arena.chain scope
  if let some (receiver, method) ←
      selectBound name args (frames.filterMap fun (_, f) => f.bound) then
    return some (.host receiver method)
  if let some c := Command.of? name args.length then
    return some (.command c)
  match ← look fun arena => arena.methodByArity? scope "invoke" 2 with
  | some method => return some (.generic method)
  | none => return none

/-- The answer of an adapter to an identity call that no scripted method takes. -/
def identityCall (cell : Nat) (a : Adapter) (name : String) (args : List Value) :
    Exec (Option Value) := do
  match ← handlerFor cell a name args.length with
  | .identity call => return some (identityValue cell a args call)
  | _ => return none

end Exec

namespace Evaluator

open Exec

/-- Runs a command. -/
def runCommand (ev : Evaluator) (c : Command) (args : List Value) : Exec Value := do
  match c, args with
  | .print, v :: _ =>
    let line ← textOf v
    modify (·.print line)
    return .void
  | .error, v :: _ =>
    let line ← textOf v
    modify (·.printError line)
    return .void
  | .print, [] | .error, [] => return .void
  | .eval, _ => ev.runText (closeStatement (← textArgument "eval" args)) none
  | .source, _ => ev.runFile (← textArgument "source" args) (← scope)
  | .pwd, _ => return .text (← workingDirectory)
  | .cd, _ =>
    let path ← resolvePath (← textArgument "cd" args)
    match ← entryAt path with
    | .directory =>
      define (← get).global workingDirectoryName (.text path) none
      return .void
    | _ => fault (.noDirectory path)
  | .unset, _ =>
    let name ← textArgument "unset" args
    let r ← referenceTo (← scope) name
    unsetReference r (.notVariable name)
    return .void

/-- Calls a name without a receiver; the callee takes over the arguments. -/
def invoke (ev : Evaluator) (name : String) (args : List Value) : Exec Value := do
  let here ← onFailure scope (·.dropAll args)
  match ← onFailure (callee? here name args) (·.dropAll args) with
  | some (.scripted method) => ev.invokeScripted method args
  | some (.host receiver method) =>
    holdingAll args (holding receiver (ev.callConverted method (some receiver) args))
  | some (.command c) => holdingAll args (ev.runCommand c args)
  | some (.generic method) => ev.invokeGeneric method name args
  | none =>
    holdingAll args do
      fault (.noMethodInNamespace (callText name args) (← frameName here))

/-- Calls a method of a scripted object: its own, its generic `invoke`, or an identity call. -/
def invokeObject (ev : Evaluator) (scope : ScopeId) (label : String) (name : String)
    (args : List Value) : Exec Value := do
  let selected ← onFailure (resolveMethod scope name args) (·.dropAll args)
  if let some method := selected then
    return ← ev.invokeScripted method args
  let generic ← onFailure (look fun arena => arena.methodByArity? scope "invoke" 2)
    (·.dropAll args)
  if let some method := generic then
    return ← ev.invokeGeneric method name args
  holdingAll args do
    match Identity.of? name args.length, args with
    | some .toText, _ => return .text (namespaceText label)
    | some .hashCode, _ => return .int scope.hash
    | some .equals, .object other _ :: _ => return .bool (other == scope)
    | some .equals, _ => return .bool false
    | none, _ => fault (.noMethodInNamespace (callText name args) label)

/-- Calls a method of a host object. -/
def invokeHostObject (ev : Evaluator) (cell : Nat) (className : String) (name : String)
    (args : List Value) : Exec Value := do
  let target := Value.host cell className
  if let some c := (← get).classes.load? className then
    if let some v ← ev.invokeHost c (some target) name args then
      return v
  match Identity.of? name args.length, args with
  | some .toText, _ => return .text (← textOf target)
  | some .hashCode, _ => return .int (Int32.ofNat cell)
  | some .equals, other :: _ => return .bool (target.same other)
  | _, _ => fault (.noMethodOn (callText name args) className)

/-- Calls a method of a value; the callee takes over the arguments. -/
def invokeOn (ev : Evaluator) (target : Value) (name : String) (args : List Value) :
    Exec Value := do
  match target with
  | .object scope label => ev.invokeObject scope label name args
  | .host cell className =>
    match (← get).store.adapter? cell with
    | some a =>
      match ← onFailure (identityCall cell a name args) (·.dropAll args) with
      | some v => holdingAll args (return v)
      | none => ev.invokeObject a.scope a.label name args
    | none => holdingAll args (ev.invokeHostObject cell className name args)
  | .hostClass id className => holdingAll args do
    match (← get).classes.records[id]? with
    | none => fault (.noClassInformation className)
    | some c =>
      match ← ev.invokeHost c none name args with
      | some v => return v
      | none => fault (.noStaticMethodOn (callText name args) className)
  | .text _ => holdingAll args do
    match (← get).classes.load? "lang.String" with
    | none => fault (.noClassInformation "String")
    | some c =>
      match ← ev.invokeHost c (some target) name args with
      | some v => return v
      | none => fault (.noMethodOn (callText name args) "String")
  | .primitive .null => holdingAll args (fault (.methodOfNull name))
  | _ => holdingAll args (fault (.methodOf name target.typeName))

/-- Makes an instance of a host class. -/
def construct (ev : Evaluator) (c : HostClass) (args : List Value) : Exec Value :=
  holdingAll args do
    if c.isInterface then
      fault (.interfaceInstance c.name)
    match ← selectHost c.constructors args with
    | none => fault (.noConstructor (callText c.name args))
    | some constructor => ev.callConverted constructor none args

end Evaluator

end HostScript
