import HostScript.Eval.Method

/-!
# Calls between scripts and the host

Carrying out the actions of host code, calling host methods from scripts, and calling scripted
methods through adapters. A call through an adapter runs on a stack of its own, and its failure is
handed to the host code as text.
-/

set_option autoImplicit false

namespace HostScript

namespace Exec

/-- The adapter in a cell with a handler table that is up to date. -/
def refreshed (cell : Nat) (a : Adapter) : Exec Adapter := do
  let asOf ← look fun arena => .ok arena.methodChanges
  if a.table.asOf == asOf then
    return a
  let table ← makeTable a.scope a.interfaces
  modify fun m => { m with store := m.store.setContents cell (.adapter { a with table }) }
  return { a with table }

/-- Where a call on an adapter goes: what its table says, and else what the frames say. -/
def handlerFor (cell : Nat) (a : Adapter) (method : String) (arity : Nat) : Exec Handler := do
  let a ← refreshed cell a
  match a.table.handlers.lookup (method, arity) with
  | some handler => return handler
  | none => look (Adapter.resolve a.scope method arity)

/-- The answer of an adapter to an identity call. -/
def identityValue (cell : Nat) (a : Adapter) (args : List Value) : Identity → Value
  | .toText => .text a.text
  | .hashCode => .int (Int32.ofNat cell)
  | .equals =>
    match args with
    | .host other _ :: _ => .bool (other == cell)
    | _ => .bool false

/-- Runs a computation and gives its failure as text, unless it was stopped from outside. -/
def attempt {α : Type} (x : Exec α) : Exec (Except String α) := fun m =>
  match x m with
  | .ok a m => .ok (.ok a) m
  | .error (.stopped cause) m => .error (.stopped cause) m
  | .error f m => .ok (.error f.message) m

end Exec

namespace Evaluator

open Exec

/-- Calls a method through an adapter with copies of the arguments. Void and null come back as
nothing. -/
def callAdapter (ev : Evaluator) (cell : Nat) (a : Adapter) (method : String) (args : List Value) :
    Exec (Option Value) := do
  let handler ← handlerFor cell a method args.length
  let value ← onStack [a.scope] <|
    match handler with
    | .named target => do
      let args ← copyAll args
      ev.invokeScripted target args
    | .generic target => do
      let args ← copyAll args
      ev.invokeGeneric target method args
    | .identity call => return identityValue cell a args call
    | .missing => fault (.notImplemented method args.length a.label)
  if value.isVoid || value.isNull then return none else return some value

/-- Calls a method of a value for host code. -/
def callBack (ev : Evaluator) (target : Value) (method : String) (args : List Value) :
    Exec Reply := do
  match target with
  | .host cell _ =>
    match (← get).store.adapter? cell with
    | some a =>
      match ← attempt (ev.callAdapter cell a method args) with
      | .ok answer => return .answered answer
      | .error message => return .failed message
    | none => return .notScripted
  | _ => return .notScripted

/-- Carries out an action of host code. -/
def runAction (ev : Evaluator) : Action → Exec HostResult
  | .done value => return .returned (← copy value)
  | .create object => do
    modify fun m => { m with store := m.store.retainAll object.claims }
    return .returned (.host (← alloc (.host object)) object.className)
  | .raise message => return .raised message
  | .inspect object next => do
    match object with
    | .host cell _ => ev.runAction (next ((← get).store.host? cell))
    | _ => ev.runAction (next none)
  | .update object contents next => do
    match object with
    | .host cell _ =>
      modify fun m =>
        let old := ((m.store.host? cell).map HostObject.claims).getD []
        let store := m.store.retainAll contents.claims
        { m with store := (store.setContents cell (.host contents)).dropAll old }
    | _ => pure ()
    ev.runAction next
  | .textOf locked value next => do ev.runAction (next (← textOf value locked))
  | .keep values next => do
    let kept ← copyAll values
    holdingAll kept (ev.runAction next)
  | .notify target method args next => do
    match ← ev.callBack target method args with
    | .answered (some v) =>
      drop v
      ev.runAction (next (.answered (some v)))
    | reply => ev.runAction (next reply)
  | .ask target method args next => do
    match ← ev.callBack target method args with
    | .answered (some v) => holding v (ev.runAction (next (.answered (some v))))
    | reply => ev.runAction (next reply)

/-- Carries out an action and notes what came of it; an exception ends the evaluation. What is noted
on behalf of scripts that the action calls back is part of the action and forgotten. -/
def perform (ev : Evaluator) (step : HostStep) (action : Action) : Exec Value := do
  let earlier := (← get).journal
  let result ← ev.runAction action
  modify fun m => { m with journal := ⟨step, result⟩ :: earlier }
  match result with
  | .returned v => return v
  | .raised exception => throw (.raised step exception {})

/-- Calls a host method with arguments of the right types. -/
def callHost (ev : Evaluator) (method : HostMethod) (receiver : Option Value) (args : List Value) :
    Exec Value := do
  if !method.accessible then
    fault (.inaccessible method.signature)
  match method.body with
  | none => fault (.abstractCall method.signature)
  | some body =>
    if args.length != method.arity then
      fault (.argumentCount method.signature method.arity args.length)
    else
      ev.perform (.calling method.signature) (body receiver args)

/-- Calls a host method with copies of arguments that are converted first. -/
def callConverted (ev : Evaluator) (method : HostMethod) (receiver : Option Value)
    (args : List Value) : Exec Value := do
  let args ← coerceArgs method.params args
  holdingAll args (ev.callHost method receiver args)

/-- Calls the host method of a name that arguments select, if there is one: a static one when there
is no receiver. -/
def invokeHost (ev : Evaluator) (c : HostClass) (receiver : Option Value) (name : String)
    (args : List Value) : Exec (Option Value) := do
  let methods := (c.methodsNamed name).filter fun m => m.isStatic == receiver.isNone
  match ← selectHost methods args with
  | none => return none
  | some method => return some (← ev.callConverted method receiver args)

end Evaluator

end HostScript
