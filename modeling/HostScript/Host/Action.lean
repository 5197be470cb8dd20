import HostScript.Table
import HostScript.Value

/-!
# What host code does

A host method, constructor or field accessor is written as an action: a description of the steps it
takes, which the evaluator carries out. Actions look at and change host objects, keep copies of
values, ask for the text of a value, and call back into scripts; they end by returning a value, by
making an object, or by raising an exception.
-/

set_option autoImplicit false

namespace HostScript

/-- How a host object describes itself. -/
inductive Description where
  | className
  | fixed (text : String)
  /-- The text in one of the object's slots. -/
  | slot (name : String)

/-- A host object: named slots and a list of items. Its sort is what the members of its class check
before they work on it. -/
structure HostObject where
  className : String
  sort : String
  slots : Table Value := {}
  items : List Value := []
  /-- Types that the object is an instance of although its class does not say so. -/
  kinds : List String := []
  description : Description := .className

/-- The claims that a host object owns. -/
def HostObject.claims (o : HostObject) : List Claim :=
  (o.slots.values ++ o.items).filterMap Value.claim?

/-- The text of a host object. -/
def HostObject.text (o : HostObject) : String :=
  match o.description with
  | .className => o.className
  | .fixed text => text
  | .slot name => ((o.slots.get? name).bind Value.text?).getD ""

/-- What came of a call back into a script. -/
inductive Reply where
  /-- The target is no scripted adapter. -/
  | notScripted
  | failed (message : String)
  /-- The call returned; void and null count as nothing. -/
  | answered (value : Option Value)

/-- The steps of host code. -/
inductive Action where
  | done (value : Value)
  | create (object : HostObject)
  | raise (message : String)
  /-- Looks at the host object that a value refers to. -/
  | inspect (object : Value) (next : Option HostObject → Action)
  /-- Replaces the contents of a host object. -/
  | update (object : Value) (contents : HostObject) (next : Action)
  /-- Asks for the text of a value while an object may be locked. -/
  | textOf (locked : Option Value) (value : Value) (next : String → Action)
  /-- Keeps copies of values to the end of the action. -/
  | keep (values : List Value) (next : Action)
  /-- Calls a method of a scripted adapter and drops the answer. -/
  | notify (target : Value) (method : String) (args : List Value) (next : Reply → Action)
  /-- Calls a method of a scripted adapter and keeps the answer to the end of the action. -/
  | ask (target : Value) (method : String) (args : List Value) (next : Reply → Action)

end HostScript
