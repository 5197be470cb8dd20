import HostScript.Eval.Host
import HostScript.Reference
import HostScript.Text.Letter

/-!
# Names and references

What an unqualified name means in a frame: a variable or a member of a bound object along the chain
of frames, then a class, then a variable that is visible everywhere. Assignment finds the same place
as reading; a name that no frame knows is defined in the nearest frame that is not a plain block.
-/

set_option autoImplicit false

namespace HostScript

/-- A name with its first letter in upper case. -/
def capitalized (name : String) : String :=
  match name.toList with
  | [] => ""
  | first :: rest => String.ofList (Text.upperChar first ++ rest)

/-- The method that reads a property. -/
def HostClass.getter? (c : HostClass) (property : String) : Option HostMethod :=
  let suffix := capitalized property
  ["get" ++ suffix, "is" ++ suffix].findSome? fun name =>
    c.methods.find? fun m => m.name == name && m.arity == 0 && !m.isStatic

namespace Exec

/-- Drops what a reference owns. -/
def dropReference (r : Reference) (m : Machine) : Machine :=
  match r.owned? with
  | some v => m.drop v
  | none => m

/-- The reference to a member of a bound object, if its class has such a field. -/
def boundTarget (name : String) (bound : Nat × String) : Exec (Option Reference) := do
  match (← get).classes.load? bound.2 with
  | none => return none
  | some c =>
    match c.instanceField? name with
    | none => return none
    | some _ => return some (.field (← copy (.host bound.1 bound.2)) c name)

/-- The first place of a name when each frame's variables come before its bound object. -/
def placeByFrame (name : String) : List (ScopeId × Frame) → Exec (Option Reference)
  | [] => return none
  | (id, f) :: rest => do
    if f.vars.contains name then
      return some (.variable id name)
    match f.bound with
    | none => placeByFrame name rest
    | some bound =>
      match ← boundTarget name bound with
      | some r => return some r
      | none => placeByFrame name rest

/-- The first bound object that has a member of the name. -/
def placeInBound (name : String) : List (Nat × String) → Exec (Option Reference)
  | [] => return none
  | bound :: rest => do
    match ← boundTarget name bound with
    | some r => return some r
    | none => placeInBound name rest

/-- The place that assignment to a name reaches. -/
def referenceTo (scope : ScopeId) (name : String) : Exec Reference := do
  let frames ← look fun arena => arena.chain scope
  let found ← match (← get).config.order with
    | .localThenBound => placeByFrame name frames
    | .chainThenBound =>
      match frames.find? fun (_, f) => f.vars.contains name with
      | some (id, _) => pure (some (.variable id name))
      | none => placeInBound name (frames.filterMap fun (_, f) => f.bound)
  match found with
  | some r => return r
  | none => return .variable (← look fun arena => arena.home scope) name

/-- The place of a member of an object. -/
def memberReference (object : Value) (member : String) : Exec Reference := do
  match object with
  | .object scope _ => referenceTo scope member
  | .host _ className =>
    match (← get).classes.load? className with
    | none => fault (.noClassInformation className)
    | some c =>
      let object ← copy object
      match c.instanceField? member with
      | some _ => return .field object c member
      | none => return .property object c member
  | .hostClass id name =>
    match (← get).classes.records[id]? with
    | some c => return .staticField c member
    | none => fault (.noClassInformation name)
  | .primitive .null => fault (.memberOfNull member)
  | _ => fault (.noMember object.typeName member)

end Exec

namespace Evaluator

open Exec

/-- The value of a member of a bound object, if its class has such a field. -/
def boundField (ev : Evaluator) (name : String) (bound : Nat × String) : Exec (Option Value) := do
  match (← get).classes.load? bound.2 with
  | none => return none
  | some c =>
    match c.instanceField? name with
    | none => return none
    | some field =>
      let object ← copy (.host bound.1 bound.2)
      let v ← holding object
        (ev.perform (.readingBound name bound.2) (field.read (some object)))
      return some v

/-- The value of a name when each frame's variables come before its bound object. -/
def valueByFrame (ev : Evaluator) (name : String) : List Frame → Exec (Option Value)
  | [] => return none
  | f :: rest => do
    match f.vars.get? name with
    | some v => return some (← copy v.value)
    | none =>
      match f.bound with
      | none => ev.valueByFrame name rest
      | some bound =>
        match ← ev.boundField name bound with
        | some v => return some v
        | none => ev.valueByFrame name rest

/-- The value of a name as a member of one of several bound objects. -/
def valueInBound (ev : Evaluator) (name : String) : List (Nat × String) → Exec (Option Value)
  | [] => return none
  | bound :: rest => do
    match ← ev.boundField name bound with
    | some v => return some v
    | none => ev.valueInBound name rest

/-- The value of an unqualified name in a frame. -/
def valueOf? (ev : Evaluator) (scope : ScopeId) (name : String) : Exec (Option Value) := do
  let m ← get
  let (frames, ambient) ← look fun arena => do
    let frames ← arena.chain scope
    match arena.frame? m.utilities with
    | some f => return (frames.map Prod.snd, f.vars.get? name)
    | none => throw m.utilities
  let found ← match m.config.order with
    | .localThenBound => ev.valueByFrame name frames
    | .chainThenBound =>
      match frames.findSome? fun f => f.vars.get? name with
      | some v => pure (some (← copy v.value))
      | none => ev.valueInBound name (frames.filterMap Frame.bound)
  match found with
  | some v => return some v
  | none =>
    match ← lookupClass scope name with
    | some c => return some c.value
    | none =>
      match ambient with
      | some v => return some (← copy v.value)
      | none => return none

/-- Reads the place of a reference. -/
def read (ev : Evaluator) : Reference → Exec Value
  | .variable scope name => do
    match (← throughReference (frame scope)).vars.get? name with
    | some v => copy v.value
    | none => fault (.undefinedSymbol name)
  | .field object c name =>
    match c.field? name with
    | some field => ev.perform (.reading name) (field.read (some object))
    | none => fault (.noField name c.name)
  | .staticField c name =>
    match c.field? name with
    | some field => ev.perform (.reading name) (field.read none)
    | none => fault (.noStaticField name c.name)
  | .element cell _ index => do
    let items := (← get).store.items cell
    match items[index]? with
    | some v => copy v
    | none => fault (.indexBounds index items.size)
  | .property object c name =>
    match c.getter? name with
    | some method => ev.callHost method (some object) []
    | none => fault (.noProperty name c.name)

/-- Runs the writer of a field. -/
def writeField (ev : Evaluator) (name : String) (receiver : Option Value) (value : Value)
    (write : Option Value → Value → Action) : Exec Unit := do
  drop (← ev.perform (.writing name) (write receiver value))

/-- Stores an owned value in the place of a reference and gives a copy of what was stored. -/
def assign (ev : Evaluator) (r : Reference) (value : Value) : Exec Value :=
  match r with
  | .variable scope name => do
    let f ← unlessFailed value (throughReference (frame scope))
    let declared := (f.vars.get? name).bind Variable.declared
    let stored ← match declared with
      | some type => coerce type value .storing
      | none => pure value
    let kept ← copy stored
    unlessFailed stored (throughReference (define scope name kept declared))
    return stored
  | .field object c name => unlessFailed value do
    match (c.field? name).bind HostField.write with
    | some write =>
      ev.writeField name (some object) value write
      return value
    | none => fault (.fieldNotWritable name c.name)
  | .staticField c name => unlessFailed value do
    match ((c.field? name).filter HostField.isStatic).bind HostField.write with
    | some write =>
      ev.writeField name none value write
      return value
    | none => fault (.staticFieldNotWritable name c.name)
  | .element cell element index => do
    let stored ← coerce element value .storing
    let items := (← get).store.items cell
    match items[index]? with
    | some old =>
      let kept ← copy stored
      modify fun m => Machine.drop { m with store := m.store.setItem cell index kept } old
      return stored
    | none => unlessFailed stored (fault (.indexBounds index items.size))
  | .property object c name => unlessFailed value do
    let setters := (c.methodsNamed ("set" ++ capitalized name)).filter fun m =>
      m.arity == 1 && !m.isStatic
    match ← selectHost setters [value] with
    | some setter =>
      drop (← ev.callConverted setter (some object) [value])
      return value
    | none => fault (.propertyNotWritable name c.name)

/-- The value of a member of an object. -/
def readMember (ev : Evaluator) (object : Value) (member : String) : Exec Value := do
  match object, member with
  | .array cell _, "length" => return .int (Int32.ofNat ((← get).store.items cell).size)
  | .object scope name, _ =>
    match ← ev.valueOf? scope member with
    | some v => return v
    | none => fault (.noMemberInNamespace member name)
  | _, _ =>
    let r ← memberReference object member
    afterwards (ev.read r) (dropReference r)

end Evaluator

end HostScript
