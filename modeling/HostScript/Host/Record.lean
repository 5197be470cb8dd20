import HostScript.Host.Lang
import HostScript.Machine

/-!
# Described classes

Host classes given by a description instead of code. Their instances are records, tables of named
slots; their members return constants, arguments or slots, raise exceptions, or call back.
-/

set_option autoImplicit false

namespace HostScript.Record

/-- What a described member does. -/
inductive Body where
  /-- Makes a record and fills the named slots from the arguments. -/
  | make (slots : List String)
  | constant (value : Value)
  | argument (i : Nat)
  | self
  /-- Tells its own signature and the arguments received. -/
  | signature
  | throw (message : String)
  | getSlot (slot : String)
  | setSlot (slot : String)
  /-- Calls a method of an argument. -/
  | call (i : Nat) (method : String) (args : List Value)
  | abstract

/-- A described constructor or method. -/
structure Member where
  name : String := ""
  params : List ValueType
  body : Body
  isStatic : Bool := false
  hidden : Bool := false

/-- A described field; one that throws does so on every access. -/
structure Field where
  name : String
  isStatic : Bool := false
  value : Value := .null
  writable : Bool := false
  throws : Option String := none

/-- The description of a class. -/
structure Description where
  name : String
  isInterface : Bool := false
  supertypes : List String := []
  constructors : List Member := []
  methods : List Member := []
  fields : List Field := []
  /-- The class name that instances report, if not the name of the class. -/
  objectClass : Option String := none
  instanceOf : List String := []
  describe : Option String := none

/-- The record that a description's constructors start from. -/
def Description.fresh (d : Description) : HostObject where
  className := d.objectClass.getD d.name
  sort := "record"
  slots := (d.fields.filter fun f => !f.isStatic).foldl (fun t f => t.insert f.name f.value) {}
  kinds := d.instanceOf
  description := match d.describe with
    | some text => .fixed text
    | none => .className

/-- Goes on with the receiver, which has to be a record. -/
def onRecord (receiver : Option Value) (next : Value → HostObject → Action) : Action :=
  let refuse := Action.raise "receiver is not a record"
  match receiver with
  | none => refuse
  | some object => .inspect object fun found =>
    match found with
    | some o => if o.sort == "record" then next object o else refuse
    | none => refuse

/-- Returns a slot of the receiver, or null if there is none. -/
def readSlot (slot : String) (receiver : Option Value) : Action :=
  onRecord receiver fun _ o => .done ((o.slots.get? slot).getD .null)

/-- Stores a value in a slot of the receiver. -/
def writeSlot (slot : String) (receiver : Option Value) (value : Value) : Action :=
  onRecord receiver fun object o =>
    .update object { o with slots := o.slots.insert slot value } (.done .void)

/-- Goes on with the types and texts of values. -/
def describeAll (done : List String) (next : List String → Action) : List Value → Action
  | [] => next done.reverse
  | v :: rest => .textOf none v fun text =>
    describeAll (s!"{v.typeName} {text}" :: done) next rest

/-- What a described body does. -/
def Body.action (d : Description) (signature : String) (receiver : Option Value)
    (args : List Value) : Body → Action
  | .make slots =>
    let o := d.fresh
    .create { o with slots := (slots.zip args).foldl (fun t (s, v) => t.insert s v) o.slots }
  | .constant value => .done value
  | .argument i => .done (args[i]?.getD .null)
  | .self => .done (receiver.getD .null)
  | .signature =>
    describeAll [] (fun texts => .done (.text s!"{signature} <- {commaSeparated texts}")) args
  | .throw message => .raise message
  | .getSlot slot => readSlot slot receiver
  | .setSlot slot => writeSlot slot receiver (args.headD .null)
  | .call i method values =>
    .ask (args[i]?.getD .null) method values fun reply =>
      match reply with
      | .notScripted => .raise "argument is not scripted"
      | .failed message => .raise message
      | .answered value => .done (value.getD .null)
  | .abstract => .raise ""

/-- The host method of a described one. -/
def Member.toMethod (d : Description) (m : Member) : HostMethod :=
  let method : HostMethod := { name := m.name, params := m.params, accessible := !m.hidden }
  match m.body with
  | .abstract => method
  | body => { method with
      isStatic := m.isStatic
      body := some fun receiver args => body.action d method.signature receiver args }

/-- The constructor of a described one. -/
def Member.toConstructor (d : Description) (m : Member) : HostMethod :=
  let m := { m with name := simpleName d.name, isStatic := true }
  m.toMethod d

/-- The host field of a described one; a static field is kept in a slot of an object of its own. -/
def Field.toField (f : Field) (cell : Option Value) : HostField :=
  let owner (receiver : Option Value) := if f.isStatic then cell else receiver
  { name := f.name
    isStatic := f.isStatic
    read := fun receiver =>
      match f.throws with
      | some message => .raise message
      | none => readSlot f.name (owner receiver)
    write :=
      if f.writable then
        some fun receiver value =>
          match f.throws with
          | some message => .raise message
          | none => writeSlot f.name (owner receiver) value
      else
        none }

/-- Makes the fields of a description, with objects for the static ones. -/
def makeFields : List Field → Exec (List HostField)
  | [] => return []
  | f :: rest => do
    let cell ←
      if f.isStatic then
        let slots : Table Value := { entries := [(f.name, f.value)] }
        let id ← Exec.alloc (.host { className := f.name, sort := "record", slots })
        pure (some (.host id f.name))
      else
        pure none
    return f.toField cell :: (← makeFields rest)

/-- The class of a description. The class takes over the values in it. -/
def Description.toClass (d : Description) : Exec HostClass := do
  let fields ← makeFields d.fields
  return {
    name := d.name
    isInterface := d.isInterface
    supertypes := d.supertypes
    constructors := d.constructors.map (Member.toConstructor d)
    methods := d.methods.map (Member.toMethod d)
    fields }

end HostScript.Record
