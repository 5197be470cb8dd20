import HostScript.Host.Action
import HostScript.Text.Listing

/-!
# Host classes

What the evaluator knows about the classes of the host: supertypes by name, constructors, methods
and fields. Classes are found by their qualified name, first with the loader that the host has set,
then among the registered ones.
-/

set_option autoImplicit false

namespace HostScript

/-- A method or constructor of a host class; without a body it is abstract. -/
structure HostMethod where
  name : String
  params : List ValueType
  isStatic : Bool := false
  accessible : Bool := true
  /-- The action for a receiver, absent for statics and constructors, and the arguments. -/
  body : Option (Option Value → List Value → Action) := none

namespace HostMethod

/-- The number of parameters. -/
def arity (m : HostMethod) : Nat := m.params.length

/-- How a method is written in messages. -/
def signature (m : HostMethod) : String :=
  s!"{m.name}({commaSeparated (m.params.map ValueType.display)})"

/-- Whether an implementation of the class has to supply the method. -/
def isAbstract (m : HostMethod) : Bool := !m.isStatic && m.body.isNone

end HostMethod

/-- A field of a host class; without a writer it can only be read. -/
structure HostField where
  name : String
  isStatic : Bool := false
  read : Option Value → Action
  write : Option (Option Value → Value → Action) := none

/-- A read-only static field. -/
def HostField.constant (name : String) (value : Value) : HostField :=
  { name, isStatic := true, read := fun _ => .done value }

/-- A class or interface of the host. -/
structure HostClass where
  name : String
  /-- Where the class stands in the list of all classes; set when it is added to it. -/
  id : Nat := 0
  isInterface : Bool := false
  supertypes : List String := []
  constructors : List HostMethod := []
  methods : List HostMethod := []
  fields : List HostField := []

/-- The part of a qualified name after its last dot. -/
def simpleName (qualified : String) : String :=
  String.ofList (qualified.toList.reverse.takeWhile (· != '.')).reverse

/-- Whether a name has a package in front. -/
def isQualified (name : String) : Bool := name.toList.contains '.'

/-- A constructor, which is called like the class. -/
def HostMethod.makeConstructor (className : String) (params : List ValueType)
    (body : List Value → Action) : HostMethod :=
  { name := simpleName className, params, isStatic := true, body := some fun _ args => body args }

namespace HostClass

/-- The class as a value. -/
def value (c : HostClass) : Value := .hostClass c.id c.name

/-- The methods of a name, in order of declaration. -/
def methodsNamed (c : HostClass) (name : String) : List HostMethod :=
  c.methods.filter fun m => m.name == name

/-- The field of a name. -/
def field? (c : HostClass) (name : String) : Option HostField :=
  c.fields.find? fun f => f.name == name

/-- The field of a name if it belongs to instances. -/
def instanceField? (c : HostClass) (name : String) : Option HostField :=
  (c.field? name).filter fun f => !f.isStatic

/-- Whether a name spells this class, qualified or by its simple name. -/
def answersTo (c : HostClass) (name : String) : Bool :=
  c.name == name || (!isQualified name && simpleName c.name == name)

end HostClass

/-- All classes ever added, the registered ones by name, and those of the loader. -/
structure Classes where
  records : Array HostClass := #[]
  registered : Table Nat := {}
  loader : Option (Table Nat) := none

namespace Classes

/-- Adds a class without making its name known. -/
def add (cs : Classes) (c : HostClass) : Nat × Classes :=
  let id := cs.records.size
  (id, { cs with records := cs.records.push { c with id } })

/-- Registers a class under its name. -/
def register (cs : Classes) (c : HostClass) : Classes :=
  let (id, cs) := cs.add c
  { cs with registered := cs.registered.insert c.name id }

/-- Adds classes for a loader and gives the table that finds them. -/
def addAll (cs : Classes) : List HostClass → Table Nat → Table Nat × Classes
  | [], table => (table, cs)
  | c :: rest, table =>
    let (id, cs) := cs.add c
    cs.addAll rest (table.insert c.name id)

/-- Sets the loader to one that knows just these classes. -/
def setLoader (cs : Classes) (loaded : List HostClass) : Classes :=
  let (table, cs) := cs.addAll loaded {}
  { cs with loader := some table }

/-- The class that a qualified name stands for. -/
def load? (cs : Classes) (name : String) : Option HostClass :=
  let id := (cs.loader.bind fun table => table.get? name).or (cs.registered.get? name)
  id.bind fun i => cs.records[i]?

/-- The number of supertype entries of all classes; it bounds every walk over the type graph. -/
def supertypeCount (cs : Classes) : Nat :=
  cs.records.foldl (fun n c => n + c.supertypes.length) 0

/-- Walks from class names to supertypes: whether one of the pending names is the sought one or
belongs to a class that answers to it, names already seen left aside. -/
def reaches (cs : Classes) (sought : String) : Nat → List String → List String → Bool
  | 0, _, _ => false
  | _, _, [] => false
  | budget + 1, seen, name :: pending =>
    if name == sought then true
    else if seen.contains name then reaches cs sought budget seen pending
    else
      match cs.load? name with
      | some c =>
        if c.answersTo sought then true
        else reaches cs sought budget (name :: seen) (c.supertypes.reverse ++ pending)
      | none => reaches cs sought budget (name :: seen) pending

/-- Whether a class name is, or inherits from, another. -/
def isSubtype (cs : Classes) (sub super : String) : Bool :=
  cs.reaches super (cs.supertypeCount + 2) [] [sub]

/-- Walks from classes to supertypes: whether one answers to the sought name. -/
def implementsFrom (cs : Classes) (sought : String) : Nat → List String → List HostClass → Bool
  | 0, _, _ => false
  | _, _, [] => false
  | budget + 1, seen, c :: pending =>
    if c.answersTo sought then true
    else if seen.contains c.name then implementsFrom cs sought budget seen pending
    else
      implementsFrom cs sought budget (c.name :: seen)
        ((c.supertypes.filterMap cs.load?).reverse ++ pending)

/-- Whether one of some classes is, or inherits from, the sought one. -/
def implements (cs : Classes) (interfaces : List HostClass) (sought : String) : Bool :=
  cs.implementsFrom sought (interfaces.length + cs.supertypeCount + 1) [] interfaces.reverse

/-- Collects the abstract methods of classes and all they inherit from, each class once. -/
def abstractFrom (cs : Classes) : Nat → List String → List HostClass → List HostMethod
  | 0, _, _ => []
  | _, _, [] => []
  | budget + 1, seen, c :: pending =>
    if seen.contains c.name then abstractFrom cs budget seen pending
    else
      c.methods.filter HostMethod.isAbstract ++
        abstractFrom cs budget (c.name :: seen)
          ((c.supertypes.filterMap cs.load?).reverse ++ pending)

/-- The abstract methods of some interfaces and of everything that they extend. -/
def abstractMethods (cs : Classes) (interfaces : List HostClass) : List HostMethod :=
  cs.abstractFrom (interfaces.length + cs.supertypeCount + 1) [] interfaces.reverse

end Classes

end HostScript
