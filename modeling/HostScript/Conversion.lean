import HostScript.Machine

/-!
# Conversion

Which types a value fits. Overload resolution asks in which phase an argument reaches a parameter;
storing and passing ask what a value becomes in a place of a type.
-/

set_option autoImplicit false

namespace HostScript

/-- The phases in which an argument can reach a parameter, first to last. -/
inductive Phase where
  | exact
  | widening
  | boxing
  deriving DecidableEq, Repr

/-- The place of a phase in the order of phases. -/
def Phase.rank : Phase → Nat
  | .exact => 0
  | .widening => 1
  | .boxing => 2

/-- The name of the class that boxes primitives of a kind. -/
def Kind.boxName? : Kind → Option String
  | .boolean => some "Boolean"
  | .char => some "Character"
  | .byte => some "Byte"
  | .short => some "Short"
  | .int => some "Integer"
  | .long => some "Long"
  | .float => some "Float"
  | .double => some "Double"
  | .void | .null => none

/-- Whether a class name, simple or in the package `lang`, boxes primitives of a kind. -/
def Kind.boxedBy (kind : Kind) (name : String) : Bool :=
  match kind.boxName? with
  | some box => name == box || name == "lang." ++ box
  | none => false

/-- Whether every value of one type also has the other. -/
def Classes.assignable (cs : Classes) (source target : ValueType) : Bool :=
  if source = target then true
  else
    match source, target with
    | .primitive a, .primitive b => a.widensTo b
    | _, .object => true
    | .named a, .named b => cs.isSubtype a b
    | .array a, .array b => !a.isPrimitive && cs.assignable a b
    | _, _ => false

/-- Whether an array of one element type can stand for an array of another. -/
def Classes.arrayFits (cs : Classes) (source target : ValueType) : Bool :=
  source = target || (!source.isPrimitive && cs.assignable source target)

namespace Machine

/-- Whether the object in a cell says of itself that it is an instance of a type. -/
def declaresItself (m : Machine) (cell : Nat) (type : String) : Bool :=
  match m.store.cell? cell with
  | some { contents := .host object, .. } => object.kinds.contains type
  | some { contents := .adapter a, .. } => m.classes.implements a.interfaces type
  | _ => false

/-- Whether a host object is an instance of a named type. -/
def hostIs (m : Machine) (cell : Nat) (className type : String) : Bool :=
  className == type || m.declaresItself cell type || m.classes.isSubtype className type

/-- Whether a name is that of an interface. -/
def isInterface (m : Machine) (name : String) : Bool :=
  match m.classes.load? name with
  | some c => c.isInterface
  | none => false

/-- The phase in which a value reaches a parameter, if it does. -/
def phase? (m : Machine) (value : Value) (param : ValueType) : Option Phase :=
  match value, param with
  | .primitive .void, _ => none
  | .primitive .null, .primitive _ => none
  | .primitive .null, _ => some .widening
  | .primitive p, .primitive kind =>
    if p.kind = kind then some .exact
    else if p.kind.widensTo kind then some .widening
    else none
  | .primitive _, .object => some .boxing
  | .primitive p, .named name => if p.kind.boxedBy name then some .boxing else none
  | .text _, .text => some .exact
  | .text _, .object => some .widening
  | .array _ element, .array target =>
    if element = target then some .exact
    else if m.classes.arrayFits element target then some .widening
    else none
  | .host cell className, .named name =>
    if className == name then some .exact
    else if m.hostIs cell className name then some .widening
    else none
  | .object .., .named name => if m.isInterface name then some .widening else none
  | .array .., .object | .host .., .object | .object .., .object | .hostClass .., .object =>
    some .widening
  | _, _ => none

end Machine

/-- The occasions on which a value is converted. -/
inductive Occasion where
  /-- Storing, which also narrows integral values that fit. -/
  | storing
  /-- Passing as an argument, which only widens. -/
  | passing
  deriving DecidableEq, Repr

/-- What a value becomes in a place of some type. -/
inductive Fitted where
  | value (v : Value)
  /-- An adapter over the scripted object's frame. -/
  | adapter (scope : ScopeId)

namespace Machine

/-- What a value becomes in a place of a type, or why it does not fit there. -/
def fit (m : Machine) (type : ValueType) (value : Value) (occasion : Occasion) :
    Except Fault Fitted :=
  let mismatch : Except Fault Fitted := .error (.convert value.typeName type.display)
  if value.isVoid then .error (.voidFor type.display)
  else
    match type with
    | .primitive kind =>
      match value.operand? with
      | none => mismatch
      | some p =>
        match occasion with
        | .storing =>
          match p.assign kind with
          | .ok q => .ok (.value (.primitive q))
          | .error e => .error (.primitive e)
        | .passing =>
          match p.widen? kind with
          | some q => .ok (.value (.primitive q))
          | none => .error (.convert p.kind.name kind.name)
    | .text =>
      match value with
      | .text _ | .primitive .null => .ok (.value value)
      | _ => mismatch
    | .object => .ok (.value value)
    | .named name =>
      match value with
      | .primitive .null => .ok (.value value)
      | .object scope _ =>
        match m.classes.load? name with
        | some c => if c.isInterface then .ok (.adapter scope) else mismatch
        | none => .ok (.value value)
      | .host cell className =>
        if m.hostIs cell className name || (m.classes.load? name).isNone then .ok (.value value)
        else mismatch
      | .primitive p =>
        if p.kind.boxedBy name || (m.classes.load? name).isNone then .ok (.value value)
        else mismatch
      | _ => if (m.classes.load? name).isNone then .ok (.value value) else mismatch
    | .array element =>
      match value with
      | .primitive .null => .ok (.value value)
      | .array _ source =>
        if m.classes.arrayFits source element then .ok (.value value) else mismatch
      | _ => mismatch

end Machine

end HostScript
