import HostScript.Overload

/-!
# Class names and coercion

Finding the class that a name means in a frame, and converting values: to the types of parameters
and variables, and, for scripted objects where an interface is wanted, to adapters.
-/

set_option autoImplicit false

namespace HostScript

namespace Exec

/-- The class that a name means in a frame: a qualified name is taken as it is, a simple one goes
through the imports of the frame and its ancestors. -/
def lookupClass (scope : ScopeId) (name : String) : Exec (Option HostClass) := do
  if isQualified name then
    return (← get).classes.load? name
  let candidates ← look fun arena =>
    (arena.chain scope).map fun frames => frames.flatMap fun (_, f) => f.classCandidates name
  let classes := (← get).classes
  return (candidates ++ [name]).findSome? classes.load?

/-- The type with its class names looked up in a frame. -/
def qualify (scope : ScopeId) : ValueType → Exec ValueType
  | .named name => do
    match ← lookupClass scope name with
    | some c =>
      if c.name == "lang.String" then return .text
      else if c.name == "lang.Object" then return .object
      else return .named c.name
    | none => return .named name
  | .array element => return .array (← qualify scope element)
  | other => return other

/-- The type that a written type means in a frame. -/
def resolveType (scope : ScopeId) (type : TypeName) : Exec ValueType :=
  qualify scope (.ofTypeName type)

/-- The type that an optional written type means in a frame. -/
def resolveType? (scope : ScopeId) : Option TypeName → Exec (Option ValueType)
  | some type => return some (← resolveType scope type)
  | none => return none

/-- The types of parameters; an open one stays open. -/
def resolveParams (scope : ScopeId) : List Param → Exec (List (Option ValueType))
  | [] => return []
  | p :: rest => return (← resolveType? scope p.type) :: (← resolveParams scope rest)

/-- The interfaces that names mean in a frame. -/
def lookupInterfaces (scope : ScopeId) : List String → Exec (List HostClass)
  | [] => return []
  | name :: rest => do
    match ← lookupClass scope name with
    | none => fault (.interfaceNotFound name)
    | some c =>
      if c.isInterface then
        return c :: (← lookupInterfaces scope rest)
      else
        fault (.notInterface c.name)

/-- The handlers of interface methods, one for each name and number of parameters. -/
def findHandlers (scope : ScopeId) (found : List ((String × Nat) × Handler)) :
    List HostMethod → Exec (List ((String × Nat) × Handler))
  | [] => return found
  | method :: rest => do
    let key := (method.name, method.arity)
    if (found.lookup key).isSome then
      findHandlers scope found rest
    else
      let handler ← look (Adapter.resolve scope method.name method.arity)
      findHandlers scope (found ++ [(key, handler)]) rest

/-- The handler table of a frame for interfaces, as the method tables are now. -/
def makeTable (scope : ScopeId) (interfaces : List HostClass) : Exec HandlerTable := do
  let asOf ← look fun arena => .ok arena.methodChanges
  let methods := (← get).classes.abstractMethods interfaces
  return { asOf, handlers := ← findHandlers scope [] methods }

/-- An adapter of a frame for the named interfaces. -/
def makeAdapter (scope : ScopeId) (names : List String) : Exec Value := do
  let interfaces ← lookupInterfaces scope names
  let object ← objectFor scope
  let label ← frameName scope
  let table ← unlessFailed object (makeTable scope interfaces)
  return .host (← alloc (.adapter { scope, label, interfaces, table })) adapterClassName

/-- Converts an owned value for a place of a type. -/
def coerce (type : ValueType) (value : Value) (occasion : Occasion) : Exec Value := do
  match (← get).fit type value occasion with
  | .ok (.value v) => return v
  | .ok (.adapter scope) => holding value (makeAdapter scope [type.display])
  | .error cause => unlessFailed value (fault cause)

/-- Converts an owned value to a type that a script asks for. -/
def cast (type : ValueType) (value : Value) : Exec Value := do
  match type with
  | .primitive kind =>
    match value.operand?.filter fun p => !p.isVoid with
    | none => unlessFailed value (fault (.cast value.typeName kind.name))
    | some p =>
      match p.cast kind with
      | .ok q => return .primitive q
      | .error e => fault (.primitive e)
  | _ => coerce type value .storing

/-- Converted copies of arguments, those made so far given in reverse. -/
def coerceFrom (done : List Value) : List ValueType → List Value → Exec (List Value)
  | type :: types, arg :: args => do
    let arg ← copy arg
    let v ← onFailure (coerce type arg .passing) (·.dropAll done.reverse)
    coerceFrom (v :: done) types args
  | _, _ => return done.reverse

/-- Copies of arguments, converted to parameter types. -/
def coerceArgs (types : List ValueType) (args : List Value) : Exec (List Value) :=
  coerceFrom [] types args

/-- The scripted method that arguments select among the overloads of one frame. -/
def selectLevel (level : List ScriptMethod) (args : List Value) : Exec (Option ScriptMethod) := do
  let methods := level.filter fun m => m.arity == args.length
  let signatures ← methods.mapM fun m =>
    return (← resolveParams m.declaring m.params).map fun type => type.getD .object
  match (← get).select signatures args with
  | .ok (some i) => return methods[i]?
  | .ok none => return none
  | .error tied =>
    fault (.ambiguousCall (tied.filterMap fun i => methods[i]?.map ScriptMethod.signature))

/-- The scripted method that arguments select: the first frame with an applicable overload
decides. -/
def selectScripted (args : List Value) : List (List ScriptMethod) → Exec (Option ScriptMethod)
  | [] => return none
  | level :: outer => do
    match ← selectLevel level args with
    | some m => return some m
    | none => selectScripted args outer

/-- The scripted method that a call from a frame would run. -/
def resolveMethod (scope : ScopeId) (name : String) (args : List Value) :
    Exec (Option ScriptMethod) := do
  let levels ← look fun arena => arena.overloads scope name
  selectScripted args levels

/-- The host method that arguments select. -/
def selectHost (methods : List HostMethod) (args : List Value) : Exec (Option HostMethod) := do
  match (← get).select (methods.map HostMethod.params) args with
  | .ok (some i) => return methods[i]?
  | .ok none => return none
  | .error tied =>
    fault (.ambiguousCall (tied.filterMap fun i => methods[i]?.map HostMethod.signature))

end Exec

end HostScript
