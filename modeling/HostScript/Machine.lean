import HostScript.Files
import HostScript.Stack
import HostScript.Store

/-!
# The machine

The state that evaluation works on, and the computations that change it. Most of them read frames:
each look at the frames first applies the releases that dropped claims have queued.

A value that a computation yields is owned by whoever receives it, who passes it on or drops it. A
value that is only looked at stays with its owner.
-/

set_option autoImplicit false

namespace HostScript

/-- Where the members of a bound object stand among the names of the frames around it. -/
inductive NameOrder where
  /-- After the variables of its own frame, before those of the parent. -/
  | localThenBound
  /-- After the variables of all frames. -/
  | chainThenBound
  deriving DecidableEq, Repr

/-- What the host decides when it sets up an interpreter. -/
structure Config where
  interactive : Bool := false
  showResults : Bool := false
  prompt : String := "sprig % "
  order : NameOrder := .localThenBound
  maxDepth : Nat := 200
  imports : List String := ["lang"]

/-- Text written so far, lines of input not yet read, and the prompts shown for lines. -/
structure Console where
  output : String := ""
  errors : String := ""
  input : List String := []
  /-- Latest first. -/
  prompts : List String := []

/-- What came of host code. -/
inductive HostResult where
  | returned (value : Value)
  | raised (exception : String)

/-- A call of host code that has come to its end. -/
structure HostCallback where
  step : HostStep
  result : HostResult

/-- The state of an interpreter. -/
structure Machine where
  store : Store
  classes : Classes
  console : Console
  files : Files
  config : Config
  /-- The frame of the global namespace. -/
  global : ScopeId
  /-- The frame whose variables are visible everywhere. -/
  utilities : ScopeId
  /-- Frames being evaluated in, innermost first. -/
  stack : List ScopeId
  /-- Scripted calls in flight. -/
  depth : Nat := 0
  /-- The calls of host code that evaluation has made itself, latest first. Nothing reads it. -/
  journal : List HostCallback := []

namespace Machine

/-- Drops an owned value. -/
def drop (m : Machine) (v : Value) : Machine :=
  match v.claim? with
  | some claim => { m with store := m.store.drop claim }
  | none => m

/-- Drops owned values in order. -/
def dropAll (m : Machine) (vs : List Value) : Machine := vs.foldl drop m

/-- Adds an owner to a value. -/
def retain (m : Machine) (v : Value) : Machine :=
  match v.claim? with
  | some claim => { m with store := m.store.retain claim }
  | none => m

/-- Applies the queued releases. -/
def settle (m : Machine) : Machine :=
  if m.store.arena.dropped.isEmpty then m else { m with store := m.store.settle }

/-- The text of a value, if it has an end. -/
def textOf (m : Machine) (v : Value) : String := m.store.textOf v

/-- Changes the stack and gives the frame that was taken off. -/
def restack (m : Machine) (change : StackChange) : Option ScopeId × Machine :=
  let (removed, stack) := change.apply m.stack
  (removed, { m with stack })

/-- Writes a line of output. -/
def print (m : Machine) (line : String) : Machine :=
  { m with console := { m.console with output := m.console.output ++ line ++ "\n" } }

/-- Writes a line to the error sink. -/
def printError (m : Machine) (line : String) : Machine :=
  { m with console := { m.console with errors := m.console.errors ++ line ++ "\n" } }

end Machine

/-- A computation on a machine. The machine reached is kept when it fails. -/
abbrev Exec := EStateM Failure Machine

/-- How a computation ended, and the machine it left. -/
abbrev Exec.Result := EStateM.Result Failure Machine

namespace Exec

variable {α β : Type}

/-- Ends with a fault of the script. -/
def fault (cause : Fault) : Exec α := throw (.ofFault cause)

/-- Changes the machine after a computation that failed. -/
def onFailure (x : Exec α) (clean : Machine → Machine) : Exec α := fun m =>
  match x m with
  | .ok a m => .ok a m
  | .error f m => .error f (clean m)

/-- Changes the machine after a computation, however it ends. -/
def afterwards (x : Exec α) (clean : Machine → Machine) : Exec α := fun m =>
  match x m with
  | .ok a m => .ok a (clean m)
  | .error f m => .error f (clean m)

/-- Runs a computation while owning a value, and drops the value afterwards. -/
def holding (v : Value) (x : Exec α) : Exec α := afterwards x (·.drop v)

/-- Runs a computation while owning values, and drops them afterwards. -/
def holdingAll (vs : List Value) (x : Exec α) : Exec α := afterwards x (·.dropAll vs)

/-- Runs a computation that takes over a value if it succeeds; the value is dropped if it fails. -/
def unlessFailed (v : Value) (x : Exec α) : Exec α := onFailure x (·.drop v)

/-- Changes the failure of a computation. -/
def mapFailure (x : Exec α) (f : Failure → Failure) : Exec α := fun m =>
  match x m with
  | .ok a m => .ok a m
  | .error e m => .error (f e) m

/-- Names the construct that fails. -/
def locating (span : Span) (node : Unit → String) (x : Exec α) : Exec α :=
  mapFailure x fun f => f.locate span (node ())

/-- Uses the frame that a reference leads to. -/
def throughReference (x : Exec α) : Exec α := mapFailure x Failure.dangle

/-- Drops a value. -/
def drop (v : Value) : Exec Unit := modify (·.drop v)

/-- Another owner's copy of a value. -/
def copy (v : Value) : Exec Value := do
  modify (·.retain v)
  return v

/-- Copies of several values. -/
def copyAll (vs : List Value) : Exec (List Value) := do
  modify fun m => vs.foldl Machine.retain m
  return vs

/-- The text of a value, asked for while an object may be locked. -/
def textOf (v : Value) (locked : Option Value := none) : Exec String := do
  let m ← get
  if m.store.hasText locked v then return m.textOf v else throw (.stopped .endless)

/-- Looks at the frames. -/
def look (f : Arena → Except ScopeId α) : Exec α := fun m =>
  let m := m.settle
  match f m.store.arena with
  | .ok a => .ok a m
  | .error id => .error (.broken (.staleFrame id)) m

/-- A live frame. -/
def frame (id : ScopeId) : Exec Frame :=
  look fun arena => match arena.frame? id with
    | some f => .ok f
    | none => .error id

/-- Changes a live frame and drops the value that the change removes. -/
def changeFrame (id : ScopeId) (f : Frame → Frame × Option Value × α) : Exec α := fun m =>
  let m := m.settle
  match m.store.arena.frame? id with
  | none => .error (.broken (.staleFrame id)) m
  | some frame =>
    let (frame, removed, a) := f frame
    let m := { m with store := { m.store with arena := m.store.arena.setFrame id frame } }
    .ok a (removed.elim m m.drop)

/-- Binds a variable in a frame; the frame takes over the value. -/
def define (scope : ScopeId) (name : String) (value : Value) (declared : Option ValueType) :
    Exec Unit :=
  unlessFailed value <| changeFrame scope fun frame =>
    (frame.setVariable name ⟨value, declared⟩, (frame.vars.get? name).map (·.value), ())

/-- Removes a variable of a frame and says whether there was one. -/
def undefine (scope : ScopeId) (name : String) : Exec Bool :=
  changeFrame scope fun frame =>
    let old := frame.vars.get? name
    ({ frame with vars := frame.vars.erase name }, old.map (·.value), old.isSome)

/-- The name of a frame. -/
def frameName (id : ScopeId) : Exec String := return (← frame id).name

/-- Makes a frame under a parent, owned by the caller. -/
def makeFrame (name : String) (kind : FrameKind) (parent : Option ScopeId) :
    Exec ScopeId := fun m =>
  let m := m.settle
  let (id, arena) := m.store.arena.create name kind parent
  .ok id { m with store := { m.store with arena } }

/-- Adds an owner to a live frame. -/
def hold (id : ScopeId) : Exec Unit := fun m =>
  let m := m.settle
  match m.store.arena.hold id with
  | .ok arena => .ok () { m with store := { m.store with arena } }
  | .error id => .error (.broken (.staleFrame id)) m

/-- A scripted object for a frame. -/
def objectFor (id : ScopeId) : Exec Value := do
  hold id
  return .object id (← frameName id)

/-- Makes a cell, owned by the caller. -/
def alloc (contents : Contents) : Exec Nat := fun m =>
  let (id, store) := m.store.alloc contents
  .ok id { m with store }

/-- Makes an array that takes over its items. -/
def makeArray (element : ValueType) (items : List Value) : Exec Value :=
  return .array (← alloc (.array items.toArray)) element

/-- The frame being evaluated in. -/
def scope : Exec ScopeId := do
  match (← get).stack with
  | id :: _ => return id
  | [] => throw (.broken .emptyStack)

/-- Runs a computation in a fresh frame, which leaves the stack and is released afterwards. -/
def inFrame (name : String) (kind : FrameKind) (parent : ScopeId) (x : Exec α)
    (discard : α → Machine → Machine) : Exec α := do
  let id ← makeFrame name kind (some parent)
  modify fun m => (m.restack (.push id)).2
  let close (m : Machine) : Bool × Machine :=
    let (removed, m) := m.restack .pop
    (removed == some id, { m with store := m.store.release id })
  fun m =>
    match x m with
    | .ok a m =>
      match close m with
      | (true, m) => .ok a m
      | (false, m) => .error (.broken (.outOfStep id)) (discard a m)
    | .error f m =>
      match close m with
      | (true, m) => .error f m
      | (false, m) => .error (.broken (.outOfStep id)) m

/-- Runs a computation on a stack of its own. -/
def onStack (stack : List ScopeId) (x : Exec α) : Exec α := do
  let outer := (← get).stack
  modify fun m => { m with stack }
  afterwards x fun m => { m with stack := outer }

end Exec

end HostScript
