import HostScript.Frame

/-!
# The arena of frames

Frames live in numbered slots and are counted: a frame has an owner in its creator until the creator
releases it, one in every live child, and one in every claim. A claim that is dropped is queued and
released later. When the count reaches zero the frame is freed, its slot moves on to the next
generation, and its parent loses an owner.
-/

set_option autoImplicit false

namespace HostScript

/-- A place for a frame, with the generation that the frame in it has or will have. -/
structure Slot where
  generation : UInt32 := 0
  frame : Option Frame := none

/-- All frames, the free slots (last freed first), the number of changes to method tables, and the
frames whose claims were dropped (latest first). -/
structure Arena where
  slots : Array Slot := #[]
  free : List Nat := []
  methodChanges : Nat := 0
  dropped : List ScopeId := []

namespace Arena

/-- The live frame of that name. -/
def frame? (a : Arena) (id : ScopeId) : Option Frame :=
  match a.slots[id.index]? with
  | some slot => if slot.generation == id.generation then slot.frame else none
  | none => none

/-- Writes a frame into a slot. -/
def setFrame (a : Arena) (id : ScopeId) (f : Frame) : Arena :=
  { a with slots := a.slots.modify id.index fun slot => { slot with frame := some f } }

/-- Adds an owner to a live frame; a stale name changes nothing. -/
def retain (a : Arena) (id : ScopeId) : Arena :=
  match a.frame? id with
  | some f => a.setFrame id { f with owners := f.owners + 1 }
  | none => a

/-- Adds an owner to a frame that has to be live. -/
def hold (a : Arena) (id : ScopeId) : Except ScopeId Arena :=
  match a.frame? id with
  | some _ => .ok (a.retain id)
  | none => .error id

/-- Puts a frame into the slot that was freed last, or into a new one. -/
def place (a : Arena) (f : Frame) : ScopeId × Arena :=
  match a.free with
  | index :: rest =>
    let generation := (a.slots[index]?.map Slot.generation).getD 0
    (⟨index, generation⟩,
      { a with
        slots := a.slots.modify index fun slot => { slot with frame := some f }
        free := rest })
  | [] => (⟨a.slots.size, 0⟩, { a with slots := a.slots.push { frame := some f } })

/-- Makes a frame, owned by its creator, under a parent that it owns in turn. -/
def create (a : Arena) (name : String) (kind : FrameKind) (parent : Option ScopeId) :
    ScopeId × Arena :=
  let a := match parent with
    | some id => a.retain id
    | none => a
  a.place { name, kind, parent }

/-- Empties a slot for its next generation. -/
def vacate (a : Arena) (index : Nat) : Arena :=
  { a with
    slots := a.slots.modify index fun slot => ⟨slot.generation + 1, none⟩
    free := index :: a.free }

/-- Takes one owner from a frame, then from the ancestors that are left without any. Gives the freed
frames, innermost first. -/
def releaseFrom : Nat → Option ScopeId → Arena → List Frame × Arena
  | 0, _, a => ([], a)
  | _, none, a => ([], a)
  | budget + 1, some id, a =>
    match a.frame? id with
    | none => ([], a)
    | some f =>
      if f.owners ≤ 1 then
        let (freed, a) := releaseFrom budget f.parent (a.vacate id.index)
        (f :: freed, a)
      else
        ([], a.setFrame id { f with owners := f.owners - 1 })

/-- Takes one owner from a frame. Gives the frames that this freed, innermost first. -/
def release (a : Arena) (id : ScopeId) : List Frame × Arena :=
  releaseFrom (a.slots.size + 1) (some id) a

/-- Takes one owner from each of several frames in turn. -/
def releaseAll : List ScopeId → Arena → List Frame × Arena
  | [], a => ([], a)
  | id :: rest, a =>
    let (first, a) := a.release id
    let (others, a) := releaseAll rest a
    (first ++ others, a)

/-- Notes that a claim on a frame was dropped. -/
def queue (a : Arena) (id : ScopeId) : Arena := { a with dropped := id :: a.dropped }

/-- Releases what is queued, in the order in which it was dropped. Gives the frames that this
freed. -/
def drain (a : Arena) : List Frame × Arena := releaseAll a.dropped.reverse { a with dropped := [] }

/-- The number of live frames. -/
def liveCount (a : Arena) : Nat := a.slots.countP fun slot => slot.frame.isSome

/-- A frame and its ancestors, or the stale name at which the walk ends. -/
def chainFrom : Nat → Arena → ScopeId → Except ScopeId (List (ScopeId × Frame))
  | 0, _, id => .error id
  | budget + 1, a, id =>
    match a.frame? id with
    | none => .error id
    | some f =>
      match f.parent with
      | none => .ok [(id, f)]
      | some parent => (chainFrom budget a parent).map ((id, f) :: ·)

/-- A frame and its ancestors, innermost first. -/
def chain (a : Arena) (id : ScopeId) : Except ScopeId (List (ScopeId × Frame)) :=
  chainFrom (a.slots.size + 1) a id

/-- The nearest frame that is not a plain block, where new names are defined. -/
def homeFrom : Nat → Arena → ScopeId → Except ScopeId ScopeId
  | 0, _, id => .error id
  | budget + 1, a, id =>
    match a.frame? id with
    | none => .error id
    | some f =>
      match f.kind, f.parent with
      | .block, some parent => homeFrom budget a parent
      | _, _ => .ok id

/-- The nearest frame around a frame that is not a plain block. -/
def home (a : Arena) (id : ScopeId) : Except ScopeId ScopeId :=
  homeFrom (a.slots.size + 1) a id

/-- Declares a method in the frame that it is closed over. -/
def declare (a : Arena) (method : ScriptMethod) : Except ScopeId Arena :=
  match a.frame? method.declaring with
  | none => .error method.declaring
  | some f =>
    let a := a.setFrame method.declaring (f.declare method)
    .ok { a with methodChanges := a.methodChanges + 1 }

/-- Removes all overloads of a name from a frame and says whether there were any. -/
def removeMethod (a : Arena) (id : ScopeId) (name : String) : Except ScopeId (Bool × Arena) :=
  match a.frame? id with
  | none => .error id
  | some f =>
    if f.methods.contains name then
      let a := a.setFrame id { f with methods := f.methods.erase name }
      .ok (true, { a with methodChanges := a.methodChanges + 1 })
    else
      .ok (false, a)

/-- The overloads of a name, frame by frame from a frame outwards. -/
def overloads (a : Arena) (id : ScopeId) (name : String) :
    Except ScopeId (List (List ScriptMethod)) :=
  (a.chain id).map fun frames => frames.filterMap fun (_, f) => f.methods.get? name

/-- The first method of that name and number of parameters from a frame outwards. -/
def methodByArity? (a : Arena) (id : ScopeId) (name : String) (arity : Nat) :
    Except ScopeId (Option ScriptMethod) :=
  (a.overloads id name).map fun levels => levels.flatten.find? fun m => m.arity == arity

end Arena

end HostScript
