import HostScript.Adapter

/-!
# The store

Frames, and cells for arrays and host objects. Cells count their owners and are emptied with the
last one; what they owned is dropped then. Claims on frames that are dropped wait in the arena's
queue until the store is settled, which is repeated until the frames freed leave nothing queued.
-/

set_option autoImplicit false

namespace HostScript

/-- What a cell holds. -/
inductive Contents where
  | array (items : Array Value)
  | host (object : HostObject)
  | adapter (adapter : Adapter)

/-- The claims that the contents of a cell own. -/
def Contents.claims : Contents → List Claim
  | .array items => items.toList.filterMap Value.claim?
  | .host object => object.claims
  | .adapter a => [.frame a.scope]

/-- A cell in use. -/
structure Cell where
  contents : Contents
  owners : Nat := 1

/-- All frames and cells. A cell's number is never used again. -/
structure Store where
  arena : Arena := {}
  cells : Array (Option Cell) := #[]

namespace Store

/-- The cell of a number, if it is in use. -/
def cell? (s : Store) (id : Nat) : Option Cell := s.cells[id]?.join

/-- Changes a cell that is in use. -/
def modifyCell (s : Store) (id : Nat) (f : Cell → Cell) : Store :=
  { s with cells := s.cells.modify id (Option.map f) }

/-- Takes a cell out of use. -/
def clearCell (s : Store) (id : Nat) : Store :=
  { s with cells := s.cells.modify id fun _ => none }

/-- Makes a cell with one owner. -/
def alloc (s : Store) (contents : Contents) : Nat × Store :=
  (s.cells.size, { s with cells := s.cells.push (some { contents }) })

/-- Adds an owner to what is claimed. -/
def retain (s : Store) : Claim → Store
  | .frame id => { s with arena := s.arena.retain id }
  | .cell id => s.modifyCell id fun cell => { cell with owners := cell.owners + 1 }

/-- Adds an owner to everything claimed. -/
def retainAll (s : Store) (claims : List Claim) : Store := claims.foldl retain s

/-- Drops a claim: a frame's is queued; a cell loses an owner, and with the last one all that it
owned is dropped in turn. -/
def dropAt : Nat → Store → Claim → Store
  | _, s, .frame id => { s with arena := s.arena.queue id }
  | 0, s, .cell _ => s
  | budget + 1, s, .cell id =>
    match s.cell? id with
    | none => s
    | some cell =>
      if cell.owners ≤ 1 then
        cell.contents.claims.foldl (dropAt budget) (s.clearCell id)
      else
        s.modifyCell id fun cell => { cell with owners := cell.owners - 1 }

/-- Drops a claim. Nested drops empty distinct cells, so there are no more of them than cells. -/
def drop (s : Store) (claim : Claim) : Store := dropAt (s.cells.size + 1) s claim

/-- Drops several claims in order. -/
def dropAll (s : Store) (claims : List Claim) : Store := claims.foldl drop s

/-- Releases what is queued, drops what the freed frames owned, and goes on while that queues
more. -/
def settleWithin : Nat → Store → Store
  | 0, s => s
  | budget + 1, s =>
    if s.arena.dropped.isEmpty then s
    else
      let (freed, arena) := s.arena.drain
      settleWithin budget (dropAll { s with arena } (freed.flatMap Frame.claims))

/-- Applies all queued releases. Every round but the last frees a frame, so there are no more
rounds than slots and one. -/
def settle (s : Store) : Store := settleWithin (s.arena.slots.size + 2) s

/-- Releases the creator's share in a frame. -/
def release (s : Store) (id : ScopeId) : Store :=
  let s := s.settle
  let (freed, arena) := s.arena.release id
  dropAll { s with arena } (freed.flatMap Frame.claims)

/-- The items of an array. -/
def items (s : Store) (id : Nat) : Array Value :=
  match s.cell? id with
  | some { contents := .array items, .. } => items
  | _ => #[]

/-- The host object in a cell. -/
def host? (s : Store) (id : Nat) : Option HostObject :=
  match s.cell? id with
  | some { contents := .host object, .. } => some object
  | _ => none

/-- The adapter in a cell. -/
def adapter? (s : Store) (id : Nat) : Option Adapter :=
  match s.cell? id with
  | some { contents := .adapter a, .. } => some a
  | _ => none

/-- Replaces the contents of a cell and leaves its owners. -/
def setContents (s : Store) (id : Nat) (contents : Contents) : Store :=
  s.modifyCell id fun cell => { cell with contents }

/-- Writes an item of an array. -/
def setItem (s : Store) (id index : Nat) (v : Value) : Store :=
  s.modifyCell id fun cell =>
    match cell with
    | ⟨.array items, owners⟩ => ⟨.array (items.setIfInBounds index v), owners⟩
    | other => other

/-- The text of a value, arrays nested no deeper than a bound. -/
def textWithin : Nat → Store → Value → String
  | _, _, .primitive p => p.text
  | _, _, .text t => t
  | _, _, .object _ name => namespaceText name
  | _, _, .hostClass _ name => s!"class {name}"
  | _, s, .host id className =>
    match s.cell? id with
    | some { contents := .host object, .. } => object.text
    | some { contents := .adapter a, .. } => a.text
    | _ => className
  | 0, _, .array .. => ""
  | budget + 1, s, .array id _ =>
    "\x7b" ++ commaSeparated ((s.items id).toList.map (textWithin budget s)) ++ "\x7d"

/-- The text of a value, if it has an end. -/
def textOf (s : Store) (v : Value) : String := textWithin (s.cells.size + 1) s v

/-- Whether the text of a value comes to its end with arrays nested no deeper than a bound. Whoever
has locked an object waits for its text forever. -/
def endsWithin (locked : Option Value) : Nat → Store → Value → Bool
  | _, _, .host id _ => locked.bind Value.claim? != some (.cell id)
  | 0, _, .array .. => false
  | budget + 1, s, .array id _ => (s.items id).toList.all (endsWithin locked budget s)
  | _, _, _ => true

/-- Whether a value has a text. No more arrays are nested than there are cells, unless one of them
contains itself. -/
def hasText (s : Store) (locked : Option Value) (v : Value) : Bool :=
  endsWithin locked (s.cells.size + 1) s v

end Store

end HostScript
