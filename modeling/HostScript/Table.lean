/-!
# Tables

A table maps names to entries and remembers the order in which names first came in: writing a
known name keeps its place, a new name goes to the end, and removal keeps the order of the rest.
-/

set_option autoImplicit false

namespace HostScript

/-- Named entries in the order of their first insertion. -/
structure Table (α : Type) where
  entries : List (String × α) := []

namespace Table

variable {α : Type}

/-- The entry of a name. -/
def get? (t : Table α) (name : String) : Option α := t.entries.lookup name

/-- Whether a name has an entry. -/
def contains (t : Table α) (name : String) : Bool := (t.get? name).isSome

/-- Writes over the entry of a name, or adds it at the end. -/
def put (name : String) (entry : α) : List (String × α) → List (String × α)
  | [] => [(name, entry)]
  | (key, old) :: rest =>
    if name == key then (key, entry) :: rest else (key, old) :: put name entry rest

/-- The table in which a name has the given entry. -/
def insert (t : Table α) (name : String) (entry : α) : Table α := ⟨put name entry t.entries⟩

/-- The table without a name. -/
def erase (t : Table α) (name : String) : Table α := ⟨t.entries.filter fun e => e.1 != name⟩

/-- The names in table order. -/
def keys (t : Table α) : List String := t.entries.map Prod.fst

/-- The entries in table order. -/
def values (t : Table α) : List α := t.entries.map Prod.snd

end Table

end HostScript
