/-! # Registries

A registry keeps things under names, in ascending order of the names.
-/

namespace SlotTree

universe u

/-- Things under names. -/
structure Registry (β : Type u) where
  entries : List (String × β)

namespace Registry

variable {β : Type u}

def empty : Registry β := ⟨[]⟩

/-- What stands under a name. -/
def get? (r : Registry β) (name : String) : Option β := r.entries.lookup name

def contains (r : Registry β) (name : String) : Bool := (r.get? name).isSome

/-- Puts an entry before the first greater name, in the place of one of the same name. -/
def insertEntry (name : String) (b : β) : List (String × β) → List (String × β)
  | [] => [(name, b)]
  | entry :: rest =>
    if name < entry.1 then (name, b) :: entry :: rest
    else if name = entry.1 then (name, b) :: rest
    else entry :: insertEntry name b rest

/-- Stores a thing; what stood under its name is gone. -/
def insert (r : Registry β) (name : String) (b : β) : Registry β := ⟨insertEntry name b r.entries⟩

/-- Forgets a name. -/
def erase (r : Registry β) (name : String) : Registry β :=
  ⟨r.entries.filter fun entry => entry.1 != name⟩

end Registry

end SlotTree
