import RecordLens.Field.Canonical
import RecordLens.Ty

/-! Registries of record types. A field list is entered once, and its entry is never changed or
removed, so the handle of the entry stands for the list. -/

namespace RecordLens

/-- The entries in order of first use, each a canonical field list. -/
structure Registry where
  owner : Owner
  entries : List (List (Field Ty))
  deriving DecidableEq

/-- A step that reads and extends a registry. -/
abbrev Interning (α : Type) := StateM Registry α

/-- A step that may fail. What it entered before stays entered. -/
abbrev Elaboration (ε α : Type) := ExceptT ε (StateM Registry) α

/-- A result that needs no registry. -/
def Elaboration.ofExcept {ε α : Type} (x : Except ε α) : Elaboration ε α := ExceptT.mk (pure x)

@[simp] theorem Elaboration.run_ofExcept {ε α : Type} (x : Except ε α) (g : Registry) :
    (Elaboration.ofExcept x).run g = (x, g) := rfl

namespace Registry

def empty (owner : Owner) : Registry := ⟨owner, []⟩

def size (g : Registry) : Nat := g.entries.length

/-- The handle of the entry of that number. -/
def get? (g : Registry) (id : Nat) : Option RecordType :=
  g.entries[id]?.map fun fields => ⟨g.owner, id, fields⟩

/-- Handles of consecutive entries, of which the first has that number. -/
def handles (owner : Owner) : Nat → List (List (Field Ty)) → List RecordType
  | _, [] => []
  | id, fields :: rest => ⟨owner, id, fields⟩ :: handles owner (id + 1) rest

def types (g : Registry) : List RecordType := handles g.owner 0 g.entries

/-- The handle of a canonical field list, entered at the end if it is new. -/
def intern (fields : List (Field Ty)) : Interning RecordType := fun g =>
  match g.types.find? fun r => r.fields = fields with
  | some r => (r, g)
  | none => (⟨g.owner, g.size, fields⟩, { g with entries := g.entries ++ [fields] })

/-- The record type with the fields of distinct names. -/
def internFields (fields : List (Field Ty)) : Elaboration DuplicateField RecordType := do
  let fields ← Elaboration.ofExcept (Field.canonicalizePlain fields)
  intern fields

def tuple (elements : List Ty) : Interning RecordType :=
  intern (Field.ofFields (Field.positions 1 elements))

/-- The record type of a structure: of several fields with one name the first is kept. -/
def structType (fields : List (Field Ty)) : Interning RecordType :=
  intern (Field.ofFields fields)

end Registry

end RecordLens
