import RecordLens.Error
import RecordLens.Value

/-! Host data: plain data of a program that has a record type and travels to and from values. A
`Host` says of which form the data is. -/

namespace RecordLens

/-- The form of host data. A tuple is a structure whose fields are named by position. -/
inductive Host where
  | primitive (p : Primitive)
  | struct (fields : List (Field Host))

def Primitive.Data : Primitive → Type
  | .int => Int64
  | .double => Binary64
  | .bool => Bool
  | .char => Char
  | .string => String

def Primitive.toScalar : (p : Primitive) → p.Data → Scalar
  | .int, i => .int i
  | .double, x => .float x
  | .bool, b => .bool b
  | .char, c => .char c
  | .string, s => .string s

def Primitive.ofScalar? : (p : Primitive) → Scalar → Option p.Data
  | .int, .int i => some i
  | .double, .float x => some x
  | .bool, .bool b => some b
  | .char, .char c => some c
  | .string, .string s => some s
  | _, _ => none

def Primitive.ofValue? (p : Primitive) : Value → Option p.Data
  | .scalar s => p.ofScalar? s
  | .record _ _ => none

namespace Host

def tuple (elements : List Host) : Host := .struct (Field.positions 1 elements)

mutual

def Data : Host → Type
  | .primitive p => p.Data
  | .struct fields => FieldsData fields

/-- The data of the fields in the order they are declared in. -/
def FieldsData : List (Field Host) → Type
  | [] => Unit
  | ⟨_, host⟩ :: rest => Data host × FieldsData rest

end

mutual

/-- The type of the data. The types of fields are entered before their record, in the order the
fields are declared in. -/
def ty : Host → Interning Ty
  | .primitive p => return .primitive p
  | .struct fields => do return (← Registry.structType (← fieldTypes fields)).ty

def fieldTypes : List (Field Host) → Interning (List (Field Ty))
  | [] => return []
  | ⟨name, host⟩ :: rest => do
    let type ← ty host
    return ⟨name, type⟩ :: (← fieldTypes rest)

end

/-- The record of fields with their types and values. Of several with one name the first is kept.
That the types accept the values is left to the caller. -/
def structValue (fields : List (Field (Ty × Value))) : Interning Value := do
  let type ← Registry.structType (fields.map (Field.map Prod.fst))
  return .record type ((Field.ofFields (fields.map (Field.map Prod.snd))).map Field.value)

mutual

def toValue : (host : Host) → host.Data → Interning Value
  | .primitive p, x => return .scalar (p.toScalar x)
  | .struct fields, data => do structValue (← fieldValues fields data)

def fieldValues : (fields : List (Field Host)) → FieldsData fields →
    Interning (List (Field (Ty × Value)))
  | [], _ => return []
  | ⟨name, host⟩ :: rest, (x, data) => do
    let type ← ty host
    let value ← toValue host x
    return ⟨name, type, value⟩ :: (← fieldValues rest data)

end

def refuse {α : Type} (host : Host) (value : Value) : Elaboration TypeMismatch α := do
  throw (.between (← ty host) value.typeOf [] none)

def recordOf (host : Host) (value : Value) : Elaboration TypeMismatch RecordValue := do
  let type ← ty host
  match value.record? with
  | some r => if type.accepts value then return r else host.refuse value
  | none => host.refuse value

/-- Converts a field of a record. An error inside the field is reported at the field. -/
def fieldOf (host : Host) {α : Type} (convert : Value → Elaboration TypeMismatch α)
    (r : RecordValue) (name : FieldName) : Elaboration TypeMismatch α := do
  match r.get? name with
  | none => throw (.between (← ty host) r.type.ty [name] none)
  | some value =>
    ExceptT.adapt (fun e : TypeMismatch => { e with path := name :: e.path }) (convert value)

mutual

def ofValue : (host : Host) → Value → Elaboration TypeMismatch host.Data
  | .primitive p, value =>
    match p.ofValue? value with
    | some x => return x
    | none => refuse (.primitive p) value
  | .struct fields, value => do ofRecord fields (← recordOf (.struct fields) value)

def ofRecord : (fields : List (Field Host)) → RecordValue →
    Elaboration TypeMismatch (FieldsData fields)
  | [], _ => return ()
  | ⟨name, host⟩ :: rest, r => do
    let x ← fieldOf host (ofValue host) r name
    let data ← ofRecord rest r
    return (x, data)

end

def field (host : Host) (r : RecordValue) (name : FieldName) :
    Elaboration TypeMismatch host.Data :=
  fieldOf host host.ofValue r name

end Host

end RecordLens
