import RecordLens.Registry

/-! Values: scalars and records. A record pairs a record type with one value per field of its
canonical list, in the same order. -/

namespace RecordLens

inductive Value where
  | scalar (s : Scalar)
  | record (type : RecordType) (values : List Value)

namespace Value

mutual

def decEq : (v w : Value) → Decidable (v = w)
  | .scalar a, .scalar b =>
    if h : a = b then .isTrue (by rw [h]) else .isFalse fun he => h (scalar.inj he)
  | .record r vs, .record s ws =>
    if hr : r = s then
      match decEqValues vs ws with
      | .isTrue h => .isTrue (by rw [hr, h])
      | .isFalse h => .isFalse fun he => h (record.inj he).2
    else .isFalse fun he => hr (record.inj he).1
  | .scalar _, .record .. => .isFalse nofun
  | .record .., .scalar _ => .isFalse nofun

def decEqValues : (vs ws : List Value) → Decidable (vs = ws)
  | [], [] => .isTrue rfl
  | v :: vs, w :: ws =>
    match decEq v w, decEqValues vs ws with
    | .isTrue h, .isTrue hs => .isTrue (by rw [h, hs])
    | .isFalse h, _ => .isFalse fun he => h (List.cons.inj he).1
    | _, .isFalse hs => .isFalse fun he => hs (List.cons.inj he).2
  | [], _ :: _ => .isFalse nofun
  | _ :: _, [] => .isFalse nofun

end

/-- Equality of values as terms; `same` compares floats as numbers. -/
instance : DecidableEq Value := decEq

end Value

structure RecordValue where
  type : RecordType
  values : List Value
  deriving DecidableEq

namespace Value

def typeOf : Value → Ty
  | .scalar s => .primitive s.primitive
  | .record type _ => type.ty

def record? : Value → Option RecordValue
  | .scalar _ => none
  | .record type values => some ⟨type, values⟩

mutual

/-- Scalars are compared by value, records by type and field by field. -/
def same : Value → Value → Bool
  | .scalar a, .scalar b => a.same b
  | .record r vs, .record s ws => r == s && sameList vs ws
  | _, _ => false

def sameList : List Value → List Value → Bool
  | [], [] => true
  | v :: vs, w :: ws => same v w && sameList vs ws
  | _, _ => false

end

end Value

namespace RecordValue

def value (r : RecordValue) : Value := .record r.type r.values

def size (r : RecordValue) : Nat := r.values.length

def get? (r : RecordValue) (name : FieldName) : Option Value :=
  (r.type.index? name).bind (r.values[·]?)

def fields (r : RecordValue) : List (Field Value) := r.type.names.zipWith Field.mk r.values

def replaceAt (r : RecordValue) (index : Nat) (value : Value) : RecordValue :=
  ⟨r.type, r.values.set index value⟩

/-- The record of canonical fields, of the type that the values have. -/
def ofCanonical (fields : List (Field Value)) : Interning RecordValue := do
  let type ← Registry.intern (fields.map (Field.map Value.typeOf))
  return ⟨type, fields.map Field.value⟩

def ofFields (fields : List (Field Value)) : Elaboration DuplicateField RecordValue := do
  let fields ← Elaboration.ofExcept (Field.canonicalizePlain fields)
  ofCanonical fields

def tuple (elements : List Value) : Interning RecordValue :=
  ofCanonical (Field.ofFields (Field.positions 1 elements))

end RecordValue

/-- Whether a value is of exactly this type. -/
def Ty.accepts (ty : Ty) (value : Value) : Bool := value.typeOf = ty

theorem Ty.accepts_iff {ty : Ty} {value : Value} : ty.accepts value = true ↔ value.typeOf = ty := by
  simp [accepts]

@[simp] theorem Value.record?_value (r : RecordValue) : r.value.record? = some r := rfl

end RecordLens
