import RecordLens.Value

/-! The record types that occur in types and values. They are all that ties a type or a value to a
registry. -/

namespace RecordLens

namespace Ty

mutual

/-- The record types that occur in the type, at any depth. -/
def handles : Ty → List RecordType
  | .named _ args => argHandles args
  | .record owner id fields => ⟨owner, id, fields⟩ :: fieldHandles fields

def argHandles : List Ty → List RecordType
  | [] => []
  | arg :: rest => handles arg ++ argHandles rest

def fieldHandles : List (Field Ty) → List RecordType
  | [] => []
  | ⟨_, ty⟩ :: rest => handles ty ++ fieldHandles rest

end

@[simp] theorem handles_named (name : String) (args : List Ty) :
    (named name args).handles = args.flatMap handles := by
  rw [handles]
  induction args with
  | nil => rfl
  | cons arg rest ih => rw [argHandles, List.flatMap_cons, ih]

@[simp] theorem handles_record (owner : Owner) (id : Nat) (fields : List (Field Ty)) :
    (record owner id fields).handles =
      ⟨owner, id, fields⟩ :: fields.flatMap fun f => f.value.handles := by
  have h : fieldHandles fields = fields.flatMap fun f => f.value.handles := by
    induction fields with
    | nil => rfl
    | cons f rest ih => rw [fieldHandles, List.flatMap_cons, ih]
  rw [handles, h]

theorem handles_ty (r : RecordType) :
    r.ty.handles = r :: r.fields.flatMap fun f => f.value.handles := handles_record _ _ _

@[simp] theorem handles_primitive (p : Primitive) : (primitive p).handles = [] := by
  simp [primitive]

end Ty

namespace Value

mutual

def handles : Value → List RecordType
  | .scalar _ => []
  | .record type values => type.ty.handles ++ allHandles values

def allHandles : List Value → List RecordType
  | [] => []
  | v :: rest => handles v ++ allHandles rest

end

@[simp] theorem handles_scalar (s : Scalar) : (scalar s).handles = [] := rfl

@[simp] theorem handles_record (type : RecordType) (values : List Value) :
    (record type values).handles = type.ty.handles ++ values.flatMap handles := by
  have h : allHandles values = values.flatMap handles := by
    induction values with
    | nil => rfl
    | cons v rest ih => rw [allHandles, List.flatMap_cons, ih]
  rw [handles, h]

theorem handles_typeOf_subset (v : Value) : v.typeOf.handles ⊆ v.handles := by
  cases v with
  | scalar s => simp [typeOf]
  | record type values => simp [typeOf]

end Value

end RecordLens
