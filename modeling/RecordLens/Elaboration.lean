import RecordLens.Error
import RecordLens.Literal
import RecordLens.Value

/-! The types and values that literals denote. Fields are elaborated in canonical order, whatever
the order they are written in: the elaborator of each field is first put in its place, and then
all of them are run. -/

namespace RecordLens

/-- The fields in canonical order, or the first name that is written twice. -/
def FieldExpr.canonicalize {α : Type} (fields : List (FieldExpr α)) :
    Except DuplicateField (List (Field α)) :=
  Field.canonicalize (fields.map fun f => (⟨f.name, f.item⟩, some f.nameSpan))

namespace TypeExpr

def recordType (fields : List (FieldExpr (Elaboration DuplicateField Ty))) :
    Elaboration DuplicateField RecordType := do
  let fields ← .ofExcept (FieldExpr.canonicalize fields)
  let fields ← fields.mapM (Field.traverse fun _ elaborate => elaborate)
  Registry.intern fields

mutual

/-- The type that an expression denotes. Every record type in it is entered, inner ones first. -/
def elaborate : TypeExpr → Elaboration DuplicateField Ty
  | .named name args _ => do return .named name (← elaborateArgs args)
  | .record ⟨fields, _⟩ => do return (← recordType (elaborateFields fields)).ty

def elaborateArgs : List TypeExpr → Elaboration DuplicateField (List Ty)
  | [] => return []
  | arg :: rest => do
    let ty ← elaborate arg
    return ty :: (← elaborateArgs rest)

def elaborateFields : List (FieldExpr TypeExpr) → List (FieldExpr (Elaboration DuplicateField Ty))
  | [] => []
  | ⟨name, span, item⟩ :: rest => ⟨name, span, elaborate item⟩ :: elaborateFields rest

end

def elaborateRecord (r : RecordExpr TypeExpr) : Elaboration DuplicateField RecordType :=
  recordType (elaborateFields r.fields)

theorem elaborateFields_eq_map (fields : List (FieldExpr TypeExpr)) :
    elaborateFields fields = fields.map fun f => ⟨f.name, f.nameSpan, f.item.elaborate⟩ := by
  induction fields with
  | nil => rfl
  | cons f rest ih => obtain ⟨name, span, item⟩ := f; simp [elaborateFields, ih]

end TypeExpr

namespace Scalar

/-- Up to this magnitude, 2 ^ 53, every integer is a double. -/
def exactDoubles : Nat := 0x20000000000000

/-- The value that a scalar is at a type: itself if the type is its own, and the equal double if it
is an integer and every integer up to its magnitude is a double. -/
def at? (s : Scalar) (ty : Ty) : Option Value :=
  if ty.accepts (.scalar s) then some (.scalar s)
  else
    match s with
    | .int i =>
      if ty.plainName? = some Primitive.double.name ∧ i.toInt.natAbs ≤ exactDoubles then
        some (.scalar (.float (.ofInt i.toInt)))
      else none
    | _ => none

def elaborate (s : Scalar) (span : Span) (expected : Option Ty) (path : Path) :
    Except ValueError Value :=
  match expected with
  | none => .ok (.scalar s)
  | some ty =>
    match s.at? ty with
    | some value => .ok value
    | none => .error (.mismatch (.between ty (.primitive s.primitive) path (some span)))

end Scalar

namespace Expr

/-- What is left to know of an expression: the expected type, if any, and the path that leads to
it. -/
abbrev Elaborator := Option Ty → Path → Elaboration ValueError Value

def inferred (fields : List (Field Elaborator)) (path : Path) :
    Elaboration ValueError RecordValue := do
  let values ← fields.mapM (Field.traverse fun name elaborate => elaborate none (path ++ [name]))
  RecordValue.ofCanonical values

def checkedValues (path : Path) :
    List (Field Elaborator) → List (Field Ty) → Elaboration ValueError (List Value)
  | f :: fields, declared :: types => do
    let value ← f.value (some declared.value) (path ++ [f.name])
    return value :: (← checkedValues path fields types)
  | _, _ => return []

/-- Refuses the fields. The message shows the type that they have by themselves, for which no
registry in use is touched. -/
def mismatched (expected : Ty) (fields : List (Field Elaborator)) (span : Span) (path : Path) :
    Except ValueError RecordValue :=
  match ((inferred fields path).run (Registry.empty .scratch)).1 with
  | .error e => .error e
  | .ok found => .error (.mismatch (.between expected found.type.ty path (some span)))

/-- The record of the fields. An expected type must be a record type with exactly their names. -/
def recordValue (fields : List (FieldExpr Elaborator)) (span : Span) (expected : Option Ty)
    (path : Path) : Elaboration ValueError RecordValue := do
  let fields ← .ofExcept ((FieldExpr.canonicalize fields).mapError .duplicate)
  match expected with
  | none => inferred fields path
  | some ty =>
    match ty.recordType? with
    | none => .ofExcept (mismatched ty fields span path)
    | some r =>
      if r.names = fields.map Field.name then
        return ⟨r, ← checkedValues path fields r.fields⟩
      else .ofExcept (mismatched ty fields span path)

mutual

def elaborate : Expr → Elaborator
  | .scalar s span, expected, path => .ofExcept (s.elaborate span expected path)
  | .record ⟨fields, span⟩, expected, path => do
    return (← recordValue (elaborateFields fields) span expected path).value

def elaborateFields : List (FieldExpr Expr) → List (FieldExpr Elaborator)
  | [] => []
  | ⟨name, span, item⟩ :: rest => ⟨name, span, elaborate item⟩ :: elaborateFields rest

end

def elaborateRecord (r : RecordExpr Expr) (expected : Option RecordType) :
    Elaboration ValueError RecordValue :=
  recordValue (elaborateFields r.fields) r.span (expected.map RecordType.ty) []

theorem elaborateFields_eq_map (fields : List (FieldExpr Expr)) :
    elaborateFields fields = fields.map fun f => ⟨f.name, f.nameSpan, f.item.elaborate⟩ := by
  induction fields with
  | nil => rfl
  | cons f rest ih => obtain ⟨name, span, item⟩ := f; simp [elaborateFields, ih]

end Expr

end RecordLens
