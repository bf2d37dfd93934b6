import RecordLens.Elaboration
import RecordLens.Path.Reader

/-! Lenses: views of a field nested in records. A lens is derived once from a type and a path, and
then gets and sets the field in every value of that type. -/

namespace RecordLens

structure Lens where
  source : Ty
  target : Ty
  path : Path
  /-- The index of each name of the path in the canonical fields that it is found in. -/
  steps : List Nat
  deriving DecidableEq

/-- Where a path leaves a type: how many names were found, the type they lead to, and the name
that it lacks. -/
structure Unresolved where
  depth : Nat
  ty : Ty
  segment : FieldName

def Ty.child? (ty : Ty) (name : FieldName) : Option (Nat × Ty) := do
  let r ← ty.recordType?
  let index ← r.index? name
  let field ← r.fields[index]?
  return (index, field.value)

/-- The indices that a path goes through, and the type it leads to. -/
def Ty.resolve (ty : Ty) : Path → Except Unresolved (List Nat × Ty)
  | [] => .ok ([], ty)
  | name :: rest =>
    match ty.child? name with
    | none => .error ⟨0, ty, name⟩
    | some (index, child) =>
      match child.resolve rest with
      | .error u => .error { u with depth := u.depth + 1 }
      | .ok (steps, target) => .ok (index :: steps, target)

namespace Lens

/-- Derives a lens. The places of the path's names serve the error alone. -/
def deriveAt (ty : Ty) (path : Path) (spans : List Span) : Except UnknownField Lens :=
  match ty.resolve path with
  | .error u => .error ⟨u.ty, path, u.segment, u.depth, spans[u.depth]?⟩
  | .ok (steps, target) => .ok ⟨ty, target, path, steps⟩

def derivePath (ty : Ty) (path : Path) : Except UnknownField Lens := deriveAt ty path []

def derive (ty : Ty) (p : PathExpr) : Except UnknownField Lens :=
  deriveAt ty p.path (p.map Segment.span)

def read [Alphabet] (ty : Ty) (text : String) : Except Error Lens := do
  let p ← (PathExpr.read text).mapError .malformed
  (derive ty p).mapError .unknown

def identity (ty : Ty) : Lens := ⟨ty, ty, [], []⟩

def sourceMismatch (l : Lens) (value : Value) : TypeMismatch :=
  .between l.source value.typeOf [] none

/-- The value that the steps lead to. -/
def descend (value : Value) : List Nat → Option Value
  | [] => some value
  | index :: rest => do
    let r ← value.record?
    let child ← r.values[index]?
    descend child rest

/-- The value with the one that the steps lead to replaced. -/
def replace (value : Value) (steps : List Nat) (leaf : Value) : Option Value :=
  match steps with
  | [] => some leaf
  | index :: rest => do
    let r ← value.record?
    let child ← r.values[index]?
    let child ← replace child rest leaf
    return (r.replaceAt index child).value

/-- The viewed field of a value of the source type. -/
def get (l : Lens) (value : Value) : Except TypeMismatch Value :=
  if l.source.accepts value then
    match descend value l.steps with
    | some leaf => .ok leaf
    | none => .error (l.sourceMismatch value)
  else .error (l.sourceMismatch value)

/-- The value with its viewed field replaced by one of the target type. -/
def set (l : Lens) (value leaf : Value) : Except TypeMismatch Value :=
  if l.source.accepts value then
    if l.target.accepts leaf then
      match replace value l.steps leaf with
      | some value => .ok value
      | none => .error (l.sourceMismatch value)
    else .error (.between l.target leaf.typeOf l.path none)
  else .error (l.sourceMismatch value)

def modify (l : Lens) (value : Value) (f : Value → Value) : Except TypeMismatch Value := do
  let leaf ← l.get value
  l.set value (f leaf)

/-- The view through `outer` and then through `inner`, which must view what `outer` shows. -/
def compose (outer inner : Lens) : Except TypeMismatch Lens :=
  if outer.target = inner.source then
    .ok ⟨outer.source, inner.target, outer.path ++ inner.path, outer.steps ++ inner.steps⟩
  else .error (.between outer.target inner.source outer.path none)

end Lens

end RecordLens
