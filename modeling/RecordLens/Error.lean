import RecordLens.Field.Canonical
import RecordLens.SyntaxError
import RecordLens.Ty.Printer

/-! The four things that can be wrong with literals, values and paths, and the message of each. -/

namespace RecordLens

def DuplicateField.message (e : DuplicateField) : String :=
  "field `" ++ e.name.text ++ "` is defined more than once"

/-- A value is not of the type it must have. -/
structure TypeMismatch where
  expected : Ty
  found : Ty
  /-- From the root of the checked value to the part that does not fit. -/
  path : Path
  /-- Fields that the expected record type has and the found one lacks. -/
  missing : List FieldName
  /-- Fields that the found record type has and the expected one lacks. -/
  extra : List FieldName
  span : Option Span
  deriving DecidableEq

namespace TypeMismatch

/-- The names of `r` that are no names of `s`. -/
def lacking (r s : RecordType) : List FieldName := r.names.filter fun n => (s.index? n).isNone

/-- A mismatch at a place in a value. Two record types are also compared by their fields. -/
def between (expected found : Ty) (path : Path) (span : Option Span) : TypeMismatch :=
  match expected.recordType?, found.recordType? with
  | some r, some s => ⟨expected, found, path, lacking r s, lacking s r, span⟩
  | _, _ => ⟨expected, found, path, [], [], span⟩

def message (e : TypeMismatch) : String :=
  "type mismatch" ++ (if e.path.isEmpty then "" else " at `" ++ e.path.text ++ "`") ++
    ": expected " ++ e.expected.text ++ ", found " ++ e.found.text ++
    (if e.missing.isEmpty then "" else "; missing " ++ nameList e.missing) ++
    (if e.extra.isEmpty then "" else "; unexpected " ++ nameList e.extra)

end TypeMismatch

/-- A path names a field that the type at that depth does not have. -/
structure UnknownField where
  /-- The type that was searched. -/
  ty : Ty
  path : Path
  segment : FieldName
  /-- How many names of the path lead to that type. -/
  depth : Nat
  span : Option Span
  deriving DecidableEq

namespace UnknownField

def resolved (e : UnknownField) : Path := e.path.take e.depth

def message (e : UnknownField) : String :=
  "unknown field `" ++ e.segment.text ++ "` in `" ++ e.path.text ++ "`: " ++ e.ty.fieldSet

end UnknownField

inductive ValueError where
  | duplicate (e : DuplicateField)
  | mismatch (e : TypeMismatch)
  deriving DecidableEq

inductive Error where
  | malformed (e : SyntaxError)
  | duplicate (e : DuplicateField)
  | mismatch (e : TypeMismatch)
  | unknown (e : UnknownField)
  deriving DecidableEq

def ValueError.toError : ValueError → Error
  | .duplicate e => .duplicate e
  | .mismatch e => .mismatch e

def Error.message : Error → String
  | .malformed e => e.message
  | .duplicate e => e.message
  | .mismatch e => e.message
  | .unknown e => e.message

end RecordLens
