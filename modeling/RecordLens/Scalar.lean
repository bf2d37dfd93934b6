import RecordLens.Number.Shortest
import RecordLens.Text.Quoted

/-! Scalars: the values that stand in the fields of records beside records themselves. -/

namespace RecordLens

inductive Primitive where
  | int
  | double
  | bool
  | char
  | string
  deriving DecidableEq, Repr

def Primitive.name : Primitive → String
  | .int => "Int"
  | .double => "Double"
  | .bool => "Bool"
  | .char => "Char"
  | .string => "String"

theorem Primitive.name_injective {p q : Primitive} (h : p.name = q.name) : p = q := by
  cases p <;> cases q <;> first | rfl | exact absurd h (by decide)

inductive Scalar where
  | int (i : Int64)
  | float (x : Binary64)
  | bool (b : Bool)
  | char (c : Char)
  | string (s : String)
  deriving DecidableEq

namespace Scalar

def primitive : Scalar → Primitive
  | .int _ => .int
  | .float _ => .double
  | .bool _ => .bool
  | .char _ => .char
  | .string _ => .string

/-- Equality, with floats compared as numbers. -/
def same : Scalar → Scalar → Bool
  | .float x, .float y => x.same y
  | a, b => a == b

/-- The notation that reads back as the scalar. -/
def text : Scalar → String
  | .int i => toString i.toInt
  | .float x => x.text
  | .bool b => if b then "True" else "False"
  | .char c => String.ofList (Text.quoted (fun _ => false) '\'' [c])
  | .string s => String.ofList (Text.quoted (fun _ => false) '"' s.toList)

theorem same_refl (a : Scalar) : a.same a = true := by
  cases a <;> simp [same, Binary64.same_refl]

end Scalar

end RecordLens
