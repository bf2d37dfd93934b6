import RecordLens.Ty

/-! Printing types. A tuple of several fields shows its types alone, every other record its names
too. An argument that has arguments itself stands in parentheses. -/

namespace RecordLens

open Text (commas)

/-- Whether a record of these field names is shown without its names. -/
def showsAsTuple (names : List FieldName) : Bool :=
  decide (1 < names.length) && names.all FieldName.isPosition

namespace Ty

mutual

def text : Ty → String
  | .named name args => name ++ argsText args
  | .record _ _ fields =>
    if showsAsTuple (fields.map Field.name) then "(" ++ commas (elementTexts fields) ++ ")"
    else "\x7b" ++ commas (fieldTexts fields) ++ "\x7d"

def argsText : List Ty → String
  | [] => ""
  | .named name [] :: rest => " " ++ name ++ argsText rest
  | .named name (arg :: args) :: rest =>
    " (" ++ text (.named name (arg :: args)) ++ ")" ++ argsText rest
  | .record owner id fields :: rest => " " ++ text (.record owner id fields) ++ argsText rest

def elementTexts : List (Field Ty) → List String
  | [] => []
  | ⟨_, ty⟩ :: rest => text ty :: elementTexts rest

def fieldTexts : List (Field Ty) → List String
  | [] => []
  | ⟨name, ty⟩ :: rest => (name.text ++ "::" ++ text ty) :: fieldTexts rest

end

end Ty

namespace RecordType

def text (r : RecordType) : String := r.ty.text

def listing (r : RecordType) : String := "#" ++ toString r.id ++ " " ++ r.text

end RecordType

def nameList (names : List FieldName) : String :=
  let quoted := commas (names.map fun n => "`" ++ n.text ++ "`")
  if names.length = 1 then "field " ++ quoted else "fields " ++ quoted

def Ty.fieldSet (ty : Ty) : String :=
  match ty.recordType? with
  | none => "`" ++ ty.text ++ "` is not a record"
  | some r =>
    if r.fields.isEmpty then ty.text ++ " has no fields"
    else ty.text ++ " has fields " ++ commas (r.names.map FieldName.text)

end RecordLens
