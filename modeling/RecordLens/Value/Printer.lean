import RecordLens.Ty.Printer
import RecordLens.Value

/-! Printing values in the notation that literals have. -/

namespace RecordLens

open Text (commas)

namespace Value

def fieldTexts (names : List FieldName) (texts : List String) : List String :=
  names.zipWith (fun name text => name.text ++ " = " ++ text) texts

mutual

def text : Value → String
  | .scalar s => s.text
  | .record type values =>
    if showsAsTuple type.names then "(" ++ commas (texts values) ++ ")"
    else "\x7b" ++ commas (fieldTexts type.names (texts values)) ++ "\x7d"

def texts : List Value → List String
  | [] => []
  | value :: rest => text value :: texts rest

end

end Value

def RecordValue.text (r : RecordValue) : String := r.value.text

end RecordLens
