/-! Texts in a row with a separator between them. -/

namespace RecordLens.Text

def joined (separator : String) : List String → String
  | [] => ""
  | [text] => text
  | text :: rest => text ++ separator ++ joined separator rest

def commas : List String → String := joined ", "

theorem joined_cons_cons (separator s t : String) (rest : List String) :
    joined separator (s :: t :: rest) = s ++ separator ++ joined separator (t :: rest) := rfl

end RecordLens.Text
