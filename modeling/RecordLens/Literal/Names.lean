import RecordLens.Literal
import RecordLens.SyntaxError

/-! Which field names literals may have: how a position is written, and which names may share a
record. -/

namespace RecordLens

def FieldName.positionBound : Nat := 0x100000000

/-- The position that digits name. It counts from one and has no leading zeros. -/
def FieldName.ofDigits (digits : String) (span : Span) : Except SyntaxError FieldName :=
  let found := "`" ++ digits ++ "`"
  if digits.toList.head? = some '0' then .error ⟨span, .positionFromOne, found⟩
  else if digitsValue digits.toList < positionBound then
    .ok (.position (digitsValue digits.toList))
  else .error ⟨span, .positionInRange, found⟩

namespace FieldExpr

variable {α : Type}

/-- A label among positions, or a position among labels. -/
def misplaced (f : FieldExpr α) : SyntaxError :=
  match f.name with
  | .label s => ⟨f.nameSpan, .position, "label `" ++ s ++ "`"⟩
  | .position n => ⟨f.nameSpan, .label, "position `" ++ toString n ++ "`"⟩

/-- The least position of a record of that arity that the names lack. -/
def missingPosition? (names : List FieldName) : Option Nat :=
  (List.range' 1 names.length).find? fun n => !names.contains (.position n)

/-- Labels and positions share no record, and positions run from one without gaps. A repeated name
is no concern here, and excuses a gap. -/
def checkNames (fields : List (FieldExpr α)) (span : Span) : Except SyntaxError Unit :=
  match fields with
  | [] => .ok ()
  | first :: _ =>
    let names := fields.map name
    match fields.find? fun f => f.name.isPosition != first.name.isPosition with
    | some f => .error f.misplaced
    | none =>
      if first.name.isPosition && decide names.Nodup then
        match missingPosition? names with
        | some n =>
          .error ⟨span, .positionsThrough names.length, "no field `" ++ toString n ++ "`"⟩
        | none => .ok ()
      else .ok ()

end FieldExpr

end RecordLens
