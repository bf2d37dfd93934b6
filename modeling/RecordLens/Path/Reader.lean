import RecordLens.Literal.Names
import RecordLens.Token.Scan

/-! Reading paths: names with points between them. Blanks may stand around a path, not in it. -/

namespace RecordLens

variable [Alphabet]

namespace Segment

/-- The segment that the characters, the first of which stands at `p`, begin with. -/
def take (p : Position) (cs : List Char) : Except SyntaxError (Segment × List Char) :=
  match Text.identifier? cs with
  | some (name, rest) => .ok (⟨.label (String.ofList name), .covering p name⟩, rest)
  | none =>
    let digits := cs.takeWhile Char.isDigit
    if digits.isEmpty then .error (.atCharacter .pathSegment p cs)
    else
      let span := Span.covering p digits
      match FieldName.ofDigits (String.ofList digits) span with
      | .error e => .error e
      | .ok name => .ok (⟨name, span⟩, cs.dropWhile Char.isDigit)

theorem take_takes {p : Position} {cs rest : List Char} {s : Segment}
    (h : take p cs = .ok (s, rest)) : Lexeme.Takes cs rest := by
  unfold take at h
  split at h
  · next hi =>
    obtain ⟨-, rfl⟩ := Prod.mk.inj (Except.ok.inj h)
    exact ⟨_, Text.ne_nil_of_identifier? hi, (Text.append_of_identifier? hi).symm⟩
  · simp only at h
    split at h
    · simp at h
    · next hne =>
      split at h
      · simp at h
      · obtain ⟨-, rfl⟩ := Prod.mk.inj (Except.ok.inj h)
        exact Lexeme.takes_dropWhile hne

end Segment

namespace PathExpr

def readFrom (p : Position) (cs : List Char) : Except SyntaxError PathExpr :=
  match _h : Segment.take p cs with
  | .error e => .error e
  | .ok (segment, '.' :: rest) =>
    match readFrom ((p.after (Token.taken cs ('.' :: rest))).next '.') rest with
    | .error e => .error e
    | .ok segments => .ok (segment :: segments)
  | .ok (segment, rest) =>
    if rest.all Text.isBlank then .ok [segment]
    else .error (.atCharacter .pathEnd (p.after (Token.taken cs rest)) rest)
termination_by cs.length
decreasing_by
  have h := (Segment.take_takes (by assumption)).length_lt
  rw [List.length_cons] at h
  omega

def read (text : String) : Except SyntaxError PathExpr :=
  let cs := text.toList
  readFrom (Position.start.after (cs.takeWhile Text.isBlank)) (cs.dropWhile Text.isBlank)

end PathExpr

end RecordLens
