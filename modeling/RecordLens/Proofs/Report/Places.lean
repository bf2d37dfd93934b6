import RecordLens.Proofs.Session.Places
import RecordLens.Report

/-! The errors about a text, and the place that the report of each of them shows. Readers, the
elaboration of what they read and the derivation of lenses report places of the text alone. -/

namespace RecordLens

/-- The offset, the line and the column are those of a place in the source. -/
def Span.Agrees (s : Span) (source : List Char) : Prop :=
  ∃ front back, source = front ++ back ∧ s.offset = Text.byteLength front ∧
    s.line = 1 + front.count '\n' ∧
    s.column = 1 + (front.reverse.takeWhile (· ≠ '\n')).length

theorem Span.In.agrees {s : Span} {source : List Char} (h : s.In source) : s.Agrees source := by
  obtain ⟨text, before, after, hsource, hoffset, -, hline, hcolumn⟩ := h
  exact ⟨before, text ++ after, by rw [hsource, List.append_assoc], hoffset, hline, hcolumn⟩

namespace Error

/-- The error is about the text: a reader refuses it, what a reader makes of it is refused by the
elaboration, or what is read as a path does not lead through a type. -/
inductive Raised [Alphabet] (text : String) : Error → Prop
  | type {limit : Nat} {e : SyntaxError} (h : TypeExpr.read limit text = .error e) :
      Raised text (.malformed e)
  | recordType {limit : Nat} {e : SyntaxError} (h : TypeExpr.readRecord limit text = .error e) :
      Raised text (.malformed e)
  | value {limit : Nat} {e : SyntaxError} (h : Expr.read limit text = .error e) :
      Raised text (.malformed e)
  | record {limit : Nat} {e : SyntaxError} (h : Expr.readRecord limit text = .error e) :
      Raised text (.malformed e)
  | path {e : SyntaxError} (h : PathExpr.read text = .error e) : Raised text (.malformed e)
  | elaborateType {limit : Nat} {e : TypeExpr} {g g' : Registry} {d : DuplicateField}
      (hread : TypeExpr.read limit text = .ok e) (h : e.elaborate.outcome g = (.error d, g')) :
      Raised text (.duplicate d)
  | elaborateRecordType {limit : Nat} {r : RecordExpr TypeExpr} {g g' : Registry}
      {d : DuplicateField} (hread : TypeExpr.readRecord limit text = .ok r)
      (h : (TypeExpr.elaborateRecord r).outcome g = (.error d, g')) : Raised text (.duplicate d)
  | elaborateValue {limit : Nat} {e : Expr} {expected : Option Ty} {path : Path}
      {g g' : Registry} {v : ValueError} (hread : Expr.read limit text = .ok e)
      (h : (e.elaborate expected path).outcome g = (.error v, g')) : Raised text v.toError
  | elaborateRecord {limit : Nat} {r : RecordExpr Expr} {expected : Option RecordType}
      {g g' : Registry} {v : ValueError} (hread : Expr.readRecord limit text = .ok r)
      (h : (Expr.elaborateRecord r expected).outcome g = (.error v, g')) : Raised text v.toError
  | derive {ty : Ty} {p : PathExpr} {u : UnknownField} (hread : PathExpr.read text = .ok p)
      (h : Lens.derive ty p = .error u) : Raised text (.unknown u)

theorem Raised.pointsInto [Alphabet] {text : String} {e : Error} (h : e.Raised text) :
    e.PointsInto text.toList := by
  cases h with
  | type h => exact (h ▸ TypeExpr.located_read _ text).of_error
  | recordType h => exact (h ▸ TypeExpr.located_readRecord _ text).of_error
  | value h => exact (h ▸ Expr.located_read _ text).of_error
  | record h => exact (h ▸ Expr.located_readRecord _ text).of_error
  | path h => exact (h ▸ PathExpr.located_read text).of_error
  | elaborateType hread h => exact (hread ▸ TypeExpr.located_read _ text).of_ok.fails _ _ _ h
  | elaborateRecordType hread h =>
    exact (hread ▸ TypeExpr.located_readRecord _ text).of_ok.fails_elaborateRecord _ _ _ h
  | elaborateValue hread h =>
    exact ((hread ▸ Expr.located_read _ text).of_ok.fails _ _ _ _ _ h).pointsInto
  | elaborateRecord hread h =>
    have hplaced := (hread ▸ Expr.located_readRecord _ text).of_ok
    exact (hplaced.fails_elaborateRecord _ _ _ _ h).pointsInto
  | derive hread h => exact Lens.placed_of_derive_error (hread ▸ PathExpr.located_read text).of_ok h

theorem PointsInto.exists_span {source : List Char} {e : Error} (h : e.PointsInto source) :
    ∃ span, e.span? = some span ∧ span.In source := by
  cases e with
  | malformed e => exact ⟨e.span, rfl, h⟩
  | duplicate d =>
    obtain ⟨-, second, hsecond, hmarks⟩ := h
    exact ⟨second, by rw [span?, hsecond, Option.some_or], _, hmarks⟩
  | mismatch m => exact h
  | unknown u =>
    obtain ⟨span, hspan, hmarks⟩ := h
    exact ⟨span, hspan, _, hmarks⟩

theorem Raised.exists_span [Alphabet] {text : String} {e : Error} (h : e.Raised text) :
    ∃ span, e.span? = some span ∧ span.In text.toList := h.pointsInto.exists_span

end Error

end RecordLens
