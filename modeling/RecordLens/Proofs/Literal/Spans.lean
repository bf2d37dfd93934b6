import RecordLens.Proofs.Literal.Places
import RecordLens.Proofs.Path.Reading

/-! The places that are reported. Whatever a reader gives back, a tree or an error, every span in it
is a stretch of the text that was read, and has the line and the column of its beginning. -/

namespace RecordLens

namespace Text

theorem byteLength_eq_utf8ByteSize (cs : List Char) :
    byteLength cs = (String.ofList cs).utf8ByteSize := by
  induction cs with
  | nil => rfl
  | cons c cs ih =>
    rw [byteLength_cons, ih, String.ofList_cons, String.utf8ByteSize_append,
      String.utf8ByteSize_singleton]

end Text

namespace Span

/-- The span begins and ends between two characters of the text or at one of its ends. Lines are
counted by the line feeds before it, columns by the characters behind the last of them. -/
structure Exact (s : Span) (text : String) : Prop where
  begins : (⟨s.offset⟩ : String.Pos.Raw).IsValid text
  ends : (⟨s.offset + s.length⟩ : String.Pos.Raw).IsValid text
  end_le : s.offset + s.length ≤ text.utf8ByteSize
  place : ∃ before after : String, text = before ++ after ∧ before.utf8ByteSize = s.offset ∧
    s.line = 1 + before.toList.count '\n' ∧
    s.column = 1 + (before.toList.reverse.takeWhile (· ≠ '\n')).length

theorem In.exact {s : Span} {text : String} (h : s.In text.toList) : s.Exact text := by
  obtain ⟨covered, before, after, hsource, hoffset, hlength, hline, hcolumn⟩ := h
  rw [Text.byteLength_eq_utf8ByteSize] at hoffset hlength
  have htext : text = String.ofList before ++ String.ofList covered ++ String.ofList after := by
    rw [← String.ofList_append, ← String.ofList_append, ← hsource, String.ofList_toList]
  have hend : s.offset + s.length =
      (String.ofList before ++ String.ofList covered).utf8ByteSize := by
    rw [String.utf8ByteSize_append, hoffset, hlength]
  refine ⟨?_, ?_, ?_, String.ofList before, String.ofList covered ++ String.ofList after, ?_,
    hoffset.symm, ?_, ?_⟩
  · rw [String.Pos.Raw.isValid_iff_exists_append]
    exact ⟨_, _, htext.trans (String.append_assoc ..), by rw [hoffset]; rfl⟩
  · rw [String.Pos.Raw.isValid_iff_exists_append]
    exact ⟨_, _, htext, by rw [hend]; rfl⟩
  · have hall := congrArg String.utf8ByteSize htext
    rw [String.utf8ByteSize_append, ← hend] at hall
    exact hall ▸ Nat.le_add_right _ _
  · rw [htext, String.append_assoc]
  · rw [String.toList_ofList, hline]
  · rw [String.toList_ofList, hcolumn]

end Span

namespace TypeExpr

mutual

/-- The places of all nodes and field names in the type. -/
def spans : TypeExpr → List Span
  | .named _ args span => span :: argSpans args
  | .record ⟨fields, span⟩ => span :: fieldSpans fields

def argSpans : List TypeExpr → List Span
  | [] => []
  | arg :: rest => spans arg ++ argSpans rest

def fieldSpans : List (FieldExpr TypeExpr) → List Span
  | [] => []
  | ⟨_, nameSpan, item⟩ :: rest => nameSpan :: (spans item ++ fieldSpans rest)

end

end TypeExpr

namespace Expr

mutual

def spans : Expr → List Span
  | .scalar _ span => [span]
  | .record ⟨fields, span⟩ => span :: fieldSpans fields

def fieldSpans : List (FieldExpr Expr) → List Span
  | [] => []
  | ⟨_, nameSpan, item⟩ :: rest => nameSpan :: (spans item ++ fieldSpans rest)

end

@[simp] theorem spans_scalar (value : Scalar) (span : Span) :
    (scalar value span).spans = [span] := by rw [spans]

end Expr

section

variable {source : List Char} {s : Span}

end

/-- The places that a reader reports: all those in what it returns, or that of its error. -/
def reported {α : Type} (spans : α → List Span) : Except SyntaxError α → List Span
  | .ok a => spans a
  | .error e => [e.span]

theorem Located.exact {α : Type} {text : String} {P : α → Prop} {spans : α → List Span}
    {result : Except SyntaxError α} (h : Located text.toList P result)
    (hspans : ∀ a, P a → ∀ s ∈ spans a, s.In text.toList) :
    ∀ s ∈ reported spans result, s.Exact text := by
  cases h with
  | ok h => exact fun s hs => (hspans _ h s hs).exact
  | error h => exact List.forall_mem_singleton.2 h.exact

end RecordLens
