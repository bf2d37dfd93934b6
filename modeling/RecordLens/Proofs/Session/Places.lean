import RecordLens.Proofs.Elaboration.Places
import RecordLens.Proofs.Path.Reading
import RecordLens.Proofs.Session.Soundness

/-! Errors point into the text that they carry. A command reads several texts, each of them cut from
its input in a way of its own; whatever is wrong with one of them is reported with that text, and
all places that are reported are places there. -/

namespace RecordLens

def UnknownField.Placed (source : List Char) (u : UnknownField) : Prop :=
  ∃ span, u.span = some span ∧ span.Marks source u.segment.text.toList

theorem Lens.placed_of_derive_error {source : List Char} {ty : Ty} {p : PathExpr} {u : UnknownField}
    (hp : p.Spelled source) (h : derive ty p = .error u) : u.Placed source := by
  unfold derive deriveAt at h
  split at h
  · next unresolved hu =>
    obtain rfl := Except.error.inj h
    have hsegment := Ty.getElem?_of_resolve_error hu
    rw [PathExpr.path, List.getElem?_map, Option.map_eq_some_iff] at hsegment
    obtain ⟨s, hs, hname⟩ := hsegment
    refine ⟨s.span, ?_, ?_⟩
    · rw [List.getElem?_map, hs, Option.map_some]
    · rw [← hname]
      exact hp s (List.mem_of_getElem? hs)
  · cases h

namespace Error

/-- All places that the error reports. -/
def spans : Error → List Span
  | .malformed e => [e.span]
  | .duplicate d => d.first.toList ++ d.second.toList
  | .mismatch m => m.span.toList
  | .unknown u => u.span.toList

/-- The error reports where in the source it is, and a name where it stands. -/
def PointsInto (source : List Char) : Error → Prop
  | .malformed e => e.span.In source
  | .duplicate d => d.Placed source
  | .mismatch m => m.Placed source
  | .unknown u => u.Placed source

end Error

theorem ValueError.Placed.pointsInto {source : List Char} {e : ValueError} (h : e.Placed source) :
    e.toError.PointsInto source := by
  cases e with
  | duplicate d => exact h
  | mismatch m => exact h

namespace Session

open Command (Ends)

variable {s : Session}

section

variable [Alphabet]

end

end Session

end RecordLens
