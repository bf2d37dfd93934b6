import Mathlib.Data.List.Induction
import RecordLens.SyntaxError
import RecordLens.Text.Slice

/-! Places in a text. A span that is counted up to from the beginning of a source marks a stretch of
it: the offset and the length are whole characters, and line and column are those of its
beginning. -/

namespace RecordLens

namespace Position

theorem after_offset (p : Position) (cs : List Char) :
    (p.after cs).offset = p.offset + Text.byteLength cs := by
  induction cs generalizing p with
  | nil => rfl
  | cons c cs ih => rw [after_cons, ih, next_offset, Text.byteLength_cons, Nat.add_assoc]

theorem after_concat (p : Position) (cs : List Char) (c : Char) :
    p.after (cs ++ [c]) = (p.after cs).next c := p.after_append cs [c]

@[simp] theorem start_after_offset (cs : List Char) :
    (start.after cs).offset = Text.byteLength cs := by
  rw [after_offset]
  exact Nat.zero_add _

@[simp] theorem start_after_line (cs : List Char) :
    (start.after cs).line = 1 + cs.count '\n' := by
  induction cs using List.reverseRecOn with
  | nil => rfl
  | append_singleton cs c ih =>
    rw [after_concat, List.count_append, next]
    by_cases hc : c = '\n' <;> simp [hc, ih, Nat.add_assoc]

@[simp] theorem start_after_column (cs : List Char) :
    (start.after cs).column = 1 + (cs.reverse.takeWhile (· ≠ '\n')).length := by
  induction cs using List.reverseRecOn with
  | nil => rfl
  | append_singleton cs c ih =>
    rw [after_concat, List.reverse_concat, next]
    by_cases hc : c = '\n' <;> simp_all [Nat.add_assoc]

end Position

namespace Span

/-- The span is that of the text where it stands in the source. -/
def Marks (s : Span) (source text : List Char) : Prop :=
  ∃ before after, source = before ++ text ++ after ∧
    s.offset = Text.byteLength before ∧ s.length = Text.byteLength text ∧
    s.line = 1 + before.count '\n' ∧
    s.column = 1 + (before.reverse.takeWhile (· ≠ '\n')).length

variable {s t : Span} {source text : List Char}

@[simp] theorem covering_length (p : Position) (cs : List Char) :
    (covering p cs).length = Text.byteLength cs := by
  rw [covering, Position.after_offset]
  exact Nat.add_sub_cancel_left _ _

theorem marks_covering (before text after : List Char) :
    (covering (Position.start.after before) text).Marks (before ++ text ++ after) text := by
  refine ⟨before, after, rfl, ?_, covering_length _ _, ?_, ?_⟩
  · exact Position.start_after_offset before
  · exact Position.start_after_line before
  · exact Position.start_after_column before

theorem Marks.length_eq (h : s.Marks source text) : s.length = Text.byteLength text := by
  obtain ⟨before, after, -, -, hlength, -, -⟩ := h
  exact hlength

theorem Marks.slice?_eq (h : s.Marks source text) :
    Text.slice? s.offset s.length source = some text := by
  obtain ⟨before, after, rfl, hoffset, hlength, -, -⟩ := h
  rw [hoffset, hlength, Text.slice?, List.append_assoc, Text.dropBytes?_byteLength,
    Option.bind_some, Text.takeBytes?_byteLength]

theorem Marks.end_le (h : s.Marks source text) : s.offset + s.length ≤ Text.byteLength source := by
  obtain ⟨before, after, rfl, hoffset, hlength, -, -⟩ := h
  rw [hoffset, hlength, Text.byteLength_append, Text.byteLength_append]
  exact Nat.le_add_right _ _

def In (s : Span) (source : List Char) : Prop := ∃ text, s.Marks source text

theorem in_covering (before text after : List Char) :
    (covering (Position.start.after before) text).In (before ++ text ++ after) :=
  ⟨text, marks_covering before text after⟩

/-- From the beginning of one stretch to the end of another is a stretch too. It is empty if the
end comes first. -/
theorem through_in (hs : s.In source) (ht : t.In source) : (s.through t).In source := by
  obtain ⟨first, before, after, hsource, hoffset, -, hplace⟩ := hs
  obtain ⟨last, before', after', hsource', hoffset', hlength', -, -⟩ := ht
  have hfront : before <+: source := ⟨first ++ after, by rw [hsource, List.append_assoc]⟩
  have hend : before' ++ last <+: source := ⟨after', hsource'.symm⟩
  have hthrough : (s.through t).length =
      Text.byteLength (before' ++ last) - Text.byteLength before := by
    rw [Text.byteLength_append, ← hoffset, ← hoffset', ← hlength']
    rfl
  rcases List.prefix_or_prefix_of_prefix hfront hend with ⟨between, hbetween⟩ | ⟨between, hbetween⟩
  · refine ⟨between, before, after', by rw [hbetween, hsource'], hoffset, ?_, hplace⟩
    rw [hthrough, ← hbetween, Text.byteLength_append, Nat.add_sub_cancel_left]
  · refine ⟨[], before, first ++ after, by simp [hsource], hoffset, ?_, hplace⟩
    have hle : Text.byteLength (before' ++ last) ≤ Text.byteLength before := by
      rw [← hbetween, Text.byteLength_append (before' ++ last)]
      exact Nat.le_add_right _ _
    rw [hthrough, Nat.sub_eq_zero_of_le hle]
    rfl

end Span

theorem SyntaxError.atCharacter_in (e : Expectation) (before rest : List Char) :
    (atCharacter e (Position.start.after before) rest).span.In (before ++ rest) := by
  cases rest with
  | nil =>
    have hin := Span.in_covering before [] []
    rwa [List.append_nil] at hin
  | cons c rest =>
    have hin := Span.in_covering before [c] rest
    rwa [List.append_assoc] at hin

/-- The result is as `P` says, or the error is about a stretch of the source. -/
inductive Located {α : Type} (source : List Char) (P : α → Prop) : Except SyntaxError α → Prop
  | ok {a : α} (h : P a) : Located source P (.ok a)
  | error {e : SyntaxError} (h : e.span.In source) : Located source P (.error e)

theorem Located.of_ok {α : Type} {source : List Char} {P : α → Prop} {a : α}
    (h : Located source P (.ok a)) : P a := by
  cases h with
  | ok h => exact h

theorem Located.of_error {α : Type} {source : List Char} {P : α → Prop} {e : SyntaxError}
    (h : Located source P (.error e)) : e.span.In source := by
  cases h with
  | error h => exact h

theorem Located.map {α β : Type} {source : List Char} {P : α → Prop} {Q : β → Prop} {f : α → β}
    {x : Except SyntaxError α} (h : Located source P x) (hf : ∀ a, P a → Q (f a)) :
    Located source Q (x.map f) := by
  cases h with
  | ok h => exact .ok (hf _ h)
  | error h => exact .error h

end RecordLens
