import RecordLens.Path.Reader
import RecordLens.Proofs.Literal.Derivation
import RecordLens.Proofs.Text.Place

/-! What is read as a path: names with points between them and blanks behind them. Every name stands
where its text stands, and an error is about a place of the text. -/

namespace RecordLens

variable [Alphabet]

namespace Segment

inductive IsText : List Char → Prop
  | label {name : String} (h : Text.IsIdentifier name) : IsText name.toList
  | position {digits : List Char} (h : IsDigits digits) : IsText digits

theorem isText_of_take {p : Position} {cs rest : List Char} {s : Segment}
    (h : take p cs = .ok (s, rest)) : ∃ text, cs = text ++ rest ∧ IsText text := by
  unfold take at h
  split at h
  · next name behind hname =>
    obtain ⟨-, rfl⟩ := Prod.mk.inj (Except.ok.inj h)
    have htext := IsText.label (Text.isIdentifier_of_identifier? hname)
    rw [String.toList_ofList] at htext
    exact ⟨name, (Text.append_of_identifier? hname).symm, htext⟩
  · simp only at h
    split at h
    · simp at h
    · next hne =>
      split at h
      · simp at h
      · obtain ⟨-, rfl⟩ := Prod.mk.inj (Except.ok.inj h)
        refine ⟨cs.takeWhile Char.isDigit, List.takeWhile_append_dropWhile.symm, .position ?_⟩
        exact ⟨by simpa using hne, List.all_eq_true.1 List.all_takeWhile⟩

theorem located_take (before cs : List Char) :
    Located (before ++ cs)
      (fun found => found.1.name.text.toList ++ found.2 = cs ∧
        found.1.span = .covering (Position.start.after before) found.1.name.text.toList)
      (take (Position.start.after before) cs) := by
  unfold take
  split
  · next name rest hname =>
    refine .ok ⟨?_, ?_⟩
    · rw [FieldName.text, String.toList_ofList]
      exact Text.append_of_identifier? hname
    · rw [FieldName.text, String.toList_ofList]
  · dsimp only
    split
    · exact .error (SyntaxError.atCharacter_in _ before cs)
    · next hne =>
      have hcs : cs.takeWhile Char.isDigit ++ cs.dropWhile Char.isDigit = cs :=
        List.takeWhile_append_dropWhile
      split
      · next e he =>
        have hin := Span.in_covering before (cs.takeWhile Char.isDigit) (cs.dropWhile Char.isDigit)
        rw [List.append_assoc, hcs] at hin
        exact .error (FieldName.span_eq_of_ofDigits he ▸ hin)
      · next name hname =>
        have hdigits : IsDigits (String.ofList (cs.takeWhile Char.isDigit)).toList := by
          rw [String.toList_ofList]
          exact ⟨by simpa using hne, List.all_eq_true.1 List.all_takeWhile⟩
        have htext := (FieldName.ofDigits_eq_ok_iff.1 hname).text_eq_digits hdigits
        rw [String.toList_ofList] at htext
        exact .ok ⟨by rw [htext, hcs], by rw [htext]⟩

theorem marks_of_take {before cs rest : List Char} {s : Segment}
    (h : take (Position.start.after before) cs = .ok (s, rest)) :
    s.span.Marks (before ++ cs) s.name.text.toList ∧ ∃ front,
      (Position.start.after before).after (Token.taken cs rest) = Position.start.after front ∧
      front ++ rest = before ++ cs := by
  have hsegment := located_take before cs
  rw [h] at hsegment
  obtain ⟨rfl, hspan⟩ := hsegment.of_ok
  refine ⟨?_, before ++ s.name.text.toList, ?_, List.append_assoc _ _ _⟩
  · rw [hspan, ← List.append_assoc]
    exact Span.marks_covering _ _ _
  · rw [Token.taken_append, Position.after_append]

end Segment

namespace PathExpr

/-- What follows a segment: more of them, each behind a point, and blanks at the end. -/
inductive IsTail : List Char → Prop
  | blanks {cs : List Char} (h : ∀ c ∈ cs, Text.isBlank c = true) : IsTail cs
  | segment {text tail : List Char} (htext : Segment.IsText text) (h : IsTail tail) :
      IsTail ('.' :: (text ++ tail))

theorem isTail_of_readFrom {p : Position} {cs : List Char} {segments : PathExpr}
    (h : readFrom p cs = .ok segments) :
    ∃ text tail, cs = text ++ tail ∧ Segment.IsText text ∧ IsTail tail := by
  fun_induction readFrom p cs generalizing segments with
  | case1 => simp at h
  | case2 => simp at h
  | case3 p cs segment rest htake segments hread ih =>
    obtain ⟨text, htext, hsegment⟩ := Segment.isText_of_take htake
    obtain ⟨next, tail, rfl, hnext, htail⟩ := ih hread
    exact ⟨text, _, htext, hsegment, .segment hnext htail⟩
  | case4 p cs segment rest _ htake hblank =>
    obtain ⟨text, htext, hsegment⟩ := Segment.isText_of_take htake
    exact ⟨text, rest, htext, hsegment, .blanks (List.all_eq_true.1 hblank)⟩
  | case5 => simp at h

theorem IsTail.not_isSubsequent {tail : List Char} (h : IsTail tail) :
    ∀ c, tail.head? = some c → Text.isSubsequent c = false := by
  intro c hc
  cases h with
  | blanks h => exact Text.isSubsequent_of_isBlank (h c (List.mem_of_mem_head? hc))
  | segment =>
    obtain rfl : '.' = c := Option.some.inj hc
    exact Text.isSubsequent_of_ascii (by decide)

theorem IsTail.not_isDigit {tail : List Char} (h : IsTail tail) :
    ∀ c, tail.head? = some c → c.isDigit = false :=
  fun c hc => Text.isDigit_of_isSubsequent_eq_false (h.not_isSubsequent c hc)

def Spelled (source : List Char) (p : PathExpr) : Prop :=
  ∀ s ∈ p, s.span.Marks source s.name.text.toList

theorem located_readFrom (before cs : List Char) :
    Located (before ++ cs) (Spelled (before ++ cs))
      (readFrom (Position.start.after before) cs) := by
  generalize hp : Position.start.after before = p
  have behind {front rest source : List Char} (h : front ++ '.' :: rest = source) :
      front ++ ['.'] ++ rest = source := by rwa [List.append_assoc, List.singleton_append]
  fun_induction readFrom p cs generalizing before with
  | case1 p cs e htake =>
    subst hp
    have hsegment := Segment.located_take before cs
    rw [htake] at hsegment
    exact .error hsegment.of_error
  | case2 p cs segment rest htake e hread ih =>
    subst hp
    obtain ⟨-, front, hfront, hsource⟩ := Segment.marks_of_take htake
    have hrest := ih (front ++ ['.']) (by rw [hfront, Position.after_concat])
    rw [hread, behind hsource] at hrest
    exact .error hrest.of_error
  | case3 p cs segment rest htake segments hread ih =>
    subst hp
    obtain ⟨hmarks, front, hfront, hsource⟩ := Segment.marks_of_take htake
    have hrest := ih (front ++ ['.']) (by rw [hfront, Position.after_concat])
    rw [hread, behind hsource] at hrest
    exact .ok (List.forall_mem_cons.2 ⟨hmarks, hrest.of_ok⟩)
  | case4 p cs segment rest _ htake _ =>
    subst hp
    exact .ok (List.forall_mem_singleton.2 (Segment.marks_of_take htake).1)
  | case5 p cs segment rest _ htake _ =>
    subst hp
    obtain ⟨-, front, hfront, hsource⟩ := Segment.marks_of_take htake
    rw [hfront, ← hsource]
    exact .error (SyntaxError.atCharacter_in _ front rest)

/-- The names of a path stand in its text, and so does the place of the error. -/
theorem located_read (text : String) :
    Located text.toList (Spelled text.toList) (read text) := by
  have h := located_readFrom (text.toList.takeWhile Text.isBlank)
    (text.toList.dropWhile Text.isBlank)
  rwa [List.takeWhile_append_dropWhile] at h

end PathExpr

end RecordLens
