import RecordLens.Proofs.Report.Places
import RecordLens.Proofs.Text.Lines

/-! The excerpt of a report. The line that is shown is the one that the place is in, whatever ends
it. Line and carets stand behind gutters of one width, and the first caret is as many characters
behind its gutter as the place is behind the beginning of the line. -/

namespace RecordLens

namespace Report

def lineRow (span : Span) (content : List Char) : String :=
  toString span.line ++ " | " ++ String.ofList content

def caretRow (span : Span) (pad : List Char) (carets : Nat) : String :=
  spaces (toString span.line).length ++ " | " ++ String.ofList (pad ++ List.replicate carets '^')

def blanks (cs : List Char) : List Char := cs.map fun c => if c = '\t' then '\t' else ' '

@[simp] theorem length_blanks (cs : List Char) : (blanks cs).length = cs.length := List.length_map _

theorem ne_caret_of_mem_blanks {cs : List Char} {c : Char} (h : c ∈ blanks cs) : c ≠ '^' := by
  obtain ⟨d, -, rfl⟩ := List.mem_map.1 h
  split <;> decide

/-- Where the characters behind the gutter begin. -/
def margin (span : Span) : Nat := (toString span.line).length + 3

theorem toList_lineRow (span : Span) (content : List Char) :
    (lineRow span content).toList = (toString span.line).toList ++ [' ', '|', ' '] ++ content := by
  simp [lineRow]

theorem toList_caretRow (span : Span) (pad : List Char) (carets : Nat) :
    (caretRow span pad carets).toList =
      List.replicate (toString span.line).length ' ' ++ [' ', '|', ' '] ++
        (pad ++ List.replicate carets '^') := by
  simp [caretRow, spaces]

theorem getElem?_lineRow (span : Span) (content : List Char) (i : Nat) :
    (lineRow span content).toList[margin span + i]? = content[i]? := by
  have hlength : ((toString span.line).toList ++ [' ', '|', ' ']).length = margin span := by
    rw [List.length_append, String.length_toList]
    rfl
  rw [toList_lineRow, List.getElem?_append_right (by omega), hlength, Nat.add_sub_cancel_left]

theorem getElem?_caretRow (span : Span) {pad : List Char} (hpad : ∀ c ∈ pad, c ≠ '^')
    (carets : Nat) :
    (caretRow span pad (carets + 1)).toList[margin span + pad.length]? = some '^' ∧
      ∀ i < margin span + pad.length, (caretRow span pad (carets + 1)).toList[i]? ≠ some '^' := by
  let front := List.replicate (toString span.line).length ' ' ++ [' ', '|', ' '] ++ pad
  have hrow : (caretRow span pad (carets + 1)).toList =
      front ++ '^' :: List.replicate carets '^' := by
    rw [toList_caretRow, List.replicate_succ, ← List.append_assoc]
  have hlength : front.length = margin span + pad.length := by
    rw [List.length_append, List.length_append, List.length_replicate]
    rfl
  rw [hrow, ← hlength]
  constructor
  · rw [List.getElem?_append_right (Nat.le_refl _), Nat.sub_self]
    rfl
  · intro i hi hcaret
    rw [List.getElem?_append_left hi] at hcaret
    have hmem : '^' ∈ front := List.mem_of_getElem? hcaret
    simp only [front, List.mem_append, List.mem_replicate, List.mem_cons] at hmem
    rcases hmem with (⟨-, h⟩ | h) | h
    · exact absurd h (by decide)
    · simp at h
    · exact hpad _ h rfl

end Report

namespace Error

/-- The report of the error has these rows. The line is the one of the source that the place is in,
`head` is what stands of it in front of the place, and as much is left free in front of the
carets. -/
structure Shows (e : Error) (span : Span) (sourceName source : String)
    (before content ending head : List Char) (carets : Nat) : Prop where
  line : Text.IsLine source.toList before content ending
  place : span.offset = Text.byteLength (before ++ head)
  within : head <+: content ++ ending
  noFeed : '\n' ∉ head
  report : e.report sourceName source = Text.joined "\n"
    (["error: " ++ e.message,
      Report.spaces (toString span.line).length ++ "--> " ++ sourceName ++ ":" ++ span.place,
      Report.spaces (toString span.line).length ++ " |",
      Report.lineRow span content,
      Report.caretRow span (Report.blanks (content.take head.length)) carets] ++
      Report.noteLines (toString span.line).length e.notes)

theorem exists_shows {e : Error} {span : Span} (sourceName : String) {source : String}
    {front back : List Char} (hspan : e.span? = some span) (hsource : source.toList = front ++ back)
    (hoffset : span.offset = Text.byteLength front) (hline : span.line = 1 + front.count '\n')
    (hcolumn : span.column = 1 + (front.reverse.takeWhile (· ≠ '\n')).length) :
    ∃ before content ending head, front = before ++ head ∧
      e.Shows span sourceName source before content ending head
        (Report.caretCount span source.toList) := by
  obtain ⟨before, content, ending, head, hisLine, rfl, hwithin, hhead, hcontent⟩ :=
    Text.exists_isLine front back
  rw [← hsource] at hisLine hcontent
  have hshown : Report.shownLine span source.toList = content := by
    rw [Report.shownLine, hline, Nat.add_sub_cancel_left, hcontent]
  have hpad : Report.pad span content = Report.blanks (content.take head.length) := by
    rw [Report.pad, Report.blanks, hcolumn, Text.takeWhile_reverse_append hisLine.begins hhead,
      Nat.add_sub_cancel_left, List.length_reverse]
  refine ⟨before, content, ending, head, rfl, hisLine, hoffset, hwithin, hhead, ?_⟩
  rw [Error.report, hspan]
  simp only [Report.excerpt, hshown, hpad]
  rfl

theorem caretCount_pos (span : Span) (source : List Char) : 0 < Report.caretCount span source := by
  unfold Report.caretCount
  split
  · exact Nat.one_pos
  · exact Nat.lt_of_lt_of_le Nat.one_pos (Nat.le_max_left _ _)

/-- A report shows the line of the place, and the first caret stands in the column of the character
at the place, where the line is shown, or behind the line if that is none of it. All errors about a
text have such a place. -/
theorem report_aligned [Alphabet] (sourceName source : String) :
    (∀ e, Raised source e → ∃ span, e.span? = some span ∧ span.Agrees source.toList) ∧
    ∀ (e : Error) (span : Span), e.span? = some span → span.Agrees source.toList →
      ∃ before content ending head carets,
        e.Shows span sourceName source before content ending head (carets + 1) ∧
        ∃ (pad : List Char) (column : Nat), pad = Report.blanks (content.take head.length) ∧
          (Report.caretRow span pad (carets + 1)).toList[column]? = some '^' ∧
          (∀ i < column, (Report.caretRow span pad (carets + 1)).toList[i]? ≠ some '^') ∧
          (Report.lineRow span content).toList[column]? = content[head.length]? := by
  constructor
  · intro e he
    obtain ⟨span, hspan, hin⟩ := he.exists_span
    exact ⟨span, hspan, hin.agrees⟩
  · intro e span hspan h
    obtain ⟨front, back, hsource, hoffset, hline, hcolumn⟩ := h
    obtain ⟨before, content, ending, head, -, hshows⟩ :=
      exists_shows sourceName hspan hsource hoffset hline hcolumn
    obtain ⟨carets, hcarets⟩ := Nat.exists_eq_add_of_lt (caretCount_pos span source.toList)
    rw [Nat.zero_add] at hcarets
    rw [hcarets] at hshows
    let pad := Report.blanks (content.take head.length)
    have hpad : ∀ c ∈ pad, c ≠ '^' := fun c => Report.ne_caret_of_mem_blanks
    obtain ⟨hcaret, hfirst⟩ := Report.getElem?_caretRow span hpad carets
    refine ⟨before, content, ending, head, carets, hshows, pad,
      Report.margin span + pad.length, rfl, hcaret, hfirst, ?_⟩
    rw [Report.getElem?_lineRow, Report.length_blanks, List.length_take]
    by_cases hle : head.length ≤ content.length
    · rw [Nat.min_eq_left hle]
    · rw [Nat.min_eq_right (Nat.le_of_not_le hle), List.getElem?_eq_none (Nat.le_refl _),
        List.getElem?_eq_none (Nat.le_of_not_le hle)]

/-- The place is behind a line that a return and a feed end, and behind a tab. -/
theorem report_aligned_tab :
    ∃ e, Expr.read usualNesting "\x7bx =\r\n\t?\x7d" = .error e ∧
      Raised "\x7bx =\r\n\t?\x7d" (malformed e) ∧ e.span = ⟨⟨2, 2, 7⟩, 1⟩ ∧
      ∃ before content ending head carets,
        (malformed e).Shows e.span "<text>" "\x7bx =\r\n\t?\x7d" before content ending head
          (carets + 1) := by
  let e : SyntaxError := ⟨⟨⟨2, 2, 7⟩, 1⟩, .token, "`?`"⟩
  have hread : Expr.read usualNesting "\x7bx =\r\n\t?\x7d" = .error e := by decide +kernel
  have hraised : Raised "\x7bx =\r\n\t?\x7d" (malformed e) := .value hread
  have haligned := report_aligned "<text>" "\x7bx =\r\n\t?\x7d"
  obtain ⟨span, hspan, hagrees⟩ := haligned.1 _ hraised
  obtain ⟨before, content, ending, head, carets, hshows, -⟩ := haligned.2 _ span hspan hagrees
  obtain rfl := Option.some.inj hspan
  exact ⟨e, hread, hraised, rfl, before, content, ending, head, carets, hshows⟩

end Error

end RecordLens
