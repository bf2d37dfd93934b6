import RecordLens.Proofs.Report.Excerpt

/-! The carets under a line. There is one for each character of the span in the line that is shown,
and one if there are none. Where the span goes on behind a line that a return and a feed end, the
return is counted too, although it is not shown. -/

namespace RecordLens

open Text (byteLength)

namespace Span

def Holds (s : Span) (offset : Nat) (c : Char) : Prop :=
  s.offset ≤ offset ∧ offset + c.utf8Size ≤ s.offset + s.length

instance (s : Span) (offset : Nat) (c : Char) : Decidable (s.Holds offset c) :=
  inferInstanceAs (Decidable (_ ∧ _))

/-- How many of the characters from the offset on lie inside of the span. -/
def covered (s : Span) (offset : Nat) : List Char → Nat
  | [] => 0
  | c :: cs => (if s.Holds offset c then 1 else 0) + covered s (offset + c.utf8Size) cs

variable {s : Span} {offset : Nat} {cs : List Char}

theorem covered_append (s : Span) (offset : Nat) (cs ds : List Char) :
    s.covered offset (cs ++ ds) = s.covered offset cs + s.covered (offset + byteLength cs) ds := by
  induction cs generalizing offset with
  | nil => simp [covered]
  | cons c cs ih =>
    rw [List.cons_append, covered, ih, covered, Text.byteLength_cons]
    simp only [Nat.add_assoc]

theorem covered_in_front (h : offset + byteLength cs ≤ s.offset) : s.covered offset cs = 0 := by
  induction cs generalizing offset with
  | nil => rfl
  | cons c cs ih =>
    have hc := c.utf8Size_pos
    rw [Text.byteLength_cons] at h
    have hnot : ¬s.Holds offset c := fun hholds => by
      have := hholds.1
      omega
    rw [covered, if_neg hnot, ih (by omega)]

theorem covered_behind (h : s.offset + s.length ≤ offset) : s.covered offset cs = 0 := by
  induction cs generalizing offset with
  | nil => rfl
  | cons c cs ih =>
    have hc := c.utf8Size_pos
    have hnot : ¬s.Holds offset c := fun hholds => by
      have := hholds.2
      omega
    rw [covered, if_neg hnot, ih (by omega)]

theorem covered_inside (hfront : s.offset ≤ offset)
    (hend : offset + byteLength cs ≤ s.offset + s.length) : s.covered offset cs = cs.length := by
  induction cs generalizing offset with
  | nil => rfl
  | cons c cs ih =>
    rw [Text.byteLength_cons] at hend
    have hholds : s.Holds offset c := ⟨hfront, by omega⟩
    rw [covered, if_pos hholds, ih (by omega) (by omega), List.length_cons, Nat.add_comm]

theorem covered_le (s : Span) (offset : Nat) (cs : List Char) :
    s.covered offset cs ≤ cs.length := by
  induction cs generalizing offset with
  | nil => exact Nat.le_refl _
  | cons c cs ih =>
    have hone : (if s.Holds offset c then 1 else 0) ≤ 1 := by split <;> decide
    rw [covered, List.length_cons, Nat.add_comm cs.length]
    exact Nat.add_le_add hone (ih _)

/-- The line is ended by a return and a feed, and the span goes on behind the return. -/
def Passes (s : Span) (before content ending : List Char) : Prop :=
  ending = ['\r', '\n'] ∧ s.Holds (byteLength (before ++ content)) '\r'

instance (s : Span) (before content ending : List Char) :
    Decidable (s.Passes before content ending) :=
  inferInstanceAs (Decidable (_ ∧ _))

end Span

namespace Text

theorem exists_row {head text after row tail : List Char}
    (h : head ++ (text ++ after) = row ++ tail) (hhead : '\n' ∉ head) (hrow : '\n' ∉ row)
    (htail : ∀ c, tail.head? = some c → c = '\n') :
    ∃ more rest, text = text.takeWhile (· != '\n') ++ more ∧
      row = head ++ text.takeWhile (· != '\n') ++ rest ∧ (more = [] ∨ rest = []) := by
  have hne {cs : List Char} (hcs : '\n' ∉ cs) : ∀ c ∈ cs, (c != '\n') = true := fun c hc =>
    bne_iff_ne.2 fun he => hcs (he ▸ hc)
  have hwhile := congrArg (List.takeWhile (· != '\n')) h
  rw [List.takeWhile_append_of_pos (hne hhead), List.takeWhile_append,
    (takeWhile_append (hne hrow) fun c hc => by simp [htail c hc]).1] at hwhile
  split at hwhile
  case isTrue hlength =>
    have hwhole := (List.takeWhile_prefix (· != '\n')).eq_of_length hlength
    exact ⟨[], after.takeWhile (· != '\n'), by rw [hwhole, List.append_nil],
      by rw [← hwhile, hwhole, List.append_assoc], .inl rfl⟩
  case isFalse =>
    exact ⟨text.dropWhile (· != '\n'), [], List.takeWhile_append_dropWhile.symm,
      by rw [← hwhile, List.append_nil], .inr rfl⟩

theorem IsLine.exists_row {source before content ending : List Char}
    (h : IsLine source before content ending) :
    ∃ more tail, source = before ++ (content ++ more) ++ tail ∧ '\n' ∉ content ++ more ∧
      (∀ c, tail.head? = some c → c = '\n') ∧
      (ending = ['\r', '\n'] ∧ more = ['\r'] ∨ ending ≠ ['\r', '\n'] ∧ more = []) := by
  have hnone : '\n' ∉ content ++ [] := by rw [List.append_nil]; exact h.noFeed
  have hreturn : '\n' ∉ content ++ ['\r'] := by simp [h.noFeed]
  rcases h.ends with ⟨rfl, hsource⟩ | ⟨after, hsource, ⟨rfl, -⟩ | rfl⟩
  · exact ⟨[], [], by simp [hsource], hnone, nofun, .inr ⟨by decide, rfl⟩⟩
  · exact ⟨[], '\n' :: after, by simp [hsource], hnone, by simp, .inr ⟨by decide, rfl⟩⟩
  · exact ⟨['\r'], '\n' :: after, by simp [hsource], hreturn, by simp, .inl ⟨rfl, rfl⟩⟩

end Text

namespace Span

variable {s : Span} {text before head row : List Char}

/-- What a span has of the line in which it begins is counted by the characters inside of it. -/
theorem covered_row {after tail : List Char} (hrow : '\n' ∉ row) (hhead : '\n' ∉ head)
    (htail : ∀ c, tail.head? = some c → c = '\n') (h : head ++ (text ++ after) = row ++ tail)
    (hoffset : s.offset = byteLength (before ++ head)) (hlength : s.length = byteLength text) :
    s.covered (byteLength before) row = (text.takeWhile (· != '\n')).length := by
  obtain ⟨more, rest, htext, rfl, hcases⟩ := Text.exists_row h hhead hrow htail
  rw [Text.byteLength_append] at hoffset
  have hsplit := congrArg byteLength htext
  rw [Text.byteLength_append] at hsplit
  have hrest : s.covered (byteLength before + byteLength (head ++ text.takeWhile (· != '\n'))) rest
      = 0 := by
    rcases hcases with rfl | rfl
    · refine covered_behind ?_
      rw [Text.byteLength_append, hlength, hoffset, hsplit, Text.byteLength_nil]
      omega
    · rfl
  rw [covered_append, hrest, covered_append, covered_in_front (by omega),
    covered_inside (by omega) (by omega)]
  omega

theorem covered_add_length_le {content : List Char}
    (hoffset : s.offset = byteLength (before ++ head)) (hhead : head <+: content) :
    head.length + s.covered (byteLength before) content ≤ content.length := by
  obtain ⟨rest, rfl⟩ := hhead
  rw [Text.byteLength_append] at hoffset
  rw [covered_append, covered_in_front (by omega), Nat.zero_add, List.length_append]
  exact Nat.add_le_add_left (covered_le _ _ _) _

theorem covered_passed {content : List Char} (hoffset : s.offset = byteLength (before ++ head))
    (hhead : head <+: content) (hend : byteLength (before ++ content) ≤ s.offset + s.length) :
    head.length + s.covered (byteLength before) content = content.length := by
  obtain ⟨rest, rfl⟩ := hhead
  rw [← List.append_assoc, Text.byteLength_append] at hend
  have hfront : byteLength before + byteLength head ≤ s.offset :=
    Nat.le_of_eq (by rw [hoffset, Text.byteLength_append])
  rw [covered_append, ← Text.byteLength_append, covered_in_front hfront, Nat.zero_add,
    covered_inside (Nat.le_of_eq hoffset) hend, List.length_append]

end Span

namespace Error

variable {e : Error} {span : Span} {sourceName source : String}
  {before content ending head : List Char} {carets : Nat}

/-- The carets are counted by the characters of the line up to its feed. -/
theorem Shows.caretCount_eq {text : List Char}
    (h : e.Shows span sourceName source before content ending head carets)
    (hsource : ∃ after, source.toList = before ++ head ++ (text ++ after))
    (hlength : span.length = byteLength text)
    (hslice : Text.slice? span.offset span.length source.toList = some text) :
    Report.caretCount span source.toList =
      max 1 (span.covered (byteLength before) content +
        if span.Passes before content ending then 1 else 0) := by
  obtain ⟨after, hsource⟩ := hsource
  obtain ⟨more, tail, hline, hrow, htail, hending⟩ := h.line.exists_row
  have hbehind : head ++ (text ++ after) = content ++ more ++ tail := by
    rw [hline, List.append_assoc before, List.append_assoc before head] at hsource
    exact (List.append_cancel_left hsource).symm
  have hcovered := Span.covered_row hrow h.noFeed htail hbehind h.place hlength
  have hmore : span.covered (byteLength before + byteLength content) more =
      if span.Passes before content ending then 1 else 0 := by
    rcases hending with ⟨hcrlf, rfl⟩ | ⟨hcrlf, rfl⟩
    · rw [← Text.byteLength_append]
      simp [Span.covered, Span.Passes, hcrlf]
    · rw [if_neg fun hpasses => hcrlf hpasses.1]
      rfl
  rw [Report.caretCount, hslice, ← hmore, ← Span.covered_append, hcovered]

/-- What stands in front of the place is in front of the end of the line, or there is nothing of the
line behind the place. -/
theorem Shows.prefix_or_covered_eq_zero
    (h : e.Shows span sourceName source before content ending head carets) :
    head <+: content ∨
      byteLength (before ++ content) < span.offset ∧
        span.covered (byteLength before) content = 0 := by
  rcases List.prefix_or_prefix_of_prefix h.within (List.prefix_append content ending) with
    hhead | ⟨more, hmore⟩
  · exact .inl hhead
  · cases more with
    | nil => exact .inl (by simp [← hmore])
    | cons c more =>
      have hc := c.utf8Size_pos
      have hplace := h.place
      rw [← hmore, ← List.append_assoc, Text.byteLength_append, Text.byteLength_cons] at hplace
      refine .inr ⟨by omega, Span.covered_in_front ?_⟩
      rw [← Text.byteLength_append]
      omega

/-- The carets of an error about a text are as many as the characters of the shown line in its
place, or one if there are none, and none but a single one stands behind the line. If the place goes
on behind a return and a feed, there is one caret more, and it is behind the line. -/
theorem carets_cover [Alphabet] (sourceName : String) {text : String} {e : Error}
    (h : e.Raised text) :
    ∃ span before content ending head carets, e.span? = some span ∧
      e.Shows span sourceName text before content ending head carets ∧
      (¬span.Passes before content ending →
        carets = max 1 (span.covered (byteLength before) content) ∧
          (carets = 1 ∨ head.length + carets ≤ content.length)) ∧
      (span.Passes before content ending →
        carets = span.covered (byteLength before) content + 1 ∧
          head.length + carets = content.length + 1) := by
  obtain ⟨span, hspan, inside, hmarks⟩ := h.exists_span
  obtain ⟨front, back, hsource, hoffset, hlength, hline, hcolumn⟩ := id hmarks
  rw [List.append_assoc] at hsource
  obtain ⟨before, content, ending, head, rfl, hshows⟩ :=
    exists_shows sourceName hspan hsource hoffset hline hcolumn
  have hcount := hshows.caretCount_eq ⟨back, hsource⟩ hlength hmarks.slice?_eq
  refine ⟨span, before, content, ending, head, _, hspan, hshows, fun hpasses => ?_,
    fun hpasses => ?_⟩
  · rw [if_neg hpasses, Nat.add_zero] at hcount
    refine ⟨hcount, ?_⟩
    rcases hshows.prefix_or_covered_eq_zero with hhead | ⟨-, hzero⟩
    · have hle := Span.covered_add_length_le hoffset hhead
      omega
    · exact .inl (by rw [hcount, hzero, Nat.max_zero])
  · rw [if_pos hpasses] at hcount
    have hend := hpasses.2
    rcases hshows.prefix_or_covered_eq_zero with hhead | ⟨hbehind, -⟩
    · have hpassed := Span.covered_passed hoffset hhead (Nat.le_trans (Nat.le_add_right _ _) hend.2)
      omega
    · exact absurd hend.1 (Nat.not_le_of_lt hbehind)

theorem carets_cover_record :
    ∃ e, Expr.readRecord usualNesting "\x7b1 = 1,\r\n3 = 2\x7d" = .error e ∧
      ∃ before content ending head carets,
        (malformed e).Shows ⟨⟨1, 1, 0⟩, 15⟩ "<text>" "\x7b1 = 1,\r\n3 = 2\x7d"
          before content ending head carets ∧
        (Span.Passes ⟨⟨1, 1, 0⟩, 15⟩ before content ending →
          carets = Span.covered ⟨⟨1, 1, 0⟩, 15⟩ (byteLength before) content + 1 ∧
            head.length + carets = content.length + 1) := by
  let e : SyntaxError := ⟨⟨⟨1, 1, 0⟩, 15⟩, .positionsThrough 2, "no field `2`"⟩
  have hread : Expr.readRecord usualNesting "\x7b1 = 1,\r\n3 = 2\x7d" = .error e := by
    decide +kernel
  obtain ⟨span, before, content, ending, head, carets, hspan, hshows, -, hpasses⟩ :=
    carets_cover "<text>" (.record hread)
  obtain rfl := Option.some.inj hspan
  exact ⟨e, hread, before, content, ending, head, carets, hshows, hpasses⟩

/-- The place of a record goes on behind its first line, and the carets are one more than the
characters of the line. -/
theorem not_carets_cover :
    ¬∀ (text : String) (e : Error) (span : Span) (before content ending head : List Char)
      (carets : Nat), e.Raised text → e.span? = some span →
      e.Shows span "<text>" text before content ending head carets →
      carets = max 1 (span.covered (byteLength before) content) := by
  intro hall
  let e : SyntaxError := ⟨⟨⟨1, 1, 0⟩, 15⟩, .positionsThrough 2, "no field `2`"⟩
  have hread : Expr.readRecord usualNesting "\x7b1 = 1,\r\n3 = 2\x7d" = .error e := by
    decide +kernel
  have hline : Text.IsLine "\x7b1 = 1,\r\n3 = 2\x7d".toList [] "\x7b1 = 1,".toList ['\r', '\n'] :=
    ⟨.inl rfl, by decide, .inr ⟨"3 = 2\x7d".toList, by decide, .inr rfl⟩⟩
  have hshows : (malformed e).Shows e.span "<text>" "\x7b1 = 1,\r\n3 = 2\x7d" []
      "\x7b1 = 1,".toList ['\r', '\n'] [] 8 :=
    ⟨hline, rfl, List.nil_prefix, List.not_mem_nil, by decide +kernel⟩
  have hseven : e.span.covered 0 "\x7b1 = 1,".toList = 7 := by decide
  have hcarets := hall _ _ _ _ _ _ _ _ (.record hread) rfl hshows
  rw [Text.byteLength_nil, hseven] at hcarets
  cases hcarets

end Error

end RecordLens
