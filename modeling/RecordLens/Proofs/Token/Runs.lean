import RecordLens.Proofs.Token.Tiling

/-! Runs of tokens. The tokens of a text in a row stand on a stretch of it, from the beginning of
the first to the end of the last, and by itself this stretch is scanned to the same lexemes. -/

namespace RecordLens

open Text (byteLength)

namespace Lexeme

theorem isMark_of_punctuation {c : Char} {l : Lexeme} (h : punctuation? c = some l) : l.IsMark := by
  unfold punctuation? at h
  split at h
  case h_8 => cases h
  all_goals
    obtain rfl := Option.some.inj h
    trivial

theorem eq_of_take_punctuation [Alphabet] {c : Char} {l : Lexeme} (hc : punctuation? c = some l)
    {cs rest : List Char} (h : take cs = .ok (l, rest)) : cs = c :: rest := by
  have hl := isMark_of_punctuation hc
  unfold take at h
  split at h
  · obtain ⟨rfl, -⟩ := Prod.mk.inj (Except.ok.inj h)
    exact hl.elim
  · split at h
    · next hn =>
      obtain rfl := Except.ok.inj h
      have hnumber := number?_isNumber hn
      cases l <;> first | exact hnumber.elim | exact hl.elim
    · unfold mark at h
      split at h
      case h_1 =>
        obtain ⟨found, -, hfound⟩ := exists_of_map_eq_ok h
        obtain ⟨rfl, -⟩ := Prod.mk.inj hfound
        unfold punctuation? at hc
        split at hc <;> cases hc
      case h_2 =>
        obtain ⟨d, rfl⟩ := eq_character_of_characterBody h
        unfold punctuation? at hc
        split at hc <;> cases hc
      case h_11 => cases h
      all_goals
        obtain ⟨rfl, rfl⟩ := Prod.mk.inj (Except.ok.inj h)
        unfold punctuation? at hc
        split at hc <;> first | rfl | cases hc

end Lexeme

variable [Alphabet]

namespace Token

theorem eq_taken_append {cs rest : List Char} {l : Lexeme} (h : Lexeme.take cs = .ok (l, rest)) :
    cs = taken cs rest ++ rest := by
  obtain ⟨word, -, rfl⟩ := Lexeme.take_takes h
  rw [taken_append]

theorem exists_of_scanFrom_append {p : Position} {cs : List Char} {front back : List Token}
    {t : Token} (h : scanFrom p cs = .ok (front ++ t :: back)) :
    ∃ gone rest, cs = gone ++ rest ∧ scanFrom (p.after gone) rest = .ok (t :: back) ∧
      t.span.toPosition = p.after gone ∧ ∀ c, rest.head? = some c → Text.isBlank c = false := by
  fun_induction scanFrom p cs generalizing front with
  | case1 p =>
    rcases List.append_eq_singleton_iff.1 (Except.ok.inj h).symm with ⟨rfl, hback⟩ | ⟨-, hback⟩
    · obtain ⟨rfl, rfl⟩ := List.cons.inj hback
      exact ⟨[], [], rfl, scanFrom_nil p, rfl, by simp⟩
    · exact absurd hback (List.cons_ne_nil t back)
  | case2 p c tail hc ih =>
    obtain ⟨gone, rest, rfl, hscan, hplace, hsolid⟩ := ih h
    exact ⟨c :: gone, rest, rfl, hscan, hplace, hsolid⟩
  | case3 => cases h
  | case4 => cases h
  | case5 p c tail hc l rest htake text more hmore =>
    rename_i ih
    have htokens := (Except.ok.inj h).symm
    cases front with
    | nil =>
      obtain ⟨rfl, rfl⟩ := List.cons.inj htokens
      have hscan : scanFrom p (c :: tail) = _ := scanFrom_lexeme p (by simpa using hc) htake
      rw [hmore] at hscan
      exact ⟨[], c :: tail, rfl, hscan, rfl, by simpa using hc⟩
    | cons f front =>
      obtain ⟨rfl, rfl⟩ := List.cons.inj htokens
      obtain ⟨gone, behind, hcs, hscan, hplace, hsolid⟩ := ih hmore
      have htext : c :: tail = text ++ rest := eq_taken_append htake
      refine ⟨text ++ gone, behind, ?_, ?_, ?_, hsolid⟩
      · rw [htext, hcs, List.append_assoc]
      · rw [Position.after_append]
        exact hscan
      · rw [Position.after_append]
        exact hplace

/-- Where more is scanned behind a run of tokens, the text up to the end of the last one is scanned
to its lexemes, and what follows to the tokens behind. -/
theorem exists_scans_of_scanFrom {p : Position} {cs : List Char} {run back : List Token}
    (h : scanFrom p cs = .ok (run ++ back)) (hback : back ≠ []) :
    ∃ word rest, cs = word ++ rest ∧ Scans rest cs (run.map lexeme) ∧
      scanFrom (p.after word) rest = .ok back ∧ (run = [] → word = []) ∧
      ∀ last, run.getLast? = some last →
        last.span.offset + last.span.length = p.offset + byteLength word := by
  by_cases hrun : run = []
  · obtain rfl := hrun
    exact ⟨[], cs, rfl, .done, h, fun _ => rfl, nofun⟩
  fun_induction scanFrom p cs generalizing run with
  | case1 p =>
    rcases List.append_eq_singleton_iff.1 (Except.ok.inj h).symm with ⟨rfl, -⟩ | ⟨-, rfl⟩
    · exact absurd rfl hrun
    · exact absurd rfl hback
  | case2 p c tail hc ih =>
    obtain ⟨word, rest, rfl, hscans, hscan, -, hend⟩ := ih h hrun
    refine ⟨c :: word, rest, rfl, .blank hc hscans, hscan, fun hnil => absurd hnil hrun,
      fun last hlast => ?_⟩
    rw [hend last hlast, Position.next_offset, Text.byteLength_cons, Nat.add_assoc]
  | case3 => cases h
  | case4 => cases h
  | case5 p c tail hc l rest htake text more hmore =>
    rename_i ih
    have htokens := (Except.ok.inj h).symm
    have htext : c :: tail = text ++ rest := eq_taken_append htake
    have hsolid : Text.isBlank c = false := by simpa using hc
    obtain ⟨t, run, rfl⟩ := List.exists_cons_of_ne_nil hrun
    obtain ⟨rfl, rfl⟩ := List.cons.inj htokens
    by_cases hmany : run = []
    · obtain rfl := hmany
      refine ⟨text, rest, htext, .lexeme hsolid htake .done, hmore,
        fun hnil => absurd hnil hrun, fun last hlast => ?_⟩
      obtain rfl := Option.some.inj hlast
      show p.offset + (Span.covering p text).length = _
      rw [Span.covering_length]
    · obtain ⟨behind, left, rfl, hscans, hscan, -, hend⟩ := ih hmore hmany
      refine ⟨text ++ behind, left, by rw [htext, List.append_assoc],
        .lexeme hsolid htake hscans, ?_, fun hnil => absurd hnil hrun, fun last hlast => ?_⟩
      · rw [Position.after_append]
        exact hscan
      · rw [List.getLast?_cons_of_ne_nil hmany] at hlast
        rw [hend last hlast, Position.after_offset, Text.byteLength_append, Nat.add_assoc]

/-- The tokens in a row stand on the stretch between the beginning of the first and the end of the
last, a gap lies between this and the end of those behind. The stretch begins with no blank, and
stretch and gap are by themselves scanned to the lexemes. -/
theorem exists_marks_of_infix {text : String} {words run more back : List Token}
    {first last : Token} (h : scan text = .ok (words ++ back)) (hback : back ≠ [])
    (hrun : run ++ more <:+: words) (hfirst : run.head? = some first)
    (hlast : run.getLast? = some last) :
    ∃ word gap, (first.span.through last.span).Marks text.toList word ∧
      Text.slice? first.span.offset ((first.span.through last.span).length + byteLength gap)
        text.toList = some (word ++ gap) ∧
      Scans [] word (run.map lexeme) ∧ Scans [] gap (more.map lexeme) ∧
      Scans [] (word ++ gap) ((run ++ more).map lexeme) ∧ (more = [] → gap = []) ∧
      ∀ c, word.head? = some c → Text.isBlank c = false := by
  obtain ⟨front, behind, rfl⟩ := hrun
  obtain ⟨others, rfl⟩ := List.head?_eq_some_iff.1 hfirst
  have htokens : front ++ (first :: others ++ more) ++ behind ++ back =
      front ++ first :: (others ++ (more ++ (behind ++ back))) := by simp
  rw [htokens] at h
  obtain ⟨gone, rest, htext, hscan, hplace, hsolid⟩ := exists_of_scanFrom_append h
  rw [← List.cons_append] at hscan
  have hleft : behind ++ back ≠ [] := List.append_ne_nil_of_right_ne_nil behind hback
  have hne : more ++ (behind ++ back) ≠ [] := List.append_ne_nil_of_right_ne_nil more hleft
  obtain ⟨word, rest, rfl, hscans, hscan, -, hend⟩ := exists_scans_of_scanFrom hscan hne
  obtain ⟨gap, rest, rfl, hmore, -, hgap, -⟩ := exists_scans_of_scanFrom hscan hleft
  have hall : Scans ([] ++ rest) (word ++ gap ++ rest) ((first :: others ++ more).map lexeme) := by
    rw [List.map_append, List.append_assoc]
    exact hscans.append hmore
  have alone {cs behind : List Char} {ls : List Lexeme}
      (hcs : Scans ([] ++ behind) (cs ++ behind) ls) : Scans [] cs ls := by
    obtain ⟨before, hbefore, hscans⟩ := hcs.truncate
    rwa [List.append_cancel_right hbefore]
  have hoffset : first.span.offset = byteLength gone := by rw [hplace, Position.start_after_offset]
  have hlength : (first.span.through last.span).length = byteLength word := by
    have hlast := hend last hlast
    rw [Position.start_after_offset] at hlast
    show last.span.offset + last.span.length - first.span.offset = byteLength word
    rw [hlast, hoffset, Nat.add_sub_cancel_left]
  have hwhole : text.toList = gone ++ word ++ (gap ++ rest) := by rw [htext, List.append_assoc]
  refine ⟨word, gap, ⟨gone, gap ++ rest, hwhole, hoffset, hlength, ?_, ?_⟩, ?_, alone hscans,
    alone hmore, alone hall, hgap, fun c hc => ?_⟩
  · show first.span.line = _
    rw [hplace, Position.start_after_line]
  · show first.span.column = _
    rw [hplace, Position.start_after_column]
  · rw [hlength, hoffset, ← Text.byteLength_append, htext, Text.slice?, Text.dropBytes?_byteLength,
      Option.bind_some, ← List.append_assoc, Text.takeBytes?_byteLength]
  · obtain ⟨tail, rfl⟩ := List.head?_eq_some_iff.1 hc
    exact hsolid c rfl

theorem Scans.head?_eq {rest cs : List Char} {c : Char} {l : Lexeme} {ls : List Lexeme}
    (h : Scans rest cs (l :: ls)) (hc : Lexeme.punctuation? c = some l)
    (hsolid : ∀ d, cs.head? = some d → Text.isBlank d = false) : cs.head? = some c := by
  cases h with
  | blank hd _ => exact absurd (hsolid _ rfl) (by simp [hd])
  | lexeme _ htake _ => exact congrArg List.head? (Lexeme.eq_of_take_punctuation hc htake)

end Token

end RecordLens
