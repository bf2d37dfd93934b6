import RecordLens.Proofs.Text.Place
import RecordLens.Proofs.Token.Prefix
import RecordLens.Text.Unicode

/-! Tokens tile their text. Each stands on the characters it is made of, by which alone it is made
again, the next begins no earlier than it ends, and what lies between them is blank. Where the
scan fails, it has come to a character that it cannot go on with. -/

namespace RecordLens

open Text (byteLength)

namespace Lexeme

theorem take_self [Alphabet] {c : Char} {cs rest : List Char} {l : Lexeme}
    (h : take (c :: cs ++ rest) = .ok (l, rest)) : take (c :: cs) = .ok (l, []) := by
  rcases take_append h with ⟨behind, heq, hfound⟩ | ⟨hlt, -⟩
  · obtain rfl : behind = [] := List.append_left_eq_self.1 heq.symm
    exact hfound
  · exact absurd hlt (Nat.lt_irrefl _)

theorem error_of_map_eq_error {ε α β : Type} {f : α → β} {x : Except ε α} {e : ε}
    (h : x.map f = .error e) : x = .error e := by
  cases x with
  | error e' => exact congrArg Except.error (Except.error.inj h)
  | ok a => exact absurd h nofun

theorem stringBody_error {cs : List Char} {m : Malformed} (h : stringBody cs = .error m) :
    m.rest <:+ cs ∧ m.expected ≠ .token := by
  have behind {c : Char} {rest : List Char} (hrest : m.rest <:+ rest ∧ m.expected ≠ .token) :
      m.rest <:+ c :: rest ∧ m.expected ≠ .token :=
    ⟨hrest.1.trans (List.suffix_cons c rest), hrest.2⟩
  fun_induction stringBody cs with
  | case1 =>
    obtain rfl := Except.error.inj h
    exact ⟨List.nil_suffix, by simp⟩
  | case2 => cases h
  | case3 =>
    obtain rfl := Except.error.inj h
    exact ⟨List.nil_suffix, by simp⟩
  | case4 =>
    obtain rfl := Except.error.inj h
    exact ⟨List.suffix_cons _ _, by simp⟩
  | case5 c rest d hd ih => exact behind (behind (ih (error_of_map_eq_error h)))
  | case6 c rest _ _ _ ih => exact behind (ih (error_of_map_eq_error h))

theorem characterEnd_error {c : Char} {cs : List Char} {m : Malformed}
    (h : characterEnd c cs = .error m) : m.rest <:+ cs ∧ m.expected ≠ .token := by
  unfold characterEnd at h
  split at h
  · cases h
  · obtain rfl := Except.error.inj h
    exact ⟨List.suffix_rfl, by simp⟩

theorem characterBody_error {cs : List Char} {m : Malformed} (h : characterBody cs = .error m) :
    m.rest <:+ cs ∧ m.expected ≠ .token := by
  unfold characterBody at h
  split at h
  · obtain rfl := Except.error.inj h
    exact ⟨List.nil_suffix, by simp⟩
  · obtain rfl := Except.error.inj h
    exact ⟨List.suffix_rfl, by simp⟩
  · obtain rfl := Except.error.inj h
    exact ⟨List.nil_suffix, by simp⟩
  · split at h
    · obtain rfl := Except.error.inj h
      exact ⟨List.suffix_cons _ _, by simp⟩
    · obtain ⟨hrest, hexpected⟩ := characterEnd_error h
      exact ⟨(hrest.trans (List.suffix_cons _ _)).trans (List.suffix_cons _ _), hexpected⟩
  · obtain ⟨hrest, hexpected⟩ := characterEnd_error h
    exact ⟨hrest.trans (List.suffix_cons _ _), hexpected⟩

theorem take_error [Alphabet] {cs : List Char} {m : Malformed} (h : take cs = .error m) :
    m.rest <:+ cs ∧ (m.expected = .token → m.rest = cs) := by
  have quoted {c : Char} {rest : List Char} (hrest : m.rest <:+ rest ∧ m.expected ≠ .token) :
      m.rest <:+ c :: rest ∧ (m.expected = .token → m.rest = c :: rest) :=
    ⟨hrest.1.trans (List.suffix_cons c rest), fun he => absurd he hrest.2⟩
  unfold take at h
  split at h
  · cases h
  · split at h
    · cases h
    · unfold mark at h
      split at h
      · exact quoted (stringBody_error (error_of_map_eq_error h))
      · exact quoted (characterBody_error h)
      case h_11 =>
        obtain rfl := Except.error.inj h
        exact ⟨List.suffix_rfl, fun _ => rfl⟩
      all_goals cases h

end Lexeme

namespace Token

/-- Behind `before` the tokens stand on the characters, with nothing but blanks between them. -/
inductive Stand [Alphabet] : List Char → List Char → List Token → Prop
  | nil {before : List Char} : Stand before [] []
  | blank {before cs : List Char} {c : Char} {tokens : List Token} (hc : Text.isBlank c = true)
      (h : Stand (before ++ [c]) cs tokens) : Stand before (c :: cs) tokens
  | lexeme {before cs rest : List Char} {c : Char} {l : Lexeme} {tokens : List Token}
      (hc : Text.isBlank c = false) (htake : Lexeme.take (c :: cs) = .ok (l, []))
      (h : Stand (before ++ c :: cs) rest tokens) :
      Stand before (c :: cs ++ rest)
        (⟨l, .covering (Position.start.after before) (c :: cs)⟩ :: tokens)

/-- The end of a source. -/
def stop (source : List Char) : Token := ⟨.endOfInput, .covering (Position.start.after source) []⟩

theorem Scans.stand [Alphabet] {cs : List Char} {ls : List Lexeme} (h : Scans [] cs ls)
    (before : List Char) :
    ∃ words, scanFrom (Position.start.after before) cs = .ok (words ++ [stop (before ++ cs)]) ∧
      Stand before cs words := by
  induction h generalizing before with
  | done =>
    refine ⟨[], ?_, .nil⟩
    rw [scanFrom_nil, List.append_nil]
    rfl
  | @blank c cs ls hc _ ih =>
    obtain ⟨words, hscan, hwords⟩ := ih (before ++ [c])
    refine ⟨words, ?_, .blank hc hwords⟩
    rw [scanFrom_blank _ hc, ← Position.after_concat, hscan, List.append_assoc]
    rfl
  | @lexeme c cs tail l ls hc htake _ ih =>
    obtain ⟨word, hne, hword⟩ := Lexeme.take_takes htake
    obtain ⟨d, word, rfl⟩ := List.exists_cons_of_ne_nil hne
    obtain ⟨rfl, rfl⟩ := List.cons.inj hword
    obtain ⟨words, hscan, hwords⟩ := ih (before ++ c :: word)
    refine ⟨_ :: words, ?_, .lexeme hc (Lexeme.take_self htake) hwords⟩
    have hstep := scanFrom_take (Position.start.after before) hc htake
    rw [← Position.after_append, hscan, List.append_assoc] at hstep
    exact hstep

namespace Stand

variable {before cs : List Char} {tokens : List Token}

theorem marks [Alphabet] (h : Stand before cs tokens) : ∀ t ∈ tokens, ∃ c word,
    t.span.Marks (before ++ cs) (c :: word) ∧ Text.isBlank c = false ∧
      Lexeme.take (c :: word) = .ok (t.lexeme, []) := by
  induction h with
  | nil => exact nofun
  | @blank before cs c tokens hc _ ih =>
    intro t ht
    have hword := ih t ht
    rwa [List.append_assoc, List.singleton_append] at hword
  | @lexeme before cs rest c l tokens hc htake _ ih =>
    rw [← List.append_assoc]
    intro t ht
    cases ht with
    | head => exact ⟨c, cs, Span.marks_covering before (c :: cs) rest, hc, htake⟩
    | tail _ ht => exact ih t ht

theorem le_offset [Alphabet] (h : Stand before cs tokens) :
    ∀ t ∈ tokens, byteLength before ≤ t.span.offset := by
  induction h with
  | nil => exact nofun
  | blank _ _ ih =>
    intro t ht
    have hle := ih t ht
    rw [Text.byteLength_append] at hle
    exact Nat.le_of_add_right_le hle
  | lexeme _ _ _ ih =>
    intro t ht
    cases ht with
    | head => exact Nat.le_of_eq (Position.start_after_offset _).symm
    | tail _ ht =>
      have hle := ih t ht
      rw [Text.byteLength_append] at hle
      exact Nat.le_of_add_right_le hle

theorem pairwise [Alphabet] (h : Stand before cs tokens) :
    tokens.Pairwise fun t u => t.span.offset + t.span.length ≤ u.span.offset := by
  induction h with
  | nil => exact .nil
  | blank _ _ ih => exact ih
  | lexeme _ _ hrest ih =>
    refine .cons (fun u hu => ?_) ih
    have hle := hrest.le_offset u hu
    rw [Text.byteLength_append] at hle
    show (Position.start.after _).offset + _ ≤ _
    rw [Position.start_after_offset, Span.covering_length]
    exact hle

theorem append_eq_append_cons_cases {word rest front back : List Char} {c : Char}
    (h : word ++ rest = front ++ c :: back) :
    (∃ between, front = word ++ between ∧ rest = between ++ c :: back) ∨
      ∃ tail, word = front ++ c :: tail := by
  rcases List.append_eq_append_iff.1 h with hbehind | ⟨tail, hword, htail⟩
  · exact .inl hbehind
  · rcases List.cons_eq_append_iff.1 htail with ⟨rfl, hrest⟩ | ⟨tail, rfl, -⟩
    · exact .inl ⟨[], by rw [hword, List.append_nil, List.append_nil], hrest⟩
    · exact .inr ⟨tail, hword⟩

theorem covers [Alphabet] (h : Stand before cs tokens) {front back : List Char} {c : Char}
    (hcs : cs = front ++ c :: back) (hc : Text.isBlank c = false) :
    ∃ t ∈ tokens, t.span.offset ≤ byteLength (before ++ front) ∧
      byteLength (before ++ front) + c.utf8Size ≤ t.span.offset + t.span.length := by
  induction h generalizing front with
  | nil => exact absurd hcs.symm (List.append_ne_nil_of_right_ne_nil _ (List.cons_ne_nil c back))
  | @blank before cs d tokens hd _ ih =>
    cases front with
    | nil =>
      obtain rfl := (List.cons.inj hcs).1
      exact absurd (hc.symm.trans hd) nofun
    | cons e front =>
      obtain ⟨rfl, rfl⟩ := List.cons.inj hcs
      have hin := ih rfl
      rwa [List.append_assoc, List.singleton_append] at hin
  | @lexeme before cs rest d l tokens _ _ _ ih =>
    rcases append_eq_append_cons_cases hcs with ⟨between, rfl, hrest⟩ | ⟨tail, hword⟩
    · obtain ⟨t, ht, hin⟩ := ih hrest
      rw [List.append_assoc] at hin
      exact ⟨t, .tail _ ht, hin⟩
    · refine ⟨_, .head _, ?_⟩
      show (Position.start.after before).offset ≤ _ ∧
        _ ≤ (Position.start.after before).offset + (Span.covering _ (d :: cs)).length
      rw [Position.start_after_offset, Span.covering_length, hword]
      simp only [Text.byteLength_append, Text.byteLength_cons]
      omega

end Stand

section

variable [Alphabet]

/-- The tokens before the end of a source tile it. -/
structure Tiling (source : List Char) (words : List Token) (stop : Token) : Prop where
  stop_lexeme : stop.lexeme = .endOfInput
  stop_offset : stop.span.offset = byteLength source
  stop_length : stop.span.length = 0
  only_stop : ∀ t ∈ words, t.lexeme ≠ .endOfInput
  length_pos : ∀ t ∈ words, 0 < t.span.length
  /-- The next token begins where one ends, or behind. -/
  apart : words.Pairwise fun t u => t.span.offset + t.span.length ≤ u.span.offset
  /-- The slice that a token covers is whole characters and holds the token and no other. -/
  again : ∀ t ∈ words, ∃ word,
    Text.slice? t.span.offset t.span.length source = some word ∧
      (scan (String.ofList word)).map (List.map lexeme) = .ok [t.lexeme, .endOfInput]
  /-- A character that is no blank lies in a token. -/
  covers : ∀ front c back, source = front ++ c :: back → Text.isBlank c = false →
    ∃ t ∈ words, t.span.offset ≤ byteLength front ∧
      byteLength front + c.utf8Size ≤ t.span.offset + t.span.length

/-- The error is about what stands in the source behind `before`: a character, or the end. -/
inductive Halts (source before : List Char) (e : SyntaxError) : Prop
  | atEnd (hsource : source = before) (hoffset : e.span.offset = byteLength before)
      (hlength : e.span.length = 0) (hfound : e.found = "end of input")
  | atCharacter {c : Char} {after : List Char} (hsource : source = before ++ c :: after)
      (hoffset : e.span.offset = byteLength before) (hlength : e.span.length = c.utf8Size)
      (hfound : e.found = "`" ++ String.singleton c ++ "`")

theorem scan_word {c : Char} {word : List Char} {l : Lexeme} (hc : Text.isBlank c = false)
    (htake : Lexeme.take (c :: word) = .ok (l, [])) :
    (scan (String.ofList (c :: word))).map (List.map lexeme) = .ok [l, .endOfInput] := by
  obtain ⟨tokens, hscan, htokens⟩ := (Scans.lexeme hc htake .done).scanFrom_eq_ok .start
  rw [scan, String.toList_ofList, hscan]
  exact congrArg Except.ok htokens

theorem tiling_of_stand {source : List Char} {words : List Token} (h : Stand [] source words) :
    Tiling source words (stop source) where
  stop_lexeme := rfl
  stop_offset := Position.start_after_offset source
  stop_length := Span.covering_length _ []
  only_stop t ht := by
    obtain ⟨c, word, -, -, htake⟩ := h.marks t ht
    exact Lexeme.ne_endOfInput_of_take htake
  length_pos t ht := by
    obtain ⟨c, word, hmarks, -, -⟩ := h.marks t ht
    rw [hmarks.length_eq, Text.byteLength_cons]
    exact Nat.add_pos_left c.utf8Size_pos _
  apart := h.pairwise
  again t ht := by
    obtain ⟨c, word, hmarks, hc, htake⟩ := h.marks t ht
    exact ⟨c :: word, hmarks.slice?_eq, scan_word hc htake⟩
  covers _ _ _ hsource hc := h.covers hsource hc

theorem exists_of_scanFrom_error {p : Position} {cs : List Char} {e : SyntaxError}
    (h : scanFrom p cs = .error e) : ∃ c tail ls m, Scans (c :: tail) cs ls ∧
      Text.isBlank c = false ∧ Lexeme.take (c :: tail) = .error m := by
  fun_induction scanFrom p cs generalizing e with
  | case1 => cases h
  | case2 p c tail hc ih =>
    obtain ⟨d, rest, ls, m, hscans, hm⟩ := ih h
    exact ⟨d, rest, ls, m, .blank hc hscans, hm⟩
  | case3 p c tail hc m hm => exact ⟨c, tail, [], m, .done, by simpa using hc, hm⟩
  | case4 p c tail hc l rest htake text e' he' =>
    rename_i ih
    obtain ⟨d, rest, ls, m, hscans, hm⟩ := ih he'
    exact ⟨d, rest, l :: ls, m, .lexeme (by simpa using hc) htake hscans, hm⟩
  | case5 => cases h

end

theorem halts_atCharacter (e : Expectation) (before rest : List Char) :
    Halts (before ++ rest) before (.atCharacter e (Position.start.after before) rest) := by
  have hoffset := Position.start_after_offset before
  cases rest with
  | nil => exact .atEnd (List.append_nil before) hoffset (Span.covering_length _ []) rfl
  | cons c after => exact .atCharacter rfl hoffset (Span.covering_length _ [c]) rfl

section

variable [Alphabet]

/-- The token is a word of the source, by which alone it is made again, or the end. -/
def Stands (source : List Char) (t : Token) : Prop :=
  ∃ word, t.span.Marks source word ∧
    (t.lexeme = .endOfInput ∨ Lexeme.take word = .ok (t.lexeme, []))

theorem Stands.span_in {source : List Char} {t : Token} (h : t.Stands source) :
    t.span.In source := by
  obtain ⟨word, hmarks, -⟩ := h
  exact ⟨word, hmarks⟩

theorem stands_of_scan {text : String} {tokens : List Token} (h : scan text = .ok tokens) :
    ∀ t ∈ tokens, t.Stands text.toList := by
  obtain ⟨ls, -, hscans⟩ := scans_of_scanFrom h
  obtain ⟨words, hscan, hwords⟩ := hscans.stand []
  obtain rfl := Except.ok.inj (h.symm.trans hscan)
  intro t ht
  rcases List.mem_append.1 ht with ht | ht
  · obtain ⟨c, word, hmarks, -, htake⟩ := hwords.marks t ht
    exact ⟨c :: word, hmarks, .inr htake⟩
  · obtain rfl := List.mem_singleton.1 ht
    have hmarks := Span.marks_covering text.toList [] []
    rw [List.append_nil, List.append_nil] at hmarks
    exact ⟨[], hmarks, .inl rfl⟩

theorem eq_atCharacter_of_scan {text : String} {e : SyntaxError} (h : scan text = .error e) :
    ∃ before rest, text.toList = before ++ rest ∧
      e = .atCharacter e.expected (Position.start.after before) rest ∧
      (e.expected = .token → ∃ tokens, scan (String.ofList before) = .ok tokens) := by
  obtain ⟨c, tail, ls, m, hscans, hc, hm⟩ := exists_of_scanFrom_error h
  obtain ⟨front, hsource, hscan⟩ := hscans.scanFrom_eq_error hc hm
  obtain ⟨⟨read, hread⟩, hwhole⟩ := Lexeme.take_error hm
  have htaken : taken (c :: tail) m.rest = read := by rw [← hread, taken_append]
  obtain rfl := Except.error.inj (h.symm.trans (hscan .start))
  rw [SyntaxError.atCharacter_expected, htaken]
  refine ⟨front ++ read, m.rest, by rw [hsource, ← hread, List.append_assoc], rfl, fun htoken => ?_⟩
  obtain rfl : read = [] := List.append_left_eq_self.1 (hread.trans (hwhole htoken).symm)
  have hall : Scans ([] ++ c :: tail) text.toList ls := hscans
  obtain ⟨before, hcs, hbefore⟩ := hall.truncate
  obtain rfl := List.append_cancel_right (hsource.symm.trans hcs)
  obtain ⟨tokens, htokens, -⟩ := hbefore.scanFrom_eq_ok .start
  exact ⟨tokens, by rwa [scan, String.toList_ofList, List.append_nil]⟩

theorem span_in_of_scan_error {text : String} {e : SyntaxError} (h : scan text = .error e) :
    e.span.In text.toList := by
  obtain ⟨before, rest, htext, he, -⟩ := eq_atCharacter_of_scan h
  rw [htext, he]
  exact SyntaxError.atCharacter_in _ before rest

/-- Tokens tile their text. A scan that fails halts at a character or the end, and where no token
at all begins, the text in front of it is scanned. -/
theorem scan_tiles (text : String) :
    (∀ tokens, scan text = .ok tokens →
      ∃ words stop, tokens = words ++ [stop] ∧ Tiling text.toList words stop) ∧
    (∀ e, scan text = .error e → ∃ before, Halts text.toList before e ∧
      (e.expected = .token → ∃ tokens, scan (String.ofList before) = .ok tokens)) := by
  constructor
  · intro tokens h
    obtain ⟨ls, -, hscans⟩ := scans_of_scanFrom h
    obtain ⟨words, hscan, hwords⟩ := hscans.stand []
    obtain rfl := Except.ok.inj (h.symm.trans hscan)
    exact ⟨words, stop text.toList, rfl, tiling_of_stand hwords⟩
  · intro e h
    obtain ⟨before, rest, htext, he, hbefore⟩ := eq_atCharacter_of_scan h
    refine ⟨before, ?_, hbefore⟩
    rw [htext, he]
    exact halts_atCharacter _ before rest

end

theorem scan_tiles_equation :
    (∃ tokens, scan "é = 1" = .ok tokens ∧
      ∃ words stop, tokens = words ++ [stop] ∧ Tiling "é = 1".toList words stop) ∧
    ∃ e, scan "é = ?" = .error e ∧ e.expected = .token ∧
      ∃ before, Halts "é = ?".toList before e ∧
        ∃ tokens, scan (String.ofList before) = .ok tokens := by
  have hfails : (match scan "é = ?" with
      | .ok _ => false
      | .error e => decide (e.expected = .token)) = true := by decide +kernel
  have hscan : (scan "é = 1").isOk = true := by decide +kernel
  constructor
  · cases h : scan "é = 1" with
    | error e =>
      rw [h] at hscan
      cases hscan
    | ok tokens => exact ⟨tokens, rfl, (scan_tiles _).1 tokens h⟩
  · cases h : scan "é = ?" with
    | ok tokens =>
      rw [h] at hfails
      cases hfails
    | error e =>
      rw [h] at hfails
      have htoken := of_decide_eq_true hfails
      obtain ⟨before, hhalts, hbefore⟩ := (scan_tiles _).2 e h
      exact ⟨e, rfl, htoken, before, hhalts, hbefore htoken⟩

end Token

end RecordLens
