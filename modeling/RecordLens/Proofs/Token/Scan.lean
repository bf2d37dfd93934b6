import RecordLens.Proofs.Number.Digits
import RecordLens.Proofs.Text.Identifier
import RecordLens.Token.Scan

/-! Scanning a text that goes on: what a lexeme takes depends only on the characters that end it,
so the tokens of a text are those of its parts. -/

namespace RecordLens

theorem SyntaxError.atCharacter_offset (e : Expectation) (p : Position) (cs : List Char) :
    (atCharacter e p cs).span.offset = p.offset := by
  cases cs <;> rfl

theorem SyntaxError.atCharacter_expected (e : Expectation) (p : Position) (cs : List Char) :
    (atCharacter e p cs).expected = e := by
  cases cs <;> rfl

namespace Lexeme

theorem take_word [Alphabet] {s : String} (hs : Text.IsIdentifier s) {rest : List Char}
    (h : ∀ c, rest.head? = some c → Text.isSubsequent c = false) :
    take (s.toList ++ rest) = .ok (.identifier s, rest) := by
  simp [take, hs.identifier?_append h]

theorem take_identifier [Alphabet] {s : String} (hs : Text.IsIdentifier s) {rest : List Char}
    (h : Text.Delimited rest) : take (s.toList ++ rest) = .ok (.identifier s, rest) :=
  take_word hs h.not_isSubsequent

theorem number?_of_not_isDigit {c : Char} (h : c.isDigit = false) (rest : List Char) :
    number? (c :: rest) = none := by
  simp [number?, h]

section

variable [Alphabet]

theorem take_eq_mark {c : Char} (hi : Text.isInitial c = false) (hd : c.isDigit = false)
    (rest : List Char) : take (c :: rest) = mark (c :: rest) := by
  simp [take, Text.identifier?, hi, number?_of_not_isDigit hd]

def punctuation? : Char → Option Lexeme
  | '{' => some .openBrace
  | '}' => some .closeBrace
  | '(' => some .openParen
  | ')' => some .closeParen
  | ',' => some .comma
  | '=' => some .equals
  | '-' => some .minus
  | _ => none

theorem take_punctuation {c : Char} {l : Lexeme} (h : punctuation? c = some l)
    (rest : List Char) : Text.isBlank c = false ∧ take (c :: rest) = .ok (l, rest) := by
  unfold punctuation? at h
  split at h
  case h_8 => simp at h
  all_goals
    obtain rfl := Option.some.inj h
    refine ⟨by decide, ?_⟩
    rw [take_eq_mark (Text.isInitial_of_ascii (by decide)) (by decide)]
    rfl

theorem take_doubleColon (rest : List Char) :
    take (':' :: ':' :: rest) = .ok (.doubleColon, rest) := by
  rw [take_eq_mark (Text.isInitial_of_ascii (by decide)) (by decide)]
  rfl

theorem identifier?_of_isDigit {c : Char} (h : c.isDigit = true) (rest : List Char) :
    Text.identifier? (c :: rest) = none := by
  simp [Text.identifier?, Text.isInitial_of_isDigit h]

theorem fraction?_of_delimited {rest : List Char} (h : Text.Delimited rest) :
    fraction? rest = none := by
  unfold fraction?
  split
  · exact absurd rfl (h '.' rfl).2
  · rfl

theorem exponent?_of_not_isSubsequent {rest : List Char}
    (h : ∀ c, rest.head? = some c → Text.isSubsequent c = false) : exponent? rest = none := by
  unfold exponent?
  split
  · next mark rest =>
    have hne : ¬(mark = 'e' ∨ mark = 'E') := by
      rintro (rfl | rfl)
      · exact Bool.ne_false_iff.2 (Text.isSubsequent_of_ascii (by decide)) (h 'e' rfl)
      · exact Bool.ne_false_iff.2 (Text.isSubsequent_of_ascii (by decide)) (h 'E' rfl)
    rw [if_neg hne]
  · rfl

theorem exponent?_of_delimited {rest : List Char} (h : Text.Delimited rest) :
    exponent? rest = none := exponent?_of_not_isSubsequent h.not_isSubsequent

theorem take_of_number? {cs rest : List Char} {l : Lexeme}
    (h : number? (cs ++ rest) = some (l, rest)) :
    (∃ c tail, cs = c :: tail ∧ Text.isBlank c = false) ∧ take (cs ++ rest) = .ok (l, rest) := by
  obtain ⟨text, hne, he⟩ := number?_takes h
  obtain rfl := List.append_cancel_right he
  obtain ⟨c, tail, rfl⟩ := List.exists_cons_of_ne_nil hne
  have hc : c.isDigit = true := by
    by_cases hd : c.isDigit = true
    · exact hd
    · rw [List.cons_append, number?_of_not_isDigit (by simpa using hd)] at h
      simp at h
  refine ⟨⟨c, tail, rfl, Text.isBlank_of_isDigit hc⟩, ?_⟩
  rw [take, List.cons_append, identifier?_of_isDigit hc, ← List.cons_append, h]

theorem number?_toString (n : Nat) {rest : List Char} (h : Text.Delimited rest) :
    number? ((toString n).toList ++ rest) = some (.integer (toString n), rest) := by
  obtain ⟨hne, hall⟩ := isDigits_toDigits n
  obtain ⟨ht, hr⟩ := Text.takeWhile_append hall h.not_isDigit
  have he : (Nat.toDigits 10 n).isEmpty = false := by simp [hne]
  have hn : String.ofList (Nat.toDigits 10 n) = toString n := by
    rw [← toList_toString_nat, String.ofList_toList]
  rw [toList_toString_nat]
  simp only [number?, ht, hr, he, fraction?_of_delimited h, exponent?_of_delimited h, hn]
  rfl

end

def IsNumber : Lexeme → Prop
  | .integer _ | .float _ => True
  | _ => False

def IsMark : Lexeme → Prop
  | .identifier _ | .integer _ | .float _ | .endOfInput => False
  | _ => True

theorem number?_isNumber {cs rest : List Char} {l : Lexeme} (h : number? cs = some (l, rest)) :
    l.IsNumber := by
  unfold number? at h
  simp only at h
  split at h
  · simp at h
  · split at h <;> split at h <;>
      (obtain ⟨rfl, -⟩ := Prod.mk.inj (Option.some.inj h); trivial)

theorem eq_character_of_characterEnd {c : Char} {cs rest : List Char} {l : Lexeme}
    (h : characterEnd c cs = .ok (l, rest)) : l = .character c := by
  unfold characterEnd at h
  split at h
  · exact (Prod.mk.inj (Except.ok.inj h)).1.symm
  · simp at h

theorem eq_character_of_characterBody {cs rest : List Char} {l : Lexeme}
    (h : characterBody cs = .ok (l, rest)) : ∃ c, l = .character c := by
  unfold characterBody at h
  split at h
  · simp at h
  · simp at h
  · simp at h
  · split at h
    · simp at h
    · exact ⟨_, eq_character_of_characterEnd h⟩
  · exact ⟨_, eq_character_of_characterEnd h⟩

theorem mark_isMark {cs rest : List Char} {l : Lexeme} (h : mark cs = .ok (l, rest)) :
    l.IsMark := by
  unfold mark at h
  split at h
  · next tail =>
    obtain ⟨found, -, hfound⟩ := exists_of_map_eq_ok h
    obtain ⟨rfl, -⟩ := Prod.mk.inj hfound
    trivial
  · obtain ⟨c, rfl⟩ := eq_character_of_characterBody h
    trivial
  all_goals first
    | (obtain ⟨rfl, -⟩ := Prod.mk.inj (Except.ok.inj h); trivial)
    | simp at h

theorem isIdentifier_of_take [Alphabet] {cs rest : List Char} {name : String}
    (h : take cs = .ok (.identifier name, rest)) : Text.IsIdentifier name := by
  unfold take at h
  split at h
  · next hi =>
    obtain ⟨hl, -⟩ := Prod.mk.inj (Except.ok.inj h)
    obtain rfl := identifier.inj hl
    exact Text.isIdentifier_of_identifier? hi
  · split at h
    · next hn =>
      obtain rfl := Except.ok.inj h
      exact (number?_isNumber hn).elim
    · exact (mark_isMark h).elim

theorem ne_endOfInput_of_take [Alphabet] {cs rest : List Char} {l : Lexeme}
    (h : take cs = .ok (l, rest)) : l ≠ .endOfInput := by
  rintro rfl
  unfold take at h
  split at h
  · simp at h
  · split at h
    · next hn =>
      obtain rfl := Except.ok.inj h
      exact number?_isNumber hn
    · exact mark_isMark h

end Lexeme

namespace Token

theorem taken_append (cs rest : List Char) : taken (cs ++ rest) rest = cs := by
  simp [taken]

theorem taken_nil (cs : List Char) : taken cs [] = cs := by
  simp [taken]

theorem taken_self (cs : List Char) : taken cs cs = [] := by
  simp [taken]

variable [Alphabet]

theorem scanFrom_nil (p : Position) : scanFrom p [] = .ok [⟨.endOfInput, .covering p []⟩] := by
  rw [scanFrom]

theorem scanFrom_blank (p : Position) {c : Char} (hc : Text.isBlank c = true) (cs : List Char) :
    scanFrom p (c :: cs) = scanFrom (p.next c) cs := by
  rw [scanFrom, if_pos hc]

/-- A lexeme is scanned to one token, and the rest from behind it on. -/
theorem scanFrom_lexeme (p : Position) {c : Char} {cs tail : List Char} {l : Lexeme}
    (hc : Text.isBlank c = false) (h : Lexeme.take (c :: cs) = .ok (l, tail)) :
    scanFrom p (c :: cs) = (scanFrom (p.after (taken (c :: cs) tail)) tail).map
      (⟨l, .covering p (taken (c :: cs) tail)⟩ :: ·) := by
  rw [scanFrom, if_neg (by simp [hc])]
  split
  · next he => simp [he] at h
  · next he =>
    rw [he] at h
    obtain ⟨rfl, rfl⟩ := Prod.mk.inj (Except.ok.inj h)
    dsimp only
    cases scanFrom (p.after _) _ <;> rfl

theorem scanFrom_take (p : Position) {c : Char} {cs rest : List Char} {l : Lexeme}
    (hc : Text.isBlank c = false) (h : Lexeme.take (c :: cs ++ rest) = .ok (l, rest)) :
    scanFrom p (c :: cs ++ rest) =
      (scanFrom (p.after (c :: cs)) rest).map (⟨l, .covering p (c :: cs)⟩ :: ·) := by
  have htaken := taken_append (c :: cs) rest
  rw [List.cons_append] at h htaken ⊢
  rw [scanFrom_lexeme p hc h, htaken]

theorem scanFrom_malformed (p : Position) {c : Char} {cs : List Char} {m : Malformed}
    (hc : Text.isBlank c = false) (h : Lexeme.take (c :: cs) = .error m) :
    scanFrom p (c :: cs) =
      .error (.atCharacter m.expected (p.after (taken (c :: cs) m.rest)) m.rest) := by
  rw [scanFrom, if_neg (by simp [hc])]
  split
  · next he =>
    obtain rfl := Except.error.inj (he.symm.trans h)
    rfl
  · next he => cases he.symm.trans h

/-- Blanks and the lexemes take the characters up to `rest`. -/
inductive Scans (rest : List Char) : List Char → List Lexeme → Prop
  | done : Scans rest rest []
  | blank {c : Char} {cs : List Char} {ls : List Lexeme} (hc : Text.isBlank c = true)
      (h : Scans rest cs ls) : Scans rest (c :: cs) ls
  | lexeme {c : Char} {cs tail : List Char} {l : Lexeme} {ls : List Lexeme}
      (hc : Text.isBlank c = false) (htake : Lexeme.take (c :: cs) = .ok (l, tail))
      (h : Scans rest tail ls) : Scans rest (c :: cs) (l :: ls)

theorem Scans.append {middle rest cs : List Char} {ls ms : List Lexeme} (h : Scans middle cs ls)
    (h' : Scans rest middle ms) : Scans rest cs (ls ++ ms) := by
  induction h with
  | done => exact h'
  | blank hc _ ih => exact .blank hc ih
  | lexeme hc htake _ ih => exact .lexeme hc htake ih

theorem Scans.word {s : String} (hs : Text.IsIdentifier s) {rest tail : List Char}
    {ls : List Lexeme} (hdelimited : Text.Delimited tail) (h : Scans rest tail ls) :
    Scans rest (s.toList ++ tail) (.identifier s :: ls) := by
  have htake := Lexeme.take_identifier hs hdelimited
  obtain ⟨c, cs, hcs, hc⟩ := hs.exists_cons
  rw [hcs] at htake ⊢
  exact .lexeme hc htake h

theorem Scans.ne_nil {cs : List Char} {ls : List Lexeme} (h : Scans [] cs ls)
    (hcs : ∃ c ∈ cs, Text.isBlank c = false) : ls ≠ [] := by
  obtain ⟨d, hmem, hd⟩ := hcs
  induction h with
  | done => exact absurd hmem List.not_mem_nil
  | blank hc _ ih =>
    rcases List.mem_cons.1 hmem with rfl | hmem
    · exact absurd (hd.symm.trans hc) nofun
    · exact ih hmem
  | lexeme => exact List.cons_ne_nil _ _

theorem Scans.forall {P : Lexeme → Prop}
    (hP : ∀ {cs tail : List Char} {l : Lexeme}, Lexeme.take cs = .ok (l, tail) → P l)
    {rest cs : List Char} {ls : List Lexeme} (h : Scans rest cs ls) : ∀ l ∈ ls, P l := by
  induction h with
  | done => exact nofun
  | blank _ _ ih => exact ih
  | lexeme _ htake _ ih => exact List.forall_mem_cons.2 ⟨hP htake, ih⟩

/-- The end of input is the last token, and the others scan the whole text. -/
theorem scans_of_scanFrom {p : Position} {cs : List Char} {tokens : List Token}
    (h : scanFrom p cs = .ok tokens) :
    ∃ ls, tokens.map lexeme = ls ++ [.endOfInput] ∧ Scans [] cs ls := by
  fun_induction scanFrom p cs generalizing tokens with
  | case1 p =>
    obtain rfl := Except.ok.inj h
    exact ⟨[], rfl, .done⟩
  | case2 p c tail hc ih =>
    obtain ⟨ls, hls, hscans⟩ := ih h
    exact ⟨ls, hls, .blank hc hscans⟩
  | case3 => simp at h
  | case4 => simp at h
  | case5 p c tail hc l rest htake text more hmore =>
    rename_i ih
    obtain rfl := Except.ok.inj h
    obtain ⟨ls, hls, hscans⟩ := ih hmore
    exact ⟨l :: ls, by simp [hls], .lexeme (by simpa using hc) htake hscans⟩

theorem Scans.scanFrom_eq_ok {cs : List Char} {ls : List Lexeme} (h : Scans [] cs ls)
    (p : Position) :
    ∃ tokens, scanFrom p cs = .ok tokens ∧ tokens.map Token.lexeme = ls ++ [.endOfInput] := by
  induction h generalizing p with
  | done => exact ⟨_, scanFrom_nil p, rfl⟩
  | @blank c cs ls hc _ ih =>
    rw [scanFrom_blank p hc]
    exact ih (p.next c)
  | lexeme hc htake _ ih =>
    obtain ⟨tokens, hscan, hls⟩ := ih (p.after (taken _ _))
    rw [scanFrom_lexeme p hc htake, hscan]
    exact ⟨_, rfl, by simp [hls]⟩

/-- Where no lexeme can be taken the scan fails, at the place behind all that was read. -/
theorem Scans.scanFrom_eq_error {c : Char} {tail cs : List Char} {ls : List Lexeme} {m : Malformed}
    (h : Scans (c :: tail) cs ls) (hc : Text.isBlank c = false)
    (hm : Lexeme.take (c :: tail) = .error m) :
    ∃ before, cs = before ++ c :: tail ∧ ∀ p, scanFrom p cs =
      .error (.atCharacter m.expected (p.after (before ++ taken (c :: tail) m.rest)) m.rest) := by
  induction h with
  | done => exact ⟨[], rfl, fun p => scanFrom_malformed p hc hm⟩
  | @blank d cs ls hd _ ih =>
    obtain ⟨before, rfl, hscan⟩ := ih
    exact ⟨d :: before, rfl, fun p => (scanFrom_blank p hd _).trans (hscan _)⟩
  | @lexeme d cs behind l ls hd htake _ ih =>
    obtain ⟨before, rfl, hscan⟩ := ih
    obtain ⟨text, -, htext⟩ := Lexeme.take_takes htake
    refine ⟨text ++ before, by rw [htext, List.append_assoc], fun p => ?_⟩
    rw [scanFrom_lexeme p hd htake, hscan, htext, taken_append, List.append_assoc,
      Position.after_append p]
    rfl

def WellNamed (t : Token) : Prop :=
  ∀ name, t.lexeme = .identifier name → Text.IsIdentifier name

theorem wellNamed_of_scanFrom {p : Position} {cs : List Char} {tokens : List Token}
    (h : scanFrom p cs = .ok tokens) : ∀ t ∈ tokens, t.WellNamed := by
  obtain ⟨ls, hls, hscans⟩ := scans_of_scanFrom h
  have hnames := hscans.forall (P := fun l => ∀ name, l = .identifier name → Text.IsIdentifier name)
    fun htake name hname => Lexeme.isIdentifier_of_take (hname ▸ htake)
  intro t ht name hname
  have hmem : t.lexeme ∈ ls ++ [Lexeme.endOfInput] := hls ▸ List.mem_map_of_mem ht
  rcases List.mem_append.1 hmem with hl | hend
  · exact hnames _ hl name hname
  · exact absurd (hname.symm.trans (List.mem_singleton.1 hend)) nofun

theorem ends_of_scanFrom {p : Position} {cs : List Char} {tokens : List Token}
    (h : scanFrom p cs = .ok tokens) :
    ∃ ls, tokens.map lexeme = ls ++ [.endOfInput] ∧ Lexeme.endOfInput ∉ ls := by
  obtain ⟨ls, hls, hscans⟩ := scans_of_scanFrom h
  exact ⟨ls, hls, fun hend => hscans.forall Lexeme.ne_endOfInput_of_take _ hend rfl⟩

end Token

end RecordLens
