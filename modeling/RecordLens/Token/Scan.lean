import RecordLens.SyntaxError
import RecordLens.Text.Blank
import RecordLens.Text.Identifier

/-! Splitting a text into tokens. Each token is as long as its class allows, blanks separate tokens
and are dropped, and the last token marks the end. -/

namespace RecordLens

theorem exists_of_map_eq_ok {ε α β : Type} {f : α → β} {x : Except ε α} {b : β}
    (h : x.map f = .ok b) : ∃ a, x = .ok a ∧ f a = b := by
  cases x with
  | error e => exact absurd h nofun
  | ok a => exact ⟨a, rfl, Except.ok.inj h⟩

/-- Why no lexeme could be taken, and the characters from the offending one on. -/
structure Malformed where
  expected : Expectation
  rest : List Char

namespace Lexeme

def fraction? : List Char → Option (List Char × List Char)
  | '.' :: rest =>
    if (rest.takeWhile Char.isDigit).isEmpty then none
    else some (rest.takeWhile Char.isDigit, rest.dropWhile Char.isDigit)
  | _ => none

/-- The digits of an exponent, and whether a minus stands before them. -/
def signedDigits? (negative : Bool) (cs : List Char) : Option (Int × List Char) :=
  let value : Int := digitsValue (cs.takeWhile Char.isDigit)
  if (cs.takeWhile Char.isDigit).isEmpty then none
  else some (if negative then -value else value, cs.dropWhile Char.isDigit)

def exponent? : List Char → Option (Int × List Char)
  | mark :: rest =>
    if mark = 'e' ∨ mark = 'E' then
      match rest with
      | '+' :: rest => signedDigits? false rest
      | '-' :: rest => signedDigits? true rest
      | _ => signedDigits? false rest
    else none
  | [] => none

/-- A number. Without a fraction and an exponent it is an integer. -/
def number? (cs : List Char) : Option (Lexeme × List Char) :=
  let whole := cs.takeWhile Char.isDigit
  let rest := cs.dropWhile Char.isDigit
  if whole.isEmpty then none
  else
    match fraction? rest with
    | none =>
      match exponent? rest with
      | none => some (.integer (String.ofList whole), rest)
      | some (e, rest) => some (.float ((Decimal.ofText whole [] e).toBinary64 false), rest)
    | some (fraction, rest) =>
      match exponent? rest with
      | none => some (.float ((Decimal.ofText whole fraction 0).toBinary64 false), rest)
      | some (e, rest) => some (.float ((Decimal.ofText whole fraction e).toBinary64 false), rest)

def stringBody : List Char → Except Malformed (List Char × List Char)
  | [] => .error ⟨.closing '"', []⟩
  | '"' :: rest => .ok ([], rest)
  | '\\' :: [] => .error ⟨.escape, []⟩
  | '\\' :: c :: rest =>
    match Text.unescape? c with
    | none => .error ⟨.escape, c :: rest⟩
    | some d => (stringBody rest).map fun (cs, rest) => (d :: cs, rest)
  | c :: rest => (stringBody rest).map fun (cs, rest) => (c :: cs, rest)

def characterEnd (c : Char) : List Char → Except Malformed (Lexeme × List Char)
  | '\'' :: rest => .ok (.character c, rest)
  | rest => .error ⟨.closing '\'', rest⟩

def characterBody : List Char → Except Malformed (Lexeme × List Char)
  | [] => .error ⟨.character, []⟩
  | '\'' :: rest => .error ⟨.character, '\'' :: rest⟩
  | '\\' :: [] => .error ⟨.escape, []⟩
  | '\\' :: c :: rest =>
    match Text.unescape? c with
    | none => .error ⟨.escape, c :: rest⟩
    | some d => characterEnd d rest
  | c :: rest => characterEnd c rest

/-- Quoted text and punctuation. -/
def mark : List Char → Except Malformed (Lexeme × List Char)
  | '"' :: rest => (stringBody rest).map fun (s, rest) => (.string (String.ofList s), rest)
  | '\'' :: rest => characterBody rest
  | ':' :: ':' :: rest => .ok (.doubleColon, rest)
  | '{' :: rest => .ok (.openBrace, rest)
  | '}' :: rest => .ok (.closeBrace, rest)
  | '(' :: rest => .ok (.openParen, rest)
  | ')' :: rest => .ok (.closeParen, rest)
  | ',' :: rest => .ok (.comma, rest)
  | '=' :: rest => .ok (.equals, rest)
  | '-' :: rest => .ok (.minus, rest)
  | cs => .error ⟨.token, cs⟩

/-- The lexeme that the characters begin with, and what follows it. -/
def take [Alphabet] (cs : List Char) : Except Malformed (Lexeme × List Char) :=
  match Text.identifier? cs with
  | some (name, rest) => .ok (.identifier (String.ofList name), rest)
  | none =>
    match number? cs with
    | some found => .ok found
    | none => mark cs

theorem fraction?_eq_some {cs ds rest : List Char} (h : fraction? cs = some (ds, rest)) :
    cs = '.' :: ds ++ rest := by
  unfold fraction? at h
  split at h
  · split at h
    · simp at h
    · obtain ⟨rfl, rfl⟩ := Prod.mk.inj (Option.some.inj h)
      simp
  · simp at h

/-- The characters hold a non-empty text before `rest`. -/
def Takes (cs rest : List Char) : Prop := ∃ text, text ≠ [] ∧ cs = text ++ rest

theorem Takes.length_lt {cs rest : List Char} (h : Takes cs rest) : rest.length < cs.length := by
  obtain ⟨text, hne, rfl⟩ := h
  have := List.length_pos_iff.2 hne
  simp
  omega

theorem Takes.suffix {cs rest : List Char} (h : Takes cs rest) : rest <:+ cs := by
  obtain ⟨text, -, rfl⟩ := h
  exact List.suffix_append _ _

theorem Takes.of_suffix {cs middle rest : List Char} (h : Takes cs middle) (hs : rest <:+ middle) :
    Takes cs rest := by
  obtain ⟨text, hne, rfl⟩ := h
  obtain ⟨more, rfl⟩ := hs
  exact ⟨text ++ more, by simp [hne], by simp⟩

theorem takes_cons (c : Char) (rest : List Char) : Takes (c :: rest) rest := ⟨[c], by simp, rfl⟩

theorem Takes.cons {cs rest : List Char} (c : Char) (h : Takes cs rest) : Takes (c :: cs) rest :=
  (takes_cons c cs).of_suffix h.suffix

theorem takes_dropWhile {p : Char → Bool} {cs : List Char} (h : ¬(cs.takeWhile p).isEmpty = true) :
    Takes cs (cs.dropWhile p) :=
  ⟨cs.takeWhile p, by simpa using h, List.takeWhile_append_dropWhile.symm⟩

theorem signedDigits?_takes {negative : Bool} {cs rest : List Char} {e : Int}
    (h : signedDigits? negative cs = some (e, rest)) : Takes cs rest := by
  unfold signedDigits? at h
  simp only at h
  split at h
  · simp at h
  · next hne =>
    obtain ⟨-, rfl⟩ := Prod.mk.inj (Option.some.inj h)
    exact takes_dropWhile hne

theorem exponent?_takes {cs rest : List Char} {e : Int} (h : exponent? cs = some (e, rest)) :
    Takes cs rest := by
  unfold exponent? at h
  split at h
  · next mark tail =>
    split at h
    · split at h
      · exact ((signedDigits?_takes h).cons _).cons _
      · exact ((signedDigits?_takes h).cons _).cons _
      · exact (signedDigits?_takes h).cons _
    · simp at h
  · simp at h

theorem number?_eq_some {cs rest : List Char} {l : Lexeme} (h : number? cs = some (l, rest)) :
    ∃ tail,
      (tail = cs.dropWhile Char.isDigit ∨
        ∃ ds, fraction? (cs.dropWhile Char.isDigit) = some (ds, tail)) ∧
      (rest = tail ∨ ∃ e, exponent? tail = some (e, rest)) := by
  unfold number? at h
  simp only at h
  split at h
  · simp at h
  · split at h
    · refine ⟨cs.dropWhile Char.isDigit, .inl rfl, ?_⟩
      split at h
      · exact .inl (Prod.mk.inj (Option.some.inj h)).2.symm
      · next he => exact .inr ⟨_, (Prod.mk.inj (Option.some.inj h)).2 ▸ he⟩
    · next hf =>
      refine ⟨_, .inr ⟨_, hf⟩, ?_⟩
      split at h
      · exact .inl (Prod.mk.inj (Option.some.inj h)).2.symm
      · next he => exact .inr ⟨_, (Prod.mk.inj (Option.some.inj h)).2 ▸ he⟩

theorem number?_suffix {cs rest : List Char} {l : Lexeme} (h : number? cs = some (l, rest)) :
    rest <:+ cs.dropWhile Char.isDigit := by
  obtain ⟨tail, hfraction, hexponent⟩ := number?_eq_some h
  have htail : tail <:+ cs.dropWhile Char.isDigit := by
    rcases hfraction with rfl | ⟨ds, hf⟩
    · exact List.suffix_refl _
    · exact ⟨_, (fraction?_eq_some hf).symm⟩
  rcases hexponent with rfl | ⟨e, he⟩
  · exact htail
  · exact (exponent?_takes he).suffix.trans htail

theorem number?_takes {cs rest : List Char} {l : Lexeme} (h : number? cs = some (l, rest)) :
    Takes cs rest := by
  by_cases hempty : (cs.takeWhile Char.isDigit).isEmpty = true
  · simp [number?, hempty] at h
  · exact (takes_dropWhile hempty).of_suffix (number?_suffix h)

theorem stringBody_takes {cs s rest : List Char} (h : stringBody cs = .ok (s, rest)) :
    Takes cs rest := by
  fun_induction stringBody cs generalizing s with
  | case1 => simp at h
  | case2 tail =>
    obtain ⟨-, rfl⟩ := Prod.mk.inj (Except.ok.inj h)
    exact takes_cons _ _
  | case3 => simp at h
  | case4 => simp at h
  | case5 c tail d hd ih =>
    obtain ⟨⟨cs, behind⟩, hb, hfound⟩ := exists_of_map_eq_ok h
    obtain ⟨-, rfl⟩ := Prod.mk.inj hfound
    exact ((ih hb).cons _).cons _
  | case6 c tail _ _ _ ih =>
    obtain ⟨⟨cs, behind⟩, hb, hfound⟩ := exists_of_map_eq_ok h
    obtain ⟨-, rfl⟩ := Prod.mk.inj hfound
    exact (ih hb).cons _

theorem characterEnd_takes {c : Char} {cs rest : List Char} {l : Lexeme}
    (h : characterEnd c cs = .ok (l, rest)) : Takes cs rest := by
  unfold characterEnd at h
  split at h
  · obtain ⟨-, rfl⟩ := Prod.mk.inj (Except.ok.inj h)
    exact takes_cons _ _
  · simp at h

theorem characterBody_takes {cs rest : List Char} {l : Lexeme}
    (h : characterBody cs = .ok (l, rest)) : Takes cs rest := by
  unfold characterBody at h
  split at h
  · simp at h
  · simp at h
  · simp at h
  · split at h
    · simp at h
    · exact ((characterEnd_takes h).cons _).cons _
  · exact (characterEnd_takes h).cons _

theorem mark_takes {cs rest : List Char} {l : Lexeme} (h : mark cs = .ok (l, rest)) :
    Takes cs rest := by
  unfold mark at h
  split at h
  · next tail =>
    obtain ⟨⟨s, behind⟩, hb, hfound⟩ := exists_of_map_eq_ok h
    obtain ⟨-, rfl⟩ := Prod.mk.inj hfound
    exact (stringBody_takes hb).cons _
  · exact (characterBody_takes h).cons _
  · obtain ⟨-, rfl⟩ := Prod.mk.inj (Except.ok.inj h)
    exact (takes_cons _ _).cons _
  all_goals first
    | (obtain ⟨-, rfl⟩ := Prod.mk.inj (Except.ok.inj h); exact takes_cons _ _)
    | simp at h

theorem take_takes [Alphabet] {cs rest : List Char} {l : Lexeme} (h : take cs = .ok (l, rest)) :
    Takes cs rest := by
  unfold take at h
  split at h
  · next hi =>
    obtain ⟨-, rfl⟩ := Prod.mk.inj (Except.ok.inj h)
    exact ⟨_, Text.ne_nil_of_identifier? hi, (Text.append_of_identifier? hi).symm⟩
  · split at h
    · next hn =>
      obtain rfl := Except.ok.inj h
      exact number?_takes hn
    · exact mark_takes h

end Lexeme

namespace Token

variable [Alphabet]

def taken (cs rest : List Char) : List Char := cs.take (cs.length - rest.length)

/-- The tokens of the characters, the first of which stands at `p`. -/
def scanFrom (p : Position) (cs : List Char) : Except SyntaxError (List Token) :=
  match cs with
  | [] => .ok [⟨.endOfInput, .covering p []⟩]
  | c :: tail =>
    if Text.isBlank c then scanFrom (p.next c) tail
    else
      match _h : Lexeme.take (c :: tail) with
      | .error e => .error (.atCharacter e.expected (p.after (taken (c :: tail) e.rest)) e.rest)
      | .ok (lexeme, rest) =>
        let text := taken (c :: tail) rest
        match scanFrom (p.after text) rest with
        | .error e => .error e
        | .ok tokens => .ok (⟨lexeme, .covering p text⟩ :: tokens)
termination_by cs.length
decreasing_by
  · simp
  · exact (Lexeme.take_takes (by assumption)).length_lt

/-- The tokens of a text, of which the last one, and no other, is the end of input. -/
def scan (text : String) : Except SyntaxError (List Token) := scanFrom .start text.toList

end Token

end RecordLens
