import RecordLens.Proofs.Text.Blank
import RecordLens.Proofs.Token.Prefix

/-! Where one text ends and another begins. A lexeme stays what it is when characters are put behind
the text with which no word, no number and no exponent goes on. So the lexemes of a text in front of
such characters are those of the text. -/

namespace RecordLens

section

variable [Alphabet]

/-- Neither a word, a number nor the mark of an exponent before the characters goes on into them. -/
def Text.Detached (rest : List Char) : Prop :=
  ∀ c, rest.head? = some c → isSubsequent c = false ∧ c ∉ ['.', '+', '-']

theorem Text.detached_nil : Detached [] := nofun

theorem Text.detached_cons {c : Char} {rest : List Char}
    (h : isSubsequent c = false ∧ c ∉ ['.', '+', '-']) : Detached (c :: rest) := by
  intro d hd
  obtain rfl := Option.some.inj hd
  exact h

theorem Text.detached_of_blanks {rest : List Char} (h : ∀ b ∈ rest, isBlank b = true) :
    Detached rest := by
  cases rest with
  | nil => exact detached_nil
  | cons b rest =>
    have hb := h b List.mem_cons_self
    refine detached_cons ⟨isSubsequent_of_isBlank hb, fun hmem => ?_⟩
    simp only [List.mem_cons, List.not_mem_nil, or_false] at hmem
    rcases hmem with rfl | rfl | rfl <;> exact absurd hb (by decide)

end

namespace Lexeme

section

variable [Alphabet]

section

variable {more : List Char} (hmore : Text.Detached more)

include hmore

theorem takeWhile_append_detached {p : Char → Bool}
    (hp : ∀ c, Text.isSubsequent c = false → p c = false) (cs : List Char) :
    (cs ++ more).takeWhile p = cs.takeWhile p ∧
      (cs ++ more).dropWhile p = cs.dropWhile p ++ more := by
  induction cs with
  | nil =>
    cases more with
    | nil => simp
    | cons b more => simp [hp b (hmore b rfl).1]
  | cons c cs ih => by_cases hc : p c = true <;> simp [hc, ih]

theorem identifier?_append_detached (cs : List Char) :
    Text.identifier? (cs ++ more) =
      (Text.identifier? cs).map fun found => (found.1, found.2 ++ more) := by
  cases cs with
  | nil =>
    cases more with
    | nil => rfl
    | cons b more =>
      have hb : Text.isInitial b = false :=
        Text.isInitial_of_isSubsequent_eq_false (hmore b rfl).1
      simp [Text.identifier?, hb]
  | cons c cs =>
    obtain ⟨htake, hdrop⟩ := takeWhile_append_detached hmore (fun _ hb => hb) cs
    by_cases hc : Text.isInitial c = true <;> simp [Text.identifier?, hc, htake, hdrop]

theorem digits_append_detached (cs : List Char) :
    (cs ++ more).takeWhile Char.isDigit = cs.takeWhile Char.isDigit ∧
      (cs ++ more).dropWhile Char.isDigit = cs.dropWhile Char.isDigit ++ more :=
  takeWhile_append_detached hmore (fun _ => Text.isDigit_of_isSubsequent_eq_false) cs

theorem fraction?_append_detached (cs : List Char) :
    fraction? (cs ++ more) = (fraction? cs).map fun found => (found.1, found.2 ++ more) := by
  cases cs with
  | nil =>
    cases more with
    | nil => rfl
    | cons b more =>
      have hb : b ≠ '.' := by
        rintro rfl
        exact (hmore '.' rfl).2 (by decide)
      simp [fraction?, hb]
  | cons c cs =>
    obtain ⟨htake, hdrop⟩ := digits_append_detached hmore cs
    by_cases hc : c = '.'
    · subst hc
      by_cases hempty : (cs.takeWhile Char.isDigit).isEmpty = true <;>
        simp [fraction?, htake, hdrop, hempty]
    · simp [fraction?, hc]

theorem signedDigits?_append_detached (negative : Bool) (cs : List Char) :
    signedDigits? negative (cs ++ more) =
      (signedDigits? negative cs).map fun found => (found.1, found.2 ++ more) := by
  obtain ⟨htake, hdrop⟩ := digits_append_detached hmore cs
  by_cases hempty : (cs.takeWhile Char.isDigit).isEmpty = true <;>
    simp [signedDigits?, htake, hdrop, hempty]

theorem exponent?_append_detached (cs : List Char) :
    exponent? (cs ++ more) = (exponent? cs).map fun found => (found.1, found.2 ++ more) := by
  match cs with
  | [] =>
    cases more with
    | nil => rfl
    | cons b more =>
      have hb : ¬(b = 'e' ∨ b = 'E') := by
        rintro (rfl | rfl) <;>
          exact Bool.ne_false_iff.2 (Text.isSubsequent_of_ascii (by decide)) (hmore _ rfl).1
      simp [exponent?, hb]
  | [mark] =>
    cases more with
    | nil => simp
    | cons b more =>
      have hsign : b ≠ '+' ∧ b ≠ '-' := by
        constructor <;> rintro rfl <;> exact (hmore _ rfl).2 (by decide)
      have hdigits := signedDigits?_append_detached hmore false []
      by_cases hmark : mark = 'e' ∨ mark = 'E' <;> simp_all [exponent?]
  | mark :: c :: cs =>
    by_cases hmark : mark = 'e' ∨ mark = 'E'
    · rcases exponent?_cons_cons hmark c with ⟨negative, h⟩ | h
      · rw [List.cons_append, List.cons_append, h, h, signedDigits?_append_detached hmore]
      · rw [List.cons_append, List.cons_append, h, h, ← List.cons_append,
          signedDigits?_append_detached hmore]
    · simp [exponent?, hmark]

theorem number?_append_detached (cs : List Char) :
    number? (cs ++ more) = (number? cs).map fun found => (found.1, found.2 ++ more) := by
  obtain ⟨htake, hdrop⟩ := digits_append_detached hmore cs
  unfold number?
  simp only [htake, hdrop, fraction?_append_detached hmore]
  by_cases hempty : (cs.takeWhile Char.isDigit).isEmpty = true
  · simp [hempty]
  · cases fraction? (cs.dropWhile Char.isDigit) with
    | none =>
      simp only [exponent?_append_detached hmore, Option.map_none]
      cases exponent? (cs.dropWhile Char.isDigit) <;> simp [hempty]
    | some found =>
      simp only [exponent?_append_detached hmore, Option.map_some]
      cases exponent? found.2 <;> simp [hempty]

end

end

/-- The reader finds something in characters of which the last one is not blank, whatever stands
behind them. -/
def Closes {β : Type} (read : List Char → Except Malformed (β × List Char)) (cs : List Char) (b : β)
    (rest : List Char) : Prop :=
  ∃ text c, Text.isBlank c = false ∧ cs = text ++ c :: rest ∧
    ∀ more, read (text ++ c :: more) = .ok (b, more)

theorem closes_stringBody {cs s rest : List Char} (h : stringBody cs = .ok (s, rest)) :
    Closes stringBody cs s rest := by
  fun_induction stringBody cs generalizing s with
  | case1 => cases h
  | case2 tail =>
    obtain ⟨rfl, rfl⟩ := Prod.mk.inj (Except.ok.inj h)
    exact ⟨[], '"', by decide, rfl, fun _ => rfl⟩
  | case3 => cases h
  | case4 => cases h
  | case5 c tail d hd ih =>
    obtain ⟨⟨s', behind⟩, hs', hfound⟩ := exists_of_map_eq_ok h
    obtain ⟨rfl, rfl⟩ := Prod.mk.inj hfound
    obtain ⟨text, e, he, rfl, hread⟩ := ih hs'
    refine ⟨'\\' :: c :: text, e, he, rfl, fun more => ?_⟩
    simp [stringBody, hd, hread, Except.map]
  | case6 c tail hquote hend hslash ih =>
    have hplain : c ≠ '\\' := by
      rintro rfl
      cases tail with
      | nil => exact hend rfl rfl
      | cons d tail => exact hslash d tail rfl rfl
    obtain ⟨⟨s', behind⟩, hs', hfound⟩ := exists_of_map_eq_ok h
    obtain ⟨rfl, rfl⟩ := Prod.mk.inj hfound
    obtain ⟨text, e, he, rfl, hread⟩ := ih hs'
    refine ⟨c :: text, e, he, rfl, fun more => ?_⟩
    rw [List.cons_append, stringBody_plain hquote hplain, hread]
    rfl

theorem closes_characterEnd {c : Char} {cs rest : List Char} {l : Lexeme}
    (h : characterEnd c cs = .ok (l, rest)) : Closes (characterEnd c) cs l rest := by
  unfold characterEnd at h
  split at h
  · obtain ⟨rfl, rfl⟩ := Prod.mk.inj (Except.ok.inj h)
    exact ⟨[], '\'', by decide, rfl, fun _ => rfl⟩
  · cases h

theorem closes_characterBody {cs rest : List Char} {l : Lexeme}
    (h : characterBody cs = .ok (l, rest)) : Closes characterBody cs l rest := by
  match cs with
  | [] => cases h
  | [c] =>
    by_cases hquote : c = '\''
    · subst hquote
      cases h
    · by_cases hslash : c = '\\'
      · subst hslash
        cases h
      · rw [characterBody_plain hquote hslash] at h
        cases h
  | c :: d :: cs =>
    by_cases hquote : c = '\''
    · subst hquote
      cases h
    · by_cases hslash : c = '\\'
      · subst hslash
        obtain ⟨e, he, hend⟩ := characterBody_backslash h
        obtain ⟨text, q, hq, rfl, hread⟩ := closes_characterEnd hend
        refine ⟨'\\' :: d :: text, q, hq, rfl, fun more => ?_⟩
        rw [List.cons_append, List.cons_append, characterBody, he]
        exact hread more
      · rw [characterBody_plain hquote hslash] at h
        obtain ⟨text, q, hq, hcs, hread⟩ := closes_characterEnd h
        refine ⟨c :: text, q, hq, by rw [hcs, List.cons_append], fun more => ?_⟩
        rw [List.cons_append, characterBody_plain hquote hslash]
        exact hread more

theorem closes_mark {cs rest : List Char} {l : Lexeme} (h : mark cs = .ok (l, rest)) :
    Closes mark cs l rest := by
  unfold mark at h
  split at h
  · obtain ⟨⟨s, behind⟩, hs, hfound⟩ := exists_of_map_eq_ok h
    obtain ⟨rfl, rfl⟩ := Prod.mk.inj hfound
    obtain ⟨text, c, hc, rfl, hread⟩ := closes_stringBody hs
    refine ⟨'"' :: text, c, hc, rfl, fun more => ?_⟩
    rw [List.cons_append, mark, hread]
    rfl
  · obtain ⟨text, c, hc, rfl, hread⟩ := closes_characterBody h
    exact ⟨'\'' :: text, c, hc, rfl, hread⟩
  · obtain ⟨rfl, rfl⟩ := Prod.mk.inj (Except.ok.inj h)
    exact ⟨[':'], ':', by decide, rfl, fun _ => rfl⟩
  case h_11 => cases h
  all_goals
    obtain ⟨rfl, rfl⟩ := Prod.mk.inj (Except.ok.inj h)
    exact ⟨[], _, by decide, rfl, fun _ => rfl⟩

/-- A lexeme stays what it is when detached characters are put behind the text. -/
theorem take_append_detached [Alphabet] {more : List Char} (hmore : Text.Detached more)
    {cs rest : List Char} {l : Lexeme} (h : take cs = .ok (l, rest)) :
    take (cs ++ more) = .ok (l, rest ++ more) := by
  unfold take at h ⊢
  rw [identifier?_append_detached hmore, number?_append_detached hmore]
  cases hname : Text.identifier? cs with
  | some found =>
    rw [hname] at h
    obtain ⟨rfl, rfl⟩ := Prod.mk.inj (Except.ok.inj h)
    rfl
  | none =>
    rw [hname] at h
    cases hnumber : number? cs with
    | some found =>
      rw [hnumber] at h
      obtain rfl := Except.ok.inj h
      rfl
    | none =>
      rw [hnumber] at h
      obtain ⟨text, c, -, rfl, hfound⟩ := closes_mark h
      rw [List.append_assoc, List.cons_append]
      exact hfound (rest ++ more)

end Lexeme

namespace Token

theorem Scans.extend [Alphabet] {cs : List Char} {ls : List Lexeme} (h : Scans [] cs ls)
    {more : List Char} (hmore : Text.Detached more) : Scans more (cs ++ more) ls := by
  induction h with
  | done => exact .done
  | blank hc _ ih => exact .blank hc ih
  | lexeme hc htake _ ih => exact .lexeme hc (Lexeme.take_append_detached hmore htake) ih

end Token

end RecordLens
