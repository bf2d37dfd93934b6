import RecordLens.Proofs.Token.Quoted

/-! Lexemes of a text that breaks off. A lexeme in front of the end stays what it is. One that the
end cuts is an open quotation, a shorter word, or characters that open and quote nothing. -/

namespace RecordLens

namespace Lexeme

theorem not_takes_append {more rest : List Char} : ¬Takes more (rest ++ more) := by
  intro h
  have := h.length_lt
  rw [List.length_append] at this
  omega

/-- What the reader finds in front of the end does not depend on what follows, and it finds nothing
that it would not find in the longer text. -/
structure Stable {β : Type} (read : List Char → Option (β × List Char)) : Prop where
  found : ∀ {cs rest more : List Char} {b : β},
    read (cs ++ more) = some (b, rest ++ more) → read cs = some (b, rest)
  missed : ∀ {cs more : List Char}, read (cs ++ more) = none → read cs = none

theorem takeWhile_of_append {p : Char → Bool} {cs rest more : List Char}
    (h : (cs ++ more).dropWhile p = rest ++ more) :
    cs.takeWhile p = (cs ++ more).takeWhile p ∧ cs.dropWhile p = rest := by
  have hsplit : (cs ++ more).takeWhile p ++ (rest ++ more) = cs ++ more := by
    rw [← h, List.takeWhile_append_dropWhile]
  rw [← List.append_assoc] at hsplit
  have hcs := List.append_cancel_right hsplit
  have hrest : ∀ c, rest.head? = some c → p c = false := by
    intro c hc
    have hnot := List.head?_dropWhile_not p (cs ++ more)
    rw [h, List.head?_append, hc] at hnot
    exact hnot
  have hall : ∀ c ∈ (cs ++ more).takeWhile p, p c = true := List.all_eq_true.1 List.all_takeWhile
  have hrun := Text.takeWhile_append hall hrest
  rwa [hcs] at hrun

theorem takeWhile_isEmpty_of_append {p : Char → Bool} {cs more : List Char}
    (h : ((cs ++ more).takeWhile p).isEmpty = true) : (cs.takeWhile p).isEmpty = true := by
  cases cs with
  | nil => rfl
  | cons c cs =>
    by_cases hc : p c = true
    · simp [hc] at h
    · simp [hc]

theorem stable_identifier? [Alphabet] : Stable Text.identifier? where
  found {cs rest more name} h := by
    cases cs with
    | nil =>
      have htakes : Takes more (rest ++ more) :=
        ⟨name, Text.ne_nil_of_identifier? h, (Text.append_of_identifier? h).symm⟩
      exact absurd htakes not_takes_append
    | cons c cs =>
      by_cases hc : Text.isInitial c = true
      · simp only [List.cons_append, Text.identifier?, hc, if_true, Option.some.injEq,
          Prod.mk.injEq] at h ⊢
        obtain ⟨hrun, hrest⟩ := takeWhile_of_append h.2
        exact ⟨hrun ▸ h.1, hrest⟩
      · simp [Text.identifier?, hc] at h
  missed {cs more} h := by
    cases cs with
    | nil => rfl
    | cons c cs =>
      by_cases hc : Text.isInitial c = true
      · simp [Text.identifier?, hc] at h
      · simp [Text.identifier?, hc]

theorem stable_signedDigits? (negative : Bool) : Stable (signedDigits? negative) where
  found {cs rest more e} h := by
    unfold signedDigits? at h ⊢
    simp only at h ⊢
    split at h
    · simp at h
    · next hne =>
      obtain ⟨he, hrest⟩ := Prod.mk.inj (Option.some.inj h)
      obtain ⟨hrun, hdrop⟩ := takeWhile_of_append hrest
      rw [hrun, hdrop, if_neg hne, he]
  missed {cs more} h := by
    unfold signedDigits? at h ⊢
    simp only at h ⊢
    split at h
    · next hempty => rw [if_pos (takeWhile_isEmpty_of_append hempty)]
    · simp at h

theorem exponent?_cons_cons {mark : Char} (hmark : mark = 'e' ∨ mark = 'E') (c : Char) :
    (∃ negative, ∀ cs, exponent? (mark :: c :: cs) = signedDigits? negative cs) ∨
      ∀ cs, exponent? (mark :: c :: cs) = signedDigits? false (c :: cs) := by
  by_cases hplus : c = '+'
  · exact .inl ⟨false, fun cs => by simp [exponent?, hmark, hplus]⟩
  · by_cases hminus : c = '-'
    · exact .inl ⟨true, fun cs => by simp [exponent?, hmark, hminus]⟩
    · refine .inr fun cs => ?_
      simp only [exponent?, if_pos hmark]
      split
      · next he => exact absurd (List.cons.inj he).1 hplus
      · next he => exact absurd (List.cons.inj he).1 hminus
      · rfl

theorem stable_exponent? : Stable exponent? where
  found {cs rest more e} h := by
    cases cs with
    | nil => exact absurd (exponent?_takes h) not_takes_append
    | cons mark cs =>
      by_cases hmark : mark = 'e' ∨ mark = 'E'
      · cases cs with
        | nil =>
          cases more with
          | nil => simpa using h
          | cons c more =>
            rcases exponent?_cons_cons hmark c with ⟨negative, hread⟩ | hread
            · have htakes := (signedDigits?_takes ((hread more).symm.trans h)).cons c
              exact absurd htakes not_takes_append
            · exact absurd (signedDigits?_takes ((hread more).symm.trans h)) not_takes_append
        | cons c cs =>
          rcases exponent?_cons_cons hmark c with ⟨negative, hread⟩ | hread
          · rw [hread]
            exact (stable_signedDigits? negative).found ((hread _).symm.trans h)
          · rw [hread]
            exact (stable_signedDigits? false).found ((hread _).symm.trans h)
      · simp [exponent?, hmark] at h
  missed {cs more} h := by
    cases cs with
    | nil => rfl
    | cons mark cs =>
      by_cases hmark : mark = 'e' ∨ mark = 'E'
      · cases cs with
        | nil => simp [exponent?, hmark, signedDigits?]
        | cons c cs =>
          rcases exponent?_cons_cons hmark c with ⟨negative, hread⟩ | hread
          · rw [hread]
            exact (stable_signedDigits? negative).missed ((hread _).symm.trans h)
          · rw [hread]
            exact (stable_signedDigits? false).missed ((hread _).symm.trans h)
      · simp [exponent?, hmark]

theorem stable_fraction? : Stable fraction? where
  found {cs rest more ds} h := by
    have hcs : cs = '.' :: (ds ++ rest) := by
      have hsplit := fraction?_eq_some h
      rw [← List.append_assoc] at hsplit
      simpa using List.append_cancel_right hsplit
    subst hcs
    simp only [List.cons_append, fraction?] at h ⊢
    split at h
    · simp at h
    · next hne =>
      obtain ⟨hds, hrest⟩ := Prod.mk.inj (Option.some.inj h)
      obtain ⟨hrun, hdrop⟩ := takeWhile_of_append hrest
      rw [hrun, hdrop, if_neg hne, hds]
  missed {cs more} h := by
    cases cs with
    | nil => rfl
    | cons c cs =>
      by_cases hpoint : c = '.'
      · subst hpoint
        simp only [List.cons_append, fraction?] at h ⊢
        split at h
        · next hempty => rw [if_pos (takeWhile_isEmpty_of_append hempty)]
        · simp at h
      · unfold fraction?
        split
        · next he => exact absurd (List.cons.inj he).1 hpoint
        · rfl

theorem stable_number? : Stable number? where
  found {cs rest more l} h := by
    obtain ⟨u, hu⟩ := number?_suffix h
    rw [← List.append_assoc] at hu
    obtain ⟨hrun, hdrop⟩ := takeWhile_of_append hu.symm
    unfold number? at h ⊢
    simp only [← hu, hrun, hdrop] at h ⊢
    split at h
    · simp at h
    · next hne =>
      rw [if_neg hne]
      cases hf : fraction? (u ++ rest ++ more) with
      | none =>
        rw [hf] at h
        rw [stable_fraction?.missed hf]
        cases he : exponent? (u ++ rest ++ more) with
        | none =>
          rw [he] at h
          obtain ⟨rfl, hrest⟩ := Prod.mk.inj (Option.some.inj h)
          rw [stable_exponent?.missed he, List.append_cancel_right hrest]
        | some exponent =>
          obtain ⟨e, behind⟩ := exponent
          rw [he] at h
          obtain ⟨rfl, rfl⟩ := Prod.mk.inj (Option.some.inj h)
          rw [stable_exponent?.found he]
      | some fraction =>
        obtain ⟨ds, tail⟩ := fraction
        rw [hf] at h
        cases he : exponent? tail with
        | none =>
          simp only [he] at h
          obtain ⟨rfl, rfl⟩ := Prod.mk.inj (Option.some.inj h)
          simp only [stable_fraction?.found hf, stable_exponent?.missed he]
        | some exponent =>
          obtain ⟨e, behind⟩ := exponent
          simp only [he] at h
          obtain ⟨rfl, rfl⟩ := Prod.mk.inj (Option.some.inj h)
          obtain ⟨v, hv⟩ := (exponent?_takes he).suffix
          rw [← List.append_assoc] at hv
          subst hv
          simp only [stable_fraction?.found hf, stable_exponent?.found he]
  missed {cs more} h := by
    unfold number? at h ⊢
    simp only at h ⊢
    split at h
    · next hempty => rw [if_pos (takeWhile_isEmpty_of_append hempty)]
    · split at h <;> split at h <;> simp at h

def IsPlain (c : Char) : Prop := c ∉ ['"', '\'', '{', '}', '(', ')']

instance (c : Char) : Decidable (IsPlain c) := inferInstanceAs (Decidable (_ ∉ _))

theorem isPlain_of_isDigit {c : Char} (h : c.isDigit = true) : IsPlain c := by
  intro hc
  simp only [List.mem_cons, List.not_mem_nil, or_false] at hc
  rcases hc with rfl | rfl | rfl | rfl | rfl | rfl <;> exact absurd h (by decide)

theorem IsNumber.opens_eq_false {l : Lexeme} (h : l.IsNumber) : l.opens = false := by
  cases l <;> first | rfl | exact h.elim

theorem IsNumber.closes_eq_false {l : Lexeme} (h : l.IsNumber) : l.closes = false := by
  cases l <;> first | rfl | exact h.elim

theorem take_of_isPlain [Alphabet] {c : Char} (hc : IsPlain c) (cs : List Char) :
    (∃ l tail, take (c :: cs) = .ok (l, tail) ∧ l.opens = false ∧ l.closes = false) ∨
      take (c :: cs) = .error ⟨.token, c :: cs⟩ := by
  unfold take
  split
  · exact .inl ⟨_, _, rfl, rfl, rfl⟩
  · split
    · next found hnumber =>
      have hkind := number?_isNumber hnumber
      exact .inl ⟨_, _, rfl, hkind.opens_eq_false, hkind.closes_eq_false⟩
    · unfold mark
      split
      case h_3 | h_8 | h_9 | h_10 => exact .inl ⟨_, _, rfl, rfl, rfl⟩
      case h_11 => exact .inr rfl
      all_goals
        next he =>
          obtain ⟨rfl, -⟩ := List.cons.inj he
          exact absurd hc (by decide)

def TakesPlain (cs rest : List Char) : Prop := ∃ text, cs = text ++ rest ∧ ∀ c ∈ text, IsPlain c

theorem TakesPlain.trans {cs middle rest : List Char} (h : TakesPlain cs middle)
    (h' : TakesPlain middle rest) : TakesPlain cs rest := by
  obtain ⟨text, rfl, htext⟩ := h
  obtain ⟨text', rfl, htext'⟩ := h'
  refine ⟨text ++ text', by simp, fun c hc => ?_⟩
  rcases List.mem_append.1 hc with hc | hc
  · exact htext c hc
  · exact htext' c hc

theorem takesPlain_cons {c : Char} (h : IsPlain c) (rest : List Char) :
    TakesPlain (c :: rest) rest := ⟨[c], rfl, by simpa using h⟩

theorem takesPlain_dropWhile (cs : List Char) : TakesPlain cs (cs.dropWhile Char.isDigit) :=
  ⟨cs.takeWhile Char.isDigit, List.takeWhile_append_dropWhile.symm, fun _ hc =>
    isPlain_of_isDigit (List.all_eq_true.1 List.all_takeWhile _ hc)⟩

theorem fraction?_takesPlain {cs ds rest : List Char} (h : fraction? cs = some (ds, rest)) :
    TakesPlain cs rest := by
  unfold fraction? at h
  split at h
  · split at h
    · simp at h
    · obtain ⟨-, rfl⟩ := Prod.mk.inj (Option.some.inj h)
      exact (takesPlain_cons (by decide) _).trans (takesPlain_dropWhile _)
  · simp at h

theorem signedDigits?_takesPlain {negative : Bool} {cs rest : List Char} {e : Int}
    (h : signedDigits? negative cs = some (e, rest)) : TakesPlain cs rest := by
  unfold signedDigits? at h
  simp only at h
  split at h
  · simp at h
  · obtain ⟨-, rfl⟩ := Prod.mk.inj (Option.some.inj h)
    exact takesPlain_dropWhile cs

theorem exponent?_takesPlain {cs rest : List Char} {e : Int} (h : exponent? cs = some (e, rest)) :
    TakesPlain cs rest := by
  unfold exponent? at h
  split at h
  · next mark tail =>
    split at h
    · next hmark =>
      have hplain : TakesPlain (mark :: tail) tail := by
        refine takesPlain_cons ?_ tail
        rcases hmark with rfl | rfl <;> decide
      refine hplain.trans ?_
      split at h
      · exact (takesPlain_cons (by decide) _).trans (signedDigits?_takesPlain h)
      · exact (takesPlain_cons (by decide) _).trans (signedDigits?_takesPlain h)
      · exact signedDigits?_takesPlain h
    · simp at h
  · simp at h

theorem number?_takesPlain {cs rest : List Char} {l : Lexeme} (h : number? cs = some (l, rest)) :
    TakesPlain cs rest := by
  obtain ⟨tail, hfraction, hexponent⟩ := number?_eq_some h
  have htail : TakesPlain cs tail := by
    rcases hfraction with rfl | ⟨ds, hf⟩
    · exact takesPlain_dropWhile cs
    · exact (takesPlain_dropWhile cs).trans (fraction?_takesPlain hf)
  rcases hexponent with rfl | ⟨e, he⟩
  · exact htail
  · exact htail.trans (exponent?_takesPlain he)

theorem stringBody_backslash {c : Char} {cs s tail : List Char}
    (h : stringBody ('\\' :: c :: cs) = .ok (s, tail)) :
    ∃ d s', Text.unescape? c = some d ∧ stringBody cs = .ok (s', tail) ∧ s = d :: s' := by
  rw [stringBody] at h
  split at h
  · simp at h
  · next d hd =>
    obtain ⟨⟨s', behind⟩, hb, hfound⟩ := exists_of_map_eq_ok h
    obtain ⟨hs, rfl⟩ := Prod.mk.inj hfound
    exact ⟨d, s', hd, hb, hs.symm⟩

theorem stringBody_append {cs more s tail : List Char}
    (h : stringBody (cs ++ more) = .ok (s, tail)) :
    (∃ rest, tail = rest ++ more ∧ stringBody cs = .ok (s, rest)) ∨
      tail.length < more.length ∧ ∃ e, stringBody cs = .error ⟨e, []⟩ := by
  fun_induction stringBody cs generalizing s with
  | case1 => exact .inr ⟨(stringBody_takes h).length_lt, _, rfl⟩
  | case2 rest =>
    obtain ⟨rfl, rfl⟩ := Prod.mk.inj (Except.ok.inj h)
    exact .inl ⟨rest, rfl, rfl⟩
  | case3 =>
    cases more with
    | nil => simp [stringBody] at h
    | cons c more =>
      obtain ⟨d, s', -, hs', -⟩ := stringBody_backslash h
      exact .inr ⟨((stringBody_takes hs').cons c).length_lt, _, rfl⟩
  | case4 c rest hc =>
    obtain ⟨d, -, hd, -, -⟩ := stringBody_backslash h
    cases hc.symm.trans hd
  | case5 c rest d hd ih =>
    obtain ⟨d', s', hd', hs', rfl⟩ := stringBody_backslash h
    obtain rfl := Option.some.inj (hd.symm.trans hd')
    rcases ih hs' with ⟨rest', rfl, hread⟩ | ⟨hlt, e, hread⟩
    · exact .inl ⟨rest', rfl, by rw [hread]; rfl⟩
    · exact .inr ⟨hlt, e, by rw [hread]; rfl⟩
  | case6 c rest hquote hend hslash ih =>
    have hslash : c ≠ '\\' := by
      rintro rfl
      cases rest with
      | nil => exact hend rfl rfl
      | cons d rest => exact hslash d rest rfl rfl
    rw [List.cons_append, stringBody_plain hquote hslash] at h
    obtain ⟨⟨s', behind⟩, hs', hfound⟩ := exists_of_map_eq_ok h
    obtain ⟨rfl, rfl⟩ := Prod.mk.inj hfound
    rcases ih hs' with ⟨rest', rfl, hread⟩ | ⟨hlt, e, hread⟩
    · exact .inl ⟨rest', rfl, by rw [hread]; rfl⟩
    · exact .inr ⟨hlt, e, by rw [hread]; rfl⟩

theorem characterEnd_append {c : Char} {cs more tail : List Char} {l : Lexeme}
    (h : characterEnd c (cs ++ more) = .ok (l, tail)) :
    (∃ rest, tail = rest ++ more ∧ characterEnd c cs = .ok (l, rest)) ∨
      tail.length < more.length ∧ ∃ e, characterEnd c cs = .error ⟨e, []⟩ := by
  cases cs with
  | nil => exact .inr ⟨(characterEnd_takes h).length_lt, _, rfl⟩
  | cons d cs =>
    refine .inl ?_
    rw [List.cons_append] at h
    unfold characterEnd at h ⊢
    split at h
    · next he =>
      obtain ⟨rfl, rfl⟩ := List.cons.inj he
      obtain ⟨rfl, rfl⟩ := Prod.mk.inj (Except.ok.inj h)
      exact ⟨cs, rfl, rfl⟩
    · simp at h

theorem characterBody_backslash {c : Char} {cs tail : List Char} {l : Lexeme}
    (h : characterBody ('\\' :: c :: cs) = .ok (l, tail)) :
    ∃ d, Text.unescape? c = some d ∧ characterEnd d cs = .ok (l, tail) := by
  rw [characterBody] at h
  split at h
  · simp at h
  · next d hd => exact ⟨d, hd, h⟩

theorem characterBody_append {cs more tail : List Char} {l : Lexeme}
    (h : characterBody (cs ++ more) = .ok (l, tail)) :
    (∃ rest, tail = rest ++ more ∧ characterBody cs = .ok (l, rest)) ∨
      tail.length < more.length ∧ ∃ e, characterBody cs = .error ⟨e, []⟩ := by
  cases cs with
  | nil => exact .inr ⟨(characterBody_takes h).length_lt, _, rfl⟩
  | cons c cs =>
    by_cases hquote : c = '\''
    · subst hquote
      simp [characterBody] at h
    · by_cases hslash : c = '\\'
      · subst hslash
        cases cs with
        | nil =>
          cases more with
          | nil => simp [characterBody] at h
          | cons c more =>
            obtain ⟨d, -, hd⟩ := characterBody_backslash h
            exact .inr ⟨((characterEnd_takes hd).cons c).length_lt, _, rfl⟩
        | cons c cs =>
          obtain ⟨d, hd, hend⟩ := characterBody_backslash h
          have hbody : characterBody ('\\' :: c :: cs) = characterEnd d cs := by
            rw [characterBody, hd]
          rw [hbody]
          exact characterEnd_append hend
      · rw [List.cons_append, characterBody_plain hquote hslash] at h
        rw [characterBody_plain hquote hslash]
        exact characterEnd_append h

theorem mark_append {c : Char} {cs more tail : List Char} {l : Lexeme}
    (h : mark (c :: cs ++ more) = .ok (l, tail)) :
    (∃ rest, tail = rest ++ more ∧ mark (c :: cs) = .ok (l, rest)) ∨
      tail.length < more.length ∧ l.opens = false ∧
        ((∃ e, mark (c :: cs) = .error ⟨e, []⟩) ∨ c :: cs = [':']) := by
  rw [List.cons_append] at h
  unfold mark at h
  split at h
  · next body he =>
    obtain ⟨rfl, rfl⟩ := List.cons.inj he
    obtain ⟨⟨s, behind⟩, hs, hfound⟩ := exists_of_map_eq_ok h
    obtain ⟨rfl, rfl⟩ := Prod.mk.inj hfound
    rcases stringBody_append hs with ⟨rest, rfl, hread⟩ | ⟨hlt, e, hread⟩
    · exact .inl ⟨rest, rfl, by rw [mark, hread]; rfl⟩
    · exact .inr ⟨hlt, rfl, .inl ⟨e, by rw [mark, hread]; rfl⟩⟩
  · next body he =>
    obtain ⟨rfl, rfl⟩ := List.cons.inj he
    obtain ⟨d, rfl⟩ := eq_character_of_characterBody h
    rcases characterBody_append h with ⟨rest, rfl, hread⟩ | ⟨hlt, e, hread⟩
    · exact .inl ⟨rest, rfl, hread⟩
    · exact .inr ⟨hlt, rfl, .inl ⟨e, hread⟩⟩
  · next behind he =>
    obtain ⟨rfl, htail⟩ := List.cons.inj he
    obtain ⟨rfl, rfl⟩ := Prod.mk.inj (Except.ok.inj h)
    cases cs with
    | nil =>
      obtain rfl : more = _ := htail
      exact .inr ⟨by simp, rfl, .inr rfl⟩
    | cons d cs =>
      obtain ⟨rfl, rfl⟩ := List.cons.inj htail
      exact .inl ⟨cs, rfl, rfl⟩
  case h_11 => simp at h
  all_goals
    next he =>
      obtain ⟨rfl, rfl⟩ := List.cons.inj he
      obtain ⟨rfl, rfl⟩ := Prod.mk.inj (Except.ok.inj h)
      exact .inl ⟨cs, rfl, rfl⟩

/-- The end cuts a lexeme: what is left of it is a quotation that stays open, a word, or plain. -/
inductive Cut [Alphabet] : List Char → Prop
  | quotation {cs : List Char} {e : Expectation} (h : take cs = .error ⟨e, []⟩) : Cut cs
  | word {cs : List Char} {name : String} (h : take cs = .ok (.identifier name, [])) : Cut cs
  | plain {cs : List Char} (h : ∀ c ∈ cs, IsPlain c) : Cut cs

theorem suffix_append_cases {cs more tail : List Char} (h : tail <:+ cs ++ more) :
    (∃ rest, tail = rest ++ more) ∨ tail.length < more.length := by
  by_cases hlt : tail.length < more.length
  · exact .inr hlt
  · obtain ⟨rest, hrest⟩ :=
      List.suffix_of_suffix_length_le (List.suffix_append cs more) h (Nat.le_of_not_lt hlt)
    exact .inl ⟨rest, hrest.symm⟩

theorem prefix_of_append_eq {cs more text tail : List Char} (h : cs ++ more = text ++ tail)
    (hlt : tail.length < more.length) : cs <+: text := by
  refine List.prefix_of_prefix_length_le ⟨more, h⟩ (List.prefix_append text tail) ?_
  have hlength := congrArg List.length h
  simp only [List.length_append] at hlength
  omega

theorem take_prefix_of_identifier? [Alphabet] {c : Char} {cs whole name rest : List Char}
    (h : Text.identifier? whole = some (name, rest)) (hfront : c :: cs <+: name) :
    take (c :: cs) = .ok (.identifier (String.ofList (c :: cs)), []) := by
  obtain ⟨d, tail, rfl, hd, htail⟩ := Text.identifier?_eq_some h
  obtain ⟨rfl, hcs⟩ := List.cons_prefix_cons.1 hfront
  have hname := Text.identifier?_append hd (fun e he => htail e (hcs.subset he))
    Text.delimited_nil.not_isSubsequent
  rw [List.append_nil] at hname
  rw [take, hname]

/-- A lexeme ends in front of the end, or the end cuts it. Brackets are too short to be cut. -/
theorem take_append [Alphabet] {c : Char} {cs more tail : List Char} {l : Lexeme}
    (h : take (c :: cs ++ more) = .ok (l, tail)) :
    (∃ rest, tail = rest ++ more ∧ take (c :: cs) = .ok (l, rest)) ∨
      tail.length < more.length ∧ l.opens = false ∧ Cut (c :: cs) := by
  have hends := suffix_append_cases (take_takes h).suffix
  unfold take at h
  split at h
  · next name behind hname =>
    obtain ⟨rfl, rfl⟩ := Prod.mk.inj (Except.ok.inj h)
    rcases hends with ⟨rest, rfl⟩ | hlt
    · exact .inl ⟨rest, rfl, by rw [take, stable_identifier?.found hname]⟩
    · have hfront := prefix_of_append_eq (Text.append_of_identifier? hname).symm hlt
      exact .inr ⟨hlt, rfl, .word (take_prefix_of_identifier? hname hfront)⟩
  · next hname =>
    have hmissed := stable_identifier?.missed hname
    split at h
    · next found hnumber =>
      obtain rfl := Except.ok.inj h
      rcases hends with ⟨rest, rfl⟩ | hlt
      · exact .inl ⟨rest, rfl, by rw [take, hmissed, stable_number?.found hnumber]⟩
      · obtain ⟨text, htext, hplain⟩ := number?_takesPlain hnumber
        have hfront := prefix_of_append_eq htext hlt
        refine .inr ⟨hlt, ?_, .plain fun d hd => hplain d (hfront.subset hd)⟩
        exact (number?_isNumber hnumber).opens_eq_false
    · next hnumber =>
      have htake : take (c :: cs) = mark (c :: cs) := by
        rw [take, hmissed, stable_number?.missed hnumber]
      rw [htake]
      rcases mark_append h with hfound | ⟨hlt, hopens, ⟨e, hread⟩ | hcolon⟩
      · exact .inl hfound
      · exact .inr ⟨hlt, hopens, .quotation (htake.trans hread)⟩
      · rw [hcolon]
        exact .inr ⟨hlt, hopens, .plain (List.forall_mem_singleton.2 (by decide))⟩

end Lexeme

namespace Token

variable [Alphabet]

theorem Scans.truncate {rest more cs : List Char} {ls : List Lexeme}
    (h : Scans (rest ++ more) cs ls) : ∃ before, cs = before ++ more ∧ Scans rest before ls := by
  induction h with
  | done => exact ⟨rest, rfl, .done⟩
  | @blank c cs ls hc _ ih =>
    obtain ⟨before, rfl, hscans⟩ := ih
    exact ⟨c :: before, rfl, .blank hc hscans⟩
  | @lexeme c cs tail l ls hc htake _ ih =>
    obtain ⟨before, rfl, hscans⟩ := ih
    obtain ⟨text, hne, htext⟩ := Lexeme.take_takes htake
    obtain ⟨d, text, rfl⟩ := List.exists_cons_of_ne_nil hne
    obtain ⟨rfl, hcs⟩ := List.cons.inj htext
    have hfront : c :: cs = c :: (text ++ before) ++ more := by rw [hcs]; simp
    rw [hfront] at htake ⊢
    rcases Lexeme.take_append htake with ⟨behind, heq, hfound⟩ | ⟨hlt, -⟩
    · obtain rfl := List.append_cancel_right heq
      exact ⟨_, rfl, .lexeme hc hfound hscans⟩
    · rw [List.length_append] at hlt
      omega

/-- A text that is scanned as a whole is scanned up to any place in it, unless the place is inside
of a lexeme: then it is scanned up to this lexeme, which the end cuts. -/
theorem Scans.split {cs more : List Char} {ls : List Lexeme} (h : Scans [] (cs ++ more) ls) :
    ∃ ls₁ ls₂, ls = ls₁ ++ ls₂ ∧
      (Scans [] cs ls₁ ∧ Scans [] more ls₂ ∨
        ∃ c rest l ls₃, Scans (c :: rest) cs ls₁ ∧ Text.isBlank c = false ∧
          Lexeme.Cut (c :: rest) ∧ l.opens = false ∧ ls₂ = l :: ls₃) := by
  generalize htext : cs ++ more = text at h
  induction h generalizing cs with
  | done =>
    obtain ⟨rfl, rfl⟩ := List.append_eq_nil_iff.1 htext
    exact ⟨[], [], rfl, .inl ⟨.done, .done⟩⟩
  | @blank c text ls hc h ih =>
    cases cs with
    | nil =>
      obtain rfl : more = c :: text := htext
      exact ⟨[], ls, rfl, .inl ⟨.done, .blank hc h⟩⟩
    | cons d cs =>
      obtain ⟨rfl, rfl⟩ := List.cons.inj htext
      obtain ⟨ls₁, ls₂, rfl, ⟨hfront, hback⟩ | ⟨e, rest, l, ls₃, hfront, hcut⟩⟩ := ih rfl
      · exact ⟨ls₁, ls₂, rfl, .inl ⟨.blank hc hfront, hback⟩⟩
      · exact ⟨ls₁, ls₂, rfl, .inr ⟨e, rest, l, ls₃, .blank hc hfront, hcut⟩⟩
  | @lexeme c text tail l ls hc htake h ih =>
    cases cs with
    | nil =>
      obtain rfl : more = c :: text := htext
      exact ⟨[], l :: ls, rfl, .inl ⟨.done, .lexeme hc htake h⟩⟩
    | cons d cs =>
      obtain ⟨rfl, rfl⟩ := List.cons.inj htext
      rcases Lexeme.take_append htake with ⟨rest, rfl, hfound⟩ | ⟨-, hopens, hcut⟩
      · obtain ⟨ls₁, ls₂, rfl, ⟨hfront, hback⟩ | ⟨e, rest, k, ls₃, hfront, hcut⟩⟩ := ih rfl
        · exact ⟨l :: ls₁, ls₂, rfl, .inl ⟨.lexeme hc hfound hfront, hback⟩⟩
        · exact ⟨l :: ls₁, ls₂, rfl, .inr ⟨e, rest, k, ls₃, .lexeme hc hfound hfront, hcut⟩⟩
      · exact ⟨[], l :: ls, rfl, .inr ⟨d, cs, l, ls, .done, hc, hcut, hopens, rfl⟩⟩

end Token

end RecordLens
