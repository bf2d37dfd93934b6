import RecordLens.Text.Blank
import RecordLens.Text.Identifier

/-! Identifiers and the characters that may stand beside them: blanks begin no identifier, and a
delimiter ends every word and every number. -/

namespace RecordLens.Text

theorem isBlank_eq_false {c : Char} (h : 32 < c.toNat ∧ c.toNat < 128) : isBlank c = false := by
  have h₁ : ¬c.toNat ≤ 0xD := by omega
  have h₂ : ¬c.toNat ≤ 0x20 := by omega
  have h₃ : c.toNat < 0x85 := by omega
  simp [isBlank, blankRanges, CodeRanges.has, h₁, h₂, h₃]

theorem toNat_of_isDigit {c : Char} (h : c.isDigit = true) : 48 ≤ c.toNat ∧ c.toNat ≤ 57 := by
  simpa [Char.isDigit, UInt32.le_iff_toNat_le] using h

theorem toNat_of_isAlpha {c : Char} (h : c.isAlpha = true) : 65 ≤ c.toNat ∧ c.toNat ≤ 122 := by
  rcases Bool.or_eq_true_iff.1 h with hupper | hlower
  · obtain ⟨hlow, hhigh⟩ : 'A'.val ≤ c.val ∧ c.val ≤ 'Z'.val := of_decide_eq_true hupper
    exact ⟨UInt32.le_iff_toNat_le.1 hlow, Nat.le_trans (UInt32.le_iff_toNat_le.1 hhigh) (by decide)⟩
  · obtain ⟨hlow, hhigh⟩ := Bool.and_eq_true_iff.1 hlower
    exact ⟨Nat.le_trans (by decide) (UInt32.le_iff_toNat_le.1 (of_decide_eq_true hlow)),
      UInt32.le_iff_toNat_le.1 (of_decide_eq_true hhigh)⟩

theorem isBlank_of_isDigit {c : Char} (h : c.isDigit = true) : isBlank c = false :=
  isBlank_eq_false (by have := toNat_of_isDigit h; omega)

variable [Alphabet]

theorem isBlank_of_isInitial {c : Char} (h : isInitial c = true) : isBlank c = false := by
  simp only [isInitial, Bool.or_eq_true, Bool.and_eq_true, decide_eq_true_eq] at h
  obtain (rfl | halpha) | ⟨-, hletter⟩ := h
  · rfl
  · exact isBlank_eq_false (by have := toNat_of_isAlpha halpha; omega)
  · exact Alphabet.isBlank_of_letter hletter

theorem isSubsequent_of_isBlank {c : Char} (h : isBlank c = true) : isSubsequent c = false := by
  rw [← Bool.not_eq_true]
  intro hc
  have hblank : isBlank c = false := by
    simp only [isSubsequent, Bool.or_eq_true, decide_eq_true_eq] at hc
    obtain ((hi | hd) | rfl) | hcontinuing := hc
    · exact isBlank_of_isInitial hi
    · exact isBlank_of_isDigit hd
    · rfl
    · exact Alphabet.isBlank_of_continuing hcontinuing
  exact absurd (h.symm.trans hblank) nofun

/-- In the ASCII range the answer is the same in every alphabet. -/
theorem isInitial_of_ascii {c : Char} {b : Bool}
    (h : c.toNat < 128 ∧ (c = '_' || c.isAlpha) = b) : isInitial c = b := by
  have hascii : ¬127 < c.toNat := by omega
  simpa [isInitial, hascii] using h.2

theorem isSubsequent_of_ascii {c : Char} {b : Bool}
    (h : c.toNat < 128 ∧ (c = '_' || c.isAlpha || c.isDigit || c = '\'') = b) :
    isSubsequent c = b := by
  have hdigit : Alphabet.continuing c = true → c.isDigit = true :=
    Alphabet.isDigit_of_continuing h.1
  rw [isSubsequent, isInitial_of_ascii ⟨h.1, rfl⟩, ← h.2]
  grind

theorem isInitial_of_isDigit {c : Char} (h : c.isDigit = true) : isInitial c = false := by
  have hrange := toNat_of_isDigit h
  have halpha : ¬c.isAlpha = true := fun ha => by
    have := toNat_of_isAlpha ha
    omega
  have hne : c ≠ '_' := by
    rintro rfl
    exact absurd h (by decide)
  exact isInitial_of_ascii ⟨by omega, by simp [hne, halpha]⟩

theorem isSubsequent_of_isDigit {c : Char} (h : c.isDigit = true) : isSubsequent c = true := by
  simp [isSubsequent, h]

theorem isDigit_of_isSubsequent_eq_false {c : Char} (h : isSubsequent c = false) :
    c.isDigit = false := by
  by_cases hd : c.isDigit = true
  · exact absurd ((isSubsequent_of_isDigit hd).symm.trans h) nofun
  · simpa using hd

theorem isInitial_of_isSubsequent_eq_false {c : Char} (h : isSubsequent c = false) :
    isInitial c = false := by
  simp only [isSubsequent, Bool.or_eq_false_iff] at h
  exact h.1.1.1

def IsIdentifier (s : String) : Prop := identifier? s.toList = some (s.toList, [])

instance (s : String) : Decidable (IsIdentifier s) := inferInstanceAs (Decidable (_ = _))

theorem identifier?_eq_some {cs name rest : List Char} (h : identifier? cs = some (name, rest)) :
    ∃ c tail, name = c :: tail ∧ isInitial c = true ∧ ∀ d ∈ tail, isSubsequent d = true := by
  obtain ⟨c, tail, -, hc, hname, -⟩ := exists_of_identifier? h
  exact ⟨c, tail.takeWhile isSubsequent, hname, hc, List.all_eq_true.1 List.all_takeWhile⟩

theorem IsIdentifier.exists_cons {s : String} (h : IsIdentifier s) :
    ∃ c cs, s.toList = c :: cs ∧ isBlank c = false := by
  obtain ⟨c, cs, hs, hc, -⟩ := identifier?_eq_some h
  exact ⟨c, cs, hs, isBlank_of_isInitial hc⟩

/-- Neither a word nor a number before the characters goes on into them. -/
def Delimited (rest : List Char) : Prop :=
  ∀ c, rest.head? = some c → isSubsequent c = false ∧ c ≠ '.'

theorem delimited_nil : Delimited [] := nofun

theorem delimited_cons {c : Char} {rest : List Char}
    (h : isSubsequent c = false ∧ c ≠ '.') : Delimited (c :: rest) := by
  intro d hd
  obtain rfl : c = d := by simpa using hd
  exact h

theorem delimited_of_ascii {c : Char} {rest : List Char}
    (h : (c.toNat < 128 ∧ (c = '_' || c.isAlpha || c.isDigit || c = '\'') = false) ∧ c ≠ '.') :
    Delimited (c :: rest) := delimited_cons ⟨isSubsequent_of_ascii h.1, h.2⟩

omit [Alphabet] in
theorem takeWhile_append {p : Char → Bool} {cs rest : List Char} (hcs : ∀ c ∈ cs, p c = true)
    (h : ∀ c, rest.head? = some c → p c = false) :
    (cs ++ rest).takeWhile p = cs ∧ (cs ++ rest).dropWhile p = rest := by
  rw [List.takeWhile_append_of_pos hcs, List.dropWhile_append_of_pos hcs]
  cases rest with
  | nil => simp
  | cons c rest => simp [h c rfl]

theorem Delimited.not_isDigit {rest : List Char} (h : Delimited rest) :
    ∀ c, rest.head? = some c → c.isDigit = false :=
  fun c hc => isDigit_of_isSubsequent_eq_false (h c hc).1

theorem Delimited.not_isSubsequent {rest : List Char} (h : Delimited rest) :
    ∀ c, rest.head? = some c → isSubsequent c = false := fun c hc => (h c hc).1

theorem identifier?_append {c : Char} {cs rest : List Char} (hc : isInitial c = true)
    (hcs : ∀ d ∈ cs, isSubsequent d = true)
    (h : ∀ d, rest.head? = some d → isSubsequent d = false) :
    identifier? (c :: cs ++ rest) = some (c :: cs, rest) := by
  obtain ⟨ht, hd⟩ := takeWhile_append hcs h
  simp [identifier?, hc, ht, hd]

theorem IsIdentifier.identifier?_append {s : String} (hs : IsIdentifier s) {rest : List Char}
    (h : ∀ d, rest.head? = some d → isSubsequent d = false) :
    identifier? (s.toList ++ rest) = some (s.toList, rest) := by
  obtain ⟨c, cs, he, hc, hcs⟩ := identifier?_eq_some hs
  rw [he]
  exact Text.identifier?_append hc hcs h

theorem isIdentifier_of_isAlphanum (c : Char) (cs : List Char) (hc : c.isAlpha = true)
    (hcs : cs.all Char.isAlphanum = true) : IsIdentifier (String.ofList (c :: cs)) := by
  have hinitial : isInitial c = true := by simp [isInitial, hc]
  have hsubsequent : ∀ d ∈ cs, isSubsequent d = true := fun d hd => by
    have halphanum := List.all_eq_true.1 hcs d hd
    rcases Bool.or_eq_true_iff.1 halphanum with h | h <;> simp [isSubsequent, isInitial, h]
  have hi := identifier?_append hinitial hsubsequent delimited_nil.not_isSubsequent
  rw [List.append_nil] at hi
  rw [IsIdentifier, String.toList_ofList, hi]

theorem isIdentifier_of_identifier? {cs name rest : List Char}
    (h : identifier? cs = some (name, rest)) : IsIdentifier (String.ofList name) := by
  obtain ⟨c, tail, rfl, hc, htail⟩ := identifier?_eq_some h
  have hi := identifier?_append hc htail delimited_nil.not_isSubsequent
  rw [List.append_nil] at hi
  rw [IsIdentifier, String.toList_ofList, hi]

end RecordLens.Text
