import RecordLens.Text.CodeRange

/-! Blank characters, and cutting a text at them. -/

namespace RecordLens.Text

/-- The code points with the white space property. -/
def blankRanges : CodeRanges := [
  (0x9, 0xD), (0x20, 0x20), (0x85, 0x85), (0xA0, 0xA0), (0x1680, 0x1680), (0x2000, 0x200A),
  (0x2028, 0x2029), (0x202F, 0x202F), (0x205F, 0x205F), (0x3000, 0x3000)]

def isBlank (c : Char) : Bool := blankRanges.has c

def trimChars (cs : List Char) : List Char :=
  ((cs.dropWhile isBlank).reverse.dropWhile isBlank).reverse

/-- The text without the blanks at both ends. -/
def trim (s : String) : String := String.ofList (trimChars s.toList)

def splitChars? (p : Char → Bool) : List Char → Option (List Char × List Char)
  | [] => none
  | c :: rest =>
    if p c then some ([], rest)
    else (splitChars? p rest).map fun (before, after) => (c :: before, after)

def splitOnce? (p : Char → Bool) (s : String) : Option (String × String) :=
  (splitChars? p s.toList).map fun (before, after) => (String.ofList before, String.ofList after)

theorem splitChars?_eq_none {p : Char → Bool} {cs : List Char} :
    splitChars? p cs = none ↔ ∀ c ∈ cs, p c = false := by
  induction cs with
  | nil => simp [splitChars?]
  | cons c cs ih => by_cases h : p c <;> simp [splitChars?, h, ih]

theorem splitChars?_eq_some {p : Char → Bool} {cs before after : List Char}
    (h : splitChars? p cs = some (before, after)) :
    ∃ c, p c = true ∧ (∀ b ∈ before, p b = false) ∧ cs = before ++ c :: after := by
  induction cs generalizing before with
  | nil => simp [splitChars?] at h
  | cons c cs ih =>
    by_cases hc : p c
    · simp only [splitChars?, hc, ↓reduceIte, Option.some.injEq, Prod.mk.injEq] at h
      obtain ⟨rfl, rfl⟩ := h
      exact ⟨c, hc, by simp, rfl⟩
    · simp only [splitChars?, hc, Bool.false_eq_true, ↓reduceIte, Option.map_eq_some_iff] at h
      obtain ⟨⟨b, a⟩, hs, he⟩ := h
      obtain ⟨rfl, rfl⟩ := Prod.mk.inj he
      obtain ⟨d, hd, hb, rfl⟩ := ih hs
      exact ⟨d, hd, by simp_all, rfl⟩

end RecordLens.Text
