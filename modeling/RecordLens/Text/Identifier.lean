import RecordLens.Text.Alphabet

/-! Identifiers: a letter or `_` begins one, and letters, digits, primes and combining marks may
follow. -/

namespace RecordLens.Text

variable [Alphabet]

def isInitial (c : Char) : Bool :=
  c = '_' || c.isAlpha || (127 < c.toNat && Alphabet.letter c)

def isSubsequent (c : Char) : Bool :=
  isInitial c || c.isDigit || c = '\'' || Alphabet.continuing c

def identifier? : List Char → Option (List Char × List Char)
  | [] => none
  | c :: rest =>
    if isInitial c then some (c :: rest.takeWhile isSubsequent, rest.dropWhile isSubsequent)
    else none

theorem exists_of_identifier? {cs name rest : List Char} (h : identifier? cs = some (name, rest)) :
    ∃ c tail, cs = c :: tail ∧ isInitial c = true ∧ name = c :: tail.takeWhile isSubsequent ∧
      rest = tail.dropWhile isSubsequent := by
  cases cs with
  | nil => simp [identifier?] at h
  | cons c tail =>
    simp only [identifier?] at h
    split at h
    · rename_i hc
      obtain ⟨rfl, rfl⟩ := Prod.mk.inj (Option.some.inj h)
      exact ⟨c, tail, rfl, hc, rfl, rfl⟩
    · simp at h

theorem append_of_identifier? {cs name rest : List Char} (h : identifier? cs = some (name, rest)) :
    name ++ rest = cs := by
  obtain ⟨c, tail, rfl, -, rfl, rfl⟩ := exists_of_identifier? h
  rw [List.cons_append, List.takeWhile_append_dropWhile]

theorem ne_nil_of_identifier? {cs name rest : List Char} (h : identifier? cs = some (name, rest)) :
    name ≠ [] := by
  obtain ⟨c, tail, -, -, rfl, -⟩ := exists_of_identifier? h
  exact List.cons_ne_nil _ _

end RecordLens.Text
