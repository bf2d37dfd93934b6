import RecordLens.Text.Blank

/-! What a reader has to know of the characters beyond the ASCII range. The lexer asks for these
two classes and no more, so it is the same for every edition of the character database. -/

namespace RecordLens

/-- The letters, and the characters that go on with a word besides letters: the decimal digits of
every script and the combining marks. -/
class Alphabet where
  letter : Char → Bool
  continuing : Char → Bool
  isBlank_of_letter {c : Char} : letter c = true → Text.isBlank c = false
  isBlank_of_continuing {c : Char} : continuing c = true → Text.isBlank c = false
  isDigit_of_continuing {c : Char} : c.toNat < 128 → continuing c = true → c.isDigit = true

end RecordLens
