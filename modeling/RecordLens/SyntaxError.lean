import RecordLens.Token

/-! Malformed text: what was expected, what stands there instead, and where. -/

namespace RecordLens

/-- What a reader needs at some place. -/
inductive Expectation where
  | token
  | escape
  | closing (quote : Char)
  | character
  | value
  | number
  | type
  | fieldName
  | lexeme (l : Lexeme)
  | commaOr (l : Lexeme)
  | nesting (limit : Nat)
  | integerInRange
  | positionFromOne
  | positionInRange
  | positionsThrough (arity : Nat)
  | position
  | label
  | recordType
  | recordLiteral
  | pathSegment
  | pathEnd
  | phrase (text : String)
  deriving DecidableEq

namespace Expectation

def text : Expectation → String
  | .token => "a token"
  | .escape => "an escape sequence"
  | .closing quote => "closing `" ++ String.singleton quote ++ "`"
  | .character => "a character"
  | .value => "a value"
  | .number => "a number after `-`"
  | .type => "a type"
  | .fieldName => "a field name"
  | .lexeme l => l.describe
  | .commaOr l => "`,` or " ++ l.describe
  | .nesting limit => "at most " ++ toString limit ++ " levels of nesting"
  | .integerInRange => "an integer that fits in 64 bits"
  | .positionFromOne => "a tuple position counted from 1 without leading zeros"
  | .positionInRange => "a tuple position that fits in 32 bits"
  | .positionsThrough arity => "positions 1 through " ++ toString arity
  | .position => "a tuple position"
  | .label => "a label"
  | .recordType => "a record or tuple type"
  | .recordLiteral => "a record or tuple literal"
  | .pathSegment => "a field name or tuple position"
  | .pathEnd => "`.` or end of path"
  | .phrase text => text

end Expectation

structure SyntaxError where
  span : Span
  expected : Expectation
  found : String
  deriving DecidableEq

namespace SyntaxError

def message (e : SyntaxError) : String :=
  "expected " ++ e.expected.text ++ ", found " ++ e.found ++ " at " ++ e.span.place

/-- The next of the remaining characters, or the end of the text, is not what is expected. -/
def atCharacter (expected : Expectation) (p : Position) : List Char → SyntaxError
  | [] => ⟨.covering p [], expected, "end of input"⟩
  | c :: _ => ⟨.covering p [c], expected, "`" ++ String.singleton c ++ "`"⟩

def atToken (expected : Expectation) (t : Token) : SyntaxError :=
  ⟨t.span, expected, t.lexeme.describe⟩

end SyntaxError

end RecordLens
