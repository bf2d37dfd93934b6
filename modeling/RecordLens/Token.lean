import RecordLens.Number.Shortest
import RecordLens.Text.Quoted
import RecordLens.Text.Span
import RecordLens.Text.Unprintable

/-! The tokens of literals. -/

namespace RecordLens

/-- What a token is. An integer keeps its digits, since only its surroundings tell whether it is a
number or the position of a field. -/
inductive Lexeme where
  | identifier (name : String)
  | integer (digits : String)
  | float (x : Binary64)
  | string (s : String)
  | character (c : Char)
  | openBrace
  | closeBrace
  | openParen
  | closeParen
  | comma
  | doubleColon
  | equals
  | minus
  | endOfInput
  deriving DecidableEq

namespace Lexeme

def describe : Lexeme → String
  | .identifier name => "identifier `" ++ name ++ "`"
  | .integer digits => "integer `" ++ digits ++ "`"
  | .float x => "number `" ++ x.text ++ "`"
  | .string s => "string " ++ String.ofList (Text.quoted Text.isUnprintable '"' s.toList)
  | .character c => "character " ++ String.ofList (Text.quoted Text.isUnprintable '\'' [c])
  | .openBrace => "`\x7b`"
  | .closeBrace => "`\x7d`"
  | .openParen => "`(`"
  | .closeParen => "`)`"
  | .comma => "`,`"
  | .doubleColon => "`::`"
  | .equals => "`=`"
  | .minus => "`-`"
  | .endOfInput => "end of input"

def opens : Lexeme → Bool
  | .openBrace | .openParen => true
  | _ => false

def closes : Lexeme → Bool
  | .closeBrace | .closeParen => true
  | _ => false

end Lexeme

structure Token where
  lexeme : Lexeme
  span : Span
  deriving DecidableEq

end RecordLens
