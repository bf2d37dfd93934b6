/-! Quoted text: the characters between two quotes, with the quote itself, the backslash and the
control characters that have a letter written as escapes. -/

namespace RecordLens.Text

def byNumber (c : Char) : List Char :=
  '\\' :: 'u' :: '{' :: Nat.toDigits 16 c.toNat ++ ['}']

/-- One character between quotes. A character that has no letter of its own stands as it is,
unless it is `hidden`, which is written by number. -/
def escape (hidden : Char → Bool) (quote c : Char) : List Char :=
  match c with
  | '\n' => ['\\', 'n']
  | '\t' => ['\\', 't']
  | '\r' => ['\\', 'r']
  | '\x00' => ['\\', '0']
  | '\\' => ['\\', '\\']
  | c => if c = quote then ['\\', c] else if hidden c then byNumber c else [c]

def quoted (hidden : Char → Bool) (quote : Char) (cs : List Char) : List Char :=
  quote :: cs.flatMap (escape hidden quote) ++ [quote]

def unescape? : Char → Option Char
  | 'n' => some '\n'
  | 't' => some '\t'
  | 'r' => some '\r'
  | '0' => some '\x00'
  | '\\' => some '\\'
  | '"' => some '"'
  | '\'' => some '\''
  | _ => none

end RecordLens.Text
