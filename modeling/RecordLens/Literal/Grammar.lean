import RecordLens.Literal.Reader

/-! The grammars of types and of values, and the texts read by them. -/

namespace RecordLens

variable [Alphabet]

/-- A type name and the arguments read so far. -/
structure Application where
  name : String
  span : Span
  args : List TypeExpr

namespace Application

def push (a : Application) (arg : TypeExpr) : Application := { a with args := a.args ++ [arg] }

/-- The type, which reaches from the name to the last argument. -/
def typeExpr (a : Application) : TypeExpr :=
  .named a.name a.args ((a.args.getLast?.map fun last => a.span.through last.span).getD a.span)

end Application

/-- A type is a name with arguments or a bracketed type, an argument a bare name or a bracketed
type. -/
def typeGrammar : Grammar TypeExpr Application where
  separator := .doubleColon
  start t :=
    match t.lexeme with
    | .identifier name => .ok (.inr ⟨name, t.span, []⟩)
    | _ => .error (.atToken .type t)
  extend a t :=
    match t.lexeme with
    | .identifier name => .ok (.part (a.push (.named name [] t.span)))
    | l => if l.opens then .ok .bracket else .ok (.ended a.typeExpr)
  join := Application.push
  record := .record
  span := TypeExpr.span

/-- The integer of the digits, if it fits in 64 bits. -/
def Expr.ofDigits (negative : Bool) (digits : String) (span : Span) : Except SyntaxError Expr :=
  let magnitude : Int := digitsValue digits.toList
  let i := if negative then -magnitude else magnitude
  if -0x8000000000000000 ≤ i ∧ i < 0x8000000000000000 then .ok (.scalar (.int (Int64.ofInt i)) span)
  else .error ⟨span, .integerInRange, "`" ++ (if negative then "-" else "") ++ digits ++ "`"⟩

/-- A value is a scalar or a bracketed value. A minus stands before a number. -/
def valueGrammar : Grammar Expr Span where
  separator := .equals
  start t :=
    match t.lexeme with
    | .integer digits => (Expr.ofDigits false digits t.span).map .inl
    | .float x => .ok (.inl (.scalar (.float x) t.span))
    | .string s => .ok (.inl (.scalar (.string s) t.span))
    | .character c => .ok (.inl (.scalar (.char c) t.span))
    | .identifier "True" => .ok (.inl (.scalar (.bool true) t.span))
    | .identifier "False" => .ok (.inl (.scalar (.bool false) t.span))
    | .minus => .ok (.inr t.span)
    | .identifier _ | .openBrace | .closeBrace | .openParen | .closeParen | .comma | .doubleColon
    | .equals | .endOfInput => .error (.atToken .value t)
  extend minus t :=
    match t.lexeme with
    | .integer digits => (Expr.ofDigits true digits (minus.through t.span)).map .whole
    | .float x => .ok (.whole (.scalar (.float x.negate) (minus.through t.span)))
    | _ => .error (.atToken .number t)
  join minus _ := minus
  record := .record
  span := Expr.span

/-- How deep brackets may nest where nothing else is said. -/
def usualNesting : Nat := 64

namespace TypeExpr

def asRecord : TypeExpr → Except SyntaxError (RecordExpr TypeExpr)
  | .record r => .ok r
  | .named name _ span => .error ⟨span, .recordType, "type `" ++ name ++ "`"⟩

def read (limit : Nat) (text : String) : Except SyntaxError TypeExpr :=
  typeGrammar.read limit .ok text

def readRecord (limit : Nat) (text : String) : Except SyntaxError (RecordExpr TypeExpr) :=
  typeGrammar.read limit asRecord text

end TypeExpr

namespace Expr

def asRecord : Expr → Except SyntaxError (RecordExpr Expr)
  | .record r => .ok r
  | .scalar _ span => .error ⟨span, .recordLiteral, "a single value"⟩

def read (limit : Nat) (text : String) : Except SyntaxError Expr :=
  valueGrammar.read limit .ok text

def readRecord (limit : Nat) (text : String) : Except SyntaxError (RecordExpr Expr) :=
  valueGrammar.read limit asRecord text

end Expr

end RecordLens
