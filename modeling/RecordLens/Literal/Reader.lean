import RecordLens.Literal.Names
import RecordLens.Token.Scan

/-! Reading literals: a pushdown machine that takes one token at a time. Types and values have
their brackets, names and commas in common, and differ in how an item without brackets is written
and in what stands between a name and its item, which a `Grammar` says. -/

namespace RecordLens

/-- What a token does to an item that has begun. -/
inductive Extension (α π : Type) where
  /-- The token completes the item. -/
  | whole (item : α)
  /-- The token belongs to the item, which may go on. -/
  | part (p : π)
  /-- The token opens a bracket that belongs to the item. -/
  | bracket
  /-- The item was complete before the token. -/
  | ended (item : α)

/-- How items are written. An item is an `α`, one that has begun is a `π`. -/
structure Grammar (α π : Type) where
  /-- Stands between a field name and its item. -/
  separator : Lexeme
  /-- An item that begins with a token other than a bracket. -/
  start : Token → Except SyntaxError (α ⊕ π)
  extend : π → Token → Except SyntaxError (Extension α π)
  /-- An item that has begun goes on with a bracketed one. -/
  join : π → α → π
  record : RecordExpr α → α
  span : α → Span

/-- An open bracket, and the item it belongs to if it does not begin one. -/
structure Bracket (π : Type) where
  opening : Span
  owner : Option π

/-- An open bracket inside which an item is read. -/
inductive Frame (α π : Type) where
  | field (b : Bracket π) (done : List (FieldExpr α)) (name : FieldName) (nameSpan : Span)
  | element (b : Bracket π) (done : List α)

/-- What the machine waits for. -/
inductive Control (α π : Type) where
  /-- An item. -/
  | item
  /-- More of an item that has begun. -/
  | part (p : π)
  /-- What follows a complete item. -/
  | whole (item : α)
  /-- A name or a closing brace. -/
  | firstName (b : Bracket π)
  /-- A name. -/
  | nextName (b : Bracket π) (done : List (FieldExpr α))
  /-- The separator behind a name. -/
  | separator (b : Bracket π) (done : List (FieldExpr α)) (name : FieldName) (nameSpan : Span)

/-- The machine between two tokens. -/
structure Reader (α π : Type) where
  frames : List (Frame α π)
  control : Control α π

namespace Reader

variable {α β π : Type}

def initial : Reader α π := ⟨[], .item⟩

/-- A brace or a parenthesis opens, if the limit of nesting allows one more. -/
def opened (limit : Nat) (frames : List (Frame α π)) (owner : Option π) (t : Token) :
    Except SyntaxError (Reader α π) :=
  if frames.length < limit then
    if t.lexeme = .openBrace then .ok ⟨frames, .firstName ⟨t.span, owner⟩⟩
    else .ok ⟨.element ⟨t.span, owner⟩ [] :: frames, .item⟩
  else .error ⟨t.span, .nesting limit, "a deeper literal"⟩

def closed (g : Grammar α π) (frames : List (Frame α π)) (b : Bracket π) (item : α) : Reader α π :=
  match b.owner with
  | some p => ⟨frames, .part (g.join p item)⟩
  | none => ⟨frames, .whole item⟩

/-- A brace closes: the fields become a record if their names may share one. -/
def closeBrace (g : Grammar α π) (frames : List (Frame α π)) (b : Bracket π)
    (fields : List (FieldExpr α)) (t : Token) : Except SyntaxError (Reader α π) :=
  let span := b.opening.through t.span
  match FieldExpr.checkNames fields span with
  | .error e => .error e
  | .ok () => .ok (closed g frames b (g.record ⟨fields, span⟩))

/-- A parenthesis closes: one element stands for itself, several are a tuple. -/
def closeParen (g : Grammar α π) (frames : List (Frame α π)) (b : Bracket π)
    (elements : List α) (t : Token) : Reader α π :=
  match elements with
  | [item] => closed g frames b item
  | _ =>
    let fields := FieldExpr.positions g.span 1 elements
    closed g frames b (g.record ⟨fields, b.opening.through t.span⟩)

/-- A name is read. -/
def named (frames : List (Frame α π)) (b : Bracket π) (done : List (FieldExpr α)) (t : Token) :
    Except SyntaxError (Reader α π) :=
  match t.lexeme with
  | .identifier label => .ok ⟨frames, .separator b done (.label label) t.span⟩
  | .integer digits =>
    match FieldName.ofDigits digits t.span with
    | .error e => .error e
    | .ok name => .ok ⟨frames, .separator b done name t.span⟩
  | _ => .error (.atToken .fieldName t)

inductive Outcome (α β π : Type) where
  | next (r : Reader α π)
  | done (result : β)

/-- A complete item is followed by a token. The outermost one is put to `accept` and must be
followed by the end. -/
def follow (g : Grammar α π) (accept : α → Except SyntaxError β) (frames : List (Frame α π))
    (item : α) (t : Token) : Except SyntaxError (Outcome α β π) :=
  match frames with
  | [] =>
    match accept item with
    | .error e => .error e
    | .ok result =>
      if t.lexeme = .endOfInput then .ok (.done result)
      else .error (.atToken (.lexeme .endOfInput) t)
  | .field b done name nameSpan :: frames =>
    let fields := done ++ [⟨name, nameSpan, item⟩]
    match t.lexeme with
    | .comma => .ok (.next ⟨frames, .nextName b fields⟩)
    | .closeBrace => (closeBrace g frames b fields t).map .next
    | _ => .error (.atToken (.commaOr .closeBrace) t)
  | .element b done :: frames =>
    let elements := done ++ [item]
    match t.lexeme with
    | .comma => .ok (.next ⟨.element b elements :: frames, .item⟩)
    | .closeParen => .ok (.next (closeParen g frames b elements t))
    | _ => .error (.atToken (.commaOr .closeParen) t)

def begun (g : Grammar α π) (frames : List (Frame α π)) (t : Token) :
    Except SyntaxError (Reader α π) :=
  match g.start t with
  | .error e => .error e
  | .ok (.inl item) => .ok ⟨frames, .whole item⟩
  | .ok (.inr p) => .ok ⟨frames, .part p⟩

def step (g : Grammar α π) (limit : Nat) (accept : α → Except SyntaxError β) (r : Reader α π)
    (t : Token) : Except SyntaxError (Outcome α β π) :=
  match r.control with
  | .item =>
    if t.lexeme.opens then (opened limit r.frames none t).map .next
    else (begun g r.frames t).map .next
  | .part p =>
    match g.extend p t with
    | .error e => .error e
    | .ok (.whole item) => .ok (.next ⟨r.frames, .whole item⟩)
    | .ok (.part p) => .ok (.next ⟨r.frames, .part p⟩)
    | .ok .bracket => (opened limit r.frames (some p) t).map .next
    | .ok (.ended item) => follow g accept r.frames item t
  | .whole item => follow g accept r.frames item t
  | .firstName b =>
    match t.lexeme with
    | .closeBrace => (closeBrace g r.frames b [] t).map .next
    | _ => (named r.frames b [] t).map .next
  | .nextName b done => (named r.frames b done t).map .next
  | .separator b done name nameSpan =>
    if t.lexeme = g.separator then .ok (.next ⟨.field b done name nameSpan :: r.frames, .item⟩)
    else .error (.atToken (.lexeme g.separator) t)

/-- Reads tokens up to the end of input. A list that lacks it is refused. -/
def run (g : Grammar α π) (limit : Nat) (accept : α → Except SyntaxError β) :
    Reader α π → List Token → Except SyntaxError β
  | _, [] => .error (.atCharacter (.lexeme .endOfInput) .start [])
  | r, t :: rest =>
    match r.step g limit accept t with
    | .error e => .error e
    | .ok (.next r) => run g limit accept r rest
    | .ok (.done result) => .ok result

end Reader

/-- Reads a whole text as one item that `accept` admits, with brackets nested to the limit. -/
def Grammar.read [Alphabet] {α β π : Type} (g : Grammar α π) (limit : Nat)
    (accept : α → Except SyntaxError β) (text : String) : Except SyntaxError β :=
  match Token.scan text with
  | .error e => .error e
  | .ok tokens => Reader.initial.run g limit accept tokens

end RecordLens
