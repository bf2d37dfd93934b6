import RecordLens.Lens
import RecordLens.Literal.Grammar
import RecordLens.Report
import RecordLens.Text.Blank
import RecordLens.Value.Printer

/-! Sessions: commands that declare record types, bind record values, and read, replace and show
their fields. -/

namespace RecordLens

/-- Names bound to things, each name once. -/
abbrev Bindings (α : Type) := List (String × α)

namespace Bindings

variable {α : Type}

def get? (name : String) : Bindings α → Option α
  | [] => none
  | (key, x) :: rest => if key = name then some x else get? name rest

/-- Binds a name, in place of what it was bound to. -/
def put (name : String) (x : α) : Bindings α → Bindings α
  | [] => [(name, x)]
  | (key, y) :: rest => if key = name then (name, x) :: rest else (key, y) :: put name x rest

theorem get?_put (name other : String) (x : α) (b : Bindings α) :
    get? other (put name x b) = if name = other then some x else get? other b := by
  induction b with
  | nil => rfl
  | cons entry rest ih =>
    obtain ⟨key, y⟩ := entry
    by_cases hk : key = name
    · subst hk
      by_cases ho : key = other <;> simp [put, get?, ho]
    · by_cases ho : key = other
      · subst ho
        simp [put, get?, hk, Ne.symm hk]
      · simp [put, get?, hk, ho, ih]

end Bindings

/-- What is known between two commands. -/
structure Session where
  registry : Registry
  types : Bindings RecordType
  values : Bindings RecordValue
  deriving DecidableEq

/-- The part of a command that an error is about. -/
inductive CommandPart where
  | literal
  | path
  deriving DecidableEq

def CommandPart.name : CommandPart → String
  | .literal => "<literal>"
  | .path => "<path>"

inductive Misuse where
  | unknownCommand (command : String)
  | noBinding
  | unbound (name : String)
  | noRecord (name : String)
  deriving DecidableEq

def Misuse.message : Misuse → String
  | .unknownCommand command => "unknown command `" ++ command ++ "`, try `help`"
  | .noBinding => "expected `NAME = ...`, see `help`"
  | .unbound name => "no value named `" ++ name ++ "`"
  | .noRecord name => "`" ++ name ++ "` is no longer a record"

inductive CommandError where
  | misuse (m : Misuse)
  /-- An error in a literal or a path, with the text that it points into. -/
  | failed (error : Error) (part : CommandPart) (source : String)
  deriving DecidableEq

def CommandError.text : CommandError → String
  | .misuse m => "error: " ++ m.message
  | .failed error part source => error.report part.name source

/-- A step of a command. What it entered into the registry stays when it fails. -/
abbrev Command (α : Type) := ExceptT CommandError (StateM Session) α

def Command.ofExcept {α : Type} (x : Except CommandError α) : Command α := ExceptT.mk (pure x)

variable [Alphabet]

namespace Session

def empty : Session := ⟨.empty (.registry 0), [], []⟩

def help : String :=
  "commands:\n" ++
  "  type NAME = \x7bfield :: Type, ...\x7d     declare a record type\n" ++
  "  let NAME [: TYPE] = \x7bfield = ...\x7d    bind a record value, optionally checked against TYPE\n" ++
  "  get NAME PATH                        read a field, e.g. `get yuri birthday.year`\n" ++
  "  set NAME PATH = VALUE                replace a field of a bound value\n" ++
  "  show NAME                            print a bound value and its type\n" ++
  "  types                                list every interned record type"

/-- A step that depends on nothing but the text of a part. -/
def within {α ε : Type} (part : CommandPart) (source : String) (toError : ε → Error)
    (x : Except ε α) : Command α :=
  .ofExcept (x.mapError fun e => .failed (toError e) part source)

/-- A step that elaborates the literal of that text. -/
def elaborating {α ε : Type} (source : String) (toError : ε → Error) (x : Elaboration ε α) :
    Command α := fun s =>
  let (result, registry) := x.run s.registry
  (result.mapError fun e => CommandError.failed (toError e) .literal source,
    { s with registry := registry })

/-- What stands before the first equals sign, which must not be blank, and behind it. -/
def splitBinding (text : String) : Except CommandError (String × String) :=
  match Text.splitOnce? (· = '=') text with
  | none => .error (.misuse .noBinding)
  | some (head, rest) =>
    if Text.trim head = "" then .error (.misuse .noBinding)
    else .ok (Text.trim head, Text.trim rest)

def splitWord (text : String) : String × String :=
  (Text.splitOnce? Text.isBlank text).getD (text, "")

/-- A declared type, or the type that a literal denotes. -/
def recordType (text : String) : Command RecordType := do
  match (← get).types.get? text with
  | some r => return r
  | none =>
    let literal ← within .literal text .malformed (TypeExpr.readRecord usualNesting text)
    elaborating text .duplicate (TypeExpr.elaborateRecord literal)

def value (name : String) : Command RecordValue := do
  match (← get).values.get? name with
  | some r => return r
  | none => throw (.misuse (.unbound name))

def lens (value : RecordValue) (path : String) : Command Lens := do
  let p ← within .path path .malformed (PathExpr.read path)
  within .path path .unknown (Lens.derive value.type.ty p)

def declareType (rest : String) : Command String := do
  let (name, literal) ← .ofExcept (splitBinding rest)
  let type ← recordType literal
  modify fun s => { s with types := s.types.put name type }
  return name ++ " :: " ++ type.text

def bindValue (rest : String) : Command String := do
  let (head, literal) ← .ofExcept (splitBinding rest)
  let (name, expected) ←
    match Text.splitOnce? (· = ':') head with
    | none => pure (head, none)
    | some (name, type) => do
      let type ← recordType (Text.trim type)
      pure (Text.trim name, some type)
  let expr ← within .literal literal .malformed (Expr.readRecord usualNesting literal)
  let value ← elaborating literal ValueError.toError (Expr.elaborateRecord expr expected)
  modify fun s => { s with values := s.values.put name value }
  return name ++ " = " ++ value.text

def getField (rest : String) : Command String := do
  let (name, path) := splitWord rest
  let value ← value name
  let lens ← lens value (Text.trim path)
  let field ← within .path path .mismatch (lens.get value.value)
  return field.text ++ " :: " ++ lens.target.text

def setField (rest : String) : Command String := do
  let (head, literal) ← .ofExcept (splitBinding rest)
  let (name, path) := splitWord head
  let value ← value name
  let lens ← lens value (Text.trim path)
  let expr ← within .literal literal .malformed (Expr.read usualNesting literal)
  let leaf ← elaborating literal ValueError.toError (expr.elaborate (some lens.target) [])
  let updated ← within .literal literal .mismatch (lens.set value.value leaf)
  match updated.record? with
  | none => throw (.misuse (.noRecord name))
  | some updated =>
    modify fun s => { s with values := s.values.put name updated }
    return name ++ " = " ++ updated.text

def showValue (name : String) : Command String := do
  let value ← value name
  return name ++ " = " ++ value.text ++ " :: " ++ value.type.text

def listTypes : Command String := do
  return Text.joined "\n" ((← get).registry.types.map RecordType.listing)

def run (input : String) : Command String :=
  let (command, rest) := splitWord input
  let rest := Text.trim rest
  match command with
  | "" => return ""
  | "help" => return help
  | "types" => listTypes
  | "type" => declareType rest
  | "let" => bindValue rest
  | "get" => getField rest
  | "set" => setField rest
  | "show" => showValue rest
  | _ => throw (.misuse (.unknownCommand command))

end Session

end RecordLens
