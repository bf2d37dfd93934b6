import RecordLens.Session
import RecordLens.Session.Pending
import RecordLens.Text.Unicode

/-! The console: lines go in, each complete input is run, and answers and errors come out. -/

namespace RecordLens

variable [Alphabet]

/-- A session and the lines of an input that is not complete yet. -/
structure Console where
  session : Session
  pending : String

/-- What an input brings forth. -/
inductive Reply where
  | silent
  | answer (text : String)
  | complaint (text : String)

namespace Console

def empty : Console := ⟨.empty, ""⟩

/-- A line without its end, and its end. -/
def splitEnd (line : String) : String × String :=
  match line.toList.reverse with
  | '\n' :: '\r' :: rest => (String.ofList rest.reverse, "\r\n")
  | '\n' :: rest => (String.ofList rest.reverse, "\n")
  | _ => (line, "")

def submit (input : String) (session : Session) : Reply × Session :=
  match (Session.run (Text.trim input)).run session with
  | (.ok "", session) => (.silent, session)
  | (.ok answer, session) => (.answer answer, session)
  | (.error e, session) => (.complaint e.text, session)

/-- Takes one line with its end. -/
def feed (console : Console) (line : String) : Reply × Console :=
  let (body, ending) := splitEnd line
  let input := console.pending ++ body
  if needsMore input then (.silent, ⟨console.session, input ++ ending⟩)
  else
    let (reply, session) := submit input console.session
    (reply, ⟨session, ""⟩)

/-- The replies to several lines. An input that is not complete at the end is dropped. -/
def feedAll (console : Console) : List String → List Reply
  | [] => []
  | line :: rest =>
    let (reply, console) := console.feed line
    reply :: feedAll console rest

end Console

namespace Reply

/-- What is written to the standard output. -/
def output : Reply → String
  | .answer text => text ++ "\n"
  | _ => ""

/-- What is written to the standard error. -/
def errorOutput : Reply → String
  | .complaint text => text ++ "\n"
  | _ => ""

end Reply

end RecordLens
