import RecordLens.Error
import RecordLens.Text.Slice

/-! Reports: an error message, the source line it is about, carets under the part of the line that
is meant, and notes. -/

namespace RecordLens

namespace Error

def span? : Error → Option Span
  | .malformed e => some e.span
  | .duplicate e => e.second.or e.first
  | .mismatch e => e.span
  | .unknown e => e.span

def notes : Error → List String
  | .malformed _ | .mismatch _ => []
  | .duplicate e =>
    match e.first, e.second with
    | some first, some _ => ["first defined at " ++ first.place]
    | _, _ => []
  | .unknown e =>
    if e.resolved.isEmpty then ["the lens source has type " ++ e.ty.text]
    else ["`" ++ e.resolved.text ++ "` has type " ++ e.ty.text]

end Error

namespace Report

def spaces (n : Nat) : String := String.ofList (List.replicate n ' ')

/-- The line that a span begins in, or nothing if the source has no such line. -/
def shownLine (span : Span) (source : List Char) : List Char :=
  ((Text.lines source)[span.line - 1]?).getD []

/-- A blank for each character of the line before the span. Tabs stay tabs, which keeps the carets
in line. -/
def pad (span : Span) (line : List Char) : List Char :=
  (line.take (span.column - 1)).map fun c => if c = '\t' then '\t' else ' '

/-- One caret for each character of the span in its first line, and at least one. -/
def caretCount (span : Span) (source : List Char) : Nat :=
  match Text.slice? span.offset span.length source with
  | none => 1
  | some cs => max 1 (cs.takeWhile (· != '\n')).length

def noteLines (gutter : Nat) (notes : List String) : List String :=
  notes.map fun note => spaces gutter ++ " = note: " ++ note

def excerpt (span : Span) (sourceName : String) (source : List Char) : List String :=
  let gutter := spaces (toString span.line).length
  let line := shownLine span source
  [ gutter ++ "--> " ++ sourceName ++ ":" ++ span.place,
    gutter ++ " |",
    toString span.line ++ " | " ++ String.ofList line,
    gutter ++ " | " ++
      String.ofList (pad span line ++ List.replicate (caretCount span source) '^') ]

end Report

/-- The report of an error in a source. -/
def Error.report (e : Error) (sourceName source : String) : String :=
  Text.joined "\n" <|
    ("error: " ++ e.message) ::
      match e.span? with
      | none => (" --> " ++ sourceName) :: Report.noteLines 1 e.notes
      | some span =>
        Report.excerpt span sourceName source.toList ++
          Report.noteLines (toString span.line).length e.notes

end RecordLens
