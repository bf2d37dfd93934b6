import RecordLens.Console

/-! The command line: standard input is read line by line into a console. -/

namespace RecordLens.Console

partial def serve (input output errors : IO.FS.Stream) (console : Console) : IO Unit := do
  let line ← input.getLine
  unless line.isEmpty do
    let (reply, console) := console.feed line
    output.putStr reply.output
    output.flush
    errors.putStr reply.errorOutput
    errors.flush
    serve input output errors console

end RecordLens.Console

def main : IO Unit := do
  RecordLens.Console.serve (← IO.getStdin) (← IO.getStdout) (← IO.getStderr) .empty
