import QueryNotation.Command.Run

/-!
# The program

Reads arguments and, for a command that needs it, standard input.
-/

namespace QueryNotation

/-- All that is left on a stream. -/
partial def readAll (stream : IO.FS.Stream) (bytes : ByteArray) : IO ByteArray := do
  let more ← stream.read 65536
  if more.isEmpty then pure bytes else readAll stream (bytes ++ more)

end QueryNotation

/-- Runs the program. -/
def main (arguments : List String) : IO UInt32 := do
  let input ←
    if QueryNotation.Command.readsInput arguments then
      QueryNotation.readAll (← IO.getStdin) .empty
    else pure .empty
  let outcome := QueryNotation.Command.run arguments input
  (← IO.getStdout).putStr outcome.stdout
  (← IO.getStderr).putStr outcome.stderr
  pure outcome.code.toUInt32
