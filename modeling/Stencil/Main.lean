import Stencil.Command.Run

/-!
The program: reads the arguments and, if need be, the standard input, and writes
the report.
-/

open Stencil

partial def readAll (stream : IO.FS.Stream) (read : ByteArray) : IO ByteArray := do
  let part ← stream.read 65536
  if part.isEmpty then return read else readAll stream (read ++ part)

def main (args : List String) : IO UInt32 := do
  let report ←
    match Command.start args with
    | .done report => pure report
    | .needsInput next =>
      let bytes ← readAll (← IO.getStdin) ByteArray.empty
      pure (next bytes)
  IO.print report.output
  IO.eprint report.errorText
  return report.ending.status.toUInt32
