import ParseChart.CommandLine
import ParseChart.Tree.Layout
/-!
# The program

Prints what the command replies, trees as bracketed text.
-/

open ParseChart

def main (args : List String) : IO UInt32 := do
  match CommandLine.run Tree.bracketed Earley.ampleFuel args with
  | .ok reply =>
    IO.print reply.out
    IO.eprint reply.err
    return reply.status.toUInt32
  | .error abort =>
    IO.eprint abort.err
    IO.eprintln abort.cause.message
    return 1
