import TopDown.CommandLine
import TopDown.Sentence.Source

namespace TopDown

/-- A source whose seed is drawn from the system. -/
def Source.fresh : IO Source := do
  let bytes ← IO.getRandomBytes 8
  return Source.ofSeed (bytes.foldl (fun seed byte => seed * 256 + byte.toUInt64) 0) []

end TopDown

open TopDown

def main (args : List String) : IO UInt32 := do
  match CommandLine.answer (← Source.fresh) args with
  | .ok lines =>
    for line in lines do
      IO.println line
    return 0
  | .error e =>
    IO.eprintln e.line
    return 1
