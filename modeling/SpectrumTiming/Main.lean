import SpectrumTiming.Command.Answer

/-!
The command line program: prints the answer and ends with its code.
-/

/-- Answers the command line. -/
def main (words : List String) : IO UInt32 := do
  let answer := SpectrumTiming.Command.answer words
  (← IO.getStdout).putStr answer.output
  (← IO.getStderr).putStr answer.errors
  return answer.code.toUInt32
