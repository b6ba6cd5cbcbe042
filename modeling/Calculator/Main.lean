import Calculator.CommandLine

/-!
# The program

Reads files, prints the answer and exits with its code. A message goes to the error output if the
arguments or the file cannot be read, or if a result has no text.
-/

namespace Calculator

/-- What a file holds, if it can be read as text. -/
def contentsOf (name : String) : IO (Option String) := do
  try
    return some (← IO.FS.readFile name)
  catch _ =>
    IO.eprintln ("Failed to read the input file '" ++ name
      ++ "'. Perhaps this file does not exist?")
    return none

end Calculator

open Calculator in
/-- **The program.** -/
def main (args : List String) : IO UInt32 := do
  let response ← CommandLine.respond contentsOf args
  if response = CommandLine.usageError then
    IO.eprintln "usage: calculator [-f] [-r] [-v] [-p N] EXPRESSIONS"
  IO.print response.output
  if response.code = CommandLine.abortCode then
    IO.eprintln "A result cannot be written with that precision."
  return response.code
