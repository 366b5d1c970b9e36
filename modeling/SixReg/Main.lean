import SixReg.CommandLine.Session

/-!
# The command line

Reads the file that the arguments name, if any, and prints what the session says.
-/

namespace SixReg.CommandLine

/-- The text of a file. -/
def readSource (name : String) : IO (Except ReadError Source) := do
  try
    return decodeFile (← IO.FS.readBinFile name)
  catch e =>
    match e with
    | .noFileOrDirectory _ _ _ => return .error .missing
    | e => return .error (.other (toString e))

/-- Prints how a run ends and gives its exit code. -/
def finish (outcome : Outcome) : IO UInt32 := do
  (← IO.getStdout).putStr outcome.stdout
  (← IO.getStderr).putStr outcome.stderr
  return outcome.exitCode.toUInt32

end SixReg.CommandLine

open SixReg.CommandLine

/-- The entry point. -/
def main (args : List String) : IO UInt32 := do
  match Request.ofArguments args with
  | .error refusal => finish (.refused refusal)
  | .ok request =>
    let contents ← match request.file with
      | none => pure (.error .missing)
      | some name => readSource name
    finish (request.perform contents)
