import SixReg.CommandLine.Arguments
import SixReg.CommandLine.Report

/-!
# A run of the command line

From the arguments and the contents of the file they name to an exit code and what is printed. The
only thing left outside is to read that file: `Request.file` says which.
-/

namespace SixReg.CommandLine

/-- Why a file has no text. -/
inductive ReadError where
  | missing
  | notUtf8
  /-- Any other reason, in the system's words. -/
  | other (reason : String)
deriving DecidableEq, Repr, Inhabited

/-- The wording of a failure to read. -/
def ReadError.message : ReadError → String
  | .missing => "No such file or directory (os error 2)"
  | .notUtf8 => "stream did not contain valid UTF-8"
  | .other reason => reason

/-- The text that the bytes of a file encode. -/
def decodeFile (bytes : ByteArray) : Except ReadError Source :=
  match String.fromUTF8? bytes with
  | some text => .ok text.toList
  | none => .error .notUtf8

/-- The program that is compiled when no file is named. -/
def sample : String :=
  "\n".intercalate [
    "var x = 5;",
    "var y = 10;",
    "if x < y: \x7b",
    "    var z = x + y;",
    "\x7d else \x7b",
    "    var z = x - y;",
    "\x7d",
    "",
    "while z > 0: \x7b",
    "    print z;",
    "    var z = z - 4;",
    "\x7d",
    "var result = z % 3 + 100;",
    "print result;"]

/-- How the arguments are given. -/
def usage : String :=
  unlines [
    "Usage: [OPTIONS] [FILE]",
    "",
    "Compiles FILE, or a built-in sample, for the six-register machine.",
    "",
    "Options:",
    "  --ir                print the three-address code",
    "  --asm               print the assembly (the default)",
    "  --words             print the encoded words",
    "  --run               run the program and print its output",
    "  --json              print everything as one JSON object",
    "  --strict-redeclare  reject a second declaration of a name",
    "  --max-steps N       stop after N steps",
    "  -v, --verbose       say more",
    "  -h, --help          print this text"]

/-- How a run ends. -/
structure Outcome where
  exitCode : Nat
  stdout : String
  stderr : String
deriving DecidableEq, Repr, Inhabited

namespace Outcome

/-- The end of a run whose arguments ask for no compilation. -/
def refused : Refusal → Outcome
  | .usage => ⟨2, "", usage⟩
  | .help => ⟨0, usage, ""⟩

/-- The end of a run that failed. -/
def failed (f : Failure) : Outcome := ⟨1, "", f.text⟩

end Outcome

/-- The causes of a compile error: a lexical error is itself the cause of one. -/
def compileCauses (e : CompileError) : List String :=
  match e with
  | .lexical inner => [e.message, inner.message]
  | _ => [e.message]

namespace Request

/-- The text to compile, given what reading the named file gave. -/
def source (r : Request) (contents : Except ReadError Source) : Except Failure Source :=
  match r.file with
  | none => .ok sample.toList
  | some name =>
    contents.mapError fun e => ⟨s!"Error reading file '{name}'", [e.message]⟩

/-- The report that a request asks for. -/
def report (r : Request) (contents : Except ReadError Source) : Except Failure Report := do
  let source ← r.source contents
  let options : Options := ⟨if r.has .strict then .reject else .reuse⟩
  let compiled ← (compile options source).mapError fun e => ⟨"Compilation failed", compileCauses e⟩
  let output ←
    if r.has .run then
      let m ← (compiled.image.run r.stepLimit).mapError fun fault =>
        ⟨"Execution failed", [fault.message]⟩
      pure (some m.output.toList)
    else pure none
  return {
    ir := if r.has .ir then some compiled.code.lines else none
    asm := if r.wantsListing then some compiled.lowered.lines else none
    words := if r.has .words then some compiled.encoded else none
    output }

/-- Does what a request asks for. -/
def perform (r : Request) (contents : Except ReadError Source) : Outcome :=
  match r.report contents with
  | .error f => .failed f
  | .ok report => ⟨0, if r.has .json then report.json else report.text, ""⟩

end Request

end SixReg.CommandLine
