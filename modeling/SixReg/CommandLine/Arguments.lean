import SixReg.Machine.Run

/-!
# Arguments of the command line

At most one file; flags that stand for themselves, each at most once; a step limit; and a
verbosity that may be raised any number of times. Behind `--` everything is a file name. The
arguments are read from left to right, and the first that breaks a rule, or asks for help, decides.
-/

namespace SixReg.CommandLine

/-- A flag that may be given once. -/
inductive Flag where
  | ir
  | asm
  | words
  | run
  | json
  | strict
deriving DecidableEq, Repr, Inhabited

namespace Flag

/-- Every flag. -/
def all : List Flag := [.ir, .asm, .words, .run, .json, .strict]

/-- How a flag is spelled, without its dashes. -/
def name : Flag → String
  | .ir => "ir"
  | .asm => "asm"
  | .words => "words"
  | .run => "run"
  | .json => "json"
  | .strict => "strict-redeclare"

end Flag

/-- What a command line asks for. -/
structure Request where
  file : Option String := none
  flags : List Flag := []
  maxSteps : Option Nat := none
  verbosity : Nat := 0
deriving DecidableEq, Repr, Inhabited

/-- Why the arguments ask for no compilation. -/
inductive Refusal where
  /-- The arguments break a rule. -/
  | usage
  /-- The arguments ask for help. -/
  | help
deriving DecidableEq, Repr, Inhabited

namespace Request

/-- The number that digits behind an optional plus sign stand for, if it has at most 64 bits. -/
def number? (text : String) : Option Nat :=
  let digits := match text.toList with
    | '+' :: digits => digits
    | digits => digits
  if digits.isEmpty || !digits.all Char.isDigit then none
  else
    let value := digits.foldl (fun n d => n * 10 + (d.toNat - '0'.toNat)) 0
    if value ≤ 0xffffffffffffffff then some value else none

/-- Adds a file name. -/
def addFile (r : Request) (name : String) : Except Refusal Request :=
  match r.file with
  | some _ => .error .usage
  | none => if name.isEmpty then .error .usage else .ok { r with file := some name }

/-- Sets the step limit. -/
def addLimit (r : Request) (text : String) : Except Refusal Request :=
  match r.maxSteps, number? text with
  | none, some n => .ok { r with maxSteps := some n }
  | _, _ => .error .usage

/-- Adds a flag that is spelled by a word behind two dashes. -/
def addWord (r : Request) (word : String) : Except Refusal Request :=
  match word with
  | "help" => .error .help
  | "verbose" => .ok { r with verbosity := r.verbosity + 1 }
  | _ =>
    match Flag.all.find? (·.name == word) with
    | none => .error .usage
    | some flag => if flag ∈ r.flags then .error .usage else .ok { r with flags := flag :: r.flags }

/-- Adds the flags that are spelled by letters behind one dash. -/
def addLetters (r : Request) : List Char → Except Refusal Request
  | [] => .ok r
  | 'v' :: letters => addLetters { r with verbosity := r.verbosity + 1 } letters
  | 'h' :: _ => .error .help
  | _ :: _ => .error .usage

/-- Adds an argument that stands alone. -/
def addArgument (r : Request) (arg : String) : Except Refusal Request :=
  match arg.toList with
  | '-' :: '-' :: word =>
    match word.span (· != '=') with
    | (name, []) => r.addWord (String.ofList name)
    | (name, _ :: value) =>
      if String.ofList name = "max-steps" then r.addLimit (String.ofList value) else .error .usage
  | '-' :: letter :: letters => r.addLetters (letter :: letters)
  | _ => r.addFile arg

/-- Adds arguments from left to right. -/
def addArguments (r : Request) : List String → Except Refusal Request
  | [] => .ok r
  | "--" :: files => files.foldlM addFile r
  | ["--max-steps"] => .error .usage
  | "--max-steps" :: value :: args => do (← r.addLimit value).addArguments args
  | arg :: args => do (← r.addArgument arg).addArguments args

/-- Reads a command line. -/
def ofArguments (args : List String) : Except Refusal Request := ({} : Request).addArguments args

/-- Whether a flag was given. -/
def has (r : Request) (flag : Flag) : Bool := flag ∈ r.flags

/-- Whether a listing is wanted: if it is asked for, or nothing else is. -/
def wantsListing (r : Request) : Bool := r.has .asm || !(r.has .ir || r.has .words || r.has .run)

/-- The step limit. -/
def stepLimit (r : Request) : Nat := r.maxSteps.getD defaultMaxSteps

end Request

end SixReg.CommandLine
