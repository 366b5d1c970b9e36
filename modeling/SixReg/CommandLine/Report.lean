import SixReg.Compile

/-!
# Reports

What a successful run of the command line prints, as sections of text or as one JSON object, and
what a failed one prints.
-/

namespace SixReg.CommandLine

/-- The results that were asked for. -/
structure Report where
  ir : Option (List String) := none
  asm : Option (List String) := none
  words : Option (List Encoded) := none
  output : Option (List Word) := none
deriving Repr, Inhabited

/-- Lines of text, each with its line feed. -/
def unlines (lines : List String) : String := String.join (lines.map (· ++ "\n"))

namespace Report

/-- The lines of a section: its title and then its contents. -/
def textSection (title : String) (contents : List String) : List String :=
  s!"; {title}" :: contents

/-- The report as text: the sections with an empty line between them. -/
def text (r : Report) : String :=
  let sections := [
    r.ir.map (textSection "ir"),
    r.asm.map (textSection "asm"),
    r.words.map fun words => textSection "words" (words.map Encoded.text),
    r.output.map fun output => textSection "output" (output.map fun w => toString w.toNat)]
  unlines ([""].intercalate (sections.filterMap id))

/-- A list of values as JSON, one a line, inside an object. -/
def jsonArray (values : List String) : String :=
  if values.isEmpty then "[]"
  else "[\n    " ++ ",\n    ".intercalate values ++ "\n  ]"

/-- A member of a JSON object. -/
def jsonMember (key : String) (values : List String) : String :=
  s!"  \"{key}\": {jsonArray values}"

/-- A line of code as a JSON string. Such lines have no character that needs an escape. -/
def jsonString (line : String) : String := "\"" ++ line ++ "\""

/-- A word as a JSON number. -/
def jsonNumber (w : Word) : String := toString w.toNat

/-- The report as one JSON object, indented by two blanks. -/
def json (r : Report) : String :=
  let members := [
    r.ir.map fun lines => jsonMember "ir" (lines.map jsonString),
    r.asm.map fun lines => jsonMember "asm" (lines.map jsonString),
    r.words.map fun words => jsonMember "words" ((words.flatMap Encoded.words).map jsonNumber),
    r.output.map fun output => jsonMember "output" (output.map jsonNumber)]
  "\x7b\n" ++ ",\n".intercalate (members.filterMap id) ++ "\n\x7d\n"

end Report

/-- What went wrong in a run of the command line: what was being done, and the causes from the
nearest to the last. -/
structure Failure where
  doing : String
  causes : List String
deriving DecidableEq, Repr, Inhabited

namespace Failure

/-- A text whose lines after the first are indented. -/
def hang (indent text : String) : String := ("\n" ++ indent).intercalate (text.splitOn "\n")

/-- The lines for one of several causes. -/
def numbered (entry : String × Nat) : String :=
  padLeft 5 (toString entry.2) ++ ": " ++ hang "       " entry.1

/-- The wording of a failure. Causes are numbered if there is more than one. -/
def text (f : Failure) : String :=
  let causes := match f.causes with
    | [cause] => ["    " ++ hang "    " cause]
    | causes => causes.zipIdx.map numbered
  unlines ([s!"Error: {f.doing}", "", "Caused by:"] ++ causes)

end Failure

end SixReg.CommandLine
