import SixReg.Assembly.Listing
import SixReg.Machine.Run
import SixReg.Tac.Build

/-!
# The compiler

The whole way from a text to a program for the machine:

    text ──parse──▶ Program ──analyze──▶ SymbolTable
         ──build──▶ Tac.Code ──lower──▶ Lowered ──encode──▶ Image

The first stage that fails gives the error.
-/

namespace SixReg

/-- What can be chosen about a compilation. -/
structure Options where
  redeclaration : Redeclaration := .reuse
deriving DecidableEq, Repr, Inhabited

/-- Everything that a compilation makes. -/
structure Compiled where
  code : Tac.Code
  lowered : Lowered
  encoded : List Encoded
deriving Inhabited

/-- The program that a text spells. -/
def Program.parse (source : Source) : Except CompileError Program :=
  match tokenize source with
  | .error e => .error (.lexical e)
  | .ok tokens => (Cursor.start source tokens).program.mapError .parse

/-- The variables of the program that a text spells. -/
def analyze (options : Options) (source : Source) : Except CompileError SymbolTable := do
  let program ← Program.parse source
  (program.analyze source options.redeclaration).mapError .scope

/-- The three-address code of the program that a text spells. -/
def compileToCode (options : Options) (source : Source) : Except CompileError Tac.Code := do
  let program ← Program.parse source
  let symbols ← (program.analyze source options.redeclaration).mapError .scope
  program.build source symbols

/-- The machine program for three-address code, lowered and encoded. -/
def Tac.Code.assemble (code : Tac.Code) : Except CompileError Compiled := do
  let lowered ← code.lower
  let encoded ← Instruction.encodeAll lowered.instrs
  return ⟨code, lowered, encoded⟩

/-- Compiles a text. -/
def compile (options : Options) (source : Source) : Except CompileError Compiled := do
  (← compileToCode options source).assemble

namespace Compiled

/-- The program for the machine. -/
def image (c : Compiled) : Image := c.encoded.toArray

/-- The words of the program, two an instruction. -/
def words (c : Compiled) : List Word := c.encoded.flatMap Encoded.words

end Compiled

end SixReg
