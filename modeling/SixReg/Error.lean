import SixReg.Machine.Register
import SixReg.Pool
import SixReg.Scope
import SixReg.Syntax.Parse
import SixReg.Tac.Text

/-!
# Compile errors

Why a text has no machine program, and the wording of every reason. The same type serves all
stages, since each stage passes on the errors of the one before it.
-/

namespace SixReg

/-- Which field of an instruction word holds a code that is reserved. -/
inductive Reserved where
  | group
  | alu
  | memory
  | call
  | branch
deriving DecidableEq, Repr, Inhabited

/-- How an error message names the field. -/
def Reserved.describe : Reserved → String
  | .group => "reserved decode group"
  | .alu => "reserved ALU operation"
  | .memory => "reserved memory operation"
  | .call => "reserved call/ret operation"
  | .branch => "reserved branch condition"

/-- A construct that the syntax admits and the machine has no code for. -/
inductive Unsupported where
  /-- A condition that is no comparison. -/
  | condition (condition : Expr)
  /-- A comparison whose outcome is wanted as a value. -/
  | comparisonValue (rel : Relation)
  /-- A label that is defined twice. -/
  | duplicateLabel (label : Label)
deriving DecidableEq, Repr, Inhabited

/-- The wording for a construct without code: the stage that met it and the construct. -/
def Unsupported.message : Unsupported → String
  | .condition c =>
    let detail := match c with
      | .number value => s!"condition `{value}` is not a comparison"
      | .var name _ => s!"condition `{name}` is not a comparison"
      | .binary op _ _ => s!"condition uses `{op.symbol}`, expected a comparison"
      | .not _ => "condition uses `~`, expected a comparison"
    s!"Unsupported construct in IR builder: {detail}"
  | .comparisonValue rel =>
    s!"Unsupported construct in lowerer: comparison `{rel.symbol}` used as a value"
  | .duplicateLabel label =>
    s!"Unsupported construct in lowerer: label {label.text} defined more than once"

/-- The number of bits that an immediate may have in an encoded instruction. -/
def immediateBits : Nat := 13

/-- Why a text, or code made from it, has no machine program. -/
inductive CompileError where
  | lexical (error : LexicalError)
  | parse (error : ParseError)
  | scope (error : ScopeError)
  /-- A builder was given a second program. -/
  | builderSpent
  | unsupported (construct : Unsupported)
  /-- More values are needed at once than there are registers, of which there are so many. -/
  | tooManyLive (limit : Nat)
  /-- Code that reads a temporary without a register, or writes one that has its register still. -/
  | pool (error : PoolError)
  | unresolvedLabel (label : Label)
  | immediateOutOfRange (value : Int)
  | invalidEncoding (word : Word) (field : Reserved)
deriving DecidableEq, Repr, Inhabited

namespace CompileError

/-- The compile error for a refusal of the register pool. -/
def ofPool : PoolError → CompileError
  | .exhausted _ limit => .tooManyLive limit
  | e => .pool e

/-- The wording of a compile error. -/
def message : CompileError → String
  | .lexical e => s!"Lexical error: {e.message}"
  | .parse e => e.message
  | .scope e => e.message
  | .builderSpent =>
    "IR builder instances are single-use; create a new builder for each program"
  | .unsupported construct => construct.message
  | .tooManyLive limit => s!"Too many live temporaries: all {limit} registers are in use"
  | .pool e => s!"Register allocator invariant violated: {e.message}"
  | .unresolvedLabel label => s!"Unresolved label {label.text}"
  | .immediateOutOfRange value =>
    s!"Immediate {value} does not fit in {immediateBits} unsigned bits"
  | .invalidEncoding word field => s!"Invalid encoding 0x{word.toHex}: {field.describe}"

end CompileError

end SixReg
