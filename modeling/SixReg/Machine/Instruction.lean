import SixReg.Machine.Operation
import SixReg.Machine.Register

/-!
# Machine instructions

An immediate is a signed 64-bit number until it is encoded, so that a value or a target that does
not fit an instruction can still be shown.
-/

namespace SixReg

/-- An instruction of the machine. -/
inductive Instruction where
  | alu (op : AluOp) (rs1 rs2 rd : Register)
  | aluImm (op : AluOp) (rs1 rd : Register) (imm : Int)
  | memRead (op : MemOp) (rd : Register)
  | memWrite (op : MemOp) (rs1 : Register)
  | call (op : CallOp) (imm : Int)
  | branch (op : BranchOp) (rs1 rs2 : Register) (imm : Int)
deriving DecidableEq, Repr, Inhabited

/-- The number of words that an instruction takes. -/
def wordsPerInstruction : Nat := 2

/-- A natural number in the immediate field. From 2^63 on, where the field is full, the numbers
come out negative: the largest index of all as -1. -/
def asImmediate (n : Nat) : Int :=
  if n < 0x8000000000000000 then n else .negSucc (0xffffffffffffffff - n)

namespace Instruction

/-- Goes to the target, whatever the registers hold. -/
def jump (target : Int) : Instruction := .branch .jump .r0 .r0 target

/-- Sets a register to a number. -/
def movImm (rd : Register) (value : Int) : Instruction := .aluImm .mov .r0 rd value

/-- The group that an instruction belongs to. -/
def group : Instruction → Group
  | .alu _ _ _ _ => .alu
  | .aluImm _ _ _ _ => .aluImm
  | .memRead _ _ => .memRead
  | .memWrite _ _ => .memWrite
  | .call _ _ => .call
  | .branch _ _ _ _ => .branch

/-- Whether an instruction is a branch; a jump is one. -/
def isBranch : Instruction → Bool
  | .branch _ _ _ _ => true
  | _ => false

/-- How an instruction is written. -/
def text : Instruction → String
  | .alu op rs1 rs2 rd => s!"{op.mnemonic} {rd.name},{rs1.name},{rs2.name}"
  | .aluImm op rs1 rd imm => s!"{op.mnemonic}i {rd.name},{rs1.name},#{imm}"
  | .memRead op rd => s!"{op.mnemonic} {rd.name}"
  | .memWrite op rs1 => s!"{op.mnemonic} {rs1.name}"
  | .call .ret _ => CallOp.ret.mnemonic
  | .call .call imm => s!"{CallOp.call.mnemonic} @{imm}"
  | .branch .jump _ _ imm => s!"{BranchOp.jump.mnemonic} @{imm}"
  | .branch op rs1 rs2 imm => s!"{op.mnemonic} {rs1.name},{rs2.name},@{imm}"

end Instruction

end SixReg
