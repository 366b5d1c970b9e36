import SixReg.Error
import SixReg.Machine.Instruction

/-!
# Instruction words

An instruction is encoded as two words. The first packs five fields, from the top: the group (3
bits), the operation (4), the first source, the second source and the destination (3 each). The
second word is the immediate; an instruction without one has zero there. Fields that an instruction
does not use are zero. Decoding reads the same fields back; it refuses reserved codes, ignores the
fields that are not used and takes any word as immediate.
-/

namespace SixReg

/-- An encoded instruction. -/
structure Encoded where
  opcode : Word
  immediate : Word
deriving DecidableEq, Repr, Inhabited

/-- The largest immediate that can be encoded: `immediateBits` bits, all of them set. -/
def maxImmediate : Int := 0x1fff

namespace Encoded

/-- How an encoded instruction is written: both words in four hexadecimal digits. -/
def text (e : Encoded) : String := s!"{e.opcode.toHex} {e.immediate.toHex}"

/-- The two words of an encoded instruction. -/
def words (e : Encoded) : List Word := [e.opcode, e.immediate]

end Encoded

/-- Packs the fields of an opcode word. -/
def packFields (group : Group) (op : Nat) (rs1 rs2 rd : Register) : Word :=
  .ofNat 16 (group.code * 8192 + op * 512 + rs1.code * 64 + rs2.code * 8 + rd.code)

/-- The immediate word for a number. -/
def encodeImmediate (value : Int) : Except CompileError Word :=
  if 0 ≤ value ∧ value ≤ maxImmediate then .ok (.ofInt 16 value)
  else .error (.immediateOutOfRange value)

namespace Instruction

/-- The opcode word of an instruction. -/
def opcode : Instruction → Word
  | .alu op rs1 rs2 rd => packFields .alu op.code rs1 rs2 rd
  | .aluImm op rs1 rd _ => packFields .aluImm op.code rs1 .r0 rd
  | .memRead op rd => packFields .memRead op.code .r0 .r0 rd
  | .memWrite op rs1 => packFields .memWrite op.code rs1 .r0 .r0
  | .call op _ => packFields .call op.code .r0 .r0 .r0
  | .branch op rs1 rs2 _ => packFields .branch op.code rs1 rs2 .r0

/-- The immediate of an instruction, zero if it has none. -/
def immediate : Instruction → Int
  | .aluImm _ _ _ imm | .call _ imm | .branch _ _ _ imm => imm
  | .alu _ _ _ _ | .memRead _ _ | .memWrite _ _ => 0

/-- Encodes an instruction. -/
def encode (instr : Instruction) : Except CompileError Encoded :=
  (encodeImmediate instr.immediate).map fun immediate => ⟨instr.opcode, immediate⟩

/-- Encodes instructions, up to the first whose immediate does not fit. -/
def encodeAll (instrs : List Instruction) : Except CompileError (List Encoded) :=
  instrs.mapM encode

end Instruction

namespace Encoded

/-- The register whose code stands in a field of three bits. -/
def registerField (n : Nat) : Register := (Register.ofCode? (n % 8)).getD .r0

/-- The operation that a code stands for, unless the code is reserved. -/
def operation {α : Type} (word : Word) (field : Reserved) (op : Option α) :
    Except CompileError α :=
  match op with
  | some op => .ok op
  | none => .error (.invalidEncoding word field)

/-- Decodes an instruction. -/
def decode (e : Encoded) : Except CompileError Instruction := do
  let word := e.opcode.toNat
  let group ← operation e.opcode .group (Group.ofCode? (word / 8192))
  let op := word / 512 % 16
  let rs1 := registerField (word / 64)
  let rs2 := registerField (word / 8)
  let rd := registerField word
  let imm : Int := e.immediate.toNat
  match group with
  | .alu => return .alu (← operation e.opcode .alu (AluOp.ofCode? op)) rs1 rs2 rd
  | .aluImm => return .aluImm (← operation e.opcode .alu (AluOp.ofCode? op)) rs1 rd imm
  | .memRead => return .memRead (← operation e.opcode .memory (MemOp.ofCode? op)) rd
  | .memWrite => return .memWrite (← operation e.opcode .memory (MemOp.ofCode? op)) rs1
  | .call => return .call (← operation e.opcode .call (CallOp.ofCode? op)) imm
  | .branch => return .branch (← operation e.opcode .branch (BranchOp.ofCode? op)) rs1 rs2 imm

end Encoded

end SixReg
