import SixReg.Assembly.Labels

/-!
# From three-address code to machine instructions

Each instruction of three-address code becomes a short run of machine instructions. Its operands
are looked up and its result gets a register before any operand is given up, so a result never
shares a register with an operand. Afterwards every read is counted, which frees the registers of
temporaries that are read no more, and a result that nobody reads is freed at once. When all is
selected, branches get the addresses of their labels.
-/

namespace SixReg

open Tac

/-- A machine program with its labels. -/
structure Lowered where
  instrs : List Instruction
  labels : LabelTable
  /-- The most registers that were in use at once. -/
  peak : Nat
deriving Inhabited

/-- The operation of the arithmetic unit that computes an operator. -/
def Arith.aluOp : Arith → AluOp
  | .add => .add
  | .sub => .sub
  | .mul => .mul
  | .div => .div
  | .rem => .divh
  | .and => .and
  | .or => .or
  | .xor => .xor
  | .shl => .shl
  | .shr => .shr
  | .rol => .rol
  | .ror => .ror

/-- The operation that computes a binary operator; a comparison leaves no value. -/
def BinOp.aluOp : BinOp → Except CompileError AluOp
  | .arith op => .ok op.aluOp
  | .compare rel => .error (.unsupported (.comparisonValue rel))

/-- The branch that is taken when a relation holds. -/
def Relation.branchOp : Relation → BranchOp
  | .eq => .beq
  | .ne => .bne
  | .lt => .blt
  | .gt => .bgt
  | .le => .ble
  | .ge => .bge

/-- Puts the slot of a variable into the address register. -/
def Symbol.select (s : Symbol) : Instruction := .movImm .mar (asImmediate s.slot)

namespace Tac.Instr

/-- The machine instructions for an instruction, and the pool after them. -/
def select (pool : Pool) : Instr → Except CompileError (List Instruction × Pool)
  | .const dst value => do
    let (rd, pool) ← (pool.assign dst).mapError .ofPool
    return ([.movImm rd value], pool)
  | .load dst src => do
    let (rd, pool) ← (pool.assign dst).mapError .ofPool
    return ([src.select, .memRead .load rd], pool)
  | .store dst (.temp src) => do
    let rs1 ← (pool.find src).mapError .ofPool
    return ([dst.select, .memWrite .stor rs1], pool)
  | .store dst (.const value) => do
    let (rs1, pool) ← pool.lend.mapError .ofPool
    let pool ← (pool.giveBack rs1).mapError .ofPool
    return ([.movImm rs1 value, dst.select, .memWrite .stor rs1], pool)
  | .binary dst left op (.const imm) => do
    let op ← op.aluOp
    let rs1 ← (pool.find left).mapError .ofPool
    let (rd, pool) ← (pool.assign dst).mapError .ofPool
    return ([.aluImm op rs1 rd imm], pool)
  | .binary dst left op (.temp right) => do
    let op ← op.aluOp
    let rs1 ← (pool.find left).mapError .ofPool
    let rs2 ← (pool.find right).mapError .ofPool
    let (rd, pool) ← (pool.assign dst).mapError .ofPool
    return ([.alu op rs1 rs2 rd], pool)
  | .not dst (.const imm) => do
    let (rd, pool) ← (pool.assign dst).mapError .ofPool
    return ([.aluImm .not .r0 rd imm], pool)
  | .not dst (.temp src) => do
    let rs2 ← (pool.find src).mapError .ofPool
    let (rd, pool) ← (pool.assign dst).mapError .ofPool
    return ([.alu .not .r0 rs2 rd], pool)
  | .branch left right rel target => do
    let rs1 ← (pool.find left).mapError .ofPool
    let rs2 ← (pool.find right).mapError .ofPool
    return ([.branch rel.branchOp rs1 rs2 (asImmediate target.id)], pool)
  | .jump target => return ([.jump (asImmediate target.id)], pool)
  | .label _ => return ([], pool)
  | .print value => do
    let rs2 ← (pool.find value).mapError .ofPool
    return ([.alu .mov .r0 rs2 .io], pool)

/-- The pool after the reads of an instruction are counted and an unread result is freed. -/
def retire (pool : Pool) (instr : Instr) : Except PoolError Pool := do
  let pool ← instr.reads.foldlM Pool.countRead pool
  match instr.result? with
  | none => return pool
  | some dst => if pool.remaining dst = 0 then (pool.release dst).map Prod.snd else return pool

end Tac.Instr

/-- A lowering that is under way. -/
structure Lowerer where
  instrs : Array Instruction
  pool : Pool
  labels : LabelTable
deriving Inhabited

/-- A computation that lowers code. One that fails leaves what it had done before. -/
abbrev Lower := EStateM CompileError Lowerer

namespace Lowerer

/-- A lowering with nothing done. -/
def empty : Lowerer := ⟨#[], .start, .empty⟩

/-- The labels after an instruction; a label stands where the next machine instruction will go. -/
def labelsAfter (l : Lowerer) : Instr → Except CompileError LabelTable
  | .label label =>
    match l.labels.define label l.instrs.size with
    | (.ok (), labels) => .ok labels
    | (.error e, _) => .error e
  | _ => .ok l.labels

/-- What an instruction adds: its machine instructions, and the pool and the labels after it. -/
def advance (l : Lowerer) (instr : Instr) :
    Except CompileError (List Instruction × Pool × LabelTable) := do
  let labels ← l.labelsAfter instr
  let (chunk, pool) ← instr.select l.pool
  let pool ← (instr.retire pool).mapError .ofPool
  return (chunk, pool, labels)

/-- Lowers one instruction. -/
def lowerOne (instr : Instr) : Lower Unit := fun l =>
  match l.advance instr with
  | .error e => .error e l
  | .ok (chunk, pool, labels) => .ok () { instrs := l.instrs ++ chunk, pool, labels }

/-- Lowers instructions up to the first that fails. -/
def lowerAll : List Instr → Lower Unit
  | [] => pure ()
  | instr :: instrs => do
    lowerOne instr
    lowerAll instrs

/-- Forgets what was lowered before and awaits the reads of a new program. -/
def restart (l : Lowerer) (code : Code) : Lowerer :=
  { l with instrs := #[], pool := Pool.start.expect code.readCounts, labels := .empty }

/-- Lowers a program. A lowerer can be used again, after a failure too. -/
def lowerProgram (code : Code) : Lower Lowered := do
  modify (·.restart code)
  lowerAll code.instrs
  let l ← get
  set { l with instrs := #[], labels := LabelTable.empty }
  match l.labels.resolve l.instrs.toList with
  | (.error e, _) => throw e
  | (.ok (), instrs) => return ⟨instrs, l.labels, l.pool.peak⟩

end Lowerer

/-- The machine program for three-address code. -/
def Tac.Code.lower (code : Code) : Except CompileError Lowered :=
  match Lowerer.lowerProgram code .empty with
  | .ok lowered _ => .ok lowered
  | .error e _ => .error e

end SixReg
