/-!
# Operations

The operations of each group of instructions, with their codes and mnemonics. Codes that no
operation has are reserved.
-/

namespace SixReg

/-- The groups of instructions; the group decides how the rest of a word is read. -/
inductive Group where
  | alu
  | aluImm
  | memRead
  | call
  | branch
  | memWrite
deriving DecidableEq, Repr, Inhabited

namespace Group

/-- Every group, in the order of the codes. -/
def all : List Group := [.alu, .aluImm, .memRead, .call, .branch, .memWrite]

/-- The code of a group in an instruction word. -/
def code : Group → Nat
  | .alu => 0
  | .aluImm => 1
  | .memRead => 2
  | .call => 4
  | .branch => 5
  | .memWrite => 7

/-- The group with a given code. -/
def ofCode? (n : Nat) : Option Group := all.find? (·.code == n)

theorem code_lt (g : Group) : g.code < 8 := by cases g <;> decide

@[simp]
theorem ofCode?_code (g : Group) : ofCode? g.code = some g := by cases g <;> rfl

end Group

/-- The operations of the arithmetic unit. -/
inductive AluOp where
  | add
  | sub
  | and
  | or
  /-- The complement of the second operand. -/
  | not
  | xor
  | shl
  | shr
  | mul
  /-- The upper half of the signed product. -/
  | mulh
  | div
  /-- The remainder of the signed division. -/
  | divh
  /-- The second operand itself. -/
  | mov
  | rol
  | ror
deriving DecidableEq, Repr, Inhabited

namespace AluOp

/-- Every operation, in the order of the codes. -/
def all : List AluOp :=
  [.add, .sub, .and, .or, .not, .xor, .shl, .shr, .mul, .mulh, .div, .divh, .mov, .rol, .ror]

/-- The code of an operation in an instruction word. -/
def code : AluOp → Nat
  | .add => 0
  | .sub => 1
  | .and => 2
  | .or => 3
  | .not => 4
  | .xor => 5
  | .shl => 6
  | .shr => 7
  | .mul => 8
  | .mulh => 9
  | .div => 10
  | .divh => 11
  | .mov => 13
  | .rol => 14
  | .ror => 15

/-- The operation with a given code. -/
def ofCode? (n : Nat) : Option AluOp := all.find? (·.code == n)

/-- How an operation is written. -/
def mnemonic : AluOp → String
  | .add => "add"
  | .sub => "sub"
  | .and => "and"
  | .or => "or"
  | .not => "not"
  | .xor => "xor"
  | .shl => "shl"
  | .shr => "shr"
  | .mul => "mul"
  | .mulh => "mulh"
  | .div => "div"
  | .divh => "divh"
  | .mov => "mov"
  | .rol => "rol"
  | .ror => "ror"

theorem code_lt (op : AluOp) : op.code < 16 := by cases op <;> decide

@[simp]
theorem ofCode?_code (op : AluOp) : ofCode? op.code = some op := by cases op <;> rfl

end AluOp

/-- The conditions of a branch; those with a `u` compare without sign. -/
inductive BranchOp where
  | ble
  | blt
  | bge
  | bgt
  | bleu
  | bltu
  | bgeu
  | bgtu
  | beq
  | bne
  /-- Always taken. -/
  | jump
deriving DecidableEq, Repr, Inhabited

namespace BranchOp

/-- Every condition, in the order of the codes. -/
def all : List BranchOp :=
  [.ble, .blt, .bge, .bgt, .bleu, .bltu, .bgeu, .bgtu, .beq, .bne, .jump]

/-- The code of a condition in an instruction word. -/
def code : BranchOp → Nat
  | .ble => 0
  | .blt => 1
  | .bge => 2
  | .bgt => 3
  | .bleu => 4
  | .bltu => 5
  | .bgeu => 6
  | .bgtu => 7
  | .beq => 8
  | .bne => 9
  | .jump => 15

/-- The condition with a given code. -/
def ofCode? (n : Nat) : Option BranchOp := all.find? (·.code == n)

/-- How a condition is written. -/
def mnemonic : BranchOp → String
  | .ble => "ble"
  | .blt => "blt"
  | .bge => "bge"
  | .bgt => "bgt"
  | .bleu => "bleu"
  | .bltu => "bltu"
  | .bgeu => "bgeu"
  | .bgtu => "bgtu"
  | .beq => "beq"
  | .bne => "bne"
  | .jump => "jump"

theorem code_lt (op : BranchOp) : op.code < 16 := by cases op <;> decide

@[simp]
theorem ofCode?_code (op : BranchOp) : ofCode? op.code = some op := by cases op <;> rfl

end BranchOp

/-- The operations on memory and on the stack. -/
inductive MemOp where
  | push
  | pop
  | stor
  | load
deriving DecidableEq, Repr, Inhabited

namespace MemOp

/-- Every operation, in the order of the codes. -/
def all : List MemOp := [.push, .pop, .stor, .load]

/-- The code of an operation in an instruction word. -/
def code : MemOp → Nat
  | .push => 0
  | .pop => 1
  | .stor => 2
  | .load => 3

/-- The operation with a given code. -/
def ofCode? (n : Nat) : Option MemOp := all.find? (·.code == n)

/-- How an operation is written. -/
def mnemonic : MemOp → String
  | .push => "push"
  | .pop => "pop"
  | .stor => "stor"
  | .load => "load"

theorem code_lt (op : MemOp) : op.code < 16 := by cases op <;> decide

@[simp]
theorem ofCode?_code (op : MemOp) : ofCode? op.code = some op := by cases op <;> rfl

end MemOp

/-- Going to a subroutine and back. -/
inductive CallOp where
  | call
  | ret
deriving DecidableEq, Repr, Inhabited

namespace CallOp

/-- Every operation, in the order of the codes. -/
def all : List CallOp := [.call, .ret]

/-- The code of an operation in an instruction word. -/
def code : CallOp → Nat
  | .call => 0
  | .ret => 1

/-- The operation with a given code. -/
def ofCode? (n : Nat) : Option CallOp := all.find? (·.code == n)

/-- How an operation is written. -/
def mnemonic : CallOp → String
  | .call => "call"
  | .ret => "ret"

theorem code_lt (op : CallOp) : op.code < 16 := by cases op <;> decide

@[simp]
theorem ofCode?_code (op : CallOp) : ofCode? op.code = some op := by cases op <;> rfl

end CallOp

end SixReg
