import SixReg.Machine.Arithmetic
import SixReg.Machine.Encoding

/-!
# The machine and its steps

A machine has eight registers, 8192 words of memory, a stack, a program counter and a count of
steps, and keeps everything that was written to the output register. Addresses of instructions
count words, so the next instruction is two further on. A step that fails leaves the program
counter and the count of steps where they were, but what it already did to the stack stays done:
a step is therefore a function on machines that yields a machine in either case.
-/

namespace SixReg

/-- The number of words of memory. -/
def memorySize : Nat := 8192

/-- The state of a machine. -/
structure Machine where
  registers : Vector Word 8
  memory : Vector Word memorySize
  /-- The last word pushed stands first. -/
  stack : List Word
  output : Array Word
  /-- The address of the next instruction. -/
  pc : Nat
  /-- The number of instructions done. -/
  steps : Nat
deriving DecidableEq, Repr, Inhabited

/-- Why a machine stops before the end of its program. -/
inductive Fault where
  | invalidInstruction (pc : Nat) (error : CompileError)
  | divisionByZero (pc : Nat)
  | stepLimitExceeded (limit : Nat)
  | badTarget (pc target : Nat)
  | addressOutOfRange (pc : Nat) (address : Word)
  | stackUnderflow (pc : Nat)
deriving DecidableEq, Repr, Inhabited

/-- The wording of a fault. -/
def Fault.message : Fault → String
  | .invalidInstruction pc e => s!"invalid instruction at @{pc}: {e.message}"
  | .divisionByZero pc => s!"division by zero at @{pc}"
  | .stepLimitExceeded limit => s!"step limit of {limit} exceeded"
  | .badTarget pc target =>
    s!"branch at @{pc} targets @{target}, which is not an instruction boundary"
  | .addressOutOfRange pc address => s!"memory address {address.toNat} out of range at @{pc}"
  | .stackUnderflow pc => s!"stack underflow at @{pc}"

/-- A computation of the machine: it ends with a machine, and with a fault if it fails. -/
abbrev Exec := EStateM Fault Machine

namespace Machine

/-- The machine at rest: zero everywhere, nothing on the stack, no output. -/
def start : Machine :=
  { registers := .replicate 8 0
    memory := .replicate memorySize 0
    stack := []
    output := #[]
    pc := 0
    steps := 0 }

/-- What a register holds. -/
def register (m : Machine) (r : Register) : Word :=
  have : r.code < 8 := r.code_lt
  m.registers[r.code]

/-- Sets a register. What is written to the output register is also output. -/
def write (m : Machine) (r : Register) (value : Word) : Machine :=
  have : r.code < 8 := r.code_lt
  let m := { m with registers := m.registers.set r.code value }
  if r = .io then { m with output := m.output.push value } else m

@[simp]
theorem register_start (r : Register) : start.register r = 0 := by
  simp [register, start]

theorem register_write_self (m : Machine) (r : Register) (value : Word) :
    (m.write r value).register r = value := by
  unfold write register
  split <;> simp

theorem register_write_of_ne (m : Machine) {r other : Register} (value : Word) (h : r ≠ other) :
    (m.write r value).register other = m.register other := by
  have hc : r.code ≠ other.code := fun hc => h (by
    have := congrArg Register.ofCode? hc
    simpa using this)
  unfold write register
  split <;> simp [hc]

/-- The place in memory that the address register names, if there is one. -/
def address? (m : Machine) : Option (Fin memorySize) :=
  if h : (m.register .mar).toNat < memorySize then some ⟨_, h⟩ else none

/-- Goes on with the next instruction. -/
def next (m : Machine) : Machine := { m with pc := m.pc + wordsPerInstruction }

/-- Computes in the arithmetic unit, sets a register to the value and goes on. -/
def calculate (op : AluOp) (a b : Word) (rd : Register) : Exec Unit := fun m =>
  match op.apply a b with
  | some value => .ok () (m.write rd value).next
  | none => .error (.divisionByZero m.pc) m

/-- Goes to a target, which must be the address of an instruction or the end of the program. -/
def goTo (stop target : Nat) : Exec Unit := fun m =>
  if stop < target ∨ target % wordsPerInstruction ≠ 0 then .error (.badTarget m.pc target) m
  else .ok () { m with pc := target }

/-- Does one instruction of a program that ends at the address `stop`. A call pushes the address to
return to, as a word, before its target is looked at; a return pops before. The memory operations
of the wrong direction move nothing, but a register that one of them names as destination is
written with what it holds. -/
def step (stop : Nat) (instr : Instruction) : Exec Unit := fun m =>
  match instr with
  | .alu op rs1 rs2 rd => calculate op (m.register rs1) (m.register rs2) rd m
  | .aluImm op rs1 rd imm => calculate op (m.register rs1) (.ofInt 16 imm) rd m
  | .memRead .pop rd =>
    match m.stack with
    | [] => .error (.stackUnderflow m.pc) m
    | top :: stack => .ok () (({ m with stack } : Machine).write rd top).next
  | .memRead .load rd =>
    match m.address? with
    | none => .error (.addressOutOfRange m.pc (m.register .mar)) m
    | some i => .ok () (m.write rd m.memory[i]).next
  | .memRead .push rd | .memRead .stor rd => .ok () (m.write rd (m.register rd)).next
  | .memWrite .push rs1 =>
    .ok () ({ m with stack := m.register rs1 :: m.stack } : Machine).next
  | .memWrite .stor rs1 =>
    match m.address? with
    | none => .error (.addressOutOfRange m.pc (m.register .mar)) m
    | some i => .ok () ({ m with memory := m.memory.set i (m.register rs1) } : Machine).next
  | .memWrite .pop _ | .memWrite .load _ => .ok () m.next
  | .call .call imm =>
    goTo stop imm.toNat { m with stack := .ofNat 16 m.next.pc :: m.stack }
  | .call .ret _ =>
    match m.stack with
    | [] => .error (.stackUnderflow m.pc) m
    | top :: stack => goTo stop top.toNat { m with stack }
  | .branch op rs1 rs2 imm =>
    if op.taken (m.register rs1) (m.register rs2) then goTo stop imm.toNat m else .ok () m.next

end Machine

end SixReg
