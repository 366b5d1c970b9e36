/-!
# Registers

Six general registers and two special ones: `mar` holds the address that a load or store uses, and
a write to `io` is output.
-/

namespace SixReg

/-- A word of the machine. -/
abbrev Word := BitVec 16

/-- A register of the machine. -/
inductive Register where
  | r0
  | r1
  | r2
  | r3
  | r4
  | r5
  /-- The memory address register. -/
  | mar
  /-- The output register. -/
  | io
deriving DecidableEq, Repr, Inhabited

namespace Register

/-- Every register, in the order of the codes. -/
def all : List Register := [.r0, .r1, .r2, .r3, .r4, .r5, .mar, .io]

/-- The registers that hold values of a program. -/
def general : List Register := [.r0, .r1, .r2, .r3, .r4, .r5]

/-- The code of a register in an instruction word. -/
def code : Register → Nat
  | .r0 => 0
  | .r1 => 1
  | .r2 => 2
  | .r3 => 3
  | .r4 => 4
  | .r5 => 5
  | .mar => 6
  | .io => 7

/-- The register with a given code. -/
def ofCode? (n : Nat) : Option Register := all.find? (·.code == n)

/-- How a register is written. -/
def name : Register → String
  | .r0 => "R0"
  | .r1 => "R1"
  | .r2 => "R2"
  | .r3 => "R3"
  | .r4 => "R4"
  | .r5 => "R5"
  | .mar => "MAR"
  | .io => "IO"

theorem code_lt (r : Register) : r.code < 8 := by cases r <;> decide

@[simp]
theorem ofCode?_code (r : Register) : ofCode? r.code = some r := by cases r <;> rfl

end Register

end SixReg
