import SixReg.Error
import SixReg.Machine.Instruction

/-!
# Label tables

Where each label stands in the machine program. A branch is first made with the number of its
label as immediate; `LabelTable.resolve` then puts the address there.
-/

namespace SixReg

/-- The address of each label. -/
structure LabelTable where
  offsets : Std.TreeMap Label Nat
deriving Inhabited

namespace LabelTable

/-- The table without labels. -/
def empty : LabelTable := ⟨∅⟩

/-- Says that a label stands in front of the instruction with the given index. A label that was
there already is reported, and stands at its new place from then on. Indices count the instructions
of a program in memory, so they are below `2 ^ 63` and their addresses fit 64 bits. Larger ones have
addresses here that do not, since nothing overflows. -/
def define (table : LabelTable) (label : Label) (index : Nat) :
    Except CompileError Unit × LabelTable :=
  let table' : LabelTable := ⟨table.offsets.insert label (index * wordsPerInstruction)⟩
  if label ∈ table.offsets then (.error (.unsupported (.duplicateLabel label)), table')
  else (.ok (), table')

/-- The address of a label. -/
def offset (table : LabelTable) (label : Label) : Except CompileError Nat :=
  match table.offsets[label]? with
  | some offset => .ok offset
  | none => .error (.unresolvedLabel label)

/-- A definition moves no other label. -/
theorem offset_define_of_ne (table : LabelTable) {label other : Label} (index : Nat)
    (h : label ≠ other) : (table.define label index).2.offset other = table.offset other := by
  unfold define
  split <;> simp [offset, Std.TreeMap.getElem?_insert, h]

/-- The number of labels. -/
def size (table : LabelTable) : Nat := table.offsets.size

/-- The labels with their addresses, in the order of their numbers. -/
def toList (table : LabelTable) : List (Label × Nat) := table.offsets.toList

/-- Puts the address of its label into a branch. -/
def resolveOne (table : LabelTable) : Instruction → Except CompileError Instruction
  | .branch op rs1 rs2 imm =>
    if imm < 0 then .error (.immediateOutOfRange imm)
    else (table.offset ⟨imm.toNat⟩).map fun offset => .branch op rs1 rs2 (asImmediate offset)
  | instr => .ok instr

/-- Puts the addresses of their labels into all branches, up to the first that has none. -/
def resolve (table : LabelTable) : List Instruction → Except CompileError Unit × List Instruction
  | [] => (.ok (), [])
  | instr :: instrs =>
    match table.resolveOne instr with
    | .error e => (.error e, instr :: instrs)
    | .ok instr =>
      let (outcome, instrs) := table.resolve instrs
      (outcome, instr :: instrs)

end LabelTable

end SixReg
