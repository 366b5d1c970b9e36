import SixReg.Machine.State

/-!
# Running programs

A machine runs a program until its program counter is past the end, or a step fails, or the steps
it has done reach the limit. The limit is on all steps that the machine ever did, so a machine can
be run again, on the same program or another, and goes on from where it stands.
-/

namespace SixReg

/-- A program in the machine's memory of instructions. -/
abbrev Image := Array Encoded

/-- The steps that a machine may do unless it is told otherwise. -/
def defaultMaxSteps : Nat := 100000

namespace Machine

/-- The address just past a program. -/
def stopOf (image : Image) : Nat := image.size * wordsPerInstruction

/-- Fetches, decodes and does one instruction. Past the program there is none to do. -/
def stepAt (image : Image) : Exec Unit := fun m =>
  match image[m.pc / wordsPerInstruction]? with
  | none => .ok () m
  | some encoded =>
    match encoded.decode with
    | .error e => .error (.invalidInstruction m.pc e) m
    | .ok instr =>
      match step (stopOf image) instr m with
      | .ok _ m => .ok () { m with steps := m.steps + 1 }
      | .error fault m => .error fault m

/-- Runs with at most `budget` more steps; `limit` is the number that a fault reports. -/
def runFor (image : Image) (limit : Nat) : Nat → Exec Unit
  | 0 => fun m =>
    if m.pc < stopOf image then .error (.stepLimitExceeded limit) m else .ok () m
  | budget + 1 => fun m =>
    if m.pc < stopOf image then
      match stepAt image m with
      | .ok _ m => runFor image limit budget m
      | .error fault m => .error fault m
    else .ok () m

/-- Runs a program from where the machine stands. -/
def run (image : Image) (maxSteps : Nat) : Exec Unit := fun m =>
  runFor image maxSteps (maxSteps - m.steps) m

end Machine

/-- The machine that a program leaves, started from rest. -/
def Image.run (image : Image) (maxSteps : Nat) : Except Fault Machine :=
  match Machine.run image maxSteps .start with
  | .ok _ m => .ok m
  | .error fault _ => .error fault

end SixReg
