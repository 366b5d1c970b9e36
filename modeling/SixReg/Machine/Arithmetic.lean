import SixReg.Machine.Operation
import SixReg.Machine.Register

/-!
# Arithmetic on words

What the operations of the arithmetic unit compute and when a branch is taken. Words are taken as
signed numbers in two's complement by multiplication's upper half, by division and by the branches
without a `u`; everything else is the same with and without sign.
-/

namespace SixReg

/-- The value of an operation; only a division by zero has none. Shifts and rotations use the four
low bits of the second operand. Division goes toward zero, and the remainder has the sign of the
dividend. -/
def AluOp.apply (op : AluOp) (a b : Word) : Option Word :=
  match op with
  | .add => some (a + b)
  | .sub => some (a - b)
  | .and => some (a &&& b)
  | .or => some (a ||| b)
  | .not => some (~~~b)
  | .xor => some (a ^^^ b)
  | .shl => some (a <<< (b.toNat % 16))
  | .shr => some (a >>> (b.toNat % 16))
  | .mul => some (a * b)
  | .mulh => some ((a.signExtend 32 * b.signExtend 32).extractLsb' 16 16)
  | .div => if b = 0 then none else some (a.sdiv b)
  | .divh => if b = 0 then none else some (a.srem b)
  | .mov => some b
  | .rol => some (a.rotateLeft (b.toNat % 16))
  | .ror => some (a.rotateRight (b.toNat % 16))

/-- Whether a branch is taken when its two registers hold the given words. -/
def BranchOp.taken (op : BranchOp) (a b : Word) : Bool :=
  match op with
  | .ble => a.sle b
  | .blt => a.slt b
  | .bge => b.sle a
  | .bgt => b.slt a
  | .bleu => a.ule b
  | .bltu => a.ult b
  | .bgeu => b.ule a
  | .bgtu => b.ult a
  | .beq => a == b
  | .bne => a != b
  | .jump => true

end SixReg
