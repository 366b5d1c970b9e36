/-!
# Binary operators

The twelve operators that compute a word and the six that compare two words. The two kinds are
kept apart because only a comparison can stand as a condition, and only the others have a machine
operation that leaves a value.
-/

namespace SixReg

/-- The operators that compute a value. -/
inductive Arith where
  | add
  | sub
  | mul
  | div
  | rem
  | and
  | or
  | xor
  | shl
  | shr
  | rol
  | ror
deriving DecidableEq, Repr, Inhabited

/-- The relations that a condition tests. -/
inductive Relation where
  | eq
  | ne
  | lt
  | gt
  | le
  | ge
deriving DecidableEq, Repr, Inhabited

/-- A binary operator of the language. -/
inductive BinOp where
  | arith (op : Arith)
  | compare (rel : Relation)
deriving DecidableEq, Repr, Inhabited

/-- How the operator is written. -/
def Arith.symbol : Arith → String
  | .add => "+"
  | .sub => "-"
  | .mul => "*"
  | .div => "/"
  | .rem => "%"
  | .and => "&"
  | .or => "|"
  | .xor => "^"
  | .shl => "<<"
  | .shr => ">>"
  | .rol => "rol"
  | .ror => "ror"

namespace Relation

/-- How the relation is written. -/
def symbol : Relation → String
  | .eq => "=="
  | .ne => "!="
  | .lt => "<"
  | .gt => ">"
  | .le => "<="
  | .ge => ">="

/-- The relation that holds exactly when the given one does not. -/
def inverse : Relation → Relation
  | .eq => .ne
  | .ne => .eq
  | .lt => .ge
  | .ge => .lt
  | .gt => .le
  | .le => .gt

@[simp]
theorem inverse_inverse (r : Relation) : r.inverse.inverse = r := by cases r <;> rfl

end Relation

namespace BinOp

/-- How the operator is written. -/
def symbol : BinOp → String
  | .arith op => op.symbol
  | .compare rel => rel.symbol

/-- Whether the operator compares its sides. -/
def isComparison : BinOp → Bool
  | .arith _ => false
  | .compare _ => true

/-- The relation that a comparing operator tests. -/
def relation? : BinOp → Option Relation
  | .arith _ => none
  | .compare rel => some rel

/-- How tightly the operator binds: a higher level binds tighter. Comparisons bind loosest and do
not chain; the operators of every other level associate to the left. -/
def level : BinOp → Nat
  | .compare _ => 0
  | .arith .or => 1
  | .arith .xor => 2
  | .arith .and => 3
  | .arith .shl | .arith .shr | .arith .rol | .arith .ror => 4
  | .arith .add | .arith .sub => 5
  | .arith .mul | .arith .div | .arith .rem => 6

theorem level_le (op : BinOp) : op.level ≤ 6 := by
  rcases op with op | rel
  · cases op <;> decide
  · exact Nat.zero_le _

/-- The comparisons are the operators of the loosest level. -/
theorem level_eq_zero_iff (op : BinOp) : op.level = 0 ↔ op.isComparison = true := by
  rcases op with op | rel
  · cases op <;> decide
  · simp [level, isComparison]

end BinOp

end SixReg
