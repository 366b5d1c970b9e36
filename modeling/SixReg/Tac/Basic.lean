import SixReg.Operator
import SixReg.Symbol
import Std.Data.TreeMap

/-!
# Three-address code

The code between syntax trees and machine instructions. An instruction reads at most two
temporaries and writes at most one; variables are reached by loads and stores only, and control
moves between labels. Nothing in the types keeps a temporary from being written twice or a jump
from going nowhere: that is a property of the code that the builder makes.
-/

namespace SixReg

/-- A temporary: the place of an intermediate value. -/
structure Temp where
  id : Nat
deriving DecidableEq, Repr, Inhabited

instance : Ord Temp := ⟨compareOn Temp.id⟩

instance : Std.TransOrd Temp := inferInstanceAs (Std.TransCmp (compareOn Temp.id))

instance : Std.LawfulEqOrd Temp where
  eq_of_compare {a b} h := by
    have : a.id = b.id := Nat.compare_eq_eq.1 h
    cases a; cases b; simp_all

/-- A label: a place that control can move to. -/
structure Label where
  id : Nat
deriving DecidableEq, Repr, Inhabited

instance : Ord Label := ⟨compareOn Label.id⟩

instance : Std.TransOrd Label := inferInstanceAs (Std.TransCmp (compareOn Label.id))

instance : Std.LawfulEqOrd Label where
  eq_of_compare {a b} h := by
    have : a.id = b.id := Nat.compare_eq_eq.1 h
    cases a; cases b; simp_all

namespace Tac

/-- A value that an instruction takes: a temporary or a constant. -/
inductive Operand where
  | temp (temp : Temp)
  | const (value : Int)
deriving DecidableEq, Repr, Inhabited

/-- An instruction of three-address code. -/
inductive Instr where
  | const (dst : Temp) (value : Int)
  | load (dst : Temp) (src : Symbol)
  | store (dst : Symbol) (src : Operand)
  | binary (dst left : Temp) (op : BinOp) (right : Operand)
  | not (dst : Temp) (src : Operand)
  /-- Goes to the target if the relation holds. -/
  | branch (left right : Temp) (rel : Relation) (target : Label)
  | jump (target : Label)
  | label (place : Label)
  | print (value : Temp)
deriving DecidableEq, Repr, Inhabited

/-- A program in three-address code, with the variables that it reaches in the order of first
use. -/
structure Code where
  instrs : List Instr
  slots : List Symbol
deriving DecidableEq, Repr, Inhabited

/-- The temporaries that an operand reads. -/
def Operand.reads : Operand → List Temp
  | .temp t => [t]
  | .const _ => []

namespace Instr

/-- The temporaries that an instruction reads, in the order of its operands. One that stands in
two places is listed twice. -/
def reads : Instr → List Temp
  | .const _ _ | .load _ _ | .jump _ | .label _ => []
  | .store _ src => src.reads
  | .binary _ left _ right => left :: right.reads
  | .not _ src => src.reads
  | .branch left right _ _ => [left, right]
  | .print value => [value]

/-- The temporary that an instruction writes. -/
def result? : Instr → Option Temp
  | .const dst _ | .load dst _ | .binary dst _ _ _ | .not dst _ => some dst
  | .store _ _ | .branch _ _ _ _ | .jump _ | .label _ | .print _ => none

end Instr

/-- How often each temporary is read. -/
abbrev ReadCounts := Std.TreeMap Temp Nat

namespace Code

/-- One more than the largest number of a temporary that is written. -/
def tempBound (code : Code) : Nat :=
  (code.instrs.filterMap Instr.result?).foldl (fun n t => max n (t.id + 1)) 0

/-- Every read of a temporary, in the order of the code. -/
def reads (code : Code) : List Temp := code.instrs.flatMap Instr.reads

/-- Counts one more read. -/
def countRead (counts : ReadCounts) (t : Temp) : ReadCounts :=
  counts.insert t (counts.getD t 0 + 1)

/-- How often each temporary is read in the code. -/
def readCounts (code : Code) : ReadCounts := code.reads.foldl countRead ∅

end Code

end Tac

end SixReg
