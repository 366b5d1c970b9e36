import Mathlib.Logic.Function.Basic
import SixReg.Machine.Register
import SixReg.Proofs.Computation
import SixReg.Proofs.Transition
import SixReg.Syntax.Basic

/-!
# The meaning of programs

What a program does, said of its tree and of nothing that is made from it. The values are those of
any `Domain`: constants, operators that may fail, a complement and relations. The machine's own
values are the domain `words`.

A state of a program is the list of statements still to do, one flat store of variables and the
output so far (`Program.State`). A block puts its statements in front of those to do and so opens no
scope; a loop puts its body and itself there.
-/

namespace SixReg

/-! ## Domains of values -/

/-- Values for the constants, operators and relations of the language. -/
structure Domain (V ε : Type) where
  const : Int → V
  binary : BinOp → V → V → Except ε V
  not : V → V
  holds : Relation → V → V → Bool
  holds_inverse : ∀ rel a b, holds rel.inverse a b = !holds rel a b

/-- Why a program fails. -/
inductive Failure (ε : Type) where
  /-- An operator has no value. -/
  | operator (error : ε)
  /-- A condition is no comparison, or a label stands nowhere. -/
  | malformed
deriving DecidableEq, Repr

/-- The value of an operator. -/
def Domain.apply {V ε : Type} (D : Domain V ε) (op : BinOp) (a b : V) :
    Except (Failure ε) V :=
  (D.binary op a b).mapError .operator

/-! ## Words -/

/-- The only way in which an operator on words has no value. -/
inductive ArithmeticError where
  | divisionByZero
deriving DecidableEq, Repr

/-- The value of an operator on words. Everything is modulo 2^16; division takes its operands with
their signs and goes toward zero; shifts and rotations go by the right operand modulo 16. -/
def Arith.onWords (op : Arith) (a b : Word) : Except ArithmeticError Word :=
  match op with
  | .add => .ok (a + b)
  | .sub => .ok (a - b)
  | .mul => .ok (a * b)
  | .div => if b = 0 then .error .divisionByZero else .ok (.ofInt 16 (a.toInt.tdiv b.toInt))
  | .rem => if b = 0 then .error .divisionByZero else .ok (.ofInt 16 (a.toInt.tmod b.toInt))
  | .and => .ok (a &&& b)
  | .or => .ok (a ||| b)
  | .xor => .ok (a ^^^ b)
  | .shl => .ok (a <<< (b.toNat % 16))
  | .shr => .ok (a >>> (b.toNat % 16))
  | .rol => .ok (a.rotateLeft (b.toNat % 16))
  | .ror => .ok (a.rotateRight (b.toNat % 16))

/-- Whether a relation holds between two words, taken with their signs. -/
def Relation.onWords (rel : Relation) (a b : Word) : Bool :=
  match rel with
  | .eq => a = b
  | .ne => a ≠ b
  | .lt => a.toInt < b.toInt
  | .gt => a.toInt > b.toInt
  | .le => a.toInt ≤ b.toInt
  | .ge => a.toInt ≥ b.toInt

theorem Relation.onWords_inverse (rel : Relation) (a b : Word) :
    rel.inverse.onWords a b = !rel.onWords a b := by
  rw [Bool.eq_iff_iff]
  cases rel <;> simp [inverse, onWords]

/-- The words of the machine. A comparison that stands as a value is 1 or 0; there is no machine
code for one. -/
def words : Domain Word ArithmeticError where
  const n := .ofInt 16 n
  binary
    | .arith op => op.onWords
    | .compare rel => fun a b => .ok (if rel.onWords a b then 1 else 0)
  not a := ~~~a
  holds := Relation.onWords
  holds_inverse := Relation.onWords_inverse

/-! ## Expressions -/

variable {V ε : Type} (D : Domain V ε)

/-- The value of an expression, evaluated from left to right. -/
def Expr.eval (store : String → V) : Expr → Except (Failure ε) V
  | .number value => .ok (D.const value)
  | .var name _ => .ok (store name)
  | .binary op left right => do
    let a ← left.eval store
    let b ← right.eval store
    D.apply op a b
  | .not operand => do
    let a ← operand.eval store
    return D.not a

/-- Whether a condition holds. -/
def Expr.test (store : String → V) : Expr → Except (Failure ε) Bool
  | .binary (.compare rel) left right => do
    let a ← left.eval D store
    let b ← right.eval D store
    return D.holds rel a b
  | _ => .error .malformed

/-! ## Statements -/

namespace Program

/-- A program under way. -/
structure State (V : Type) where
  /-- The statements still to do. -/
  todo : Block
  store : String → V
  output : List V

/-- The state in which a program starts. -/
def start (program : Program) (store : String → V) : State V := ⟨program, store, []⟩

/-- Does one statement; `s.todo` is what comes after it. -/
def exec (s : State V) : Stmt → Except (Failure ε) (State V)
  | .declare name _ value => do
    let v ← value.eval D s.store
    return { s with store := Function.update s.store name v }
  | .print value => do
    let v ← value.eval D s.store
    return { s with output := s.output ++ [v] }
  | .ifThen condition body => do
    let holds ← condition.test D s.store
    return { s with todo := if holds then body ++ s.todo else s.todo }
  | .ifElse condition body other => do
    let holds ← condition.test D s.store
    return { s with todo := (if holds then body else other) ++ s.todo }
  | .loop condition body => do
    let holds ← condition.test D s.store
    return { s with todo := if holds then body ++ .loop condition body :: s.todo else s.todo }
  | .block body => return { s with todo := body ++ s.todo }

/-- Does the first statement that is to do. -/
def step (s : State V) : Move (State V) (Failure ε) :=
  match s.todo with
  | [] => .stop
  | first :: others => .ofExcept (exec D { s with todo := others } first)

theorem output_exec {s t : State V} {first : Stmt} (h : exec D s first = .ok t) :
    s.output <+: t.output := by
  cases first with
  | print value =>
      simp only [exec, Except.bind_eq_ok, Except.pure_eq_ok] at h
      obtain ⟨v, -, rfl⟩ := h
      exact List.prefix_append _ _
  | declare | ifThen | ifElse | loop =>
      simp only [exec, Except.bind_eq_ok, Except.pure_eq_ok] at h
      obtain ⟨_, -, rfl⟩ := h
      exact List.prefix_rfl
  | block body =>
      simp only [exec, Except.pure_eq_ok] at h
      exact h ▸ List.prefix_rfl

end Program

/-- Programs as a transition system. -/
def Program.system : System (Program.State V) (Failure ε) V where
  step := Program.step D
  output := Program.State.output
  output_step {s t} h := by
    unfold Program.step at h
    split at h
    · cases h
    · next first others _ =>
        exact Program.output_exec D (s := { s with todo := others }) (Move.ofExcept_eq_next.mp h)

end SixReg
