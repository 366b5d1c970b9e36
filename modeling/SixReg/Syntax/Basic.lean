import SixReg.Operator
import SixReg.Source.Position

/-!
# Syntax trees

Expressions, statements and programs. Parentheses leave no node. A variable keeps the span of its
name, so that later stages can say where it was written.
-/

namespace SixReg

/-- An expression. -/
inductive Expr where
  | number (value : Int)
  | var (name : String) (span : Span)
  | binary (op : BinOp) (left right : Expr)
  /-- The bitwise complement. -/
  | not (operand : Expr)
deriving DecidableEq, Repr, Inhabited

/-- A statement. -/
inductive Stmt where
  /-- Declares a variable, or gives a declared one a new value. -/
  | declare (name : String) (span : Span) (value : Expr)
  | print (value : Expr)
  | ifThen (condition : Expr) (body : List Stmt)
  | ifElse (condition : Expr) (body other : List Stmt)
  | loop (condition : Expr) (body : List Stmt)
  | block (body : List Stmt)
deriving Repr, Inhabited

/-- The statements between two braces. -/
abbrev Block := List Stmt

/-- A whole program. -/
abbrev Program := List Stmt

end SixReg
