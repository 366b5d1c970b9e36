import SixReg.Symbol
import SixReg.Syntax.Basic

/-!
# Scopes

A program has one scope. Its statements are checked in the order in which they are written, and a
variable may be used from the point on where its first declaration ends, whichever branch that
declaration stands in. The value of a declaration is checked before its name is declared.
-/

namespace SixReg

/-- What to do about a declaration of a name that is declared already. -/
inductive Redeclaration where
  /-- The declaration gives the variable a new value. -/
  | reuse
  /-- The declaration is an error. -/
  | reject
deriving DecidableEq, Repr, Inhabited

/-- A misuse of a name. -/
inductive ScopeFault where
  | undeclared (name : String)
  | redeclared (symbol : Symbol)
deriving DecidableEq, Repr, Inhabited

/-- A misuse of a name and where it was written. -/
structure ScopeError where
  place : Place
  fault : ScopeFault
deriving DecidableEq, Repr, Inhabited

/-- The wording of a scope error. -/
def ScopeError.message (e : ScopeError) : String :=
  match e.fault with
  | .undeclared name =>
    s!"SemanticError:UndeclaredVariable ({e.place.line}:{e.place.column}) - " ++
      s!"Variable '{name}' used before declaration"
  | .redeclared symbol =>
    s!"SemanticError:VariableRedeclaration ({e.place.line}:{e.place.column}) - " ++
      s!"Variable '{symbol.name}' already declared (slot {symbol.slot})"

namespace Scope

/-- The error for a fault at a name of a text. -/
def fail (source : Source) (span : Span) (fault : ScopeFault) : ScopeError :=
  ⟨source.place span.start, fault⟩

/-- Checks that a name is declared. -/
def use (source : Source) (table : SymbolTable) (name : String) (span : Span) :
    Except ScopeError Symbol :=
  match table.find? name with
  | some symbol => .ok symbol
  | none => .error (fail source span (.undeclared name))

/-- Declares a name. -/
def declare (source : Source) (policy : Redeclaration) (table : SymbolTable) (name : String)
    (span : Span) : Except ScopeError SymbolTable :=
  match policy, table.declare name with
  | .reject, (.existing symbol, _) => .error (fail source span (.redeclared symbol))
  | _, (_, table) => .ok table

/-- Checks the names in an expression. -/
def checkExpr (source : Source) (table : SymbolTable) : Expr → Except ScopeError Unit
  | .number _ => .ok ()
  | .var name span => do
    let _ ← use source table name span
  | .binary _ left right => do
    checkExpr source table left
    checkExpr source table right
  | .not operand => checkExpr source table operand

mutual

/-- Checks a statement and adds what it declares. -/
def checkStmt (source : Source) (policy : Redeclaration) (table : SymbolTable) :
    Stmt → Except ScopeError SymbolTable
  | .declare name span value => do
    checkExpr source table value
    declare source policy table name span
  | .print value => do
    checkExpr source table value
    return table
  | .ifThen condition body => do
    checkExpr source table condition
    checkBlock source policy table body
  | .ifElse condition body other => do
    checkExpr source table condition
    let table ← checkBlock source policy table body
    checkBlock source policy table other
  | .loop condition body => do
    checkExpr source table condition
    checkBlock source policy table body
  | .block body => checkBlock source policy table body

/-- Checks statements one after the other. -/
def checkBlock (source : Source) (policy : Redeclaration) (table : SymbolTable) :
    Block → Except ScopeError SymbolTable
  | [] => .ok table
  | first :: others => do
    let table ← checkStmt source policy table first
    checkBlock source policy table others

end

end Scope

/-- The variables of a program, or the first misuse of a name in it. -/
def Program.analyze (source : Source) (policy : Redeclaration) (program : Program) :
    Except ScopeError SymbolTable :=
  Scope.checkBlock source policy .empty program

end SixReg
