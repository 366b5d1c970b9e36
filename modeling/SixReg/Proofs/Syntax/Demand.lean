import Mathlib.Data.Finset.Card
import SixReg.Proofs.Syntax.Parse

/-!
# What a program asks of the machine

The machine has six registers, immediates of thirteen bits and as many addresses. What a program
needs of them can be read off its tree. Expressions stand at *sites*, as initializers, as printed
values and as conditions, and `need`, `literals` and `size` say for a site how many registers its
evaluation takes at once, which numbers it spells and how many machine instructions it becomes.
`labelPlaces` says where the labels of conditions and loops come to stand, counted in machine
instructions.
-/

namespace SixReg

/-! ## Expressions -/

namespace Expr

/-- Whether the expression compares two values, as a condition has to. -/
def isComparison : Expr → Bool
  | .binary op _ _ => op.isComparison
  | .number _ | .var _ _ | .not _ => false

/-- Whether a comparison stands anywhere in the expression. -/
def compares : Expr → Bool
  | .number _ | .var _ _ => false
  | .binary op left right => op.isComparison || left.compares || right.compares
  | .not operand => operand.compares

/-- The literals of the expression, in their order. -/
def literals : Expr → List Int
  | .number value => [value]
  | .var _ _ => []
  | .binary _ left right => left.literals ++ right.literals
  | .not operand => operand.literals

/-- The variables that the expression mentions. -/
def names : Expr → List String
  | .number _ => []
  | .var name _ => [name]
  | .binary _ left right => left.names ++ right.names
  | .not operand => operand.names

/-- The most registers that are in use at once while the expression is evaluated. A result gets its
register before the operands give up theirs. -/
def need : Expr → Nat
  | .number _ | .var _ _ => 1
  | .binary _ left (.number _) => max left.need 2
  | .binary _ left right => max left.need (max (1 + right.need) 3)
  | .not (.number _) => 1
  | .not operand => max operand.need 2

/-- The number of machine instructions. A variable is reached by way of the address register, and
a literal on the right is part of its operation. -/
def size : Expr → Nat
  | .number _ => 1
  | .var _ _ => 2
  | .binary _ left (.number _) => left.size + 1
  | .binary _ left right => left.size + right.size + 1
  | .not (.number _) => 1
  | .not operand => operand.size + 1

end Expr

/-! ## Sites -/

/-- An expression with the role that it plays in a statement. -/
inductive Site where
  | initializer (value : Expr)
  | printed (value : Expr)
  | condition (value : Expr)
deriving DecidableEq, Repr

namespace Site

/-- The expression at the site. -/
def value : Site → Expr
  | .initializer value | .printed value | .condition value => value

/-- Whether comparisons stand where they may: one at the top of a condition and nowhere else. -/
def isSupported : Site → Bool
  | .initializer value | .printed value => !value.compares
  | .condition (.binary op left right) => op.isComparison && !left.compares && !right.compares
  | .condition _ => false

/-- The most registers that are in use at once. The branch of a condition has no result. -/
def need : Site → Nat
  | .initializer value | .printed value => value.need
  | .condition (.binary _ left right) => max left.need (1 + right.need)
  | .condition _ => 0

/-- The number of machine instructions. -/
def size : Site → Nat
  | .initializer (.number _) => 3
  | .initializer value => value.size + 2
  | .printed value => value.size + 1
  | .condition (.binary _ left right) => left.size + right.size + 1
  | .condition _ => 0

end Site

/-! ## Statements -/

mutual

/-- The sites of a statement, in their order. -/
def Stmt.sites : Stmt → List Site
  | .declare _ _ value => [.initializer value]
  | .print value => [.printed value]
  | .ifThen condition body | .loop condition body => .condition condition :: Block.sites body
  | .ifElse condition body other =>
    .condition condition :: (Block.sites body ++ Block.sites other)
  | .block body => Block.sites body

@[inherit_doc Stmt.sites]
def Block.sites : Block → List Site
  | [] => []
  | first :: others => first.sites ++ Block.sites others

end

mutual

/-- The names that a statement declares, each as often as it is declared. -/
def Stmt.declared : Stmt → List String
  | .declare name _ _ => [name]
  | .print _ => []
  | .ifThen _ body | .loop _ body | .block body => Block.declared body
  | .ifElse _ body other => Block.declared body ++ Block.declared other

@[inherit_doc Stmt.declared]
def Block.declared : Block → List String
  | [] => []
  | first :: others => first.declared ++ Block.declared others

end

mutual

/-- The number of machine instructions of a statement. A condition and a loop have a jump behind
their body. -/
def Stmt.size : Stmt → Nat
  | .declare _ _ value => (Site.initializer value).size
  | .print value => (Site.printed value).size
  | .ifThen condition body | .loop condition body =>
    (Site.condition condition).size + Block.size body + 1
  | .ifElse condition body other =>
    (Site.condition condition).size + Block.size body + 1 + Block.size other
  | .block body => Block.size body

@[inherit_doc Stmt.size]
def Block.size : Block → Nat
  | [] => 0
  | first :: others => first.size + Block.size others

end

mutual

/-- The indices of the machine instructions behind the labels of a statement whose code begins at
`start`. A condition has a label for its other branch and one for its end, a loop has one in front
of it and one behind it. -/
def Stmt.labelPlaces (start : Nat) : Stmt → List Nat
  | .declare _ _ _ | .print _ => []
  | .ifThen condition body =>
    let inside := start + (Site.condition condition).size
    let stop := inside + Block.size body + 1
    Block.labelPlaces inside body ++ [stop, stop]
  | .ifElse condition body other =>
    let inside := start + (Site.condition condition).size
    let middle := inside + Block.size body + 1
    Block.labelPlaces inside body ++ middle ::
      (Block.labelPlaces middle other ++ [middle + Block.size other])
  | .loop condition body =>
    let inside := start + (Site.condition condition).size
    start :: (Block.labelPlaces inside body ++ [inside + Block.size body + 1])
  | .block body => Block.labelPlaces start body

@[inherit_doc Stmt.labelPlaces]
def Block.labelPlaces (start : Nat) : Block → List Nat
  | [] => []
  | first :: others =>
    first.labelPlaces start ++ Block.labelPlaces (start + first.size) others

end

/-! ## Literals of parsed programs -/

/-- The number that a token spells, if it is one. -/
def Lexeme.literal? (l : Lexeme) : Option Int :=
  match l.token with
  | .number value => some value
  | _ => none

theorem Lexeme.literal?_eq_some {l : Lexeme} {value : Int} :
    l.literal? = some value ↔ l.token = .number value := by
  rw [literal?]
  cases l.token <;> simp

namespace Grammar

theorem ExprTree.literals_ast (e : ExprTree) :
    e.ast.literals = e.yield.filterMap Lexeme.literal? := by
  induction e with
  | number value span => rfl
  | name id span => rfl
  | group start inner stop ih => simpa [ast, yield, Lexeme.literal?, List.filterMap_cons] using ih
  | not span operand ih =>
      simpa [ast, yield, Expr.literals, Lexeme.literal?, List.filterMap_cons] using ih
  | binary left op span right ihl ihr =>
      rw [ast, Expr.literals, ihl, ihr]
      simp [yield, Lexeme.literal?, List.filterMap_cons]

mutual

theorem StmtTree.literals_ast (stmt : StmtTree) :
    (stmt.ast.sites.flatMap fun site => site.value.literals) =
      stmt.yield.filterMap Lexeme.literal? := by
  match stmt with
  | .declare _ _ _ _ value _ | .print _ value _ =>
      simp [StmtTree.ast, Stmt.sites, Site.value, StmtTree.yield, Lexeme.literal?,
        List.filterMap_cons, value.val.literals_ast]
  | .ifThen _ condition _ body | .loop _ condition _ body =>
      rw [StmtTree.ast, Stmt.sites, List.flatMap_cons, body.literals_ast, Site.value,
        condition.val.literals_ast]
      simp [StmtTree.yield, Lexeme.literal?, List.filterMap_cons]
  | .ifElse _ condition _ body _ colon? other =>
      rw [StmtTree.ast, Stmt.sites, List.flatMap_cons, List.flatMap_append, body.literals_ast,
        other.literals_ast, Site.value, condition.val.literals_ast]
      cases colon? <;> simp [StmtTree.yield, Lexeme.literal?, List.filterMap_cons]
  | .block body => exact body.literals_ast

theorem BlockTree.literals_ast (block : BlockTree) :
    ((Block.sites block.ast).flatMap fun site => site.value.literals) =
      block.yield.filterMap Lexeme.literal? := by
  match block with
  | .braces _ body _ =>
      rw [BlockTree.ast, ProgramTree.literals_ast body]
      simp [BlockTree.yield, Lexeme.literal?, List.filterMap_cons]

/-- **The literals of a program** are the numbers of its sentence, in their order. -/
theorem ProgramTree.literals_ast (program : ProgramTree) :
    ((Block.sites (ProgramTree.ast program)).flatMap fun site => site.value.literals) =
      (ProgramTree.yield program).filterMap Lexeme.literal? := by
  match program with
  | [] => rfl
  | first :: others =>
      rw [ProgramTree.ast, Block.sites, List.flatMap_append, first.literals_ast,
        ProgramTree.literals_ast others, ProgramTree.yield, List.filterMap_append]

end

end Grammar

/-- A literal of a parsed program is a number among its tokens. -/
theorem Parse.exists_number {depth : Nat} {tokens : List Lexeme} {p : Program}
    (h : Parse.program depth tokens = .ok p) :
    ∀ site ∈ Block.sites p, ∀ value ∈ site.value.literals,
      ∃ l ∈ tokens, l.token = .number value := by
  intro site hsite value hvalue
  obtain ⟨tree, rfl, rfl, -⟩ := Parse.program_sound h
  have hmem : value ∈ (Block.sites tree.ast).flatMap fun site => site.value.literals :=
    List.mem_flatMap.mpr ⟨site, hsite, hvalue⟩
  rw [Grammar.ProgramTree.literals_ast, List.mem_filterMap] at hmem
  obtain ⟨l, hl, hliteral⟩ := hmem
  exact ⟨l, hl, Lexeme.literal?_eq_some.mp hliteral⟩

end SixReg
