import SixReg.Error

/-!
# From trees to three-address code

A `Builder` walks a program and appends instructions; its counters give out temporaries and labels
that were never given out before. The value of an expression ends up in a fresh temporary, except
that a literal on the right of an operator, under a complement or in a declaration stays a
constant. Building can fail on a name or a condition; the instructions that were appended before
then stay, so a computation here is a function on builders that yields a builder in either case.
-/

namespace SixReg

open Tac

/-- Three-address code under construction. -/
structure Builder where
  symbols : SymbolTable
  /-- The text that errors refer to. -/
  source : Source
  instrs : Array Instr
  /-- The variables reached so far, in the order of first use. -/
  slots : Array Symbol
  /-- The number of temporaries given out. -/
  temps : Nat
  /-- The number of labels given out. -/
  labels : Nat
  /-- Whether a program was started. -/
  used : Bool
deriving Repr, Inhabited

/-- A computation that builds code. -/
abbrev Build := EStateM CompileError Builder

namespace Builder

/-- A builder for programs with the given variables. -/
def start (symbols : SymbolTable) (source : Source) : Builder :=
  ⟨symbols, source, #[], #[], 0, 0, false⟩

/-- The code built so far. -/
def code (b : Builder) : Code := ⟨b.instrs.toList, b.slots.toList⟩

/-- Notes that a variable is reached. -/
def reach (b : Builder) (symbol : Symbol) : Builder :=
  if b.slots.any (·.slot == symbol.slot) then b else { b with slots := b.slots.push symbol }

/-- Gives out a temporary. -/
def freshTemp : Build Temp :=
  modifyGet fun b => (⟨b.temps⟩, { b with temps := b.temps + 1 })

/-- Gives out a label. -/
def freshLabel : Build Label :=
  modifyGet fun b => (⟨b.labels⟩, { b with labels := b.labels + 1 })

/-- Appends an instruction. -/
def append (instr : Instr) : Build Unit :=
  modify fun b => { b with instrs := b.instrs.push instr }

/-- Takes the code away and leaves none. The counters go on. -/
def takeCode : Build Code :=
  modifyGet fun b => (b.code, { b with instrs := #[], slots := #[] })

@[simp]
theorem freshTemp_apply (b : Builder) :
    freshTemp b = .ok ⟨b.temps⟩ { b with temps := b.temps + 1 } := rfl

@[simp]
theorem freshLabel_apply (b : Builder) :
    freshLabel b = .ok ⟨b.labels⟩ { b with labels := b.labels + 1 } := rfl

@[simp]
theorem append_apply (instr : Instr) (b : Builder) :
    append instr b = .ok () { b with instrs := b.instrs.push instr } := rfl

@[simp]
theorem takeCode_apply (b : Builder) :
    takeCode b = .ok b.code { b with instrs := #[], slots := #[] } := rfl

/-- The variable of a name that is written at `span`. -/
def reference (name : String) (span : Span) : Build Symbol := do
  let b ← get
  match Scope.use b.source b.symbols name span with
  | .error e => throw (.scope e)
  | .ok symbol =>
    set (b.reach symbol)
    return symbol

/-- Code that puts the value of an expression into a fresh temporary. -/
def expr : Expr → Build Temp
  | .number value => do
    let dst ← freshTemp
    append (.const dst value)
    return dst
  | .var name span => do
    let src ← reference name span
    let dst ← freshTemp
    append (.load dst src)
    return dst
  | .binary op left right => do
    let left ← expr left
    let right ← match right with
      | .number value => pure (.const value)
      | _ => .temp <$> expr right
    let dst ← freshTemp
    append (.binary dst left op right)
    return dst
  | .not operand => do
    let src ← match operand with
      | .number value => pure (.const value)
      | _ => .temp <$> expr operand
    let dst ← freshTemp
    append (.not dst src)
    return dst

/-- Code for an expression that stands as an operand: a literal needs none. -/
def operand (e : Expr) : Build Operand :=
  match e with
  | .number value => pure (.const value)
  | _ => .temp <$> expr e

theorem expr_binary (op : BinOp) (left right : Expr) :
    expr (.binary op left right) = (do
      let l ← expr left
      let r ← operand right
      let dst ← freshTemp
      append (.binary dst l op r)
      return dst) := by
  cases right <;> simp only [expr, operand]

theorem expr_not (e : Expr) :
    expr (.not e) = (do
      let src ← operand e
      let dst ← freshTemp
      append (.not dst src)
      return dst) := by
  cases e <;> simp only [expr, operand]

/-- Code that goes to the target unless the condition holds. -/
def leaveUnless (condition : Expr) (target : Label) : Build Unit :=
  match condition with
  | .binary (.compare rel) left right => do
    let left ← expr left
    let right ← expr right
    append (.branch left right rel.inverse target)
  | _ => throw (.unsupported (.condition condition))

mutual

/-- Code for a statement. -/
def stmt : Stmt → Build Unit
  | .declare name span value => do
    let src ← operand value
    let dst ← reference name span
    append (.store dst src)
  | .print value => do
    let value ← expr value
    append (.print value)
  | .ifThen condition body => do
    let other ← freshLabel
    let stop ← freshLabel
    leaveUnless condition other
    block body
    append (.jump stop)
    append (.label other)
    append (.label stop)
  | .ifElse condition body otherwise => do
    let other ← freshLabel
    let stop ← freshLabel
    leaveUnless condition other
    block body
    append (.jump stop)
    append (.label other)
    block otherwise
    append (.label stop)
  | .loop condition body => do
    let first ← freshLabel
    let stop ← freshLabel
    append (.label first)
    leaveUnless condition stop
    block body
    append (.jump first)
    append (.label stop)
  | .block body => block body

/-- Code for statements one after the other. -/
def block : Block → Build Unit
  | [] => pure ()
  | first :: others => do
    stmt first
    block others

end

/-- Code for a whole program. A builder does this once. -/
def program (p : Program) : Build Code := do
  if (← get).used then throw .builderSpent
  modify fun b => { b with used := true }
  block p
  takeCode

end Builder

/-- The code of a program whose variables are `symbols`. -/
def Program.build (source : Source) (symbols : SymbolTable) (program : Program) :
    Except CompileError Code :=
  match Builder.program program (.start symbols source) with
  | .ok code _ => .ok code
  | .error e _ => .error e

end SixReg
