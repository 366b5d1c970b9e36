import SixReg.Proofs.Scope.Events
import SixReg.Proofs.Syntax.Demand
import SixReg.Proofs.Syntax.Renaming
import SixReg.Proofs.Token.Spelling

/-!
# Programs as text

A program is printed by writing down its tokens, with parentheses around the operands that bind too
loosely for their place and nowhere else, and then spelling them (`Program.text`). The parser reads
it back (`Program.parse_text`):

* The printed tokens can be spelled (`Block.tokens_spellable`), so the text has these tokens again.
* They have a derivation whose syntax tree is the program (`Block.exists_tree`), and so has whatever
  was read, which differs in spans only.
* The identifiers in a derivation are the names in its syntax tree (`ProgramTree.ident_mem_yield`),
  and their spans are those of the text.

Fewer parentheses would not do: no derivation of the program has fewer (`ProgramTree.parens_le`).
-/

namespace SixReg

open Grammar

/-! ## The printer -/

namespace BinOp

/-- The level that a left operand has to have without parentheses. Operators of one level associate
to the left, but comparisons do not associate. -/
def leftLevel (op : BinOp) : Nat := if op.isComparison then op.level + 1 else op.level

theorem leftLevel_eq (op : BinOp) : op.leftLevel = max op.level 1 := by
  by_cases hop : op.isComparison = true
  · rw [leftLevel, if_pos hop, op.level_eq_zero_iff.mpr hop]
    rfl
  · have hpos : op.level ≠ 0 := mt op.level_eq_zero_iff.mp hop
    rw [leftLevel, if_neg hop]
    omega

end BinOp

namespace Expr

/-- The tokens of an expression where the grammar asks for the given level. A complement applies to
an atom, which has level 7. -/
def tokens (level : Nat) : Expr → List Token
  | .number value => [.number value]
  | .var name _ => [.ident name]
  | .not operand => .tilde :: operand.tokens 7
  | .binary op left right =>
    let inner := left.tokens op.leftLevel ++ .op op :: right.tokens (op.level + 1)
    if op.level < level then .openParen :: (inner ++ [.closeParen]) else inner

/-- How many parentheses and complements are open at once in these tokens. -/
def nesting (level : Nat) : Expr → Nat
  | .number _ | .var _ _ => 0
  | .not operand => operand.nesting 7 + 1
  | .binary op left right =>
    let inner := max (left.nesting op.leftLevel) (right.nesting (op.level + 1))
    if op.level < level then inner + 1 else inner

end Expr

/-- Tokens between braces. -/
def braced (tokens : List Token) : List Token := .openBrace :: (tokens ++ [.closeBrace])

mutual

/-- The tokens of a statement, with or without the colon that may follow `else`. -/
def Stmt.tokens (colon : Bool) : Stmt → List Token
  | .declare name _ value =>
    .kwVar :: .ident name :: .assign :: (value.tokens 0 ++ [.semicolon])
  | .print value => .kwPrint :: (value.tokens 0 ++ [.semicolon])
  | .ifThen condition body =>
    .kwIf :: (condition.tokens 0 ++ .colon :: braced (Block.tokens colon body))
  | .ifElse condition body other =>
    .kwIf :: (condition.tokens 0 ++ .colon :: (braced (Block.tokens colon body) ++
      .kwElse :: ((if colon then [.colon] else []) ++ braced (Block.tokens colon other))))
  | .loop condition body =>
    .kwWhile :: (condition.tokens 0 ++ .colon :: braced (Block.tokens colon body))
  | .block body => braced (Block.tokens colon body)

@[inherit_doc Stmt.tokens]
def Block.tokens (colon : Bool) : Block → List Token
  | [] => []
  | first :: others => first.tokens colon ++ Block.tokens colon others

end

mutual

/-- How many parentheses, blocks and complements are open at once in these tokens. -/
def Stmt.nesting : Stmt → Nat
  | .declare _ _ value | .print value => value.nesting 0
  | .ifThen condition body | .loop condition body =>
    max (condition.nesting 0) (Block.nesting body + 1)
  | .ifElse condition body other =>
    max (condition.nesting 0) (max (Block.nesting body + 1) (Block.nesting other + 1))
  | .block body => Block.nesting body + 1

@[inherit_doc Stmt.nesting]
def Block.nesting : Block → Nat
  | [] => 0
  | first :: others => max first.nesting (Block.nesting others)

end

/-- The text of a program, with a space between any two tokens. -/
def Program.text (colon : Bool) (p : Program) : Source := spell (Block.tokens colon p)

/-- Every name and every literal of the program can be written. -/
structure Program.Printable (p : Program) : Prop where
  names : ∀ event ∈ Block.events p, isName event.name = true
  literals : ∀ site ∈ Block.sites p, ∀ value ∈ site.value.literals, 0 ≤ value ∧ value ≤ maxLiteral

/-! ## Derivations of printed programs -/

theorem Expr.exists_tree (e : Expr) {level : Nat} (hlevel : level ≤ 7) :
    ∃ tree, Derives level tree ∧ tree.ast = e ∧ tree.yield.map Lexeme.token = e.tokens level ∧
      tree.nesting = e.nesting level := by
  induction e generalizing level with
  | number value => exact ⟨.number value default, Derives.number.loosen hlevel, rfl, rfl, rfl⟩
  | var name span => exact ⟨.name name span, Derives.name.loosen hlevel, rfl, rfl, rfl⟩
  | not operand ih =>
      obtain ⟨tree, hderives, hast, htokens, hnesting⟩ := ih (Nat.le_refl 7)
      refine ⟨.not default tree, (Derives.not hderives).loosen hlevel, congrArg Expr.not hast,
        congrArg (Token.tilde :: ·) htokens, congrArg (· + 1) hnesting⟩
  | binary op left right ihl ihr =>
      have hop := op.level_le
      have hleft := op.leftLevel_eq
      obtain ⟨l, hl, hastl, htokensl, hnestingl⟩ := ihl (show op.leftLevel ≤ 7 by omega)
      obtain ⟨r, hr, hastr, htokensr, hnestingr⟩ := ihr (show op.level + 1 ≤ 7 by omega)
      have hinner : Derives op.level (.binary l op default r) := .binary (hleft ▸ hl) hr
      by_cases hlt : op.level < level
      · refine ⟨.group default (.binary l op default r) default,
          (Derives.group (hinner.loosen (Nat.zero_le _))).loosen hlevel, ?_, ?_, ?_⟩
        · rw [ExprTree.ast, ExprTree.ast, hastl, hastr]
        · simp [ExprTree.yield, tokens, hlt, htokensl, htokensr]
        · simp [ExprTree.nesting, nesting, hlt, hnestingl, hnestingr]
      · refine ⟨.binary l op default r, hinner.loosen (Nat.le_of_not_lt hlt), ?_, ?_, ?_⟩
        · rw [ExprTree.ast, hastl, hastr]
        · simp [ExprTree.yield, tokens, hlt, htokensl, htokensr]
        · simp [ExprTree.nesting, nesting, hlt, hnestingl, hnestingr]

theorem Expr.exists_expression (e : Expr) :
    ∃ tree : Expression, tree.val.ast = e ∧ tree.val.yield.map Lexeme.token = e.tokens 0 ∧
      tree.val.nesting = e.nesting 0 := by
  obtain ⟨tree, hderives, hast⟩ := e.exists_tree (Nat.zero_le 7)
  exact ⟨⟨tree, hderives⟩, hast⟩

theorem Block.exists_braces {colon : Bool} {body : Block}
    (h : ∃ tree : ProgramTree, tree.ast = body ∧
      tree.yield.map Lexeme.token = Block.tokens colon body ∧ tree.nesting = Block.nesting body) :
    ∃ tree : BlockTree, tree.ast = body ∧
      tree.yield.map Lexeme.token = braced (Block.tokens colon body) ∧
      tree.nesting = Block.nesting body + 1 := by
  obtain ⟨tree, hast, htokens, hnesting⟩ := h
  refine ⟨.braces default tree default, hast, ?_, congrArg (· + 1) hnesting⟩
  simp [BlockTree.yield, braced, htokens]

mutual

theorem Stmt.exists_tree (colon : Bool) (s : Stmt) :
    ∃ tree : StmtTree, tree.ast = s ∧ tree.yield.map Lexeme.token = s.tokens colon ∧
      tree.nesting = s.nesting := by
  match s with
  | .declare name span value =>
      obtain ⟨v, hast, htokens, hnesting⟩ := value.exists_expression
      refine ⟨.declare default name span default v default, ?_, ?_, hnesting⟩
      · rw [StmtTree.ast, hast]
      · simp [StmtTree.yield, Stmt.tokens, htokens]
  | .print value =>
      obtain ⟨v, hast, htokens, hnesting⟩ := value.exists_expression
      refine ⟨.print default v default, ?_, ?_, hnesting⟩
      · rw [StmtTree.ast, hast]
      · simp [StmtTree.yield, Stmt.tokens, htokens]
  | .ifThen condition body =>
      obtain ⟨c, hast, htokens, hnesting⟩ := condition.exists_expression
      obtain ⟨b, hast', htokens', hnesting'⟩ :=
        Block.exists_braces (Block.exists_tree colon body)
      refine ⟨.ifThen default c default b, ?_, ?_, ?_⟩
      · rw [StmtTree.ast, hast, hast']
      · simp [StmtTree.yield, Stmt.tokens, htokens, htokens']
      · rw [StmtTree.nesting, hnesting, hnesting', Stmt.nesting]
  | .ifElse condition body other =>
      obtain ⟨c, hast, htokens, hnesting⟩ := condition.exists_expression
      obtain ⟨b, hast', htokens', hnesting'⟩ :=
        Block.exists_braces (Block.exists_tree colon body)
      obtain ⟨o, hast'', htokens'', hnesting''⟩ :=
        Block.exists_braces (Block.exists_tree colon other)
      refine ⟨.ifElse default c default b default (if colon then some default else none) o,
        ?_, ?_, ?_⟩
      · rw [StmtTree.ast, hast, hast', hast'']
      · cases colon <;> simp [StmtTree.yield, Stmt.tokens, htokens, htokens', htokens'']
      · rw [StmtTree.nesting, hnesting, hnesting', hnesting'', Stmt.nesting]
  | .loop condition body =>
      obtain ⟨c, hast, htokens, hnesting⟩ := condition.exists_expression
      obtain ⟨b, hast', htokens', hnesting'⟩ :=
        Block.exists_braces (Block.exists_tree colon body)
      refine ⟨.loop default c default b, ?_, ?_, ?_⟩
      · rw [StmtTree.ast, hast, hast']
      · simp [StmtTree.yield, Stmt.tokens, htokens, htokens']
      · rw [StmtTree.nesting, hnesting, hnesting', Stmt.nesting]
  | .block body =>
      obtain ⟨b, hast, htokens, hnesting⟩ := Block.exists_braces (Block.exists_tree colon body)
      exact ⟨.block b, congrArg Stmt.block hast, htokens, hnesting⟩

/-- **A printed program has a derivation**, which leads back to it. -/
theorem Block.exists_tree (colon : Bool) (p : Block) :
    ∃ tree : ProgramTree, tree.ast = p ∧ tree.yield.map Lexeme.token = Block.tokens colon p ∧
      tree.nesting = Block.nesting p := by
  match p with
  | [] => exact ⟨[], rfl, rfl, rfl⟩
  | first :: others =>
      obtain ⟨s, hast, htokens, hnesting⟩ := first.exists_tree colon
      obtain ⟨p, hast', htokens', hnesting'⟩ := Block.exists_tree colon others
      refine ⟨s :: p, ?_, ?_, ?_⟩
      · rw [ProgramTree.ast, hast, hast']
      · rw [ProgramTree.yield, List.map_append, htokens, htokens', Block.tokens]
      · rw [ProgramTree.nesting, hnesting, hnesting', Block.nesting]

end

/-! ## Names and numbers of a sentence -/

/-- The token that the name of an event is written as. -/
def Event.lexeme (event : Event) : Lexeme := ⟨.ident event.name, event.span⟩

namespace Grammar

variable {name : String} {span : Span}

theorem ExprTree.ident_mem_yield (e : ExprTree) :
    ⟨.ident name, span⟩ ∈ e.yield ↔ ⟨.ident name, span⟩ ∈ e.ast.events.map Event.lexeme := by
  induction e with
  | number => simp [yield, ast, Expr.events]
  | name => simp [yield, ast, Expr.events, Event.lexeme, Event.span]
  | group start inner stop ih => simpa [yield, ast] using ih
  | not span operand ih => simpa [yield, ast, Expr.events] using ih
  | binary left op span right ihl ihr =>
      rw [ast, Expr.events, List.map_append, List.mem_append, ← ihl, ← ihr]
      simp [yield]

mutual

theorem StmtTree.ident_mem_yield (s : StmtTree) :
    ⟨.ident name, span⟩ ∈ s.yield ↔ ⟨.ident name, span⟩ ∈ s.ast.events.map Event.lexeme := by
  match s with
  | .declare _ _ _ _ value _ =>
      simp [StmtTree.yield, StmtTree.ast, Stmt.events, value.val.ident_mem_yield, Event.lexeme,
        Event.span, or_comm]
  | .print _ value _ => simp [StmtTree.yield, StmtTree.ast, Stmt.events, value.val.ident_mem_yield]
  | .ifThen _ condition _ body | .loop _ condition _ body =>
      rw [StmtTree.ast, Stmt.events, List.map_append, List.mem_append,
        ← condition.val.ident_mem_yield, ← body.ident_mem_yield]
      simp [StmtTree.yield]
  | .ifElse _ condition _ body _ colon? other =>
      rw [StmtTree.ast, Stmt.events, List.map_append, List.map_append, List.mem_append,
        List.mem_append, ← condition.val.ident_mem_yield, ← body.ident_mem_yield,
        ← other.ident_mem_yield]
      cases colon? <;> simp [StmtTree.yield]
  | .block body => exact body.ident_mem_yield

theorem BlockTree.ident_mem_yield (b : BlockTree) :
    ⟨.ident name, span⟩ ∈ b.yield ↔
      ⟨.ident name, span⟩ ∈ (Block.events b.ast).map Event.lexeme := by
  match b with
  | .braces _ body _ =>
      rw [BlockTree.ast, ← ProgramTree.ident_mem_yield body]
      simp [BlockTree.yield]

/-- **The identifiers of a sentence** are the names in its syntax tree. -/
theorem ProgramTree.ident_mem_yield (p : ProgramTree) :
    ⟨.ident name, span⟩ ∈ p.yield ↔
      ⟨.ident name, span⟩ ∈ (Block.events p.ast).map Event.lexeme := by
  match p with
  | [] => exact Iff.rfl
  | first :: others =>
      rw [ProgramTree.ast, Block.events, List.map_append, List.mem_append, ← first.ident_mem_yield,
        ← ProgramTree.ident_mem_yield others, ProgramTree.yield, List.mem_append]

end

end Grammar

/-! ## Printed tokens can be spelled -/

theorem Expr.tokens_spellable (e : Expr) {level : Nat}
    (hnames : ∀ event ∈ e.events, isName event.name = true)
    (hliterals : ∀ value ∈ e.literals, 0 ≤ value ∧ value ≤ maxLiteral) :
    ∀ token ∈ e.tokens level, token.isSpellable = true := by
  induction e generalizing level with
  | number value =>
      simp only [literals, List.forall_mem_singleton] at hliterals
      rw [tokens, List.forall_mem_singleton]
      exact decide_eq_true hliterals
  | var name span => simpa [tokens, events, Token.isSpellable] using hnames
  | not operand ih =>
      rw [tokens, List.forall_mem_cons]
      exact ⟨rfl, ih hnames hliterals⟩
  | binary op left right ihl ihr =>
      rw [events, List.forall_mem_append] at hnames
      rw [literals, List.forall_mem_append] at hliterals
      have hinner : ∀ token ∈ left.tokens op.leftLevel ++ .op op :: right.tokens (op.level + 1),
          token.isSpellable = true := by
        rw [List.forall_mem_append, List.forall_mem_cons]
        exact ⟨ihl hnames.1 hliterals.1, rfl, ihr hnames.2 hliterals.2⟩
      rw [tokens]
      split
      · rw [List.forall_mem_cons, List.forall_mem_append, List.forall_mem_singleton]
        exact ⟨rfl, hinner, rfl⟩
      · exact hinner

theorem braced_spellable {tokens : List Token}
    (h : ∀ token ∈ tokens, token.isSpellable = true) :
    ∀ token ∈ braced tokens, token.isSpellable = true := by
  rw [braced, List.forall_mem_cons, List.forall_mem_append, List.forall_mem_singleton]
  exact ⟨rfl, h, rfl⟩

mutual

theorem Stmt.tokens_spellable (colon : Bool) (s : Stmt)
    (hnames : ∀ event ∈ s.events, isName event.name = true)
    (hliterals : ∀ site ∈ s.sites, ∀ value ∈ site.value.literals, 0 ≤ value ∧ value ≤ maxLiteral) :
    ∀ token ∈ s.tokens colon, token.isSpellable = true := by
  match s with
  | .declare name span value =>
      rw [Stmt.events, List.forall_mem_append, List.forall_mem_singleton] at hnames
      simp only [Stmt.sites, List.forall_mem_singleton] at hliterals
      simp only [Stmt.tokens, List.forall_mem_cons, List.forall_mem_append]
      exact ⟨rfl, hnames.2, rfl, value.tokens_spellable hnames.1 hliterals, rfl, nofun⟩
  | .print value =>
      simp only [Stmt.sites, List.forall_mem_singleton] at hliterals
      simp only [Stmt.tokens, List.forall_mem_cons, List.forall_mem_append]
      exact ⟨rfl, value.tokens_spellable hnames hliterals, rfl, nofun⟩
  | .ifThen condition body | .loop condition body =>
      rw [Stmt.events, List.forall_mem_append] at hnames
      rw [Stmt.sites, List.forall_mem_cons] at hliterals
      simp only [Stmt.tokens, List.forall_mem_cons, List.forall_mem_append]
      exact ⟨rfl, condition.tokens_spellable hnames.1 hliterals.1, rfl,
        braced_spellable (Block.tokens_spellable colon body hnames.2 hliterals.2)⟩
  | .ifElse condition body other =>
      simp only [Stmt.events, List.forall_mem_append] at hnames
      simp only [Stmt.sites, List.forall_mem_cons, List.forall_mem_append] at hliterals
      simp only [Stmt.tokens, List.forall_mem_cons, List.forall_mem_append]
      refine ⟨rfl, condition.tokens_spellable hnames.1 hliterals.1, rfl,
        braced_spellable (Block.tokens_spellable colon body hnames.2.1 hliterals.2.1), rfl, ?_,
        braced_spellable (Block.tokens_spellable colon other hnames.2.2 hliterals.2.2)⟩
      cases colon <;> simp [Token.isSpellable]
  | .block body => exact braced_spellable (Block.tokens_spellable colon body hnames hliterals)

/-- **The tokens of a printable program can be spelled.** -/
theorem Block.tokens_spellable (colon : Bool) (p : Block)
    (hnames : ∀ event ∈ Block.events p, isName event.name = true)
    (hliterals : ∀ site ∈ Block.sites p, ∀ value ∈ site.value.literals,
      0 ≤ value ∧ value ≤ maxLiteral) :
    ∀ token ∈ Block.tokens colon p, token.isSpellable = true := by
  match p with
  | [] => exact List.forall_mem_nil _
  | first :: others =>
      rw [Block.events, List.forall_mem_append] at hnames
      rw [Block.sites, List.forall_mem_append] at hliterals
      rw [Block.tokens, List.forall_mem_append]
      exact ⟨first.tokens_spellable colon hnames.1 hliterals.1,
        Block.tokens_spellable colon others hnames.2 hliterals.2⟩

end

/-! ## Parentheses -/

/-- The number of parentheses that are opened. -/
def parens (tokens : List Token) : Nat := tokens.count .openParen

@[simp, grind =]
theorem parens_nil : parens [] = 0 := rfl

@[simp, grind =]
theorem parens_cons (token : Token) (rest : List Token) :
    parens (token :: rest) = parens rest + if token = .openParen then 1 else 0 := by
  simp [parens, List.count_cons]

@[simp, grind =]
theorem parens_append (first second : List Token) :
    parens (first ++ second) = parens first + parens second :=
  List.count_append

@[simp, grind =]
theorem parens_braced (tokens : List Token) : parens (braced tokens) = parens tokens := by
  simp [braced]

namespace Expr

theorem parens_binary (level : Nat) (op : BinOp) (left right : Expr) :
    parens ((binary op left right).tokens level) =
      parens (left.tokens op.leftLevel) + parens (right.tokens (op.level + 1)) +
        if op.level < level then 1 else 0 := by
  rw [tokens]
  split <;> simp

/-- A tighter level asks for one more pair of parentheses, if for any. -/
theorem parens_mono (e : Expr) {j k : Nat} (h : j ≤ k) :
    parens (e.tokens j) ≤ parens (e.tokens k) ∧ parens (e.tokens k) ≤ parens (e.tokens j) + 1 := by
  cases e with
  | number | var | not => exact ⟨Nat.le_refl _, Nat.le_succ _⟩
  | binary op left right =>
      rw [parens_binary, parens_binary]
      split <;> split <;> omega

end Expr

namespace Grammar

/-- **No parentheses are left over**: whatever derivation an expression has, they are all in it. -/
theorem Derives.parens_le {k : Nat} {e : ExprTree} (h : Derives k e) :
    parens (e.ast.tokens k) ≤ parens (e.yield.map Lexeme.token) := by
  induction h with
  | number | name => exact Nat.zero_le _
  | @group start inner stop _ ih =>
      have hmono := (inner.ast.parens_mono (Nat.zero_le 7)).2
      grind [ExprTree.ast, ExprTree.yield]
  | not _ ih => simpa [ExprTree.ast, ExprTree.yield, Expr.tokens] using ih
  | @operand k e _ ih => exact Nat.le_trans (e.ast.parens_mono (Nat.le_succ k)).1 ih
  | @compare left op span right hop _ _ ihl ihr =>
      rw [ExprTree.ast, Expr.parens_binary, op.leftLevel_eq, mem_operators.mp hop]
      grind [ExprTree.yield]
  | @chain k left op span right hk hop _ _ ihl ihr =>
      rw [ExprTree.ast, Expr.parens_binary, op.leftLevel_eq, mem_operators.mp hop,
        Nat.max_eq_left hk]
      grind [ExprTree.yield]

mutual

theorem StmtTree.parens_le (colon : Bool) (s : StmtTree) :
    parens (s.ast.tokens colon) ≤ parens (s.yield.map Lexeme.token) := by
  match s with
  | .declare _ _ _ _ value _ | .print _ value _ =>
      simpa [StmtTree.ast, StmtTree.yield, Stmt.tokens] using value.property.parens_le
  | .ifThen _ condition _ body | .loop _ condition _ body =>
      have hc := condition.property.parens_le
      have hb := body.parens_le colon
      grind [StmtTree.ast, StmtTree.yield, Stmt.tokens]
  | .ifElse _ condition _ body _ colon? other =>
      have hc := condition.property.parens_le
      have hb := body.parens_le colon
      have ho := other.parens_le colon
      have hcolon : parens ((colon?.toList.map (Lexeme.mk .colon)).map Lexeme.token) = 0 := by
        cases colon? <;> rfl
      grind [StmtTree.ast, StmtTree.yield, Stmt.tokens]
  | .block body => simpa [StmtTree.ast, StmtTree.yield, Stmt.tokens] using body.parens_le colon

theorem BlockTree.parens_le (colon : Bool) (b : BlockTree) :
    parens (Block.tokens colon b.ast) ≤ parens (b.yield.map Lexeme.token) := by
  match b with
  | .braces _ body _ =>
      simpa [BlockTree.ast, BlockTree.yield] using ProgramTree.parens_le colon body

theorem ProgramTree.parens_le (colon : Bool) (p : ProgramTree) :
    parens (Block.tokens colon p.ast) ≤ parens (p.yield.map Lexeme.token) := by
  match p with
  | [] => exact Nat.le_refl _
  | first :: others =>
      rw [ProgramTree.ast, ProgramTree.yield, Block.tokens, List.map_append, parens_append,
        parens_append]
      exact Nat.add_le_add (first.parens_le colon) (ProgramTree.parens_le colon others)

end

end Grammar

/-! ## The parser on printed programs -/

theorem Program.parse_eq_ok {source : Source} {p : Program} :
    Program.parse source = .ok p ↔
      ∃ tokens, tokenize source = .ok tokens ∧ Parse.program 0 tokens = .ok p := by
  unfold Program.parse
  cases htokens : tokenize source with
  | error e => simp
  | ok tokens =>
      simp only [Except.mapError_eq_ok, Cursor.program_eq_ok, Except.ok.injEq, exists_eq_left']
      exact Iff.rfl

/-- **The spans of names cover the names**, in every text that can be parsed. -/
theorem Program.slice?_of_parse {source : Source} {p : Program} (h : Program.parse source = .ok p) :
    ∀ event ∈ Block.events p, source.slice? event.span = some event.name.toList := by
  intro event hevent
  obtain ⟨tokens, htokens, hprogram⟩ := Program.parse_eq_ok.mp h
  obtain ⟨tree, rfl, rfl, -⟩ := Parse.program_sound hprogram
  exact slice?_of_tokenize htokens (tree.ident_mem_yield.mpr (List.mem_map_of_mem hevent))

theorem Token.Renamed.refl (token : Token) : Token.Renamed Eq token token := by
  cases token with
  | ident name => exact .ident rfl
  | _ =>
      apply Token.Renamed.same
      intro name h
      cases h

theorem Lexeme.renamed_of_map_eq {tokens tokens' : List Lexeme}
    (h : tokens.map Lexeme.token = tokens'.map Lexeme.token) :
    List.Forall₂ (Lexeme.Renamed Eq) tokens tokens' := by
  induction tokens generalizing tokens' with
  | nil =>
      obtain rfl : tokens' = [] := by simpa using h.symm
      exact .nil
  | cons l tokens ih =>
      cases tokens' with
      | nil => cases h
      | cons l' tokens' =>
          obtain ⟨hl, htokens⟩ := List.cons.inj h
          refine .cons ?_ (ih htokens)
          rw [Lexeme.Renamed, ← hl]
          exact .refl _

theorem Expr.Renamed.tokens_eq {e e' : Expr} {level : Nat} (h : Expr.Renamed Eq e e') :
    e.tokens level = e'.tokens level := by
  induction h generalizing level with
  | number => rfl
  | var hname => rw [Expr.tokens, Expr.tokens, hname]
  | binary _ _ ihl ihr => rw [Expr.tokens, Expr.tokens, ihl, ihr]
  | not _ ih => rw [Expr.tokens, Expr.tokens, ih]

theorem Block.Renamed.tokens_eq {colon : Bool} {p p' : Block} (h : Block.Renamed Eq p p') :
    Block.tokens colon p = Block.tokens colon p' := by
  induction h with
  | nil => rfl
  | declare hname hv _ ih => simp only [Block.tokens, Stmt.tokens, hname, hv.tokens_eq, ih]
  | print hv _ ih => simp only [Block.tokens, Stmt.tokens, hv.tokens_eq, ih]
  | ifThen hc _ _ ihb ih | loop hc _ _ ihb ih =>
      simp only [Block.tokens, Stmt.tokens, hc.tokens_eq, ihb, ih]
  | ifElse hc _ _ _ ihb ihe ih => simp only [Block.tokens, Stmt.tokens, hc.tokens_eq, ihb, ihe, ih]
  | block _ _ ihb ih => simp only [Block.tokens, Stmt.tokens, ihb, ih]

/-- **Printed programs are read back.** Take a program whose names can be identifiers, whose
literals are from 0 to 2^63 - 1, and in whose text at most 256 parentheses, blocks and complements
are open at once. The parser accepts the text, and the result is the program up to spans; the spans
in the result cover the names in the text. And the parentheses are all needed: no text that is
parsed into this program has fewer of them. -/
theorem Program.parse_text (colon : Bool) (p : Program) (hp : p.Printable)
    (hnesting : Block.nesting p ≤ 256) :
    (∃ q, Program.parse (p.text colon) = .ok q ∧ Block.Renamed Eq p q ∧
      ∀ event ∈ Block.events q, (p.text colon).slice? event.span = some event.name.toList) ∧
    ∀ source tokens q, tokenize source = .ok tokens → Program.parse source = .ok q →
      Block.Renamed Eq p q →
        parens (Block.tokens colon p) ≤ parens (tokens.map Lexeme.token) := by
  constructor
  · obtain ⟨tree, hast, htokens, hsame⟩ := Block.exists_tree colon p
    obtain ⟨lexemes, htokenize, hmap⟩ :=
      tokenize_spell (Block.tokens_spellable colon p hp.names hp.literals)
    -- the derivation is put over what was read
    obtain ⟨read, rfl, hread, hrenamed⟩ :=
      tree.renamed (Lexeme.renamed_of_map_eq (htokens.trans hmap.symm))
    have hparse : Program.parse (p.text colon) = .ok read.ast := by
      refine Program.parse_eq_ok.mpr ⟨_, htokenize, Parse.program_complete read ?_⟩
      rw [hread, hsame]
      exact hnesting
    exact ⟨read.ast, hparse, hast ▸ hrenamed, Program.slice?_of_parse hparse⟩
  · intro source tokens q htokens hparse hrenamed
    obtain ⟨tokens', htokens', hprogram⟩ := Program.parse_eq_ok.mp hparse
    obtain rfl : tokens = tokens' := Except.ok.inj (htokens.symm.trans htokens')
    obtain ⟨tree, rfl, rfl, -⟩ := Parse.program_sound hprogram
    rw [hrenamed.tokens_eq]
    exact tree.parens_le colon

/-- Operators of one level to the right of each other, comparisons inside others, a complement of
more than an atom, and names that begin like operators. -/
theorem Program.parse_text_nested :
    let a : Expr := .var "a" default
    let b : Expr := .var "b" default
    let rorx : Expr := .var "rorx" default
    let p : Program :=
      [.declare "rolx" default
          (.binary (.arith .sub) a (.binary (.arith .sub) b (.not (.binary (.arith .rol) a rorx)))),
        .ifElse (.binary (.compare .eq) (.binary (.compare .lt) a b) (.number 9223372036854775807))
          [.print (.binary (.arith .add) a (.binary (.compare .lt) a b))]
          [.loop (.not (.not a)) []]]
    String.ofList (p.text true) =
      "var rolx = a - ( b - ~ ( a rol rorx ) ) ; " ++
      "if ( a < b ) == 9223372036854775807 : \x7b print a + ( a < b ) ; \x7d " ++
      "else : \x7b while ~ ~ a : \x7b \x7d \x7d" ∧
    ∃ q, Program.parse (p.text true) = .ok q ∧ Block.Renamed Eq p q ∧
      ∀ event ∈ Block.events q, (p.text true).slice? event.span = some event.name.toList := by
  intro a b rorx p
  have hp : p.Printable := ⟨by decide +kernel, by decide +kernel⟩
  exact ⟨by decide +kernel, (Program.parse_text true p hp (by decide +kernel)).1⟩

end SixReg
