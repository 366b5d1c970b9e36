import SixReg.Syntax.Parse

/-!
# The grammar

    program = stmt*
    stmt    = "var" IDENT "=" cmp ";" | "print" cmp ";" | "while" cmp ":" block | block
            | "if" cmp ":" block ("else" ":"? block)?
    block   = "{" stmt* "}"
    cmp     = bitor (("==" | "!=" | "<" | ">" | "<=" | ">=") bitor)?
    bitor   = bitxor ("|" bitxor)*
    bitxor  = bitand ("^" bitand)*
    bitand  = shift ("&" shift)*
    shift   = sum (("<<" | ">>" | "rol" | "ror") sum)*
    sum     = product (("+" | "-") product)*
    product = atom (("*" | "/" | "%") atom)*
    atom    = NUMBER | IDENT | "(" cmp ")" | "~" atom

A derivation is a tree with a node for every rule that adds a token, and all tokens stand in it with
their spans. It has a `yield`, the sentence that is derived, a syntax tree `ast`, and a `nesting`,
the number of parentheses, blocks and complements that are open at once in it. The rules for
expressions are numbered from 0, `cmp`, to 7, `atom`.

The grammar is unambiguous (`yield_injective`). For statements the first token decides. Two
derivations of expressions over the same tokens begin at the same atom and take up operators one by
one, so one of them stands at the left edge of the other (`Leads`) until an operator follows that
neither can take.
-/

namespace SixReg.Grammar

/-! ## Derivations -/

/-- A derivation of an expression, up to the rules that add no token. -/
inductive ExprTree where
  | number (value : Int) (span : Span)
  | name (id : String) (span : Span)
  | group (start : Span) (inner : ExprTree) (stop : Span)
  | not (span : Span) (operand : ExprTree)
  | binary (left : ExprTree) (op : BinOp) (span : Span) (right : ExprTree)
deriving DecidableEq

namespace ExprTree

/-- The derived tokens. -/
def yield : ExprTree → List Lexeme
  | .number value span => [⟨.number value, span⟩]
  | .name id span => [⟨.ident id, span⟩]
  | .group start inner stop => ⟨.openParen, start⟩ :: (inner.yield ++ [⟨.closeParen, stop⟩])
  | .not span operand => ⟨.tilde, span⟩ :: operand.yield
  | .binary left op span right => left.yield ++ ⟨.op op, span⟩ :: right.yield

/-- The syntax tree. Parentheses leave no node. -/
def ast : ExprTree → Expr
  | .number value _ => .number value
  | .name id span => .var id span
  | .group _ inner _ => inner.ast
  | .not _ operand => .not operand.ast
  | .binary left op _ right => .binary op left.ast right.ast

/-- How many parentheses and complements are open at once. -/
def nesting : ExprTree → Nat
  | .number _ _ | .name _ _ => 0
  | .group _ inner _ => inner.nesting + 1
  | .not _ operand => operand.nesting + 1
  | .binary left _ _ right => max left.nesting right.nesting

/-- The tightest rule that can derive the tree. -/
def level : ExprTree → Nat
  | .binary _ op _ _ => op.level
  | _ => 7

end ExprTree

/-- The operators that the rules for expressions join their operands with. -/
def operators : Nat → List BinOp
  | 0 => [.compare .eq, .compare .ne, .compare .lt, .compare .gt, .compare .le, .compare .ge]
  | 1 => [.arith .or]
  | 2 => [.arith .xor]
  | 3 => [.arith .and]
  | 4 => [.arith .shl, .arith .shr, .arith .rol, .arith .ror]
  | 5 => [.arith .add, .arith .sub]
  | 6 => [.arith .mul, .arith .div, .arith .rem]
  | _ => []

/-- The rule with number `k` derives the tree. -/
inductive Derives : Nat → ExprTree → Prop where
  | number {value : Int} {span : Span} : Derives 7 (.number value span)
  | name {id : String} {span : Span} : Derives 7 (.name id span)
  | group {start : Span} {inner : ExprTree} {stop : Span} (h : Derives 0 inner) :
      Derives 7 (.group start inner stop)
  | not {span : Span} {operand : ExprTree} (h : Derives 7 operand) : Derives 7 (.not span operand)
  /-- The operand of a rule stands alone. -/
  | operand {k : Nat} {e : ExprTree} (h : Derives (k + 1) e) : Derives k e
  /-- A comparison has two operands. -/
  | compare {left : ExprTree} {op : BinOp} {span : Span} {right : ExprTree}
      (hop : op ∈ operators 0) (hl : Derives 1 left) (hr : Derives 1 right) :
      Derives 0 (.binary left op span right)
  /-- The other rules take up operand after operand. -/
  | chain {k : Nat} {left : ExprTree} {op : BinOp} {span : Span} {right : ExprTree} (hk : 0 < k)
      (hop : op ∈ operators k) (hl : Derives k left) (hr : Derives (k + 1) right) :
      Derives k (.binary left op span right)

/-- A derivation of `cmp`. -/
abbrev Expression := { e : ExprTree // Derives 0 e }

mutual

/-- A derivation of a statement. -/
inductive StmtTree where
  | declare (keyword : Span) (id : String) (span equals : Span) (value : Expression)
      (semicolon : Span)
  | print (keyword : Span) (value : Expression) (semicolon : Span)
  | ifThen (keyword : Span) (condition : Expression) (colon : Span) (body : BlockTree)
  | ifElse (keyword : Span) (condition : Expression) (colon : Span) (body : BlockTree)
      (otherwise : Span) (colon? : Option Span) (other : BlockTree)
  | loop (keyword : Span) (condition : Expression) (colon : Span) (body : BlockTree)
  | block (body : BlockTree)

/-- A derivation of a block. -/
inductive BlockTree where
  | braces (start : Span) (body : List StmtTree) (stop : Span)

end

/-- A derivation of a program. -/
abbrev ProgramTree := List StmtTree

mutual

/-- The derived tokens. -/
def StmtTree.yield : StmtTree → List Lexeme
  | .declare keyword id span equals value semicolon =>
    ⟨.kwVar, keyword⟩ :: ⟨.ident id, span⟩ :: ⟨.assign, equals⟩ ::
      (value.val.yield ++ [⟨.semicolon, semicolon⟩])
  | .print keyword value semicolon =>
    ⟨.kwPrint, keyword⟩ :: (value.val.yield ++ [⟨.semicolon, semicolon⟩])
  | .ifThen keyword condition colon body =>
    ⟨.kwIf, keyword⟩ :: (condition.val.yield ++ ⟨.colon, colon⟩ :: body.yield)
  | .ifElse keyword condition colon body otherwise colon? other =>
    ⟨.kwIf, keyword⟩ :: (condition.val.yield ++ ⟨.colon, colon⟩ :: (body.yield ++
      ⟨.kwElse, otherwise⟩ :: (colon?.toList.map (Lexeme.mk .colon) ++ other.yield)))
  | .loop keyword condition colon body =>
    ⟨.kwWhile, keyword⟩ :: (condition.val.yield ++ ⟨.colon, colon⟩ :: body.yield)
  | .block body => body.yield

@[inherit_doc StmtTree.yield]
def BlockTree.yield : BlockTree → List Lexeme
  | .braces start body stop =>
    ⟨.openBrace, start⟩ :: (ProgramTree.yield body ++ [⟨.closeBrace, stop⟩])

@[inherit_doc StmtTree.yield]
def ProgramTree.yield : ProgramTree → List Lexeme
  | [] => []
  | first :: others => first.yield ++ ProgramTree.yield others

end

mutual

/-- The syntax tree. A declared name keeps the span of its token. -/
def StmtTree.ast : StmtTree → Stmt
  | .declare _ id span _ value _ => .declare id span value.val.ast
  | .print _ value _ => .print value.val.ast
  | .ifThen _ condition _ body => .ifThen condition.val.ast body.ast
  | .ifElse _ condition _ body _ _ other => .ifElse condition.val.ast body.ast other.ast
  | .loop _ condition _ body => .loop condition.val.ast body.ast
  | .block body => .block body.ast

@[inherit_doc StmtTree.ast]
def BlockTree.ast : BlockTree → Block
  | .braces _ body _ => ProgramTree.ast body

@[inherit_doc StmtTree.ast]
def ProgramTree.ast : ProgramTree → Program
  | [] => []
  | first :: others => first.ast :: ProgramTree.ast others

end

mutual

/-- How many parentheses, blocks and complements are open at once. -/
def StmtTree.nesting : StmtTree → Nat
  | .declare _ _ _ _ value _ | .print _ value _ => value.val.nesting
  | .ifThen _ condition _ body | .loop _ condition _ body =>
    max condition.val.nesting body.nesting
  | .ifElse _ condition _ body _ _ other =>
    max condition.val.nesting (max body.nesting other.nesting)
  | .block body => body.nesting

@[inherit_doc StmtTree.nesting]
def BlockTree.nesting : BlockTree → Nat
  | .braces _ body _ => ProgramTree.nesting body + 1

@[inherit_doc StmtTree.nesting]
def ProgramTree.nesting : ProgramTree → Nat
  | [] => 0
  | first :: others => max first.nesting (ProgramTree.nesting others)

end

/-! ## Levels -/

variable {e f left right : ExprTree} {op : BinOp} {span : Span} {j k : Nat}

theorem mem_operators : op ∈ operators k ↔ op.level = k := by
  constructor
  · intro h
    unfold operators at h
    split at h <;> simp only [List.mem_cons, List.not_mem_nil, or_false] at h <;>
      rcases h with h | h <;> grind [BinOp.level]
  · rintro rfl
    rcases op with op | rel
    · cases op <;> decide
    · cases rel <;> decide

namespace Derives

theorem le_level (h : Derives k e) : k ≤ e.level := by
  induction h with
  | number | name | group | not => exact Nat.le_refl _
  | operand _ ih => omega
  | compare => exact Nat.zero_le _
  | chain _ hop => exact Nat.le_of_eq (mem_operators.mp hop).symm

/-- A tree that a tight rule derives is derived by the looser ones. -/
theorem loosen (h : Derives j e) (hkj : k ≤ j) : Derives k e := by
  induction hkj with
  | refl => exact h
  | step _ ih => exact ih h.operand

/-- Both operands of a tree with an operator bind tighter than it, the left one of a chain at least
as tight. -/
theorem operands (h : Derives k (.binary left op span right)) :
    Derives (max op.level 1) left ∧ Derives (op.level + 1) right := by
  generalize he : ExprTree.binary left op span right = e at h
  induction h with
  | number | name | group | not => cases he
  | operand _ ih => exact ih he
  | compare hop hl hr =>
      cases he
      rw [mem_operators.mp hop]
      exact ⟨hl, hr⟩
  | chain hk hop hl hr =>
      cases he
      rw [mem_operators.mp hop, Nat.max_eq_left hk]
      exact ⟨hl, hr⟩

/-- An operator joins operands that bind tight enough. -/
theorem binary (hl : Derives (max op.level 1) left) (hr : Derives (op.level + 1) right) :
    Derives op.level (.binary left op span right) := by
  rcases Nat.eq_zero_or_pos op.level with hzero | hpos
  · rw [hzero] at hl hr ⊢
    exact .compare (mem_operators.mpr hzero) hl hr
  · rw [Nat.max_eq_left hpos] at hl
    exact .chain hpos (mem_operators.mpr rfl) hl hr

theorem group_inner {start stop : Span} (h : Derives k (.group start e stop)) : Derives 0 e := by
  generalize he : ExprTree.group start e stop = f at h
  induction h with
  | number | name | not | compare | chain => cases he
  | operand _ ih => exact ih he
  | group h =>
      cases he
      exact h

theorem not_operand (h : Derives k (.not span e)) : Derives 7 e := by
  generalize he : ExprTree.not span e = f at h
  induction h with
  | number | name | group | compare | chain => cases he
  | operand _ ih => exact ih he
  | not h =>
      cases he
      exact h

end Derives

/-- If an operator comes next, it binds looser than level `k`. -/
def Below (k : Nat) (rest : List Lexeme) : Prop :=
  ∀ op span tail, rest = ⟨.op op, span⟩ :: tail → op.level < k

theorem Below.mono {rest : List Lexeme} (h : Below j rest) (hjk : j ≤ k) : Below k rest := by
  intro op span tail hrest
  have hlevel := h op span tail hrest
  omega

theorem below_cons {token : Token} {rest : List Lexeme} (h : ∀ op, token ≠ .op op) :
    Below k (⟨token, span⟩ :: rest) := by
  intro op span tail hrest
  simp only [List.cons.injEq, Lexeme.mk.injEq] at hrest
  exact absurd hrest.1.1 (h op)

@[simp]
theorem below_op {rest : List Lexeme} : Below k (⟨.op op, span⟩ :: rest) ↔ op.level < k := by
  constructor
  · intro h
    exact h op span rest rfl
  · intro h op' span' tail hrest
    cases hrest
    exact h

/-- Every operator binds looser than an atom. -/
theorem below_seven (rest : List Lexeme) : Below 7 rest :=
  fun op _ _ _ => Nat.lt_succ_of_le op.level_le

/-- An operator is part of a tree of level `k` in front of it, unless it binds looser than this. A
comparison takes up no operator at all. -/
def follow : Nat → Nat
  | 0 => 0
  | k + 1 => k + 2

theorem follow_of_pos (h : 0 < k) : follow k = k + 1 := by
  cases k with
  | zero => cases h
  | succ k => rfl

theorem follow_le (k : Nat) : follow k ≤ k + 1 := by
  cases k with
  | zero => exact Nat.zero_le _
  | succ k => exact Nat.le_refl _

theorem follow_mono (h : j ≤ k) : follow j ≤ follow k := by
  cases j with
  | zero => exact Nat.zero_le _
  | succ j =>
      rw [follow_of_pos (Nat.lt_of_lt_of_le j.succ_pos h), follow_of_pos j.succ_pos]
      omega

/-! ## Unambiguous expressions -/

/-- The tree `e` stands at the left edge of another one. -/
inductive Leads (e : ExprTree) : ExprTree → Prop where
  | refl : Leads e e
  | binary {left : ExprTree} {op : BinOp} {span : Span} {right : ExprTree} (h : Leads e left) :
      Leads e (.binary left op span right)

namespace Leads

theorem derives (h : Leads e f) (hf : Derives k f) : Derives k e := by
  induction h with
  | refl => exact hf
  | binary _ ih =>
      have hk := hf.le_level
      exact ih (hf.operands.1.loosen (Nat.le_trans hk (Nat.le_max_left _ _)))

theorem exists_yield (h : Leads e f) : ∃ rest, f.yield = e.yield ++ rest := by
  induction h with
  | refl => exact ⟨[], by simp⟩
  | binary _ ih =>
      obtain ⟨rest, hrest⟩ := ih
      exact ⟨_, by rw [ExprTree.yield, hrest, List.append_assoc]⟩

theorem eq_or_exists_binary (h : Leads e f) :
    e = f ∨ ∃ op span right, Leads (.binary e op span right) f := by
  induction h with
  | refl => exact .inl rfl
  | binary _ ih =>
      right
      obtain rfl | ⟨op, span, right, h⟩ := ih
      · exact ⟨_, _, _, .refl⟩
      · exact ⟨op, span, right, h.binary⟩

variable {rest after after' : List Lexeme}

/-- What follows `e`, within `f` or behind it, is not part of `e`. -/
theorem below_follow (h : Leads e f) (hf : Derives k f) (hyield : f.yield = e.yield ++ rest)
    (hafter : Below (follow f.level) after) : Below (follow e.level) (rest ++ after) := by
  obtain rfl | ⟨op, span, right, hnext⟩ := h.eq_or_exists_binary
  · obtain rfl : rest = [] := by simpa using hyield
    exact hafter
  · obtain ⟨rest', hrest'⟩ := hnext.exists_yield
    have hlevel := (hnext.derives hf).operands.1.le_level
    rw [hrest', ExprTree.yield, List.append_assoc, List.append_cancel_left_eq] at hyield
    rw [← hyield, List.cons_append, List.cons_append, below_op, follow_of_pos (by omega)]
    omega

/-- A tree that no operator of the other tree follows is the whole of it. -/
theorem eq_of_below (h : Leads e f) (hf : Derives k f)
    (heq : e.yield ++ after = f.yield ++ after') (hafter : Below k after) : e = f := by
  obtain rfl | ⟨op, span, right, hnext⟩ := h.eq_or_exists_binary
  · rfl
  · obtain ⟨rest, hrest⟩ := hnext.exists_yield
    have hlevel : k ≤ op.level := (hnext.derives hf).le_level
    rw [hrest, ExprTree.yield, List.append_assoc, List.append_assoc,
      List.append_cancel_left_eq] at heq
    have hlt := hafter op span _ heq
    omega

/-- Of two trees that run along the same left edge, none goes on where the other one ends. -/
theorem eq_of_or (h : Leads e f ∨ Leads f e) (he : Derives k e) (hf : Derives k f)
    (heq : e.yield ++ after = f.yield ++ after') (hafter : Below k after)
    (hafter' : Below k after') : e = f := by
  rcases h with h | h
  · exact h.eq_of_below hf heq hafter
  · exact (h.eq_of_below he heq.symm hafter').symm

/-- Every tree has an atom at its left edge. -/
theorem exists_atom (f : ExprTree) :
    ∃ atom, Leads atom f ∧ ∀ left op span right, atom ≠ .binary left op span right := by
  induction f with
  | number | name | group | not => exact ⟨_, .refl, nofun⟩
  | binary left op span right ih _ =>
      obtain ⟨atom, hleads, hatom⟩ := ih
      exact ⟨atom, hleads.binary, hatom⟩

/-- An atom leads `f` if it is the atom that `f` begins with. -/
theorem of_atom (heq : e.yield ++ after = f.yield ++ after')
    (h : ∀ {atom rest}, Leads atom f → (∀ left op span right, atom ≠ .binary left op span right) →
      e.yield ++ after = atom.yield ++ rest → e = atom) : Leads e f := by
  obtain ⟨atom, hleads, hatom⟩ := exists_atom f
  obtain ⟨rest, hrest⟩ := hleads.exists_yield
  rw [hrest, List.append_assoc] at heq
  rw [h hleads hatom heq]
  exact hleads

end Leads

/-- **Two derivations over the same tokens run along the same left edge**, up to where one of them
ends. -/
theorem leads_or_leads {after after' : List Lexeme} (he : Derives j e) (hf : Derives k f)
    (heq : e.yield ++ after = f.yield ++ after') (hafter : Below (follow e.level) after)
    (hafter' : Below (follow f.level) after') : Leads e f ∨ Leads f e := by
  induction e generalizing f j k after after' with
  | number value span =>
      refine .inl (Leads.of_atom heq ?_)
      intro atom rest _ hatom heq
      cases atom with
      | number => simp_all [ExprTree.yield]
      | name | group | not => simp [ExprTree.yield] at heq
      | binary => exact absurd rfl (hatom _ _ _ _)
  | name id span =>
      refine .inl (Leads.of_atom heq ?_)
      intro atom rest _ hatom heq
      cases atom with
      | name => simp_all [ExprTree.yield]
      | number | group | not => simp [ExprTree.yield] at heq
      | binary => exact absurd rfl (hatom _ _ _ _)
  | group start inner stop ih =>
      refine .inl (Leads.of_atom heq ?_)
      intro atom rest hleads hatom heq
      cases atom with
      | group start' inner' stop' =>
          simp only [ExprTree.yield, List.cons_append, List.append_assoc, List.nil_append,
            List.cons.injEq, Lexeme.mk.injEq, true_and] at heq
          obtain ⟨rfl, heq⟩ := heq
          have hinner := he.group_inner
          have hinner' := (hleads.derives hf).group_inner
          -- the closing parenthesis ends both of the inner trees
          have hor := ih hinner hinner' heq (below_cons nofun) (below_cons nofun)
          obtain rfl := Leads.eq_of_or hor hinner hinner' heq (below_cons nofun) (below_cons nofun)
          simp_all
      | number | name | not => simp [ExprTree.yield] at heq
      | binary => exact absurd rfl (hatom _ _ _ _)
  | not span operand ih =>
      refine .inl (Leads.of_atom heq ?_)
      intro atom rest hleads hatom heq
      cases atom with
      | not span' operand' =>
          simp only [ExprTree.yield, List.cons_append, List.cons.injEq, Lexeme.mk.injEq,
            true_and] at heq
          obtain ⟨rfl, heq⟩ := heq
          have hoperand := he.not_operand
          have hoperand' := (hleads.derives hf).not_operand
          -- an operand is an atom, to which no operator belongs
          have hbelow : ∀ {e : ExprTree} {after : List Lexeme}, Derives 7 e →
              Below (follow e.level) after := fun h =>
            (below_seven _).mono (Nat.le_trans (by decide) (follow_mono h.le_level))
          have hor := ih hoperand hoperand' heq (hbelow hoperand) (hbelow hoperand')
          rw [Leads.eq_of_or hor hoperand hoperand' heq (below_seven _) (below_seven _)]
      | number | name | group => simp [ExprTree.yield] at heq
      | binary => exact absurd rfl (hatom _ _ _ _)
  | binary left op span right ihl ihr =>
      obtain ⟨hl, hr⟩ := he.operands
      have hlevel := hl.le_level
      simp only [ExprTree.yield, List.append_assoc, List.cons_append] at heq
      have hop : Below (follow left.level) (⟨.op op, span⟩ :: (right.yield ++ after)) := by
        rw [below_op, follow_of_pos (by omega)]
        omega
      rcases ihl hl hf heq hop hafter' with h | h
      · obtain rfl | ⟨op', span', right', h'⟩ := h.eq_or_exists_binary
        · exact .inr (.binary .refl)
        -- both go on from the same left operand, so with the same operator
        obtain ⟨rest, hrest⟩ := h'.exists_yield
        have hr' := (h'.derives hf).operands.2
        have hbelow' := h'.below_follow hf hrest hafter'
        simp only [hrest, ExprTree.yield, List.append_assoc, List.append_cancel_left_eq,
          List.cons_append, List.cons.injEq, Lexeme.mk.injEq, Token.op.injEq] at heq
        obtain ⟨⟨rfl, rfl⟩, heq⟩ := heq
        have hmono : ∀ {e : ExprTree}, Derives (op.level + 1) e →
            follow op.level ≤ follow e.level := fun h => follow_mono (Nat.le_of_lt h.le_level)
        have hor := ihr hr hr' heq (hafter.mono (hmono hr)) (hbelow'.mono (hmono hr'))
        obtain rfl := Leads.eq_of_or hor hr hr' heq (hafter.mono (follow_le _))
          (hbelow'.mono (follow_le _))
        exact .inl h'
      · exact .inr h.binary

/-- Up to a token that is no operator there is one derivation. -/
theorem Expression.yield_append_inj {e f : Expression} {token : Token} {span span' : Span}
    {rest rest' : List Lexeme}
    (heq : e.val.yield ++ ⟨token, span⟩ :: rest = f.val.yield ++ ⟨token, span'⟩ :: rest')
    (ht : ∀ op, token ≠ .op op) : e = f ∧ span = span' ∧ rest = rest' := by
  have hor := leads_or_leads e.property f.property heq (below_cons ht) (below_cons ht)
  obtain rfl := Subtype.ext (Leads.eq_of_or hor e.property f.property heq (below_cons ht)
    (below_cons ht))
  simpa using heq

/-! ## Unambiguous programs -/

/-- A statement begins with a token that can stand neither behind a block's statements nor behind
the block of a condition. -/
theorem StmtTree.exists_yield (s : StmtTree) : ∃ lexeme rest, s.yield = lexeme :: rest ∧
    lexeme.token ≠ .closeBrace ∧ lexeme.token ≠ .kwElse := by
  cases s with
  | block body =>
      cases body
      simp [StmtTree.yield, BlockTree.yield]
  | declare | print | ifThen | ifElse | loop => simp [StmtTree.yield]

/-- No `else` comes next. -/
def NoElse (rest : List Lexeme) : Prop := ∀ span tail, rest ≠ ⟨.kwElse, span⟩ :: tail

theorem noElse_yield_append (p : ProgramTree) {rest : List Lexeme} (h : NoElse rest) :
    NoElse (p.yield ++ rest) := by
  cases p with
  | nil => exact h
  | cons s p =>
      obtain ⟨lexeme, tail, hs, -, helse⟩ := s.exists_yield
      intro span tail' heq
      simp only [ProgramTree.yield, hs, List.cons_append, List.cons.injEq] at heq
      exact helse (congrArg Lexeme.token heq.1)

/-- Whether a colon stands before a block is seen at its first token. -/
theorem colon?_append_inj {colon? colon?' : Option Span} {b b' : BlockTree}
    {rest rest' : List Lexeme}
    (heq : colon?.toList.map (Lexeme.mk .colon) ++ (b.yield ++ rest) =
      colon?'.toList.map (Lexeme.mk .colon) ++ (b'.yield ++ rest')) :
    colon? = colon?' ∧ b.yield ++ rest = b'.yield ++ rest' := by
  cases b
  cases b'
  cases colon? <;> cases colon?' <;> simp_all [BlockTree.yield]

mutual

theorem StmtTree.yield_append_inj {s s' : StmtTree} {rest rest' : List Lexeme}
    (heq : s.yield ++ rest = s'.yield ++ rest') (hrest : NoElse rest) (hrest' : NoElse rest') :
    s = s' ∧ rest = rest' := by
  cases s with
  | declare keyword id span equals value semicolon =>
      cases s' with
      | declare keyword' id' span' equals' value' semicolon' =>
          simp only [StmtTree.yield, List.cons_append, List.append_assoc, List.nil_append,
            List.cons.injEq, Lexeme.mk.injEq, Token.ident.injEq, true_and] at heq
          obtain ⟨rfl, ⟨rfl, rfl⟩, rfl, hvalue⟩ := heq
          obtain ⟨rfl, rfl, hrest⟩ := Expression.yield_append_inj hvalue nofun
          exact ⟨rfl, hrest⟩
      | print | ifThen | ifElse | loop => simp [StmtTree.yield] at heq
      | block body' =>
          cases body'
          simp [StmtTree.yield, BlockTree.yield] at heq
  | print keyword value semicolon =>
      cases s' with
      | print keyword' value' semicolon' =>
          simp only [StmtTree.yield, List.cons_append, List.append_assoc, List.nil_append,
            List.cons.injEq, Lexeme.mk.injEq, true_and] at heq
          obtain ⟨rfl, hvalue⟩ := heq
          obtain ⟨rfl, rfl, hrest⟩ := Expression.yield_append_inj hvalue nofun
          exact ⟨rfl, hrest⟩
      | declare | ifThen | ifElse | loop => simp [StmtTree.yield] at heq
      | block body' =>
          cases body'
          simp [StmtTree.yield, BlockTree.yield] at heq
  | ifThen keyword condition colon body =>
      cases s' with
      | ifThen keyword' condition' colon' body' =>
          simp only [StmtTree.yield, List.cons_append, List.append_assoc, List.cons.injEq,
            Lexeme.mk.injEq, true_and] at heq
          obtain ⟨rfl, hcondition⟩ := heq
          obtain ⟨rfl, rfl, hbody⟩ := Expression.yield_append_inj hcondition nofun
          obtain ⟨rfl, hrest⟩ := BlockTree.yield_append_inj hbody
          exact ⟨rfl, hrest⟩
      | ifElse keyword' condition' colon' body' otherwise colon? other =>
          simp only [StmtTree.yield, List.cons_append, List.append_assoc, List.cons.injEq,
            Lexeme.mk.injEq, true_and] at heq
          obtain ⟨rfl, hcondition⟩ := heq
          obtain ⟨rfl, rfl, hbody⟩ := Expression.yield_append_inj hcondition nofun
          obtain ⟨rfl, rfl⟩ := BlockTree.yield_append_inj hbody
          simp [NoElse] at hrest
      | declare | print | loop => simp [StmtTree.yield] at heq
      | block body' =>
          cases body'
          simp [StmtTree.yield, BlockTree.yield] at heq
  | ifElse keyword condition colon body otherwise colon? other =>
      cases s' with
      | ifThen keyword' condition' colon' body' =>
          simp only [StmtTree.yield, List.cons_append, List.append_assoc, List.cons.injEq,
            Lexeme.mk.injEq, true_and] at heq
          obtain ⟨rfl, hcondition⟩ := heq
          obtain ⟨rfl, rfl, hbody⟩ := Expression.yield_append_inj hcondition nofun
          obtain ⟨rfl, rfl⟩ := BlockTree.yield_append_inj hbody
          simp [NoElse] at hrest'
      | ifElse keyword' condition' colon' body' otherwise' colon?' other' =>
          simp only [StmtTree.yield, List.cons_append, List.append_assoc, List.cons.injEq,
            Lexeme.mk.injEq, true_and] at heq
          obtain ⟨rfl, hcondition⟩ := heq
          obtain ⟨rfl, rfl, hbody⟩ := Expression.yield_append_inj hcondition nofun
          obtain ⟨rfl, helse⟩ := BlockTree.yield_append_inj hbody
          simp only [List.cons.injEq, Lexeme.mk.injEq, true_and] at helse
          obtain ⟨rfl, hcolon⟩ := helse
          obtain ⟨rfl, hother⟩ := colon?_append_inj hcolon
          obtain ⟨rfl, hrest⟩ := BlockTree.yield_append_inj hother
          exact ⟨rfl, hrest⟩
      | declare | print | loop => simp [StmtTree.yield] at heq
      | block body' =>
          cases body'
          simp [StmtTree.yield, BlockTree.yield] at heq
  | loop keyword condition colon body =>
      cases s' with
      | loop keyword' condition' colon' body' =>
          simp only [StmtTree.yield, List.cons_append, List.append_assoc, List.cons.injEq,
            Lexeme.mk.injEq, true_and] at heq
          obtain ⟨rfl, hcondition⟩ := heq
          obtain ⟨rfl, rfl, hbody⟩ := Expression.yield_append_inj hcondition nofun
          obtain ⟨rfl, hrest⟩ := BlockTree.yield_append_inj hbody
          exact ⟨rfl, hrest⟩
      | declare | print | ifThen | ifElse => simp [StmtTree.yield] at heq
      | block body' =>
          cases body'
          simp [StmtTree.yield, BlockTree.yield] at heq
  | block body =>
      cases s' with
      | block body' =>
          obtain ⟨rfl, hrest⟩ := BlockTree.yield_append_inj heq
          exact ⟨rfl, hrest⟩
      | declare | print | ifThen | ifElse | loop =>
          cases body
          simp [StmtTree.yield, BlockTree.yield] at heq

theorem BlockTree.yield_append_inj {b b' : BlockTree} {rest rest' : List Lexeme}
    (heq : b.yield ++ rest = b'.yield ++ rest') : b = b' ∧ rest = rest' := by
  cases b with
  | braces start body stop =>
      cases b' with
      | braces start' body' stop' =>
          simp only [BlockTree.yield, List.cons_append, List.append_assoc, List.nil_append,
            List.cons.injEq, Lexeme.mk.injEq, true_and] at heq
          obtain ⟨rfl, hbody⟩ := heq
          obtain ⟨rfl, rfl, hrest⟩ := ProgramTree.yield_append_inj hbody
          exact ⟨rfl, hrest⟩

theorem ProgramTree.yield_append_inj {p p' : ProgramTree} {stop stop' : Span}
    {rest rest' : List Lexeme}
    (heq : p.yield ++ ⟨.closeBrace, stop⟩ :: rest = p'.yield ++ ⟨.closeBrace, stop'⟩ :: rest') :
    p = p' ∧ stop = stop' ∧ rest = rest' := by
  cases p with
  | nil =>
      cases p' with
      | nil => simpa [ProgramTree.yield] using heq
      | cons s' p' =>
          obtain ⟨lexeme, tail, hs, hbrace, -⟩ := s'.exists_yield
          simp only [ProgramTree.yield, hs, List.nil_append, List.cons_append,
            List.cons.injEq] at heq
          exact absurd (congrArg Lexeme.token heq.1).symm hbrace
  | cons s p =>
      cases p' with
      | nil =>
          obtain ⟨lexeme, tail, hs, hbrace, -⟩ := s.exists_yield
          simp only [ProgramTree.yield, hs, List.nil_append, List.cons_append,
            List.cons.injEq] at heq
          exact absurd (congrArg Lexeme.token heq.1) hbrace
      | cons s' p' =>
          simp only [ProgramTree.yield, List.append_assoc] at heq
          have helse : ∀ {p : ProgramTree} {stop : Span} {rest : List Lexeme},
              NoElse (p.yield ++ ⟨.closeBrace, stop⟩ :: rest) :=
            noElse_yield_append _ (by simp [NoElse])
          obtain ⟨rfl, hothers⟩ := StmtTree.yield_append_inj heq helse helse
          obtain ⟨rfl, hrest⟩ := ProgramTree.yield_append_inj hothers
          exact ⟨rfl, hrest⟩

end

/-- **The grammar is unambiguous**: no two derivations have the same sentence. -/
theorem yield_injective : Function.Injective ProgramTree.yield := by
  intro p p' heq
  have hbraces : p.yield ++ [⟨.closeBrace, default⟩] = p'.yield ++ [⟨.closeBrace, default⟩] := by
    rw [heq]
  exact (ProgramTree.yield_append_inj hbraces).1

end SixReg.Grammar
