import SixReg.Proofs.Syntax.Grammar

/-!
# Viable prefixes

Which tokens can stand at the beginning of a sentence, spans and the limit on nesting left aside.
That some can is shown by a derivation that begins with them. That others cannot would be a
statement about all derivations; it is brought down to the run of a machine.

The machine reads a sentence from left to right, one token at a time, and keeps a stack of `Goal`s,
what has to come or may come next. A goal that may stay open lets a token that is not for it pass to
the goal below. Of the levels of operators the machine knows nothing, since any operator may follow
any operand. All that counts is that in a group one comparison at most is made.

Along every derivation the machine has its goals met one by one (`run_operand`, `run_statement`), so
it takes every sentence to its end, and tokens that it refuses do not begin one
(`not_viable_of_run`).
-/

namespace SixReg.Grammar

/-- The tokens are those of a program. -/
def Sentence (tokens : List Token) : Prop :=
  ∃ tree : ProgramTree, tree.yield.map Lexeme.token = tokens

/-- The tokens are the beginning of a program. -/
def Viable (tokens : List Token) : Prop := ∃ more, Sentence (tokens ++ more)

/-! ## The machine -/

/-- What has to come next, or may. -/
inductive Goal where
  | token (token : Token)
  | name
  /-- An operand, in a group in which a comparison has been made or not. -/
  | operand (compared : Bool)
  /-- Operators and their right operands may follow. -/
  | operators (compared : Bool)
  | block
  /-- Statements may follow. -/
  | statements
  /-- An `else` may follow. -/
  | otherwise
  /-- The block of an `else`, with a colon or without. -/
  | alternative
deriving DecidableEq, Repr

/-- The goals that are left after the next token, which is `none` at the end. -/
def advance : List Goal → Option Token → Option (List Goal)
  | [], next => if next = none then some [] else none
  | .token token :: goals, next => if next = some token then some goals else none
  | .name :: goals, next =>
    match next with
    | some (.ident _) => some goals
    | _ => none
  | .operand compared :: goals, next =>
    match next with
    | some (.number _) | some (.ident _) => some (.operators compared :: goals)
    | some .openParen =>
      some (.operand false :: .token .closeParen :: .operators compared :: goals)
    | some .tilde => some (.operand compared :: goals)
    | _ => none
  | .operators compared :: goals, next =>
    match next with
    | some (.op op) =>
      if compared && op.isComparison then advance goals next
      else some (.operand (compared || op.isComparison) :: goals)
    | _ => advance goals next
  | .block :: goals, next =>
    match next with
    | some .openBrace => some (.statements :: .token .closeBrace :: goals)
    | _ => none
  | .statements :: goals, next =>
    match next with
    | some .kwVar =>
      some (.name :: .token .assign :: .operand false :: .token .semicolon :: .statements :: goals)
    | some .kwPrint => some (.operand false :: .token .semicolon :: .statements :: goals)
    | some .kwIf =>
      some (.operand false :: .token .colon :: .block :: .otherwise :: .statements :: goals)
    | some .kwWhile => some (.operand false :: .token .colon :: .block :: .statements :: goals)
    | some .openBrace => some (.statements :: .token .closeBrace :: .statements :: goals)
    | _ => advance goals next
  | .otherwise :: goals, next =>
    match next with
    | some .kwElse => some (.alternative :: goals)
    | _ => advance goals next
  | .alternative :: goals, next =>
    match next with
    | some .colon => some (.block :: goals)
    | some .openBrace => some (.statements :: .token .closeBrace :: goals)
    | _ => none

/-- The goals that are left after some tokens. -/
def run : List Goal → List (Option Token) → Option (List Goal)
  | goals, [] => some goals
  | goals, next :: rest => (advance goals next).bind fun goals => run goals rest

-- the machine is run by its equations in all that follows
attribute [local simp] advance run

/-- The tokens of lexemes, as the machine reads them. -/
def marks (tokens : List Lexeme) : List (Option Token) := tokens.map fun lexeme => some lexeme.token

variable {goals : List Goal} {rest : List (Option Token)} {next : Option Token} {compared : Bool}

@[simp]
theorem marks_nil : marks [] = [] := rfl

@[simp]
theorem marks_cons (lexeme : Lexeme) (tokens : List Lexeme) :
    marks (lexeme :: tokens) = some lexeme.token :: marks tokens := rfl

@[simp]
theorem marks_append (tokens tokens' : List Lexeme) :
    marks (tokens ++ tokens') = marks tokens ++ marks tokens' := List.map_append

theorem run_append (goals : List Goal) (front back : List (Option Token)) :
    run goals (front ++ back) = (run goals front).bind fun goals => run goals back := by
  induction front generalizing goals with
  | nil => rfl
  | cons next front ih =>
      rw [List.cons_append, run, run]
      cases advance goals next with
      | none => rfl
      | some goals' => exact ih goals'

theorem run_singleton_eq_none (h : advance goals next = none) :
    run goals [next] = none := by
  rw [run, h, Option.bind_none]

@[simp]
theorem run_token (token : Token) :
    run (.token token :: goals) (some token :: rest) = run goals rest := by
  simp [run, advance]

/-! ## Runs along derivations -/

theorem level_beq_zero {k : Nat} {tree : ExprTree} (h : Derives k tree) (hk : 0 < k) :
    (tree.level == 0) = false := by
  have hle := h.le_level
  rw [beq_eq_false_iff_ne]
  omega

theorem run_operator {op : BinOp} (h : (compared && op.isComparison) = false) :
    run (.operators compared :: goals) (some (.op op) :: rest) =
      run (.operand (compared || op.isComparison) :: goals) rest := by
  simp [run, advance, h]

/-- **A tree meets the goal of an operand.** Operators may follow it, but no comparison if one has
been made before in the group or is made at the root of the tree. -/
theorem run_operand {k : Nat} {tree : ExprTree} (h : Derives k tree)
    (hcompared : 0 < k ∨ compared = false) :
    run (.operand compared :: goals) (marks tree.yield ++ rest) =
      run (.operators (compared || tree.level == 0) :: goals) rest := by
  induction h generalizing compared goals rest with
  | number | name => simp [ExprTree.yield, ExprTree.level, run, advance]
  | @group start inner stop hinner ih =>
      calc
        run (.operand compared :: goals) (marks (ExprTree.group start inner stop).yield ++ rest) =
            run (.operand false :: .token .closeParen :: .operators compared :: goals)
              (marks inner.yield ++ some .closeParen :: rest) := by
          simp [ExprTree.yield, run, advance]
        _ = run (.operators (false || inner.level == 0) :: .token .closeParen ::
              .operators compared :: goals) (some .closeParen :: rest) := ih (.inr rfl)
        _ = _ := by simp [ExprTree.level, run, advance]
  | @not span operand hoperand ih =>
      have hlevel := level_beq_zero hoperand (by decide)
      calc
        run (.operand compared :: goals) (marks (ExprTree.not span operand).yield ++ rest) =
            run (.operand compared :: goals) (marks operand.yield ++ rest) := by
          simp [ExprTree.yield, run, advance]
        _ = run (.operators (compared || operand.level == 0) :: goals) rest :=
          ih (.inl (by decide))
        _ = _ := by
          rw [hlevel]
          rfl
  | operand _ ih => exact ih (.inl (Nat.succ_pos _))
  | @compare left op span right hop hl hr ihl ihr =>
      obtain rfl := hcompared.resolve_left (Nat.lt_irrefl 0)
      have hzero := mem_operators.mp hop
      have hcomparison := op.level_eq_zero_iff.mp hzero
      have hleft := level_beq_zero hl (by decide)
      have hright := level_beq_zero hr (by decide)
      rw [ExprTree.yield, marks_append, List.append_assoc, ihl (.inl (by decide)), hleft,
        marks_cons, List.cons_append, run_operator (by rfl), hcomparison,
        ihr (.inl (by decide)), hright, ExprTree.level, hzero]
      rfl
  | @chain k left op span right hk hop hl hr ihl ihr =>
      have hlevel := mem_operators.mp hop
      have hcomparison : op.isComparison = false := by
        rw [← Bool.not_eq_true, ← op.level_eq_zero_iff]
        omega
      have hleft := level_beq_zero hl hk
      have hright := level_beq_zero hr (Nat.succ_pos k)
      have htree : (op.level == 0) = false := by
        rw [beq_eq_false_iff_ne]
        omega
      rw [ExprTree.yield, marks_append, List.append_assoc, ihl (.inl hk), hleft, Bool.or_false,
        marks_cons, List.cons_append, run_operator (by simp [hcomparison]), hcomparison,
        Bool.or_false, ihr (.inl (Nat.succ_pos k)), hright, ExprTree.level, htree]

/-- An expression is followed by a token that is no operator. -/
theorem run_expression (x : Expression) (token : Token) (ht : ∀ op, token ≠ .op op) :
    run (.operand false :: .token token :: goals) (marks x.val.yield ++ some token :: rest) =
      run goals rest := by
  rw [run_operand x.property (.inr rfl)]
  cases token with
  | op op => exact absurd rfl (ht op)
  | _ => simp [run, advance]

/-- A goal that lets the next token pass is as good as met. -/
theorem run_of_pass {goal : Goal} (h : advance (goal :: goals) next = advance goals next) :
    run (goal :: goals) (next :: rest) = run goals (next :: rest) := by
  rw [run, run, h]

theorem advance_otherwise (h : next ≠ some .kwElse) :
    advance (.otherwise :: goals) next = advance goals next := by
  rw [advance]
  exact h

theorem advance_name (h : ∀ id, next ≠ some (.ident id)) :
    advance (.name :: goals) next = none := by
  rw [advance]
  exact h

theorem advance_block (h : next ≠ some .openBrace) : advance (.block :: goals) next = none := by
  rw [advance]
  exact h

/-- Where no colon comes, the block of an `else` is a block. -/
theorem advance_alternative (h : next ≠ some .colon) :
    advance (.alternative :: goals) next = advance (.block :: goals) next := by
  by_cases hbrace : next = some .openBrace
  · rw [hbrace]
    rfl
  · rw [advance_block hbrace, advance]
    · exact h
    · exact hbrace

theorem exists_marks_yield (tree : ProgramTree) (hnext : next ≠ some .kwElse) :
    ∃ next' rest', marks tree.yield ++ next :: rest = next' :: rest' ∧ next' ≠ some .kwElse := by
  cases tree with
  | nil => exact ⟨next, rest, rfl, hnext⟩
  | cons first others =>
      obtain ⟨lexeme, tail, hfirst, -, helse⟩ := first.exists_yield
      rw [ProgramTree.yield, hfirst, List.cons_append, marks_cons]
      refine ⟨_, _, rfl, ?_⟩
      rw [Ne, Option.some.injEq]
      exact helse

/-- A block is its own beginning, as a statement and behind an `else`. -/
theorem run_statements_block (tree : BlockTree) :
    run (.statements :: goals) (marks tree.yield ++ rest) =
      run (.block :: .statements :: goals) (marks tree.yield ++ rest) := by
  cases tree
  simp only [BlockTree.yield, marks_cons, List.cons_append]
  rfl

theorem run_alternative (tree : BlockTree) :
    run (.alternative :: goals) (marks tree.yield ++ rest) =
      run (.block :: goals) (marks tree.yield ++ rest) := by
  cases tree
  simp only [BlockTree.yield, marks_cons, List.cons_append]
  rfl

mutual

/-- A statement leaves the goals as they were. After a condition without an `else` there must not be
one. -/
theorem run_statement {goals : List Goal} {rest : List (Option Token)} {next : Option Token}
    (tree : StmtTree)
    (hnext : ∀ keyword condition colon body, tree = .ifThen keyword condition colon body →
      next ≠ some .kwElse) :
    run (.statements :: goals) (marks tree.yield ++ next :: rest) =
      run (.statements :: goals) (next :: rest) := by
  cases tree with
  | declare keyword id span equals value semicolon =>
      simp only [StmtTree.yield, marks_cons, marks_append, marks_nil, List.cons_append,
        List.append_assoc, List.nil_append]
      show run (.operand false :: .token .semicolon :: .statements :: goals)
        (marks value.val.yield ++ some .semicolon :: next :: rest) = _
      rw [run_expression value .semicolon nofun]
  | print keyword value semicolon =>
      simp only [StmtTree.yield, marks_cons, marks_append, marks_nil, List.cons_append,
        List.append_assoc, List.nil_append]
      show run (.operand false :: .token .semicolon :: .statements :: goals)
        (marks value.val.yield ++ some .semicolon :: next :: rest) = _
      rw [run_expression value .semicolon nofun]
  | ifThen keyword condition colon body =>
      simp only [StmtTree.yield, marks_cons, marks_append, List.cons_append, List.append_assoc]
      show run (.operand false :: .token .colon :: .block :: .otherwise :: .statements :: goals)
        (marks condition.val.yield ++ some .colon :: (marks body.yield ++ next :: rest)) = _
      rw [run_expression condition .colon nofun, run_block body]
      exact run_of_pass (advance_otherwise (hnext _ _ _ _ rfl))
  | ifElse keyword condition colon body otherwise colon? other =>
      simp only [StmtTree.yield, marks_cons, marks_append, List.cons_append, List.append_assoc]
      show run (.operand false :: .token .colon :: .block :: .otherwise :: .statements :: goals)
        (marks condition.val.yield ++ some .colon :: (marks body.yield ++ some .kwElse :: _)) = _
      rw [run_expression condition .colon nofun, run_block body]
      show run (.alternative :: .statements :: goals) _ = _
      cases colon? with
      | none => exact (run_alternative other).trans (run_block other)
      | some span => exact run_block other
  | loop keyword condition colon body =>
      simp only [StmtTree.yield, marks_cons, marks_append, List.cons_append, List.append_assoc]
      show run (.operand false :: .token .colon :: .block :: .statements :: goals)
        (marks condition.val.yield ++ some .colon :: (marks body.yield ++ next :: rest)) = _
      rw [run_expression condition .colon nofun, run_block body]
  | block body =>
      rw [StmtTree.yield, run_statements_block]
      exact run_block body

theorem run_block {goals : List Goal} {rest : List (Option Token)} (tree : BlockTree) :
    run (.block :: goals) (marks tree.yield ++ rest) = run goals rest := by
  cases tree with
  | braces start body stop =>
      simp only [BlockTree.yield, marks_cons, marks_append, marks_nil, List.cons_append,
        List.append_assoc, List.nil_append]
      show run (.statements :: .token .closeBrace :: goals)
        (marks (ProgramTree.yield body) ++ some .closeBrace :: rest) = _
      have hnext : some Token.closeBrace ≠ some .kwElse := nofun
      rw [run_program body hnext]
      exact run_token .closeBrace

theorem run_program {goals : List Goal} {rest : List (Option Token)} {next : Option Token}
    (tree : ProgramTree) (hnext : next ≠ some .kwElse) :
    run (.statements :: goals) (marks (ProgramTree.yield tree) ++ next :: rest) =
      run (.statements :: goals) (next :: rest) := by
  cases tree with
  | nil => rfl
  | cons first others =>
      obtain ⟨next', rest', hmarks, hnext'⟩ := exists_marks_yield others hnext
      rw [ProgramTree.yield, marks_append, List.append_assoc, hmarks,
        run_statement first fun _ _ _ _ _ => hnext', ← hmarks]
      exact run_program others hnext

end

/-! ## Refused tokens -/

/-- The machine reads a sentence to its end. -/
theorem run_sentence {tokens : List Token} (h : Sentence tokens) :
    run [.statements] (tokens.map some ++ [none]) = some [] := by
  obtain ⟨tree, rfl⟩ := h
  rw [List.map_map]
  exact run_program tree nofun

/-- **What the machine refuses is no beginning of a sentence.** -/
theorem not_viable_of_run {tokens : List Token} (h : run [.statements] (tokens.map some) = none) :
    ¬ Viable tokens := by
  rintro ⟨more, hsentence⟩
  have hrun := run_sentence hsentence
  rw [List.map_append, List.append_assoc, run_append, h] at hrun
  cases hrun

theorem not_sentence_of_run {tokens : List Token}
    (h : run [.statements] (tokens.map some ++ [none]) = none) : ¬ Sentence tokens := by
  intro hsentence
  rw [run_sentence hsentence] at h
  cases h

end SixReg.Grammar
