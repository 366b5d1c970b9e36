import SixReg.Proofs.Syntax.Grammar

/-!
# The parser and the grammar

The parser climbs: it reads an atom and then takes up operators, one by one, that bind at least as
tightly as the level it was asked for. The grammar has a rule for every level. This module shows
that they agree.

* What each parser returns is written down once, with a case for every way to succeed
  (`atom_returns`, `chain_returns`, `statement_returns`, ...). No other proof opens a parser.
* **Soundness** (`binary_sound`, `statement_sound`): whatever was read has a derivation, and what
  comes next does not belong to it.
* **Completeness** (`binary_complete`, `statement_complete`): whatever is derived is read, as long
  as it does not nest too deeply.
* `parse_iff_derivation` puts them together for a whole text.
-/

namespace SixReg

open Grammar

namespace Parse

/-! ## What the parsers return -/

/-- The parser read `value` and left `rest`. -/
def Reply.Returns {n : Nat} {α : Type} (reply : Reply n α) (value : α) (rest : List Lexeme) :
    Prop :=
  ∃ short, reply = .ok value rest short

namespace Reply

variable {m n : Nat} {α β : Type} {reply : Reply n α} {value a : α} {b : β}
  {rest rest' : List Lexeme}

theorem Returns.length_lt (h : reply.Returns value rest) : rest.length < n := by
  obtain ⟨short, -⟩ := h
  exact short

@[simp]
theorem ok_returns {short : rest'.length < n} :
    (Reply.ok a rest' short).Returns value rest ↔ a = value ∧ rest' = rest := by
  constructor
  · rintro ⟨_, ⟨⟩⟩
    exact ⟨rfl, rfl⟩
  · rintro ⟨rfl, rfl⟩
    exact ⟨short, rfl⟩

@[simp]
theorem error_returns {stuck : Stuck} : ¬(Reply.error stuck : Reply n α).Returns value rest :=
  nofun

@[simp]
theorem unexpected_returns {depth : Nat} {expected : Expected} {tokens : List Lexeme} :
    ¬(unexpected depth expected tokens : Reply n α).Returns value rest :=
  nofun

@[simp]
theorem bind_returns {next : α → (rest : List Lexeme) → rest.length < n → Reply m β} :
    (reply.bind next).Returns b rest ↔
      ∃ a mid, ∃ h : reply.Returns a mid, (next a mid h.length_lt).Returns b rest := by
  cases reply with
  | error stuck => simp
  | ok a mid short =>
      rw [bind_ok]
      constructor
      · intro h
        exact ⟨a, mid, ⟨short, rfl⟩, h⟩
      · rintro ⟨_, _, ⟨_, ⟨⟩⟩, h⟩
        exact h

end Reply

variable {depth level : Nat} {tokens rest : List Lexeme}

theorem expect_returns {token : Token} {expected : Expected} {u : Unit} :
    (expect depth token expected tokens).Returns u rest ↔
      ∃ span, tokens = ⟨token, span⟩ :: rest := by
  unfold expect
  split
  · simp
  · rename_i lexeme tail
    obtain ⟨token', span⟩ := lexeme
    by_cases h : token' = token <;> simp [h]

theorem name_returns {target : String × Span} :
    (name depth tokens).Returns target rest ↔
      tokens = ⟨.ident target.1, target.2⟩ :: rest := by
  unfold name
  split
  · simp [Prod.ext_iff]
  · rename_i hname
    simp only [Reply.unexpected_returns, false_iff]
    intro htokens
    exact hname _ _ _ htokens

/-- What `atom` reads, by its first token. -/
inductive AtomReads (depth : Nat) : List Lexeme → Expr → List Lexeme → Prop where
  | number {value : Int} {span : Span} {rest : List Lexeme} :
      AtomReads depth (⟨.number value, span⟩ :: rest) (.number value) rest
  | name {id : String} {span : Span} {rest : List Lexeme} :
      AtomReads depth (⟨.ident id, span⟩ :: rest) (.var id span) rest
  | group {start stop : Span} {tokens rest : List Lexeme} {inner : Expr}
      (hdepth : depth < maxNesting)
      (h : (binary (depth + 1) 0 tokens).Returns inner (⟨.closeParen, stop⟩ :: rest)) :
      AtomReads depth (⟨.openParen, start⟩ :: tokens) inner rest
  | not {span : Span} {tokens rest : List Lexeme} {operand : Expr} (hdepth : depth < maxNesting)
      (h : (atom (depth + 1) tokens).Returns operand rest) :
      AtomReads depth (⟨.tilde, span⟩ :: tokens) (.not operand) rest

theorem atom_returns {e : Expr} :
    (atom depth tokens).Returns e rest ↔ AtomReads depth tokens e rest := by
  constructor
  · intro h
    rw [atom.eq_def] at h
    split at h
    · obtain ⟨rfl, rfl⟩ := Reply.ok_returns.mp h
      exact .number
    · obtain ⟨rfl, rfl⟩ := Reply.ok_returns.mp h
      exact .name
    · split at h
      · rename_i hdepth
        simp only [Reply.bind_returns, Reply.ok_returns, expect_returns, exists_prop] at h
        obtain ⟨_, _, hinner, _, _, ⟨stop, rfl⟩, rfl, rfl⟩ := h
        exact .group hdepth hinner
      · exact absurd h Reply.error_returns
    · split at h
      · rename_i hdepth
        simp only [Reply.bind_returns, Reply.ok_returns, exists_prop] at h
        obtain ⟨_, _, hoperand, rfl, rfl⟩ := h
        exact .not hdepth hoperand
      · exact absurd h Reply.error_returns
    · exact absurd h Reply.unexpected_returns
  · intro h
    cases h with
    | number | name => simp [atom]
    | group hdepth h =>
        simp only [atom, if_pos hdepth, Reply.bind_returns, Reply.ok_returns, expect_returns,
          exists_prop]
        exact ⟨_, _, h, (), _, ⟨_, rfl⟩, rfl, rfl⟩
    | not hdepth h =>
        simp only [atom, if_pos hdepth, Reply.bind_returns, Reply.ok_returns, exists_prop]
        exact ⟨_, _, h, rfl, rfl⟩

theorem binary_returns {e : Expr} : (binary depth level tokens).Returns e rest ↔
    ∃ left mid, (atom depth tokens).Returns left mid ∧
      (chain depth level left mid).Returns e rest := by
  rw [binary]
  simp

/-- What `chain` reads behind an operand. -/
inductive ChainReads (depth level : Nat) (left : Expr) :
    List Lexeme → Expr → List Lexeme → Prop where
  | done {tokens : List Lexeme} (h : Below level tokens) :
      ChainReads depth level left tokens left tokens
  | compare {op : BinOp} {span : Span} {tokens rest : List Lexeme} {right : Expr}
      (hop : op.isComparison = true) (hlevel : level ≤ op.level)
      (hright : (binary depth (op.level + 1) tokens).Returns right rest) :
      ChainReads depth level left (⟨.op op, span⟩ :: tokens) (.binary op left right) rest
  | operator {op : BinOp} {span : Span} {tokens mid rest : List Lexeme} {right e : Expr}
      (hop : op.isComparison = false) (hlevel : level ≤ op.level)
      (hright : (binary depth (op.level + 1) tokens).Returns right mid)
      (h : (chain depth level (.binary op left right) mid).Returns e rest) :
      ChainReads depth level left (⟨.op op, span⟩ :: tokens) e rest

theorem chain_returns {left e : Expr} :
    (chain depth level left tokens).Returns e rest ↔ ChainReads depth level left tokens e rest := by
  constructor
  · intro h
    rw [chain.eq_def] at h
    split at h
    · split at h
      · rename_i hlevel
        obtain ⟨rfl, rfl⟩ := Reply.ok_returns.mp h
        exact .done (below_op.mpr hlevel)
      · rename_i hlevel
        obtain ⟨right, mid, hright, h⟩ := Reply.bind_returns.mp h
        split at h
        · rename_i hop
          obtain ⟨rfl, rfl⟩ := Reply.ok_returns.mp h
          exact .compare hop (Nat.le_of_not_lt hlevel) hright
        · rename_i hop
          simp only [Reply.bind_returns, Reply.ok_returns, exists_prop] at h
          obtain ⟨_, _, hchain, rfl, rfl⟩ := h
          exact .operator (Bool.not_eq_true _ ▸ hop) (Nat.le_of_not_lt hlevel) hright hchain
    · rename_i hop
      obtain ⟨rfl, rfl⟩ := Reply.ok_returns.mp h
      exact .done fun _ _ _ heq => absurd heq (hop _ _ _)
  · intro h
    cases h with
    | done h =>
        rw [chain.eq_def]
        split
        · simp [below_op.mp h]
        · simp
    | compare hop hlevel hright =>
        rw [chain, if_neg (Nat.not_lt.mpr hlevel)]
        simp only [hop, if_true, Reply.bind_returns, Reply.ok_returns, exists_prop]
        exact ⟨_, _, hright, rfl, rfl⟩
    | operator hop hlevel hright h =>
        rw [chain, if_neg (Nat.not_lt.mpr hlevel)]
        simp only [hop, Bool.false_eq_true, if_false, Reply.bind_returns, Reply.ok_returns,
          exists_prop]
        exact ⟨_, _, hright, _, _, h, rfl, rfl⟩

theorem block_returns {body : Block} : (block depth tokens).Returns body rest ↔
    ∃ start mid, tokens = ⟨.openBrace, start⟩ :: mid ∧ depth < maxNesting ∧
      (blockEnd (depth + 1) mid).Returns body rest := by
  rw [block]
  simp only [Reply.bind_returns, expect_returns]
  by_cases h : depth < maxNesting <;> simp [h]
  grind

/-- What `blockEnd` reads. -/
inductive BlockEndReads (depth : Nat) : List Lexeme → Block → List Lexeme → Prop where
  | done {stop : Span} {rest : List Lexeme} :
      BlockEndReads depth (⟨.closeBrace, stop⟩ :: rest) [] rest
  | statement {tokens mid rest : List Lexeme} {first : Stmt} {others : Block}
      (hfirst : (statement depth tokens).Returns first mid)
      (hothers : (blockEnd depth mid).Returns others rest) :
      BlockEndReads depth tokens (first :: others) rest

theorem blockEnd_returns {body : Block} :
    (blockEnd depth tokens).Returns body rest ↔ BlockEndReads depth tokens body rest := by
  constructor
  · intro h
    rw [blockEnd.eq_def] at h
    split at h
    · exact absurd h Reply.unexpected_returns
    · obtain ⟨rfl, rfl⟩ := Reply.ok_returns.mp h
      exact .done
    · simp only [Reply.bind_returns, Reply.ok_returns, exists_prop] at h
      obtain ⟨_, _, hfirst, _, _, hothers, rfl, rfl⟩ := h
      exact .statement hfirst hothers
  · intro h
    cases h with
    | done => simp [blockEnd]
    | statement hfirst hothers =>
        rw [blockEnd.eq_def]
        -- a statement begins neither with a closing brace nor at the end
        split
        · simp [statement] at hfirst
        · simp [statement] at hfirst
        · simp only [Reply.bind_returns]
          exact ⟨_, _, hfirst, _, _, hothers, Reply.ok_returns.mpr ⟨rfl, rfl⟩⟩

/-- What `statement` reads, by its first token. -/
inductive StatementReads (depth : Nat) : List Lexeme → Stmt → List Lexeme → Prop where
  | declare {keyword span equals semicolon : Span} {id : String} {tokens rest : List Lexeme}
      {value : Expr}
      (h : (expression depth tokens).Returns value (⟨.semicolon, semicolon⟩ :: rest)) :
      StatementReads depth
        (⟨.kwVar, keyword⟩ :: ⟨.ident id, span⟩ :: ⟨.assign, equals⟩ :: tokens)
        (.declare id span value) rest
  | print {keyword semicolon : Span} {tokens rest : List Lexeme} {value : Expr}
      (h : (expression depth tokens).Returns value (⟨.semicolon, semicolon⟩ :: rest)) :
      StatementReads depth (⟨.kwPrint, keyword⟩ :: tokens) (.print value) rest
  | ifThen {keyword colon : Span} {tokens mid rest : List Lexeme} {condition : Expr} {body : Block}
      (hcondition : (expression depth tokens).Returns condition (⟨.colon, colon⟩ :: mid))
      (hbody : (block depth mid).Returns body rest) (hrest : NoElse rest) :
      StatementReads depth (⟨.kwIf, keyword⟩ :: tokens) (.ifThen condition body) rest
  | ifElse {keyword colon otherwise : Span} {tokens mid mid' rest : List Lexeme}
      {condition : Expr} {body other : Block} (colon? : Option Span)
      (hcondition : (expression depth tokens).Returns condition (⟨.colon, colon⟩ :: mid))
      (hbody : (block depth mid).Returns body
        (⟨.kwElse, otherwise⟩ :: (colon?.toList.map (Lexeme.mk .colon) ++ mid')))
      (hother : (block depth mid').Returns other rest) :
      StatementReads depth (⟨.kwIf, keyword⟩ :: tokens) (.ifElse condition body other) rest
  | loop {keyword colon : Span} {tokens mid rest : List Lexeme} {condition : Expr} {body : Block}
      (hcondition : (expression depth tokens).Returns condition (⟨.colon, colon⟩ :: mid))
      (hbody : (block depth mid).Returns body rest) :
      StatementReads depth (⟨.kwWhile, keyword⟩ :: tokens) (.loop condition body) rest
  | block {tokens rest : List Lexeme} {body : Block} (h : (block depth tokens).Returns body rest) :
      StatementReads depth tokens (.block body) rest

theorem statement_returns {s : Stmt} :
    (statement depth tokens).Returns s rest ↔ StatementReads depth tokens s rest := by
  constructor
  · intro h
    rw [statement.eq_def] at h
    split at h
    · simp only [Reply.bind_returns, Reply.ok_returns, expect_returns, name_returns,
        exists_prop] at h
      obtain ⟨_, _, rfl, _, _, ⟨_, rfl⟩, _, _, hvalue, _, _, ⟨_, rfl⟩, rfl, rfl⟩ := h
      exact .declare hvalue
    · simp only [Reply.bind_returns, Reply.ok_returns, expect_returns, exists_prop] at h
      obtain ⟨_, _, hvalue, _, _, ⟨_, rfl⟩, rfl, rfl⟩ := h
      exact .print hvalue
    · simp only [Reply.bind_returns, expect_returns] at h
      obtain ⟨_, _, hcondition, _, _, ⟨_, rfl⟩, _, _, hbody, h⟩ := h
      split at h
      · simp only [Reply.bind_returns, Reply.ok_returns, exists_prop] at h
        obtain ⟨_, _, hother, rfl, rfl⟩ := h
        exact .ifElse (some _) hcondition hbody hother
      · simp only [Reply.bind_returns, Reply.ok_returns, exists_prop] at h
        obtain ⟨_, _, hother, rfl, rfl⟩ := h
        exact .ifElse none hcondition hbody hother
      · rename_i helse
        obtain ⟨rfl, rfl⟩ := Reply.ok_returns.mp h
        refine .ifThen hcondition hbody ?_
        rintro span tail rfl
        exact helse _ _ _ rfl HEq.rfl
    · simp only [Reply.bind_returns, Reply.ok_returns, expect_returns, exists_prop] at h
      obtain ⟨_, _, hcondition, _, _, ⟨_, rfl⟩, _, _, hbody, rfl, rfl⟩ := h
      exact .loop hcondition hbody
    · simp only [Reply.bind_returns, Reply.ok_returns, exists_prop] at h
      obtain ⟨_, _, hbody, rfl, rfl⟩ := h
      exact .block hbody
    · exact absurd h Reply.unexpected_returns
  · intro h
    cases h with
    | declare h =>
        simp only [statement, Reply.bind_returns, Reply.ok_returns, expect_returns, name_returns,
          exists_prop]
        exact ⟨(_, _), _, rfl, (), _, ⟨_, rfl⟩, _, _, h, (), _, ⟨_, rfl⟩, rfl, rfl⟩
    | print h =>
        simp only [statement, Reply.bind_returns, Reply.ok_returns, expect_returns, exists_prop]
        exact ⟨_, _, h, (), _, ⟨_, rfl⟩, rfl, rfl⟩
    | ifThen hcondition hbody hrest =>
        simp only [statement, Reply.bind_returns, expect_returns]
        refine ⟨_, _, hcondition, (), _, ⟨_, rfl⟩, _, _, hbody, ?_⟩
        split
        · exact absurd rfl (hrest _ _)
        · exact absurd rfl (hrest _ _)
        · exact Reply.ok_returns.mpr ⟨rfl, rfl⟩
    | ifElse colon? hcondition hbody hother =>
        obtain ⟨start, inside, rfl, -⟩ := block_returns.mp hother
        simp only [statement, Reply.bind_returns, expect_returns]
        cases colon? with
        | none | some =>
            refine ⟨_, _, hcondition, (), _, ⟨_, rfl⟩, _, _, hbody, ?_⟩
            exact Reply.bind_returns.mpr ⟨_, _, hother, Reply.ok_returns.mpr ⟨rfl, rfl⟩⟩
    | loop hcondition hbody =>
        simp only [statement, Reply.bind_returns, Reply.ok_returns, expect_returns, exists_prop]
        exact ⟨_, _, hcondition, (), _, ⟨_, rfl⟩, _, _, hbody, rfl, rfl⟩
    | block h =>
        obtain ⟨start, inside, rfl, -⟩ := block_returns.mp h
        simp only [statement, Reply.bind_returns, Reply.ok_returns, exists_prop]
        exact ⟨_, _, h, rfl, rfl⟩

theorem program_eq_ok {p : Program} : program depth tokens = .ok p ↔
    tokens = [] ∧ p = [] ∨ ∃ first mid others, (statement depth tokens).Returns first mid ∧
      program depth mid = .ok others ∧ p = first :: others := by
  cases tokens with
  | nil => simp [program, statement, eq_comm]
  | cons lexeme tokens =>
      rw [program]
      cases hs : statement depth (lexeme :: tokens) with
      | error stuck => simp
      | ok first mid short =>
          cases hp : program depth mid with
          | error stuck => simp [hp]
          | ok others => simp [hp, and_assoc, eq_comm]

/-! ## Soundness -/

/-- A derivation of level `k` for what was read of `tokens` while `depth` groups were open. -/
structure Reads (k depth : Nat) (tokens : List Lexeme) (e : Expr) (rest : List Lexeme)
    (tree : ExprTree) : Prop where
  derives : Derives k tree
  ast : tree.ast = e
  yield : tokens = tree.yield ++ rest
  nesting : tree.nesting ≤ maxNesting - depth

/-- An operator and its right operand are read behind a tree. -/
theorem Reads.binary {j k l depth : Nat} {before tokens rest : List Lexeme} {left right : Expr}
    {tree tree' : ExprTree} {op : BinOp} {span : Span}
    (hl : Reads j depth before left (⟨.op op, span⟩ :: tokens) tree)
    (hr : Reads k depth tokens right rest tree') (h : Derives l (.binary tree op span tree')) :
    Reads l depth before (.binary op left right) rest (.binary tree op span tree') where
  derives := h
  ast := by rw [ExprTree.ast, hl.ast, hr.ast]
  yield := by rw [hl.yield, hr.yield, ExprTree.yield, List.append_assoc, List.cons_append]
  nesting := Nat.max_le.mpr ⟨hl.nesting, hr.nesting⟩

mutual

theorem atom_sound {depth : Nat} {tokens rest : List Lexeme} {e : Expr}
    (h : (atom depth tokens).Returns e rest) : ∃ tree, Reads 7 depth tokens e rest tree := by
  have hreads := atom_returns.mp h
  generalize htokens : tokens = tokens' at hreads
  cases hreads with
  | number => exact ⟨.number _ _, .number, rfl, rfl, Nat.zero_le _⟩
  | name => exact ⟨.name _ _, .name, rfl, rfl, Nat.zero_le _⟩
  | @group start stop inside _ _ hdepth hinner =>
      have hlength : inside.length < tokens.length := by simp [htokens]
      obtain ⟨tree, htree, -⟩ := binary_sound (Nat.zero_le _) hinner
      refine ⟨.group start tree stop, htree.derives.group, htree.ast, ?_, ?_⟩
      · simp [htree.yield, ExprTree.yield]
      · have hnesting := htree.nesting
        simp only [ExprTree.nesting]
        omega
  | @not span inside _ operand hdepth hoperand =>
      have hlength : inside.length < tokens.length := by simp [htokens]
      obtain ⟨tree, htree⟩ := atom_sound hoperand
      refine ⟨.not span tree, htree.derives.not, ?_, ?_, ?_⟩
      · rw [ExprTree.ast, htree.ast]
      · rw [htree.yield, ExprTree.yield, List.cons_append]
      · have hnesting := htree.nesting
        simp only [ExprTree.nesting]
        omega
termination_by 2 * tokens.length

/-- What follows binds looser than the level that was asked for, unless the whole is a comparison,
after which there may be another one. -/
theorem binary_sound {depth level : Nat} {tokens rest : List Lexeme} {e : Expr}
    (hlevel : level ≤ 7) (h : (binary depth level tokens).Returns e rest) :
    ∃ tree, Reads level depth tokens e rest tree ∧ Below (max level 1) rest ∧
      (Below level rest ∨ tree.level = 0) := by
  obtain ⟨left, mid, hleft, hchain⟩ := binary_returns.mp h
  have hlength := hleft.length_lt
  obtain ⟨tree, htree⟩ := atom_sound hleft
  exact chain_sound htree hlevel (by decide) ((below_seven _).mono (by decide)) hchain
termination_by 2 * tokens.length + 1

/-- The invariant of the chain: its left operand has a level that is not looser than any operator
it may still take up. -/
theorem chain_sound {j depth level : Nat} {before tokens rest : List Lexeme} {left e : Expr}
    {tree : ExprTree} (htree : Reads j depth before left tokens tree) (hlevel : level ≤ j)
    (hj : 0 < j) (hbelow : Below (j + 1) tokens)
    (h : (chain depth level left tokens).Returns e rest) :
    ∃ whole, Reads level depth before e rest whole ∧ Below (max level 1) rest ∧
      (Below level rest ∨ whole.level = 0) := by
  have hreads := chain_returns.mp h
  generalize htokens : tokens = tokens' at hreads
  cases hreads with
  | done hdone =>
      exact ⟨tree, ⟨htree.derives.loosen hlevel, htree.ast, htokens ▸ htree.yield, htree.nesting⟩,
        hdone.mono (Nat.le_max_left _ _), .inl hdone⟩
  | @compare op span after _ right hop hlevel' hright =>
      have hlength : after.length < tokens.length := by simp [htokens]
      rw [htokens] at htree
      have hzero := op.level_eq_zero_iff.mpr hop
      obtain ⟨tree', htree', hbelow', -⟩ := binary_sound (Nat.succ_le_succ op.level_le) hright
      have hderives : Derives 0 (.binary tree op span tree') :=
        .compare (mem_operators.mpr hzero) (htree.derives.loosen hj)
          (htree'.derives.loosen (Nat.le_add_left _ _))
      exact ⟨_, htree.binary htree' (hderives.loosen (hzero ▸ hlevel')), hbelow'.mono (by omega),
        .inr hzero⟩
  | @operator op span after mid _ right _ hop hlevel' hright hchain =>
      have hlength : after.length < tokens.length := by simp [htokens]
      have hlength' := hright.length_lt
      rw [htokens] at htree hbelow
      have hpos : 0 < op.level := by
        rw [Nat.pos_iff_ne_zero, Ne, op.level_eq_zero_iff, hop]
        decide
      have hle : op.level ≤ j := Nat.le_of_lt_succ (below_op.mp hbelow)
      obtain ⟨tree', htree', hbelow', -⟩ := binary_sound (Nat.succ_le_succ op.level_le) hright
      have hderives : Derives op.level (.binary tree op span tree') :=
        .chain hpos (mem_operators.mpr rfl) (htree.derives.loosen hle) htree'.derives
      exact chain_sound (htree.binary htree' hderives) hlevel' hpos (hbelow'.mono (by omega)) hchain
termination_by 2 * tokens.length

end

theorem expression_sound {e : Expr} (h : (expression depth tokens).Returns e rest) :
    ∃ x : Expression, x.val.ast = e ∧ tokens = x.val.yield ++ rest ∧
      x.val.nesting ≤ maxNesting - depth := by
  obtain ⟨tree, htree, -⟩ := binary_sound (Nat.zero_le _) h
  exact ⟨⟨tree, htree.derives⟩, htree.ast, htree.yield, htree.nesting⟩

theorem length_lt_of_condition {keyword colon : Lexeme} {mid : List Lexeme} {condition : Expr}
    (h : (expression depth tokens).Returns condition (colon :: mid)) :
    mid.length + 1 < (keyword :: tokens).length :=
  Nat.lt_succ_of_lt h.length_lt

mutual

theorem statement_sound {depth : Nat} {tokens rest : List Lexeme} {s : Stmt}
    (h : (statement depth tokens).Returns s rest) :
    ∃ tree : StmtTree, tree.ast = s ∧ tokens = tree.yield ++ rest ∧
      tree.nesting ≤ maxNesting - depth := by
  have hreads := statement_returns.mp h
  generalize htokens : tokens = tokens' at hreads
  cases hreads with
  | @declare keyword span equals semicolon id _ _ _ hvalue =>
      obtain ⟨value, rfl, rfl, hnesting⟩ := expression_sound hvalue
      exact ⟨.declare keyword id span equals value semicolon, rfl, by simp [StmtTree.yield],
        hnesting⟩
  | @print keyword semicolon _ _ _ hvalue =>
      obtain ⟨value, rfl, rfl, hnesting⟩ := expression_sound hvalue
      exact ⟨.print keyword value semicolon, rfl, by simp [StmtTree.yield], hnesting⟩
  | @ifThen keyword colon after mid _ _ _ hcondition hbody _ =>
      have hlength : mid.length + 1 < tokens.length := htokens ▸ length_lt_of_condition hcondition
      obtain ⟨condition, rfl, rfl, hnesting⟩ := expression_sound hcondition
      obtain ⟨body, rfl, rfl, hnesting'⟩ := block_sound hbody
      exact ⟨.ifThen keyword condition colon body, rfl, by simp [StmtTree.yield],
        Nat.max_le.mpr ⟨hnesting, hnesting'⟩⟩
  | @ifElse keyword colon otherwise after mid mid' _ _ _ _ colon? hcondition hbody hother =>
      have hlength : mid.length + 1 < tokens.length := htokens ▸ length_lt_of_condition hcondition
      have hlength' : mid'.length + 1 < tokens.length := by
        have hlt := hbody.length_lt
        simp only [List.length_cons, List.length_append] at hlt
        omega
      obtain ⟨condition, rfl, rfl, hnesting⟩ := expression_sound hcondition
      obtain ⟨body, rfl, rfl, hnesting'⟩ := block_sound hbody
      obtain ⟨other, rfl, rfl, hnesting''⟩ := block_sound hother
      exact ⟨.ifElse keyword condition colon body otherwise colon? other, rfl,
        by simp [StmtTree.yield], Nat.max_le.mpr ⟨hnesting, Nat.max_le.mpr ⟨hnesting', hnesting''⟩⟩⟩
  | @loop keyword colon after mid _ _ _ hcondition hbody =>
      have hlength : mid.length + 1 < tokens.length := htokens ▸ length_lt_of_condition hcondition
      obtain ⟨condition, rfl, rfl, hnesting⟩ := expression_sound hcondition
      obtain ⟨body, rfl, rfl, hnesting'⟩ := block_sound hbody
      exact ⟨.loop keyword condition colon body, rfl, by simp [StmtTree.yield],
        Nat.max_le.mpr ⟨hnesting, hnesting'⟩⟩
  | block hbody =>
      subst htokens
      obtain ⟨body, rfl, rfl, hnesting⟩ := block_sound hbody
      exact ⟨.block body, rfl, rfl, hnesting⟩
termination_by 3 * tokens.length + 1

theorem block_sound {depth : Nat} {tokens rest : List Lexeme} {body : Block}
    (h : (block depth tokens).Returns body rest) :
    ∃ tree : BlockTree, tree.ast = body ∧ tokens = tree.yield ++ rest ∧
      tree.nesting ≤ maxNesting - depth := by
  obtain ⟨start, inside, htokens, hdepth, hinside⟩ := block_returns.mp h
  have hlength : inside.length < tokens.length := by simp [htokens]
  obtain ⟨tree, stop, rfl, rfl, hnesting⟩ := blockEnd_sound hinside
  refine ⟨.braces start tree stop, rfl, by simp [htokens, BlockTree.yield], ?_⟩
  simp only [BlockTree.nesting]
  omega
termination_by 3 * tokens.length

theorem blockEnd_sound {depth : Nat} {tokens rest : List Lexeme} {body : Block}
    (h : (blockEnd depth tokens).Returns body rest) :
    ∃ (tree : ProgramTree) (stop : Span), tree.ast = body ∧
      tokens = tree.yield ++ ⟨.closeBrace, stop⟩ :: rest ∧
      tree.nesting ≤ maxNesting - depth := by
  have hreads := blockEnd_returns.mp h
  generalize htokens : tokens = tokens' at hreads
  cases hreads with
  | @done stop => exact ⟨[], stop, rfl, rfl, Nat.zero_le _⟩
  | statement hfirst hothers =>
      subst htokens
      have hlength := hfirst.length_lt
      obtain ⟨first, rfl, rfl, hnesting⟩ := statement_sound hfirst
      obtain ⟨others, stop, rfl, rfl, hnesting'⟩ := blockEnd_sound hothers
      exact ⟨first :: others, stop, rfl, by simp [ProgramTree.yield],
        Nat.max_le.mpr ⟨hnesting, hnesting'⟩⟩
termination_by 3 * tokens.length + 2

end

theorem program_sound {p : Program} (h : program depth tokens = .ok p) :
    ∃ tree : ProgramTree, tree.ast = p ∧ tokens = tree.yield ∧
      tree.nesting ≤ maxNesting - depth := by
  induction hn : tokens.length using Nat.strongRecOn generalizing tokens p with
  | ind n ih =>
      obtain ⟨rfl, rfl⟩ | ⟨first, mid, others, hfirst, hothers, rfl⟩ := program_eq_ok.mp h
      · exact ⟨[], rfl, rfl, Nat.zero_le _⟩
      · obtain ⟨others, rfl, rfl, hnesting'⟩ := ih _ (hn ▸ hfirst.length_lt) hothers rfl
        obtain ⟨first, rfl, rfl, hnesting⟩ := statement_sound hfirst
        exact ⟨first :: others, rfl, rfl, Nat.max_le.mpr ⟨hnesting, hnesting'⟩⟩

/-! ## Completeness -/

/-- A chain ends where it has no operator to take up. -/
theorem chain_done {left : Expr} (h : Below level tokens) :
    (chain depth level left tokens).Returns left tokens :=
  chain_returns.mpr (.done h)

theorem eq_of_chain {left e : Expr} (h : Below level tokens)
    (hchain : (chain depth level left tokens).Returns e rest) : e = left ∧ rest = tokens := by
  cases chain_returns.mp hchain with
  | done => exact ⟨rfl, rfl⟩
  | compare _ hlevel | operator _ hlevel => exact absurd (below_op.mp h) (Nat.not_lt.mpr hlevel)

/-- No operator belongs to an atom. -/
theorem binary_seven {e : Expr} :
    (binary depth 7 tokens).Returns e rest ↔ (atom depth tokens).Returns e rest := by
  rw [binary_returns]
  constructor
  · rintro ⟨left, mid, hleft, hchain⟩
    obtain ⟨rfl, rfl⟩ := eq_of_chain (below_seven _) hchain
    exact hleft
  · intro h
    exact ⟨e, rest, h, chain_done (below_seven _)⟩

/-- **What the grammar derives is read.** The parser then goes on with the chain behind the tree;
this is stated for any outcome of that chain, since at the left edge of a larger tree the chain goes
on with an operator. -/
theorem binary_complete {k depth level : Nat} {tree : ExprTree} {rest rest' : List Lexeme}
    {e : Expr} (h : Derives k tree) (hnesting : tree.nesting ≤ maxNesting - depth)
    (hlevel : level ≤ k) (hrest : Below (follow k) rest)
    (hchain : (chain depth level tree.ast rest).Returns e rest') :
    (binary depth level (tree.yield ++ rest)).Returns e rest' := by
  induction h generalizing depth level rest rest' e with
  | number => exact binary_returns.mpr ⟨_, _, atom_returns.mpr .number, hchain⟩
  | name => exact binary_returns.mpr ⟨_, _, atom_returns.mpr .name, hchain⟩
  | @group start inner stop _ ih =>
      simp only [ExprTree.nesting] at hnesting
      have hinner : (binary (depth + 1) 0 (inner.yield ++ ⟨.closeParen, stop⟩ :: rest)).Returns
          inner.ast (⟨.closeParen, stop⟩ :: rest) :=
        ih (by omega) (Nat.le_refl _) (below_cons nofun) (chain_done (below_cons nofun))
      rw [ExprTree.yield, List.cons_append, List.append_assoc]
      exact binary_returns.mpr ⟨_, _, atom_returns.mpr (.group (by omega) hinner), hchain⟩
  | @not span operand _ ih =>
      simp only [ExprTree.nesting] at hnesting
      have hoperand : (binary (depth + 1) 7 (operand.yield ++ rest)).Returns operand.ast rest :=
        ih (by omega) (Nat.le_refl _) hrest (chain_done (below_seven _))
      exact binary_returns.mpr
        ⟨_, _, atom_returns.mpr (.not (by omega) (binary_seven.mp hoperand)), hchain⟩
  | operand _ ih =>
      exact ih hnesting (Nat.le_succ_of_le hlevel) (hrest.mono (follow_mono (Nat.le_succ _))) hchain
  | @compare left op span right hop _ _ ihl ihr =>
      obtain ⟨hl, hr⟩ := Nat.max_le.mp hnesting
      have hzero := mem_operators.mp hop
      obtain rfl : level = 0 := Nat.le_zero.mp hlevel
      -- nothing can follow a comparison
      obtain ⟨rfl, rfl⟩ := eq_of_chain (hrest.mono (Nat.zero_le _)) hchain
      have hright :
          (binary depth (op.level + 1) (right.yield ++ rest')).Returns right.ast rest' := by
        rw [hzero]
        exact ihr hr (Nat.le_refl _) (hrest.mono (Nat.zero_le _))
          (chain_done (hrest.mono (Nat.zero_le _)))
      rw [ExprTree.yield, List.append_assoc, List.cons_append]
      refine ihl hl (Nat.zero_le _) (below_op.mpr (hzero ▸ by decide)) (chain_returns.mpr ?_)
      exact .compare (op.level_eq_zero_iff.mp hzero) (Nat.zero_le _) hright
  | @chain k left op span right hk hop _ _ ihl ihr =>
      obtain ⟨hl, hr⟩ := Nat.max_le.mp hnesting
      obtain rfl := mem_operators.mp hop
      rw [follow_of_pos hk] at hrest
      have hright : (binary depth (op.level + 1) (right.yield ++ rest)).Returns right.ast rest :=
        ihr hr (Nat.le_refl _) (hrest.mono (Nat.le_succ _)) (chain_done hrest)
      rw [ExprTree.yield, List.append_assoc, List.cons_append]
      refine ihl hl hlevel ?_ (chain_returns.mpr ?_)
      · rw [below_op, follow_of_pos hk]
        exact Nat.lt_succ_self _
      · refine .operator ?_ hlevel hright hchain
        rw [← Bool.not_eq_true, ← op.level_eq_zero_iff]
        exact Nat.ne_of_gt hk

/-- An expression is read up to a token that is no operator. -/
theorem expression_complete {token : Token} {span : Span} (x : Expression)
    (hnesting : x.val.nesting ≤ maxNesting - depth) (ht : ∀ op, token ≠ .op op) :
    (expression depth (x.val.yield ++ ⟨token, span⟩ :: rest)).Returns x.val.ast
      (⟨token, span⟩ :: rest) :=
  binary_complete x.property hnesting (Nat.zero_le _) (below_cons ht) (chain_done (below_cons ht))

mutual

theorem statement_complete {depth : Nat} {rest : List Lexeme} (tree : StmtTree)
    (hnesting : tree.nesting ≤ maxNesting - depth) (hrest : NoElse rest) :
    (statement depth (tree.yield ++ rest)).Returns tree.ast rest := by
  apply statement_returns.mpr
  cases tree with
  | declare keyword id span equals value semicolon =>
      simp only [StmtTree.yield, List.cons_append, List.append_assoc, List.nil_append]
      exact .declare (expression_complete value hnesting nofun)
  | print keyword value semicolon =>
      simp only [StmtTree.yield, List.cons_append, List.append_assoc, List.nil_append]
      exact .print (expression_complete value hnesting nofun)
  | ifThen keyword condition colon body =>
      obtain ⟨hcondition, hbody⟩ := Nat.max_le.mp hnesting
      simp only [StmtTree.yield, List.cons_append, List.append_assoc]
      exact .ifThen (expression_complete condition hcondition nofun) (block_complete body hbody)
        hrest
  | ifElse keyword condition colon body otherwise colon? other =>
      obtain ⟨hcondition, hblocks⟩ := Nat.max_le.mp hnesting
      obtain ⟨hbody, hother⟩ := Nat.max_le.mp hblocks
      simp only [StmtTree.yield, List.cons_append, List.append_assoc]
      exact .ifElse colon? (expression_complete condition hcondition nofun)
        (block_complete body hbody) (block_complete other hother)
  | loop keyword condition colon body =>
      obtain ⟨hcondition, hbody⟩ := Nat.max_le.mp hnesting
      simp only [StmtTree.yield, List.cons_append, List.append_assoc]
      exact .loop (expression_complete condition hcondition nofun) (block_complete body hbody)
  | block body => exact .block (block_complete body hnesting)

theorem block_complete {depth : Nat} {rest : List Lexeme} (tree : BlockTree)
    (hnesting : tree.nesting ≤ maxNesting - depth) :
    (block depth (tree.yield ++ rest)).Returns tree.ast rest := by
  cases tree with
  | braces start body stop =>
      simp only [BlockTree.nesting] at hnesting
      have hbody :
          (blockEnd (depth + 1) (ProgramTree.yield body ++ ⟨.closeBrace, stop⟩ :: rest)).Returns
            (ProgramTree.ast body) rest :=
        blockEnd_complete body (by omega)
      rw [BlockTree.yield, List.cons_append, List.append_assoc]
      exact block_returns.mpr ⟨start, _, rfl, by omega, hbody⟩

theorem blockEnd_complete {depth : Nat} {stop : Span} {rest : List Lexeme} (tree : ProgramTree)
    (hnesting : tree.nesting ≤ maxNesting - depth) :
    (blockEnd depth (tree.yield ++ ⟨.closeBrace, stop⟩ :: rest)).Returns tree.ast rest := by
  apply blockEnd_returns.mpr
  cases tree with
  | nil => exact .done
  | cons first others =>
      obtain ⟨hfirst, hothers⟩ := Nat.max_le.mp hnesting
      rw [ProgramTree.yield, List.append_assoc]
      exact .statement (statement_complete first hfirst (noElse_yield_append others nofun))
        (blockEnd_complete others hothers)

end

theorem program_complete (tree : ProgramTree) (hnesting : tree.nesting ≤ maxNesting - depth) :
    program depth tree.yield = .ok tree.ast := by
  induction tree with
  | nil => exact program_eq_ok.mpr (.inl ⟨rfl, rfl⟩)
  | cons first others ih =>
      obtain ⟨hfirst, hothers⟩ := Nat.max_le.mp hnesting
      have helse : NoElse (ProgramTree.yield others) := by
        have happend := noElse_yield_append others (show NoElse [] from nofun)
        rwa [List.append_nil] at happend
      exact program_eq_ok.mpr
        (.inr ⟨_, _, _, statement_complete first hfirst helse, ih hothers, rfl⟩)

end Parse

theorem Cursor.program_eq_ok {cursor : Cursor} {p : Program} :
    cursor.program = .ok p ↔ Parse.program cursor.depth cursor.rest = .ok p := by
  unfold Cursor.program
  cases Parse.program cursor.depth cursor.rest <;> simp

/-- **The parser accepts the grammar, and nothing else.** Every sentence has one derivation. The
tokens that are parsed are the sentences whose derivation has at most 256 parentheses, blocks and
complements open at once, and the result is the syntax tree of that derivation. -/
theorem parse_iff_derivation :
    Function.Injective ProgramTree.yield ∧
      ∀ (source : Source) (tokens : List Lexeme) (p : Program),
        (Cursor.start source tokens).program = .ok p ↔
          ∃ tree : ProgramTree, tree.yield = tokens ∧ tree.nesting ≤ 256 ∧ tree.ast = p := by
  refine ⟨yield_injective, ?_⟩
  intro source tokens p
  rw [Cursor.program_eq_ok]
  constructor
  · intro h
    obtain ⟨tree, hast, hyield, hnesting⟩ := Parse.program_sound h
    exact ⟨tree, hyield.symm, hnesting, hast⟩
  · rintro ⟨tree, rfl, hnesting, rfl⟩
    exact Parse.program_complete tree hnesting

end SixReg
