import SixReg.Proofs.Syntax.Parse
import SixReg.Proofs.Syntax.Viable

/-!
# Where the parser is stuck

A parser that meets a token it did not expect has read a prefix of its tokens. This prefix begins a
sentence, since what was read so far can be completed to a derivation; with the next token it begins
none, since the machine that reads sentences refuses that token.

* When each parser is stuck is written down once, with a case for every way to be so
  (`atom_stuckAt`, `statement_stuckAt`, ...).
* `Blocked` says both things about the rest that a parser leaves. It is carried from the parser of a
  part to that of the whole by `Blocked.extend`: what stands in front of the part leads the machine
  to the goals of the part, and a text of the part is completed to one of the whole.
-/

namespace SixReg

open Grammar

namespace Parse

/-! ## When the parsers are stuck -/

/-- The token that comes next, if there is one. -/
def peek (tokens : List Lexeme) : Option Token := tokens.head?.map Lexeme.token

theorem peek_eq_some {tokens : List Lexeme} {token : Token} :
    peek tokens = some token ↔ ∃ span tail, tokens = ⟨token, span⟩ :: tail := by
  cases tokens with
  | nil => simp [peek]
  | cons lexeme tail =>
      obtain ⟨token', span⟩ := lexeme
      simp [peek]

/-- The parser met a token that it did not expect, with `rest` left. -/
def Reply.StuckAt {n : Nat} {α : Type} (reply : Reply n α) (rest : List Lexeme) : Prop :=
  ∃ found expected depth, reply = .error ⟨.unexpected found expected, rest, depth⟩

namespace Reply

variable {m n : Nat} {α β : Type} {reply : Reply n α} {a : α} {rest rest' : List Lexeme}

@[simp]
theorem ok_stuckAt {short : rest'.length < n} : ¬(Reply.ok a rest' short).StuckAt rest :=
  nofun

@[simp]
theorem unexpected_stuckAt {depth : Nat} {expected : Expected} {tokens : List Lexeme} :
    (unexpected depth expected tokens : Reply n α).StuckAt rest ↔ tokens = rest := by
  constructor
  · rintro ⟨_, _, _, h⟩
    simp only [unexpected, Reply.error.injEq, Stuck.mk.injEq] at h
    exact h.2.1
  · rintro rfl
    exact ⟨_, _, _, rfl⟩

@[simp]
theorem nested_stuckAt {depth : Nat} {tokens : List Lexeme} :
    ¬(Reply.error ⟨.nestedTooDeeply, tokens, depth⟩ : Reply n α).StuckAt rest := by
  rintro ⟨_, _, _, h⟩
  simp at h

@[simp]
theorem bind_stuckAt {next : α → (rest : List Lexeme) → rest.length < n → Reply m β} :
    (reply.bind next).StuckAt rest ↔
      reply.StuckAt rest ∨
        ∃ a mid, ∃ h : reply.Returns a mid, (next a mid h.length_lt).StuckAt rest := by
  cases reply with
  | error stuck => simp [StuckAt]
  | ok a mid short =>
      rw [bind_ok]
      constructor
      · intro h
        exact .inr ⟨a, mid, ⟨short, rfl⟩, h⟩
      · intro h
        rcases h with h | ⟨_, _, ⟨_, ⟨⟩⟩, h⟩
        · exact absurd h ok_stuckAt
        · exact h

end Reply

variable {depth level : Nat} {tokens rest : List Lexeme}

@[simp]
theorem expect_stuckAt {token : Token} {expected : Expected} :
    (expect depth token expected tokens).StuckAt rest ↔
      tokens = rest ∧ peek tokens ≠ some token := by
  unfold expect
  split
  · simp [peek]
  · next lexeme tail =>
      by_cases h : lexeme.token = token <;> simp [h, peek]

theorem name_stuckAt :
    (name depth tokens).StuckAt rest ↔ tokens = rest ∧ ∀ id, peek tokens ≠ some (.ident id) := by
  unfold name
  split
  · simp [peek]
  · next hname =>
      rw [Reply.unexpected_stuckAt, iff_self_and]
      intro _ id hpeek
      obtain ⟨span, tail, htokens⟩ := peek_eq_some.mp hpeek
      exact hname _ _ _ htokens

/-- An expression is not read up to a token of the given kind. -/
def Unended (depth : Nat) (token : Token) (tokens rest : List Lexeme) : Prop :=
  (expression depth tokens).StuckAt rest ∨
    ∃ e, (expression depth tokens).Returns e rest ∧ peek rest ≠ some token

/-- Where `atom` is stuck, by its first token. -/
inductive AtomStuck (depth : Nat) : List Lexeme → List Lexeme → Prop where
  | here {tokens : List Lexeme}
      (h : ∀ compared goals, advance (.operand compared :: goals) (peek tokens) = none) :
      AtomStuck depth tokens tokens
  | group {start : Span} {tokens rest : List Lexeme}
      (h : Unended (depth + 1) .closeParen tokens rest) :
      AtomStuck depth (⟨.openParen, start⟩ :: tokens) rest
  | not {span : Span} {tokens rest : List Lexeme} (h : (atom (depth + 1) tokens).StuckAt rest) :
      AtomStuck depth (⟨.tilde, span⟩ :: tokens) rest

theorem atom_stuckAt (h : (atom depth tokens).StuckAt rest) : AtomStuck depth tokens rest := by
  rw [atom.eq_def] at h
  split at h
  · exact absurd h Reply.ok_stuckAt
  · exact absurd h Reply.ok_stuckAt
  · split at h
    · simp only [Reply.bind_stuckAt, expect_stuckAt, Reply.ok_stuckAt, exists_false, or_false,
        exists_prop] at h
      apply AtomStuck.group
      rcases h with h | ⟨inner, mid, hinner, rfl, hclose⟩
      · exact .inl h
      · exact .inr ⟨inner, hinner, hclose⟩
    · exact absurd h Reply.nested_stuckAt
  · split at h
    · simp only [Reply.bind_stuckAt, Reply.ok_stuckAt, exists_false, or_false] at h
      exact .not h
    · exact absurd h Reply.nested_stuckAt
  · next hnumber hname hgroup hnot =>
      obtain rfl := Reply.unexpected_stuckAt.mp h
      apply AtomStuck.here
      intro compared goals
      cases tokens with
      | nil => rfl
      | cons lexeme tail =>
          obtain ⟨token, span⟩ := lexeme
          cases token with
          | number => exact absurd rfl (hnumber _ _ _)
          | ident => exact absurd rfl (hname _ _ _)
          | openParen => exact absurd rfl (hgroup _ _)
          | tilde => exact absurd rfl (hnot _ _)
          | _ => rfl

theorem binary_stuckAt (h : (binary depth level tokens).StuckAt rest) :
    (atom depth tokens).StuckAt rest ∨
      ∃ left mid, (atom depth tokens).Returns left mid ∧
        (chain depth level left mid).StuckAt rest := by
  rw [binary] at h
  simpa using h

/-- Where `chain` is stuck: behind an operator. -/
inductive ChainStuck (depth level : Nat) (left : Expr) : List Lexeme → List Lexeme → Prop where
  | right {op : BinOp} {span : Span} {tokens rest : List Lexeme} (hlevel : level ≤ op.level)
      (h : (binary depth (op.level + 1) tokens).StuckAt rest) :
      ChainStuck depth level left (⟨.op op, span⟩ :: tokens) rest
  | operator {op : BinOp} {span : Span} {tokens mid rest : List Lexeme} {right : Expr}
      (hop : op.isComparison = false) (hlevel : level ≤ op.level)
      (hright : (binary depth (op.level + 1) tokens).Returns right mid)
      (h : (chain depth level (.binary op left right) mid).StuckAt rest) :
      ChainStuck depth level left (⟨.op op, span⟩ :: tokens) rest

theorem chain_stuckAt {left : Expr} (h : (chain depth level left tokens).StuckAt rest) :
    ChainStuck depth level left tokens rest := by
  rw [chain.eq_def] at h
  split at h
  · split at h
    · exact absurd h Reply.ok_stuckAt
    · next hlevel =>
        rcases Reply.bind_stuckAt.mp h with h | ⟨right, mid, hright, h⟩
        · exact .right (Nat.le_of_not_lt hlevel) h
        · split at h
          · exact absurd h Reply.ok_stuckAt
          · next hop =>
              simp only [Reply.bind_stuckAt, Reply.ok_stuckAt, exists_false, or_false] at h
              exact .operator (Bool.not_eq_true _ ▸ hop) (Nat.le_of_not_lt hlevel) hright h
  · exact absurd h Reply.ok_stuckAt

/-- Where `statement` is stuck, by its first token. -/
inductive StatementStuck (depth : Nat) : List Lexeme → List Lexeme → Prop where
  | here {tokens : List Lexeme}
      (h : ∀ goals, advance (.statements :: goals) (peek tokens) = advance goals (peek tokens)) :
      StatementStuck depth tokens tokens
  | target {keyword : Span} {rest : List Lexeme} (h : ∀ id, peek rest ≠ some (.ident id)) :
      StatementStuck depth (⟨.kwVar, keyword⟩ :: rest) rest
  | assign {keyword span : Span} {id : String} {rest : List Lexeme}
      (h : peek rest ≠ some .assign) :
      StatementStuck depth (⟨.kwVar, keyword⟩ :: ⟨.ident id, span⟩ :: rest) rest
  | value {keyword span equals : Span} {id : String} {tokens rest : List Lexeme}
      (h : Unended depth .semicolon tokens rest) :
      StatementStuck depth
        (⟨.kwVar, keyword⟩ :: ⟨.ident id, span⟩ :: ⟨.assign, equals⟩ :: tokens) rest
  | print {keyword : Span} {tokens rest : List Lexeme} (h : Unended depth .semicolon tokens rest) :
      StatementStuck depth (⟨.kwPrint, keyword⟩ :: tokens) rest
  | condition {keyword : Span} {tokens rest : List Lexeme} (h : Unended depth .colon tokens rest) :
      StatementStuck depth (⟨.kwIf, keyword⟩ :: tokens) rest
  | body {keyword colon : Span} {tokens mid rest : List Lexeme} {condition : Expr}
      (hcondition : (expression depth tokens).Returns condition (⟨.colon, colon⟩ :: mid))
      (h : (Parse.block depth mid).StuckAt rest) :
      StatementStuck depth (⟨.kwIf, keyword⟩ :: tokens) rest
  | other {keyword colon otherwise : Span} {tokens mid mid' rest : List Lexeme} {condition : Expr}
      {body : Block} (colon? : Option Span)
      (hcondition : (expression depth tokens).Returns condition (⟨.colon, colon⟩ :: mid))
      (hbody : (Parse.block depth mid).Returns body
        (⟨.kwElse, otherwise⟩ :: (colon?.toList.map (Lexeme.mk .colon) ++ mid')))
      (hcolon : colon? = none → peek mid' ≠ some .colon)
      (h : (Parse.block depth mid').StuckAt rest) :
      StatementStuck depth (⟨.kwIf, keyword⟩ :: tokens) rest
  | loopCondition {keyword : Span} {tokens rest : List Lexeme}
      (h : Unended depth .colon tokens rest) :
      StatementStuck depth (⟨.kwWhile, keyword⟩ :: tokens) rest
  | loopBody {keyword colon : Span} {tokens mid rest : List Lexeme} {condition : Expr}
      (hcondition : (expression depth tokens).Returns condition (⟨.colon, colon⟩ :: mid))
      (h : (Parse.block depth mid).StuckAt rest) :
      StatementStuck depth (⟨.kwWhile, keyword⟩ :: tokens) rest
  | block {start : Span} {tokens rest : List Lexeme}
      (h : (Parse.block depth (⟨.openBrace, start⟩ :: tokens)).StuckAt rest) :
      StatementStuck depth (⟨.openBrace, start⟩ :: tokens) rest

theorem statement_stuckAt (h : (statement depth tokens).StuckAt rest) :
    StatementStuck depth tokens rest := by
  rw [statement.eq_def] at h
  split at h
  · simp only [Reply.bind_stuckAt, expect_stuckAt, name_stuckAt, expect_returns, name_returns,
      Reply.ok_stuckAt, exists_false, or_false, exists_prop] at h
    rcases h with ⟨rfl, h⟩ | ⟨⟨id, span⟩, mid, rfl, h⟩
    · exact .target h
    rcases h with ⟨rfl, h⟩ | ⟨_, mid, ⟨equals, rfl⟩, h⟩
    · exact .assign h
    apply StatementStuck.value
    rcases h with h | ⟨value, mid, hvalue, rfl, hend⟩
    · exact .inl h
    · exact .inr ⟨value, hvalue, hend⟩
  · simp only [Reply.bind_stuckAt, expect_stuckAt, Reply.ok_stuckAt, exists_false, or_false,
      exists_prop] at h
    apply StatementStuck.print
    rcases h with h | ⟨value, mid, hvalue, rfl, hend⟩
    · exact .inl h
    · exact .inr ⟨value, hvalue, hend⟩
  · simp only [Reply.bind_stuckAt, expect_stuckAt, expect_returns] at h
    rcases h with h | ⟨condition, mid, hcondition, h⟩
    · exact .condition (.inl h)
    rcases h with ⟨rfl, hend⟩ | ⟨_, mid, ⟨colon, rfl⟩, h⟩
    · exact .condition (.inr ⟨condition, hcondition, hend⟩)
    rcases h with h | ⟨body, mid', hbody, h⟩
    · exact .body hcondition h
    split at h
    · simp only [Reply.bind_stuckAt, Reply.ok_stuckAt, exists_false, or_false] at h
      exact .other (some _) hcondition hbody (by simp) h
    · next hcolon =>
        simp only [Reply.bind_stuckAt, Reply.ok_stuckAt, exists_false, or_false] at h
        refine .other none hcondition hbody ?_ h
        intro _ hpeek
        obtain ⟨span, tail, rfl⟩ := peek_eq_some.mp hpeek
        exact hcolon _ _ _ rfl HEq.rfl
    · exact absurd h Reply.ok_stuckAt
  · simp only [Reply.bind_stuckAt, expect_stuckAt, expect_returns, Reply.ok_stuckAt, exists_false,
      or_false, exists_prop] at h
    rcases h with h | ⟨condition, mid, hcondition, h⟩
    · exact .loopCondition (.inl h)
    rcases h with ⟨rfl, hend⟩ | ⟨_, mid, ⟨colon, rfl⟩, h⟩
    · exact .loopCondition (.inr ⟨condition, hcondition, hend⟩)
    · exact .loopBody hcondition h
  · simp only [Reply.bind_stuckAt, Reply.ok_stuckAt, exists_false, or_false] at h
    exact .block h
  · next hvar hprint hif hwhile hbrace =>
      obtain rfl := Reply.unexpected_stuckAt.mp h
      apply StatementStuck.here
      intro goals
      cases tokens with
      | nil => rfl
      | cons lexeme tail =>
          obtain ⟨token, span⟩ := lexeme
          cases token with
          | kwVar => exact absurd rfl (hvar _ _)
          | kwPrint => exact absurd rfl (hprint _ _)
          | kwIf => exact absurd rfl (hif _ _)
          | kwWhile => exact absurd rfl (hwhile _ _)
          | openBrace => exact absurd rfl (hbrace _ _)
          | _ => rfl

theorem block_stuckAt (h : (block depth tokens).StuckAt rest) :
    (tokens = rest ∧ peek tokens ≠ some .openBrace) ∨
      ∃ start mid, tokens = ⟨.openBrace, start⟩ :: mid ∧
        (blockEnd (depth + 1) mid).StuckAt rest := by
  rw [block] at h
  rcases Reply.bind_stuckAt.mp h with h | ⟨_, mid, hopen, h⟩
  · exact .inl (expect_stuckAt.mp h)
  · obtain ⟨start, rfl⟩ := expect_returns.mp hopen
    split at h
    · simp only [Reply.bind_stuckAt, Reply.ok_stuckAt, exists_false, or_false] at h
      exact .inr ⟨start, mid, rfl, h⟩
    · exact absurd h Reply.nested_stuckAt

/-- Where `blockEnd` is stuck. -/
inductive BlockEndStuck (depth : Nat) : List Lexeme → List Lexeme → Prop where
  | done : BlockEndStuck depth [] []
  | first {tokens rest : List Lexeme} (hpeek : peek tokens ≠ some .closeBrace)
      (h : (statement depth tokens).StuckAt rest) : BlockEndStuck depth tokens rest
  | later {tokens mid rest : List Lexeme} {first : Stmt}
      (hfirst : (statement depth tokens).Returns first mid)
      (h : (blockEnd depth mid).StuckAt rest) : BlockEndStuck depth tokens rest

theorem blockEnd_stuckAt (h : (blockEnd depth tokens).StuckAt rest) :
    BlockEndStuck depth tokens rest := by
  rw [blockEnd.eq_def] at h
  split at h
  · obtain rfl := Reply.unexpected_stuckAt.mp h
    exact .done
  · exact absurd h Reply.ok_stuckAt
  · next hbrace =>
      simp only [Reply.bind_stuckAt, Reply.ok_stuckAt, exists_false, or_false] at h
      rcases h with h | ⟨first, mid, hfirst, h⟩
      · refine .first ?_ h
        intro hpeek
        obtain ⟨span, tail, htokens⟩ := peek_eq_some.mp hpeek
        exact hbrace _ _ htokens
      · exact .later hfirst h

/-! ## What was read, and what comes next -/

/-- The tokens up to `rest` begin a text of the given kind, and the next token cannot go on with the
goals. -/
def Blocked (texts : List Lexeme → Prop) (goals : List Goal) (tokens rest : List Lexeme) : Prop :=
  ∃ read more, tokens = read ++ rest ∧ texts (read ++ more) ∧
    run goals (marks read ++ [peek rest]) = none

variable {texts texts' : List Lexeme → Prop} {goals goals' : List Goal} {compared : Bool}

/-- At the first token already. -/
theorem blocked_here {text : List Lexeme} (htext : texts text)
    (h : advance goals (peek tokens) = none) : Blocked texts goals tokens tokens := by
  refine ⟨[], text, rfl, htext, ?_⟩
  rw [marks_nil, List.nil_append]
  exact run_singleton_eq_none h

theorem exists_marks_peek (read rest : List Lexeme) :
    ∃ after, marks read ++ [peek rest] = peek (read ++ rest) :: after := by
  cases read with
  | nil => exact ⟨[], rfl⟩
  | cons lexeme read => exact ⟨marks read ++ [peek rest], rfl⟩

/-- **From a part to the whole**: behind `front` the machine has the goals of the part, and what the
part can be completed to can be completed further. -/
theorem Blocked.extend {whole : List Lexeme} (h : Blocked texts goals tokens rest)
    (front : List Lexeme) (hwhole : whole = front ++ tokens)
    (htexts : ∀ text, texts text → ∃ more, texts' (front ++ (text ++ more)))
    (hrun : ∀ after, run goals' (marks front ++ peek tokens :: after) =
      run goals (peek tokens :: after)) : Blocked texts' goals' whole rest := by
  subst hwhole
  obtain ⟨read, more, rfl, htext, hrefuse⟩ := h
  obtain ⟨more', htext'⟩ := htexts _ htext
  obtain ⟨after, hmarks⟩ := exists_marks_peek read rest
  refine ⟨front ++ read, more ++ more', (List.append_assoc ..).symm, ?_, ?_⟩
  · simpa only [List.append_assoc] using htext'
  · rw [marks_append, List.append_assoc, hmarks, hrun, ← hmarks]
    exact hrefuse

/-- A text that the rule with number `k` derives. -/
def ExprText (k : Nat) (text : List Lexeme) : Prop := ∃ tree, Derives k tree ∧ tree.yield = text

/-- An expression and the token behind it. -/
def EndedText (token : Token) (text : List Lexeme) : Prop :=
  ∃ (x : Expression) (span : Span), x.val.yield ++ [⟨token, span⟩] = text

/-- A token that ends a tree is not for its operators. -/
theorem advance_operators {tree : ExprTree} (hbelow : Below 1 rest)
    (hend : Below 0 rest ∨ tree.level = 0) :
    advance (.operators (tree.level == 0) :: goals) (peek rest) = advance goals (peek rest) := by
  cases rest with
  | nil => rfl
  | cons lexeme tail =>
      obtain ⟨token, span⟩ := lexeme
      cases token with
      | op op =>
          have hcomparison := op.level_eq_zero_iff.mp (Nat.lt_one_iff.mp (below_op.mp hbelow))
          rcases hend with hend | hlevel
          · exact absurd (below_op.mp hend) (Nat.not_lt_zero _)
          · simp [peek, advance, hlevel, hcomparison]
      | _ => rfl

/-- An expression that is not read up to its end is blocked, if it is so where it is stuck. -/
theorem Unended.blocked {token : Token} (h : Unended depth token tokens rest)
    (hstuck : (expression depth tokens).StuckAt rest →
      Blocked (ExprText 0) (.operand false :: .token token :: goals) tokens rest) :
    Blocked (EndedText token) (.operand false :: .token token :: goals) tokens rest := by
  rcases h with h | ⟨e, hreturns, hpeek⟩
  · refine (hstuck h).extend [] rfl ?_ fun _ => rfl
    rintro text ⟨tree, htree, rfl⟩
    exact ⟨_, ⟨tree, htree⟩, default, rfl⟩
  · obtain ⟨tree, htree, hbelow, hend⟩ := binary_sound (Nat.zero_le _) hreturns
    refine ⟨tree.yield, [⟨token, default⟩], htree.yield, ⟨⟨tree, htree.derives⟩, default, rfl⟩, ?_⟩
    rw [run_operand htree.derives (.inr rfl), Bool.false_or]
    apply run_singleton_eq_none
    rw [advance_operators hbelow hend, advance, if_neg hpeek]

mutual

theorem atom_blocked {depth : Nat} {tokens rest : List Lexeme} {goals : List Goal}
    {compared : Bool} (h : (atom depth tokens).StuckAt rest) :
    Blocked (ExprText 7) (.operand compared :: goals) tokens rest := by
  have hstuck := atom_stuckAt h
  generalize htokens : tokens = tokens' at hstuck
  cases hstuck with
  | here h => exact blocked_here ⟨.number 0 default, .number, rfl⟩ (h compared goals)
  | @group start inside _ h =>
      have hlength : inside.length < tokens.length := by simp [htokens]
      have hinside : Blocked (EndedText .closeParen)
          (.operand false :: .token .closeParen :: .operators compared :: goals) inside rest :=
        h.blocked (binary_blocked (Nat.zero_le _) (.inr rfl))
      refine hinside.extend [⟨.openParen, start⟩] rfl ?_ fun _ => rfl
      rintro text ⟨x, stop, rfl⟩
      refine ⟨[], .group start x.val stop, x.property.group, ?_⟩
      simp [ExprTree.yield]
  | @not span inside _ h =>
      have hlength : inside.length < tokens.length := by simp [htokens]
      have hinside : Blocked (ExprText 7) (.operand compared :: goals) inside rest := atom_blocked h
      refine hinside.extend [⟨.tilde, span⟩] rfl ?_ fun _ => rfl
      rintro text ⟨tree, htree, rfl⟩
      refine ⟨[], .not span tree, htree.not, ?_⟩
      simp [ExprTree.yield]
termination_by 2 * tokens.length

/-- An operand whose operators are all of a level above the comparisons may stand in a group in
which a comparison was made. -/
theorem binary_blocked {depth level : Nat} {tokens rest : List Lexeme} {goals : List Goal}
    {compared : Bool} (hlevel : level ≤ 7) (hcompared : 0 < level ∨ compared = false)
    (h : (binary depth level tokens).StuckAt rest) :
    Blocked (ExprText level) (.operand compared :: goals) tokens rest := by
  rcases binary_stuckAt h with h | ⟨left, mid, hleft, h⟩
  · refine (atom_blocked h).extend [] rfl ?_ fun _ => rfl
    rintro text ⟨tree, htree, rfl⟩
    exact ⟨[], tree, htree.loosen hlevel, (List.append_nil _).symm⟩
  · have hlength := hleft.length_lt
    obtain ⟨tree, htree⟩ := atom_sound hleft
    have hchain : Blocked (fun text => ExprText level (tree.yield ++ text))
        (.operators compared :: goals) mid rest :=
      chain_blocked hcompared htree.derives (by decide) ((below_seven _).mono (by decide)) h
    refine hchain.extend tree.yield htree.yield ?_ ?_
    · intro text htext
      exact ⟨[], by rwa [List.append_nil]⟩
    · intro after
      rw [run_operand htree.derives (.inl (by decide)), level_beq_zero htree.derives (by decide),
        Bool.or_false]
termination_by 2 * tokens.length + 1

/-- The invariant is that of the chain's soundness. -/
theorem chain_blocked {j depth level : Nat} {tokens rest : List Lexeme} {left : Expr}
    {tree : ExprTree} {goals : List Goal} {compared : Bool}
    (hcompared : 0 < level ∨ compared = false) (htree : Derives j tree) (hj : 0 < j)
    (hbelow : Below (j + 1) tokens)
    (h : (chain depth level left tokens).StuckAt rest) :
    Blocked (fun text => ExprText level (tree.yield ++ text)) (.operators compared :: goals)
      tokens rest := by
  have hstuck := chain_stuckAt h
  generalize htokens : tokens = tokens' at hstuck
  cases hstuck with
  | @right op span after _ hlevel' h =>
      have hlength : after.length < tokens.length := by simp [htokens]
      rw [htokens] at hbelow
      have hle : op.level ≤ j := Nat.le_of_lt_succ (below_op.mp hbelow)
      have hpart : Blocked (ExprText (op.level + 1))
          (.operand (compared || op.isComparison) :: goals) after rest :=
        binary_blocked (Nat.succ_le_succ op.level_le) (.inl (Nat.succ_pos _)) h
      refine hpart.extend [⟨.op op, span⟩] rfl ?_ ?_
      · rintro text ⟨tree', htree', rfl⟩
        have hwhole : Derives op.level (.binary tree op span tree') :=
          .binary (htree.loosen (Nat.max_le.mpr ⟨hle, hj⟩)) htree'
        refine ⟨[], _, hwhole.loosen hlevel', ?_⟩
        simp [ExprTree.yield]
      · intro _
        apply run_operator
        -- a comparison is taken up at level zero only, where none has been made
        rcases hcompared with hpos | rfl
        · rw [Bool.and_eq_false_iff, ← Bool.not_eq_true op.isComparison, ← op.level_eq_zero_iff]
          right
          omega
        · rfl
  | @operator op span after mid _ right hop hlevel' hright h =>
      have hlength : after.length < tokens.length := by simp [htokens]
      have hlength' := hright.length_lt
      rw [htokens] at hbelow
      have hle : op.level ≤ j := Nat.le_of_lt_succ (below_op.mp hbelow)
      have hpos : 0 < op.level := by
        rw [Nat.pos_iff_ne_zero, Ne, op.level_eq_zero_iff, hop]
        decide
      obtain ⟨tree', htree', hbelow', -⟩ := binary_sound (Nat.succ_le_succ op.level_le) hright
      have hwhole : Derives op.level (.binary tree op span tree') :=
        .binary (htree.loosen (Nat.max_le.mpr ⟨hle, hj⟩)) htree'.derives
      have hrest : Blocked
          (fun text => ExprText level ((ExprTree.binary tree op span tree').yield ++ text))
          (.operators compared :: goals) mid rest :=
        chain_blocked hcompared hwhole hpos (hbelow'.mono (by omega)) h
      refine hrest.extend (⟨.op op, span⟩ :: tree'.yield) (congrArg (_ :: ·) htree'.yield) ?_ ?_
      · intro text htext
        refine ⟨[], ?_⟩
        simpa [ExprTree.yield] using htext
      · intro after'
        rw [marks_cons, List.cons_append, run_operator (by rw [hop, Bool.and_false]), hop,
          Bool.or_false, run_operand htree'.derives (.inl (Nat.succ_pos _)),
          level_beq_zero htree'.derives (Nat.succ_pos _), Bool.or_false]
termination_by 2 * tokens.length

end

theorem unended_blocked {token : Token} (h : Unended depth token tokens rest) :
    Blocked (EndedText token) (.operand false :: .token token :: goals) tokens rest :=
  h.blocked (binary_blocked (Nat.zero_le _) (.inr rfl))

/-- A text that is a statement. -/
def StmtText (text : List Lexeme) : Prop := ∃ tree : StmtTree, tree.yield = text

/-- A text that is a block. -/
def BlockText (text : List Lexeme) : Prop := ∃ tree : BlockTree, tree.yield = text

/-- The statements of a block and its closing brace. -/
def BlockEndText (text : List Lexeme) : Prop :=
  ∃ (tree : ProgramTree) (stop : Span), tree.yield ++ [⟨.closeBrace, stop⟩] = text

/-- Something to complete a text with. -/
def anyExpression : Expression :=
  ⟨.number 0 default, Derives.loosen (j := 7) .number (Nat.zero_le _)⟩

@[inherit_doc anyExpression]
def anyBlock : BlockTree := .braces default [] default

/-- A statement that is a condition without an `else` has none behind it. -/
theorem noElse_of_statement {s : Stmt} {tree : StmtTree}
    (h : (statement depth tokens).Returns s rest) (htree : tree.ast = s) :
    ∀ keyword condition colon body, tree = .ifThen keyword condition colon body →
      peek rest ≠ some .kwElse := by
  rintro keyword condition colon body rfl hpeek
  obtain ⟨span, tail, rfl⟩ := peek_eq_some.mp hpeek
  subst htree
  cases statement_returns.mp h with
  | ifThen _ _ hrest => exact hrest _ _ rfl

/-- Behind a condition and its colon. -/
theorem Blocked.condition {mid : List Lexeme} {colon : Span} {condition : Expr}
    (h : Blocked texts goals mid rest)
    (hcondition : (expression depth tokens).Returns condition (⟨.colon, colon⟩ :: mid)) :
    Blocked (fun text => ∃ (x : Expression) (part : List Lexeme), texts part ∧
        x.val.yield ++ ⟨.colon, colon⟩ :: part = text)
      (.operand false :: .token .colon :: goals) tokens rest := by
  obtain ⟨x, -, htokens, -⟩ := expression_sound hcondition
  refine h.extend (x.val.yield ++ [⟨.colon, colon⟩]) (by simp [htokens]) ?_ ?_
  · intro text htext
    refine ⟨[], x, text, htext, ?_⟩
    simp
  · intro after
    simp only [marks_append, marks_cons, marks_nil, List.append_assoc, List.singleton_append]
    exact run_expression x .colon (by simp)

/-- Behind the block of a condition and an `else`. -/
theorem Blocked.otherwise {mid mid' : List Lexeme} {otherwise : Span} {body : Block}
    {colon? : Option Span} (h : Blocked BlockText (.block :: goals) mid' rest)
    (hcolon : colon? = none → peek mid' ≠ some .colon)
    (hbody : (block depth mid).Returns body
      (⟨.kwElse, otherwise⟩ :: (colon?.toList.map (Lexeme.mk .colon) ++ mid'))) :
    Blocked (fun text => ∃ body other : BlockTree, body.yield ++ ⟨.kwElse, otherwise⟩ ::
        (colon?.toList.map (Lexeme.mk .colon) ++ other.yield) = text)
      (.block :: .otherwise :: goals) mid rest := by
  obtain ⟨tree, -, hmid, -⟩ := block_sound hbody
  refine h.extend
    (tree.yield ++ ⟨.kwElse, otherwise⟩ :: colon?.toList.map (Lexeme.mk .colon))
    (by simp [hmid]) ?_ ?_
  · rintro text ⟨other, rfl⟩
    refine ⟨[], tree, other, ?_⟩
    simp
  · intro after
    rw [marks_append, marks_cons, List.append_assoc, run_block tree]
    show run (.alternative :: goals) _ = _
    cases colon? with
    | none =>
        show run (.alternative :: goals) (peek mid' :: after) = _
        rw [run, run, advance_alternative (hcolon rfl)]
    | some span => rfl

mutual

/-- A statement that is not even begun leaves its first token to the goals behind it. -/
theorem statement_blocked {depth : Nat} {tokens rest : List Lexeme} {goals : List Goal}
    (hgoals : advance goals (peek tokens) = none) (h : (statement depth tokens).StuckAt rest) :
    Blocked StmtText (.statements :: goals) tokens rest := by
  have hstuck := statement_stuckAt h
  generalize htokens : tokens = tokens' at hstuck
  cases hstuck with
  | here h =>
      subst htokens
      exact blocked_here ⟨.block anyBlock, rfl⟩ ((h goals).trans hgoals)
  | @target keyword _ h =>
      refine ⟨[⟨.kwVar, keyword⟩], _, rfl,
        ⟨.declare keyword default default default anyExpression default, rfl⟩, ?_⟩
      show run (.name :: _) [peek rest] = none
      exact run_singleton_eq_none (advance_name h)
  | @assign keyword span id _ h =>
      refine ⟨[⟨.kwVar, keyword⟩, ⟨.ident id, span⟩], _, rfl,
        ⟨.declare keyword id span default anyExpression default, rfl⟩, ?_⟩
      show run (.token .assign :: _) [peek rest] = none
      exact run_singleton_eq_none (if_neg h)
  | @value keyword span equals id inside _ h =>
      refine (unended_blocked h).extend
        [⟨.kwVar, keyword⟩, ⟨.ident id, span⟩, ⟨.assign, equals⟩] rfl ?_ fun _ => rfl
      rintro text ⟨x, semicolon, rfl⟩
      refine ⟨[], .declare keyword id span equals x semicolon, ?_⟩
      simp [StmtTree.yield]
  | @print keyword inside _ h =>
      refine (unended_blocked h).extend [⟨.kwPrint, keyword⟩] rfl ?_ fun _ => rfl
      rintro text ⟨x, semicolon, rfl⟩
      refine ⟨[], .print keyword x semicolon, ?_⟩
      simp [StmtTree.yield]
  | @condition keyword inside _ h =>
      refine (unended_blocked h).extend [⟨.kwIf, keyword⟩] rfl ?_ fun _ => rfl
      rintro text ⟨x, colon, rfl⟩
      refine ⟨anyBlock.yield, .ifThen keyword x colon anyBlock, ?_⟩
      simp [StmtTree.yield]
  | @body keyword colon inside mid _ condition hcondition h =>
      have hlength : mid.length + 1 < tokens.length := htokens ▸ length_lt_of_condition hcondition
      refine ((block_blocked h).condition hcondition).extend [⟨.kwIf, keyword⟩] rfl ?_ fun _ => rfl
      rintro text ⟨x, part, ⟨body, rfl⟩, rfl⟩
      refine ⟨[], .ifThen keyword x colon body, ?_⟩
      simp [StmtTree.yield]
  | @other keyword colon otherwise inside mid mid' _ condition body colon? hcondition hbody hcolon
      h =>
      have hlength : mid.length + 1 < tokens.length := htokens ▸ length_lt_of_condition hcondition
      have hlength' : mid'.length + 1 < tokens.length := by
        have hlt := hbody.length_lt
        simp only [List.length_cons, List.length_append] at hlt
        omega
      have hother : Blocked _ (.block :: .otherwise :: .statements :: goals) mid rest :=
        (block_blocked h).otherwise hcolon hbody
      refine (hother.condition hcondition).extend [⟨.kwIf, keyword⟩] rfl ?_ fun _ => rfl
      rintro text ⟨x, part, ⟨body, other, rfl⟩, rfl⟩
      refine ⟨[], .ifElse keyword x colon body otherwise colon? other, ?_⟩
      simp [StmtTree.yield]
  | @loopCondition keyword inside _ h =>
      refine (unended_blocked h).extend [⟨.kwWhile, keyword⟩] rfl ?_ fun _ => rfl
      rintro text ⟨x, colon, rfl⟩
      refine ⟨anyBlock.yield, .loop keyword x colon anyBlock, ?_⟩
      simp [StmtTree.yield]
  | @loopBody keyword colon inside mid _ condition hcondition h =>
      have hlength : mid.length + 1 < tokens.length := htokens ▸ length_lt_of_condition hcondition
      refine ((block_blocked h).condition hcondition).extend [⟨.kwWhile, keyword⟩] rfl ?_
        fun _ => rfl
      rintro text ⟨x, part, ⟨body, rfl⟩, rfl⟩
      refine ⟨[], .loop keyword x colon body, ?_⟩
      simp [StmtTree.yield]
  | block hblock =>
      subst htokens
      refine (block_blocked hblock).extend [] rfl ?_ fun _ => rfl
      rintro text ⟨body, rfl⟩
      exact ⟨[], .block body, (List.append_nil _).symm⟩
termination_by 3 * tokens.length + 1

theorem block_blocked {depth : Nat} {tokens rest : List Lexeme} {goals : List Goal}
    (h : (block depth tokens).StuckAt rest) : Blocked BlockText (.block :: goals) tokens rest := by
  rcases block_stuckAt h with ⟨rfl, hpeek⟩ | ⟨start, inside, htokens, h⟩
  · exact blocked_here ⟨anyBlock, rfl⟩ (advance_block hpeek)
  · have hlength : inside.length < tokens.length := by simp [htokens]
    refine (blockEnd_blocked h).extend [⟨.openBrace, start⟩] htokens ?_ fun _ => rfl
    rintro text ⟨body, stop, rfl⟩
    refine ⟨[], .braces start body stop, ?_⟩
    simp [BlockTree.yield]
termination_by 3 * tokens.length

theorem blockEnd_blocked {depth : Nat} {tokens rest : List Lexeme} {goals : List Goal}
    (h : (blockEnd depth tokens).StuckAt rest) :
    Blocked BlockEndText (.statements :: .token .closeBrace :: goals) tokens rest := by
  have hstuck := blockEnd_stuckAt h
  generalize htokens : tokens = tokens' at hstuck
  cases hstuck with
  | done => exact blocked_here ⟨[], default, rfl⟩ rfl
  | first hpeek hfirst =>
      subst htokens
      have hgoals : advance (.token .closeBrace :: goals) (peek tokens) = none := if_neg hpeek
      refine (statement_blocked hgoals hfirst).extend [] rfl ?_ fun _ => rfl
      rintro text ⟨tree, rfl⟩
      refine ⟨[⟨.closeBrace, default⟩], [tree], default, ?_⟩
      simp [ProgramTree.yield]
  | later hfirst hothers =>
      subst htokens
      have hlength := hfirst.length_lt
      obtain ⟨tree, hast, htokens, -⟩ := statement_sound hfirst
      refine (blockEnd_blocked hothers).extend tree.yield htokens ?_
        fun _ => run_statement tree (noElse_of_statement hfirst hast)
      rintro text ⟨others, stop, rfl⟩
      refine ⟨[], tree :: others, stop, ?_⟩
      simp [ProgramTree.yield]
termination_by 3 * tokens.length + 2

end

theorem program_stuck {stuck : Stuck} (h : program depth tokens = .error stuck) :
    tokens ≠ [] ∧ (statement depth tokens = .error stuck ∨
      ∃ first mid, (statement depth tokens).Returns first mid ∧
        program depth mid = .error stuck) := by
  cases tokens with
  | nil => simp [program] at h
  | cons lexeme tokens =>
      refine ⟨List.cons_ne_nil _ _, ?_⟩
      rw [program] at h
      split at h
      · next hs =>
          cases h
          exact .inl hs
      · next first mid short hs =>
          split at h
          · next hothers =>
              cases h
              exact .inr ⟨first, mid, ⟨short, hs⟩, hothers⟩
          · cases h

/-- A text that is a program. -/
def ProgramText (text : List Lexeme) : Prop := ∃ tree : ProgramTree, tree.yield = text

/-- **A program is stuck at the first token that cannot go on.** -/
theorem program_blocked {found : Option Token} {expected : Expected} {depth' : Nat}
    (h : program depth tokens = .error ⟨.unexpected found expected, rest, depth'⟩) :
    Blocked ProgramText [.statements] tokens rest := by
  induction hn : tokens.length using Nat.strongRecOn generalizing tokens with
  | ind n ih =>
      obtain ⟨hne, hfirst | ⟨first, mid, hfirst, hothers⟩⟩ := program_stuck h
      · -- the end of the program does not take a token
        have hgoals : advance [] (peek tokens) = none := by
          cases tokens with
          | nil => exact absurd rfl hne
          | cons lexeme tail => rfl
        have hstuck : (statement depth tokens).StuckAt rest := ⟨_, _, _, hfirst⟩
        refine (statement_blocked hgoals hstuck).extend [] rfl ?_ fun _ => rfl
        rintro text ⟨tree, rfl⟩
        exact ⟨[], [tree], rfl⟩
      · obtain ⟨tree, hast, htokens, -⟩ := statement_sound hfirst
        refine (ih _ (hn ▸ hfirst.length_lt) hothers rfl).extend tree.yield htokens ?_
          fun _ => run_statement tree (noElse_of_statement hfirst hast)
        rintro text ⟨others, rfl⟩
        exact ⟨[], tree :: others, by rw [List.append_nil, ProgramTree.yield]⟩

end Parse

end SixReg
