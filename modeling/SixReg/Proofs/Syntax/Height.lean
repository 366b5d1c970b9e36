import SixReg.Proofs.Syntax.Offender
import SixReg.Proofs.Syntax.Printing

/-!
# How high syntax trees grow

The passes over a tree go down into it node by node, so they are nested as deep as the tree is high.
The parser bounds how many groups are open at once, and so the height, but for one direction: an
operator chain grows to the left with every operator, and opens no group.

* If steps to left operands are not counted, the height is bounded by the nesting
  (`ProgramTree.height_le`): within a group, every other step goes to a tighter level.
* With all steps it is bounded by that height times the length of the longest run of left operands
  (`Block.height_one_le`).
* There are programs without any nesting of every height (`exists_parse_of_height`).
-/

namespace SixReg

/-! ## Heights -/

namespace Expr

/-- The number of nodes on the longest way down, where a step to a left operand counts as `weight`
and all others count as one. So `height 1` is the height. -/
def height (weight : Nat) : Expr → Nat
  | .number _ | .var _ _ => 1
  | .binary _ left right => max (left.height weight + weight) (right.height weight + 1)
  | .not operand => operand.height weight + 1

/-- The number of operators along the left edge, from the root down. -/
def edge : Expr → Nat
  | .binary _ left _ => left.edge + 1
  | .number _ | .var _ _ | .not _ => 0

/-- The longest left edge in the expression. -/
def longestEdge : Expr → Nat
  | .number _ | .var _ _ => 0
  | .binary _ left right => max (left.edge + 1) (max left.longestEdge right.longestEdge)
  | .not operand => operand.longestEdge

end Expr

mutual

/-- The height of a statement, with that of the statements and expressions in it. -/
def Stmt.height (weight : Nat) : Stmt → Nat
  | .declare _ _ value | .print value => value.height weight + 1
  | .ifThen condition body | .loop condition body =>
    max (condition.height weight) (Block.height weight body) + 1
  | .ifElse condition body other =>
    max (condition.height weight) (max (Block.height weight body) (Block.height weight other)) + 1
  | .block body => Block.height weight body + 1

/-- The height of the highest statement. -/
def Block.height (weight : Nat) : Block → Nat
  | [] => 0
  | first :: others => max (first.height weight) (Block.height weight others)

end

/-! ## Runs of left operands -/

namespace Expr

theorem edge_le_longestEdge (e : Expr) : e.edge ≤ e.longestEdge := by
  cases e with
  | number | var | not => exact Nat.zero_le _
  | binary => exact Nat.le_max_left _ _

/-- On the way down there is one run of left operands at the start, and one after every other
step. -/
theorem height_one_add_le (e : Expr) {c : Nat} (h : e.longestEdge ≤ c) :
    e.height 1 + c ≤ e.height 0 * (c + 1) + e.edge := by
  -- a step that ends a run is paid for by the factor
  have hother : ∀ e : Expr, e.longestEdge ≤ c → e.height 1 + c ≤ e.height 0 * (c + 1) + e.edge →
      e.height 1 + 1 + c ≤ (e.height 0 + 1) * (c + 1) := by
    intro e he hheight
    have hedge := Nat.le_trans e.edge_le_longestEdge he
    rw [Nat.succ_mul]
    omega
  induction e with
  | number | var => simp [height, edge, Nat.add_comm]
  | binary op left right ihl ihr =>
      simp only [longestEdge, Nat.max_le] at h
      have hleft := ihl h.2.1
      have hright := hother right h.2.2 (ihr h.2.2)
      have hmax : left.height 0 * (c + 1) ≤ (binary op left right).height 0 * (c + 1) :=
        Nat.mul_le_mul_right _ (Nat.le_max_left _ _)
      have hmax' : (right.height 0 + 1) * (c + 1) ≤ (binary op left right).height 0 * (c + 1) :=
        Nat.mul_le_mul_right _ (Nat.le_max_right _ _)
      simp only [height, edge] at hmax hmax' ⊢
      omega
  | not operand ih =>
      have hoperand := hother operand h (ih h)
      simp only [height, edge]
      omega

theorem height_one_le (e : Expr) {c : Nat} (h : e.longestEdge ≤ c) :
    e.height 1 ≤ e.height 0 * (c + 1) := by
  have hadd := e.height_one_add_le h
  have hedge := e.edge_le_longestEdge
  omega

end Expr

mutual

theorem Stmt.height_one_le (s : Stmt) {c : Nat}
    (h : ∀ site ∈ s.sites, site.value.longestEdge ≤ c) : s.height 1 ≤ s.height 0 * (c + 1) := by
  match s with
  | .declare name span value =>
      have hvalue := value.height_one_le (h (.initializer value) (by simp [Stmt.sites]))
      rw [Stmt.height, Stmt.height, Nat.succ_mul]
      omega
  | .print value =>
      have hvalue := value.height_one_le (h (.printed value) (by simp [Stmt.sites]))
      rw [Stmt.height, Stmt.height, Nat.succ_mul]
      omega
  | .ifThen condition body | .loop condition body =>
      rw [Stmt.sites, List.forall_mem_cons] at h
      have hcondition := condition.height_one_le h.1
      have hbody := Block.height_one_le body h.2
      rw [Stmt.height, Stmt.height, Nat.succ_mul, ← Nat.mul_max_mul_right]
      omega
  | .ifElse condition body other =>
      rw [Stmt.sites, List.forall_mem_cons, List.forall_mem_append] at h
      have hcondition := condition.height_one_le h.1
      have hbody := Block.height_one_le body h.2.1
      have hother := Block.height_one_le other h.2.2
      rw [Stmt.height, Stmt.height, Nat.succ_mul, ← Nat.mul_max_mul_right, ← Nat.mul_max_mul_right]
      omega
  | .block body =>
      have hbody := Block.height_one_le body h
      rw [Stmt.height, Stmt.height, Nat.succ_mul]
      omega

/-- **Runs of left operands are all that makes a tree higher** than it is without them. -/
theorem Block.height_one_le (p : Block) {c : Nat}
    (h : ∀ site ∈ Block.sites p, site.value.longestEdge ≤ c) :
    Block.height 1 p ≤ Block.height 0 p * (c + 1) := by
  match p with
  | [] => exact Nat.zero_le _
  | first :: others =>
      rw [Block.sites, List.forall_mem_append] at h
      have hfirst := first.height_one_le h.1
      have hothers := Block.height_one_le others h.2
      rw [Block.height, Block.height, ← Nat.mul_max_mul_right]
      omega

end

/-! ## Heights and nesting -/

namespace Grammar

theorem Derives.height_le {k : Nat} {e : ExprTree} (h : Derives k e) :
    e.ast.height 0 ≤ 7 * e.nesting + (8 - k) := by
  induction h with
  | number | name => exact Nat.le_refl 1
  | group _ ih =>
      simp only [ExprTree.ast, ExprTree.nesting]
      omega
  | not _ ih =>
      simp only [ExprTree.ast, ExprTree.nesting, Expr.height]
      omega
  | operand _ ih => omega
  | compare _ _ _ ihl ihr =>
      simp only [ExprTree.ast, ExprTree.nesting, Expr.height]
      omega
  | @chain k left op span right _ hop _ _ ihl ihr =>
      have hlevel := op.level_le
      rw [mem_operators.mp hop] at hlevel
      simp only [ExprTree.ast, ExprTree.nesting, Expr.height]
      omega

theorem Expression.height_le (e : Expression) : e.val.ast.height 0 ≤ 7 * e.val.nesting + 8 :=
  e.property.height_le

mutual

theorem StmtTree.height_le (s : StmtTree) : s.ast.height 0 ≤ 7 * s.nesting + 9 := by
  cases s with
  | declare _ _ _ _ value _ =>
      have hvalue := value.height_le
      rw [StmtTree.ast, StmtTree.nesting, Stmt.height]
      omega
  | print _ value _ =>
      have hvalue := value.height_le
      rw [StmtTree.ast, StmtTree.nesting, Stmt.height]
      omega
  | ifThen _ condition _ body | loop _ condition _ body =>
      have hcondition := condition.height_le
      have hbody := body.height_le
      rw [StmtTree.ast, StmtTree.nesting, Stmt.height]
      omega
  | ifElse _ condition _ body _ _ other =>
      have hcondition := condition.height_le
      have hbody := body.height_le
      have hother := other.height_le
      rw [StmtTree.ast, StmtTree.nesting, Stmt.height]
      omega
  | block body =>
      have hbody := body.height_le
      rw [StmtTree.ast, StmtTree.nesting, Stmt.height]
      omega

theorem BlockTree.height_le (b : BlockTree) : Block.height 0 b.ast ≤ 7 * b.nesting + 2 := by
  cases b with
  | braces start body stop =>
      have hbody := ProgramTree.height_le body
      rw [BlockTree.ast, BlockTree.nesting]
      omega

/-- **A group adds seven levels at most**, one for each rule for expressions. -/
theorem ProgramTree.height_le (p : ProgramTree) :
    Block.height 0 p.ast ≤ 7 * p.nesting + 9 := by
  cases p with
  | nil => exact Nat.zero_le _
  | cons first others =>
      have hfirst := first.height_le
      have hothers := ProgramTree.height_le others
      rw [ProgramTree.ast, ProgramTree.nesting, Block.height]
      omega

end

end Grammar

/-! ## Input that is nested too deeply -/

open Grammar

/-- A sentence that is refused is nested too deeply: no token of it is unexpected. -/
theorem Parse.fault_of_sentence {depth : Nat} {tree : ProgramTree} {stuck : Parse.Stuck}
    (h : Parse.program depth tree.yield = .error stuck) : stuck.fault = .nestedTooDeeply := by
  obtain ⟨fault, rest, depth'⟩ := stuck
  cases fault with
  | nestedTooDeeply => rfl
  | unexpected found expected =>
      obtain ⟨k, hk, -, -, hviable, hsentence⟩ := (Parse.program_blocked h).viable
      rcases Nat.lt_or_eq_of_le hk with hlt | heq
      · refine absurd ⟨(tree.yield.drop (k + 1)).map Lexeme.token, tree, ?_⟩ (hviable hlt)
        rw [← List.map_append, List.take_append_drop]
      · exact absurd ⟨tree, rfl⟩ (hsentence heq)

/-- **What is nested too deeply is refused for that.** -/
theorem Program.parse_of_nesting {source : Source} {tree : ProgramTree}
    (htokens : tokenize source = .ok tree.yield) (hnesting : maxNesting < tree.nesting) :
    ∃ e, Program.parse source = .error (.parse e) ∧ e.fault = .nestedTooDeeply := by
  cases hprogram : Parse.program 0 tree.yield with
  | ok p =>
      obtain ⟨tree', -, hyield, hle⟩ := Parse.program_sound hprogram
      rw [yield_injective hyield] at hnesting
      exact absurd hle (Nat.not_le.mpr hnesting)
  | error stuck =>
      let cursor := Cursor.start source tree.yield
      have herror : cursor.program = .error ((cursor.stuckAt stuck).fail stuck.fault) :=
        Cursor.program_eq_error.mpr ⟨stuck, hprogram, rfl⟩
      refine ⟨(cursor.stuckAt stuck).fail stuck.fault, ?_, Parse.fault_of_sentence hprogram⟩
      unfold Program.parse
      rw [htokens]
      exact Except.mapError_eq_error.mpr ⟨_, herror, rfl⟩

/-! ## Programs of every height -/

theorem Expr.Renamed.height_eq {R : String → String → Prop} {e e' : Expr} {weight : Nat}
    (h : Expr.Renamed R e e') : e.height weight = e'.height weight := by
  induction h with
  | number | var => rfl
  | binary _ _ ihl ihr => rw [Expr.height, Expr.height, ihl, ihr]
  | not _ ih => rw [Expr.height, Expr.height, ih]

theorem Block.Renamed.height_eq {R : String → String → Prop} {p p' : Block} {weight : Nat}
    (h : Block.Renamed R p p') : Block.height weight p = Block.height weight p' := by
  induction h with
  | nil => rfl
  | declare _ hv _ ih | print hv _ ih => simp only [Block.height, Stmt.height, hv.height_eq, ih]
  | ifThen hc _ _ ihb ih | loop hc _ _ ihb ih =>
      simp only [Block.height, Stmt.height, hc.height_eq, ihb, ih]
  | ifElse hc _ _ _ ihb ihe ih =>
      simp only [Block.height, Stmt.height, hc.height_eq, ihb, ihe, ih]
  | block _ _ ihb ih => simp only [Block.height, Stmt.height, ihb, ih]

/-- A derivation whose tokens can be written is that of some text, up to spans. -/
theorem Grammar.ProgramTree.exists_source (tree : ProgramTree)
    (hnesting : tree.nesting ≤ maxNesting)
    (hspell : ∀ lexeme ∈ tree.yield, lexeme.token.isSpellable = true) :
    ∃ source p, Program.parse source = .ok p ∧ Block.Renamed Eq tree.ast p := by
  obtain ⟨lexemes, htokens, hmap⟩ := tokenize_spell (List.forall_mem_map.mpr hspell)
  obtain ⟨p, hp, hrenamed⟩ := Parse.program_renamed (Lexeme.renamed_of_map_eq hmap.symm)
    (Parse.program_complete tree (show tree.nesting ≤ maxNesting - 0 from hnesting))
  exact ⟨_, p, Program.parse_eq_ok.mpr ⟨lexemes, htokens, hp⟩, hrenamed⟩

namespace Grammar.ExprTree

/-- The derivation of a sum with `n` operators. -/
def sum : Nat → ExprTree
  | 0 => .number 1 default
  | n + 1 => .binary (sum n) (.arith .add) default (.number 1 default)

theorem derives_sum (n : Nat) : Derives 5 (sum n) := by
  induction n with
  | zero => exact Derives.number.loosen (by decide)
  | succ n ih => exact .chain (by decide) (by decide) ih (Derives.number.loosen (by decide))

theorem height_sum (n : Nat) : (sum n).ast.height 1 = n + 1 := by
  induction n with
  | zero => rfl
  | succ n ih =>
      rw [sum, ast, Expr.height, ih]
      exact Nat.max_eq_left (by simp [ast, Expr.height])

theorem nesting_sum (n : Nat) : (sum n).nesting = 0 := by
  induction n with
  | zero => rfl
  | succ n ih => rw [sum, nesting, ih]; rfl

theorem spellable_sum (n : Nat) : ∀ lexeme ∈ (sum n).yield, lexeme.token.isSpellable = true := by
  induction n with
  | zero => decide
  | succ n ih =>
      rw [sum, yield, List.forall_mem_append]
      exact ⟨ih, by decide⟩

end Grammar.ExprTree

/-- **There are programs of every height**, with no group in them. -/
theorem exists_parse_of_height (n : Nat) :
    ∃ source p, Program.parse source = .ok p ∧ Block.height 1 p = n + 2 := by
  let value : Expression := ⟨.sum n, (ExprTree.derives_sum n).loosen (Nat.zero_le _)⟩
  let tree : ProgramTree := [.print default value default]
  have hnesting : tree.nesting ≤ maxNesting := by
    simp [tree, value, ProgramTree.nesting, StmtTree.nesting, ExprTree.nesting_sum]
  have hspell : ∀ lexeme ∈ tree.yield, lexeme.token.isSpellable = true := by
    simpa [tree, value, ProgramTree.yield, StmtTree.yield, or_imp, forall_and, Token.isSpellable]
      using ExprTree.spellable_sum n
  obtain ⟨source, p, hparse, hrenamed⟩ := tree.exists_source hnesting hspell
  refine ⟨source, p, hparse, ?_⟩
  rw [← hrenamed.height_eq]
  simp [tree, value, ProgramTree.ast, StmtTree.ast, Block.height, Stmt.height, ExprTree.height_sum]

/-- The height of programs is not bounded. -/
theorem height_not_bounded :
    ¬ ∃ bound, ∀ source p, Program.parse source = .ok p → Block.height 1 p ≤ bound := by
  rintro ⟨bound, hbound⟩
  obtain ⟨source, p, hparse, hheight⟩ := exists_parse_of_height bound
  have hle := hbound source p hparse
  omega

/-- **Programs are as high as they are nested**, but for the chains of operators. In an accepted
program the height without the steps to left operands is bounded by the nesting that the parser
admits; the steps that a chain of operators takes to the left multiply that bound. A text with more
groups open at once than admitted is refused, and the error says so. -/
theorem height_le_of_parse :
    (∀ source p, Program.parse source = .ok p →
      Block.height 0 p ≤ 7 * maxNesting + 9 ∧
      ∀ c, (∀ site ∈ Block.sites p, site.value.longestEdge ≤ c) →
        Block.height 1 p ≤ (7 * maxNesting + 9) * (c + 1)) ∧
    ∀ source tree, tokenize source = .ok (ProgramTree.yield tree) →
      maxNesting < ProgramTree.nesting tree →
        ∃ e, Program.parse source = .error (.parse e) ∧ e.fault = .nestedTooDeeply := by
  constructor
  · intro source p hparse
    obtain ⟨tokens, -, hprogram⟩ := Program.parse_eq_ok.mp hparse
    obtain ⟨tree, rfl, -, hnesting⟩ := Parse.program_sound hprogram
    have hheight : Block.height 0 tree.ast ≤ 7 * maxNesting + 9 := by
      have hle := tree.height_le
      rw [Nat.sub_zero] at hnesting
      omega
    refine ⟨hheight, ?_⟩
    intro c hc
    calc Block.height 1 tree.ast
      _ ≤ Block.height 0 tree.ast * (c + 1) := Block.height_one_le tree.ast hc
      _ ≤ (7 * maxNesting + 9) * (c + 1) := Nat.mul_le_mul_right _ hheight
  · intro source tree htokens hnesting
    exact Program.parse_of_nesting htokens hnesting

/-- The derivation of a literal behind complements, from a byte offset on. -/
def Grammar.ExprTree.complements (offset : Nat) : Nat → ExprTree
  | 0 => .number 7 ⟨offset, offset + 1⟩
  | n + 1 => .not ⟨offset, offset + 1⟩ (complements (offset + 1) n)

theorem Grammar.ExprTree.derives_complements (offset n : Nat) :
    Derives 7 (complements offset n) := by
  induction n generalizing offset with
  | zero => exact .number
  | succ n ih => exact .not (ih (offset + 1))

theorem height_le_of_parse_complements :
    let chain := "while 1 + 2 - (3 + 4) > ~5: { print 6; }".toList
    let deep := "print ".toList ++ List.replicate 257 '~' ++ "7;".toList
    (∃ p, Program.parse chain = .ok p ∧ Block.height 1 p ≤ (7 * 256 + 9) * 4) ∧
    ∃ e, Program.parse deep = .error (.parse e) ∧ e.fault = .nestedTooDeeply := by
  intro chain deep
  obtain ⟨haccepted, hrefused⟩ := height_le_of_parse
  constructor
  · have hread : ((Program.parse chain).map fun p =>
        (Block.sites p).map fun site => site.value.longestEdge) = .ok [3, 0] := by
      decide +kernel
    obtain ⟨p, hparse, hedges⟩ := Except.map_eq_ok.mp hread
    have hsites : ∀ site ∈ Block.sites p, site.value.longestEdge ≤ 3 := by
      intro site hsite
      have hedge : site.value.longestEdge ∈ [3, 0] := hedges ▸ List.mem_map_of_mem hsite
      simp only [List.mem_cons, List.not_mem_nil, or_false] at hedge
      omega
    exact ⟨p, hparse, (haccepted chain p hparse).2 3 hsites⟩
  · let value : Expression :=
      ⟨.complements 6 257, (ExprTree.derives_complements 6 257).loosen (Nat.zero_le _)⟩
    exact hrefused deep [.print ⟨0, 5⟩ value ⟨264, 265⟩] (by decide +kernel) (by decide +kernel)

end SixReg
