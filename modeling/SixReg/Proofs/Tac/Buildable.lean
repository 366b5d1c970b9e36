import SixReg.Proofs.Scope
import SixReg.Proofs.Tac.Shape

/-!
# Which programs can be built

Once the names of a program are checked, every variable that it mentions is in the table, so the
builder finds all of them. Then only a condition can stop it, one that is no comparison
(`Program.exists_build_iff`).
-/

namespace SixReg

open Tac

/-! ## Checked names -/

/-- The table has the variables that are mentioned and declared. -/
structure Covers (table : SymbolTable) (sites : List Site) (declared : List String) : Prop where
  uses : ∀ site ∈ sites, ∀ name ∈ site.value.names, name ∈ table.names
  declares : ∀ name ∈ declared, name ∈ table.names

theorem covers_of_analyze {source : Source} {policy : Redeclaration} {program : Program}
    {table : SymbolTable} (h : program.analyze source policy = .ok table) :
    Covers table (Block.sites program) (Block.declared program) where
  uses _ hsite _ hname := mem_names_of_analyze h hsite hname
  declares _ hname := (mem_names_iff_of_analyze h).mpr (Block.mem_declared_iff.mp hname)

/-! ## Builders that succeed -/

namespace Builder

variable {b : Builder}

theorem exists_reference {name : String} (h : name ∈ b.symbols.names) (span : Span) :
    ∃ symbol b', reference name span b = .ok symbol b' := by
  obtain ⟨symbol, hfound⟩ := SymbolTable.exists_find?_iff.mpr h
  refine ⟨symbol, b.reach symbol, ?_⟩
  rw [reference, EStateM.bind_eq_ok]
  refine ⟨b, b, rfl, ?_⟩
  rw [Scope.use, hfound]
  rfl

theorem exists_operand {e : Expr} (h : ∃ a b', expr e b = .ok a b') :
    ∃ o b', operand e b = .ok o b' := by
  obtain ⟨a, b', he⟩ := h
  unfold operand
  split
  · exact ⟨_, b, rfl⟩
  · exact ⟨.temp a, b', EStateM.map_eq_ok.mpr ⟨a, he, rfl⟩⟩

theorem exists_expr {e : Expr} (h : ∀ name ∈ e.names, name ∈ b.symbols.names) :
    ∃ a b', expr e b = .ok a b' := by
  induction e generalizing b with
  | number value => exact ⟨_, _, rfl⟩
  | var name span =>
      obtain ⟨symbol, b₁, href⟩ := exists_reference (h name (.head _)) span
      exact ⟨_, _, EStateM.bind_eq_ok.mpr ⟨_, _, href, rfl⟩⟩
  | binary op left right ihl ihr =>
      rw [Expr.names, List.forall_mem_append] at h
      obtain ⟨l, b₁, hl⟩ := ihl h.1
      obtain ⟨_, -, hgrew, -⟩ := expr_shape hl
      obtain ⟨r, b₂, hr⟩ := exists_operand (ihr (hgrew.symbols ▸ h.2))
      rw [expr_binary]
      exact ⟨_, _, EStateM.bind_eq_ok.mpr ⟨_, _, hl, EStateM.bind_eq_ok.mpr ⟨_, _, hr, rfl⟩⟩⟩
  | not operand ih =>
      obtain ⟨o, b₁, ho⟩ := exists_operand (ih h)
      rw [expr_not]
      exact ⟨_, _, EStateM.bind_eq_ok.mpr ⟨_, _, ho, rfl⟩⟩

/-- Building got through, or it is stuck at a condition that is no comparison. -/
inductive Built (sites : List Site) : EStateM.Result CompileError Builder Unit → Prop where
  | ok {b : Builder} : Built sites (.ok () b)
  | stuck {e : Expr} {b : Builder} (hsite : .condition e ∈ sites) (he : e.isComparison = false) :
      Built sites (.error (.unsupported (.condition e)) b)

namespace Built

variable {sites sites' : List Site} {x : Build Unit} {f : Unit → Build Unit}

theorem mono {r : EStateM.Result CompileError Builder Unit} (h : Built sites r)
    (hsub : sites ⊆ sites') : Built sites' r := by
  cases h with
  | ok => exact .ok
  | stuck hsite he => exact .stuck (hsub hsite) he

theorem bind (h : Built sites (x b)) (hf : ∀ b', x b = .ok () b' → Built sites (f () b')) :
    Built sites ((x >>= f) b) := by
  cases hx : x b with
  | ok _ b' =>
      rw [EStateM.bind_of_ok hx]
      exact hf b' hx
  | error e b' =>
      rw [EStateM.bind_of_error hx]
      rw [hx] at h
      cases h with
      | stuck hsite he => exact .stuck hsite he

end Built

theorem built_leaveUnless {e : Expr} (target : Label)
    (h : ∀ name ∈ e.names, name ∈ b.symbols.names) :
    Built [.condition e] (leaveUnless e target b) := by
  unfold leaveUnless
  split
  · rw [Expr.names, List.forall_mem_append] at h
    obtain ⟨l, b₁, hl⟩ := exists_expr h.1
    obtain ⟨_, -, hgrew, -⟩ := expr_shape hl
    obtain ⟨r, b₂, hr⟩ := exists_expr (hgrew.symbols ▸ h.2)
    rw [EStateM.bind_of_ok hl, EStateM.bind_of_ok hr]
    exact .ok
  -- the only conditions left are those that are no comparisons
  · rename_i hne
    refine .stuck (.head _) ?_
    cases e with
    | number | var | not => rfl
    | binary op left right =>
        cases op with
        | arith => rfl
        | compare rel => exact absurd rfl (hne rel left right)

theorem operand_symbols {e : Expr} {b' : Builder} {o : Operand} (h : operand e b = .ok o b') :
    b'.symbols = b.symbols := by
  obtain ⟨_, -, -, rfl⟩ | ⟨-, a, -, he⟩ := operand_eq_ok h
  · rfl
  · obtain ⟨_, -, hgrew, -⟩ := expr_shape he
    exact hgrew.symbols

end Builder

namespace Covers

variable {table : SymbolTable} {sites sites' : List Site} {declared declared' : List String}

theorem mono (h : Covers table sites declared) (hsites : sites' ⊆ sites)
    (hdeclared : declared' ⊆ declared) : Covers table sites' declared' where
  uses site hsite := h.uses site (hsites hsite)
  declares name hname := h.declares name (hdeclared hname)

end Covers

namespace Builder

/-- A condition, its body and whatever comes behind them. -/
theorem built_guarded {sites : List Site} {e : Expr} {body : Block} {target : Label}
    {rest : Build Unit} {b : Builder} (hsites : .condition e :: Block.sites body ⊆ sites)
    (hnames : ∀ name ∈ e.names, name ∈ b.symbols.names)
    (hbody : ∀ b' : Builder, b'.symbols = b.symbols → Built (Block.sites body) (block body b'))
    (hrest : ∀ b' : Builder, b'.symbols = b.symbols → Built sites (rest b')) :
    Built sites ((do leaveUnless e target; block body; rest) b) := by
  obtain ⟨hcondition, hsub⟩ := List.cons_subset.mp hsites
  apply Built.bind ((built_leaveUnless target hnames).mono (by simpa using hcondition))
  intro b₁ h₁
  obtain ⟨_, -, hgrew₁, -⟩ := leaveUnless_shape h₁
  apply Built.bind ((hbody b₁ hgrew₁.symbols).mono hsub)
  intro b₂ h₂
  obtain ⟨_, -, hgrew₂⟩ := block_shape h₂
  exact hrest b₂ (hgrew₂.symbols.trans hgrew₁.symbols)

mutual

theorem built_stmt {s : Stmt} {b : Builder} (h : Covers b.symbols s.sites s.declared) :
    Built s.sites (stmt s b) := by
  match s with
  | .declare name span value =>
      have hvalue : ∀ name ∈ value.names, name ∈ b.symbols.names :=
        h.uses (.initializer value) (.head _)
      obtain ⟨o, b₁, ho⟩ := exists_operand (exists_expr hvalue)
      obtain ⟨symbol, b₂, href⟩ :=
        exists_reference (operand_symbols ho ▸ h.declares name (.head _)) span
      rw [stmt, EStateM.bind_of_ok ho, EStateM.bind_of_ok href]
      exact .ok
  | .print value =>
      have hvalue : ∀ name ∈ value.names, name ∈ b.symbols.names :=
        h.uses (.printed value) (.head _)
      obtain ⟨a, b₁, ha⟩ := exists_expr hvalue
      rw [stmt, EStateM.bind_of_ok ha]
      exact .ok
  | .ifThen condition body =>
      have hbody : Covers b.symbols (Block.sites body) (Block.declared body) :=
        h.mono (List.subset_cons_self _ _) (List.Subset.refl _)
      rw [stmt, EStateM.bind_of_ok (freshLabel_apply _), EStateM.bind_of_ok (freshLabel_apply _)]
      apply built_guarded (List.Subset.refl _)
      · exact h.uses (.condition condition) (.head _)
      · intro b₁ h₁
        exact built_block (h₁ ▸ hbody)
      · intro b₂ _
        exact .ok
  | .ifElse condition body other =>
      have hbody : Covers b.symbols (Block.sites body) (Block.declared body) :=
        h.mono (by simp [Stmt.sites]) (by simp [Stmt.declared])
      have hother : Covers b.symbols (Block.sites other) (Block.declared other) :=
        h.mono (by simp [Stmt.sites]) (by simp [Stmt.declared])
      rw [stmt, EStateM.bind_of_ok (freshLabel_apply _), EStateM.bind_of_ok (freshLabel_apply _)]
      apply built_guarded
      · simp [Stmt.sites]
      · exact h.uses (.condition condition) (.head _)
      · intro b₁ h₁
        exact built_block (h₁ ▸ hbody)
      · intro b₂ h₂
        rw [EStateM.bind_of_ok (append_apply _ _), EStateM.bind_of_ok (append_apply _ _)]
        apply Built.bind
        · refine (built_block ?_).mono ?_
          · exact h₂ ▸ hother
          · simp [Stmt.sites]
        · intro b₃ _
          exact .ok
  | .loop condition body =>
      have hbody : Covers b.symbols (Block.sites body) (Block.declared body) :=
        h.mono (List.subset_cons_self _ _) (List.Subset.refl _)
      rw [stmt, EStateM.bind_of_ok (freshLabel_apply _), EStateM.bind_of_ok (freshLabel_apply _),
        EStateM.bind_of_ok (append_apply _ _)]
      apply built_guarded (List.Subset.refl _)
      · exact h.uses (.condition condition) (.head _)
      · intro b₁ h₁
        exact built_block (h₁ ▸ hbody)
      · intro b₂ _
        exact .ok
  | .block body => exact built_block h

/-- **A builder that knows the variables is stopped by conditions only.** -/
theorem built_block {p : Block} {b : Builder}
    (h : Covers b.symbols (Block.sites p) (Block.declared p)) :
    Built (Block.sites p) (block p b) := by
  match p with
  | [] => exact .ok
  | first :: others =>
      have hfirst := h.mono (List.subset_append_left first.sites (Block.sites others))
        (List.subset_append_left first.declared (Block.declared others))
      apply Built.bind ((built_stmt hfirst).mono (List.subset_append_left _ _))
      intro b₁ h₁
      obtain ⟨_, hgrew₁, -⟩ := stmt_shape h₁
      have hothers : Covers b₁.symbols (Block.sites others) (Block.declared others) := by
        rw [hgrew₁.symbols]
        exact h.mono (List.subset_append_right _ _) (List.subset_append_right _ _)
      exact (built_block hothers).mono (List.subset_append_right _ _)

end

end Builder

/-! ## Programs that can be built -/

/-- The code of a condition is there only for a comparison. -/
theorem BlockCode.isComparison {table : SymbolTable} {p : Block} {t l t' l' : Nat}
    {code : List Instr} (h : BlockCode table p t l code t' l') {e : Expr}
    (he : .condition e ∈ Block.sites p) : e.isComparison = true := by
  have hcompare : ∀ {e target t code t'}, ConditionCode table e target t code t' →
      e.isComparison = true := by
    rintro _ _ _ _ _ ⟨⟩
    rfl
  induction h with
  | nil => cases he
  | declareConst _ _ ih | declare _ _ _ _ ih | print _ _ ih =>
      simp only [Block.sites, Stmt.sites, List.singleton_append, List.mem_cons, reduceCtorEq,
        false_or] at he
      exact ih he
  | ifThen hc _ _ ihb iho | loop hc _ _ ihb iho =>
      simp only [Block.sites, Stmt.sites, List.cons_append, List.mem_cons, List.mem_append,
        Site.condition.injEq] at he
      rcases he with rfl | he | he
      · exact hcompare hc
      · exact ihb he
      · exact iho he
  | ifElse hc _ _ _ ihb ihe iho =>
      simp only [Block.sites, Stmt.sites, List.cons_append, List.mem_cons, List.mem_append,
        Site.condition.injEq] at he
      rcases he with rfl | (he | he) | he
      · exact hcompare hc
      · exact ihb he
      · exact ihe he
      · exact iho he
  | block _ _ ihb iho =>
      rcases List.mem_append.mp he with he | he
      · exact ihb he
      · exact iho he

/-- **Once the names are checked, building succeeds or names a condition.** -/
theorem Program.build_cases {source : Source} {policy : Redeclaration} {program : Program}
    {table : SymbolTable} (h : program.analyze source policy = .ok table) :
    (∃ code, program.build source table = .ok code) ∨
      ∃ e, .condition e ∈ Block.sites program ∧ e.isComparison = false ∧
        program.build source table = .error (.unsupported (.condition e)) := by
  let b : Builder := { Builder.start table source with used := true }
  have hstart : Builder.program program (.start table source) =
      (do Builder.block program; Builder.takeCode : Build Code) b := rfl
  have hbuilt : Builder.Built (Block.sites program) (Builder.block program b) :=
    Builder.built_block (covers_of_analyze h)
  rw [Program.build, hstart]
  cases hb : Builder.block program b with
  | ok _ b' =>
      rw [EStateM.bind_of_ok hb]
      exact .inl ⟨b'.code, rfl⟩
  | error err b' =>
      rw [EStateM.bind_of_error hb]
      rw [hb] at hbuilt
      cases hbuilt with
      | stuck hsite he => exact .inr ⟨_, hsite, he, rfl⟩

theorem Program.exists_build_iff {source : Source} {policy : Redeclaration} {program : Program}
    {table : SymbolTable} (h : program.analyze source policy = .ok table) :
    (∃ code, program.build source table = .ok code) ↔
      ∀ e, .condition e ∈ Block.sites program → e.isComparison = true := by
  constructor
  · rintro ⟨code, hbuild⟩ e he
    obtain ⟨_, _, hshape⟩ := Program.build_shape hbuild
    exact hshape.isComparison he
  · intro hconditions
    obtain hcode | ⟨e, hsite, he, -⟩ := Program.build_cases h
    · exact hcode
    · rw [hconditions e hsite] at he
      cases he

end SixReg
