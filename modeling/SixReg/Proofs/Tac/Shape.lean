import SixReg.Proofs.Computation
import SixReg.Proofs.Tac.Locality
import SixReg.Tac.Build

/-!
# The shape of built code

What a builder appends for a tree, as rules: `ExprCode`, `ConditionCode` and `BlockCode` relate a
tree and the numbers of temporaries and labels given out before it to its code and the numbers given
out after it. Building succeeds only along these rules (`block_shape`), and a proof about built code
is an induction on them.

The rules are for blocks and not for statements: a rule says what the first statement of a block
gives, followed by the code of the others.
-/

namespace SixReg

open Tac

/-! ## The rules -/

/-- `ExprCode table e t code a`: with `t` temporaries given out, `e` has the code `code`, and its
value ends up in temporary `a`, the last one given out. -/
inductive ExprCode (table : SymbolTable) : Expr → Nat → List Instr → Nat → Prop where
  | number {value t} : ExprCode table (.number value) t [.const ⟨t⟩ value] t
  | var {name span src t} (found : table.find? name = some src) :
      ExprCode table (.var name span) t [.load ⟨t⟩ src] t
  | binaryConst {op left value t code a} (hl : ExprCode table left t code a) :
      ExprCode table (.binary op left (.number value)) t
        (code ++ [.binary ⟨a + 1⟩ ⟨a⟩ op (.const value)]) (a + 1)
  | binary {op left right t code code' a b} (hne : ∀ value, right ≠ .number value)
      (hl : ExprCode table left t code a) (hr : ExprCode table right (a + 1) code' b) :
      ExprCode table (.binary op left right) t
        (code ++ (code' ++ [.binary ⟨b + 1⟩ ⟨a⟩ op (.temp ⟨b⟩)])) (b + 1)
  | notConst {value t} :
      ExprCode table (.not (.number value)) t [.not ⟨t⟩ (.const value)] t
  | not {operand t code a} (hne : ∀ value, operand ≠ .number value)
      (he : ExprCode table operand t code a) :
      ExprCode table (.not operand) t (code ++ [.not ⟨a + 1⟩ (.temp ⟨a⟩)]) (a + 1)

/-- Code that goes to the target unless a condition holds. -/
inductive ConditionCode (table : SymbolTable) : Expr → Label → Nat → List Instr → Nat → Prop where
  | compare {rel left right target t code code' a b}
      (hl : ExprCode table left t code a) (hr : ExprCode table right (a + 1) code' b) :
      ConditionCode table (.binary (.compare rel) left right) target t
        (code ++ (code' ++ [.branch ⟨a⟩ ⟨b⟩ rel.inverse target])) (b + 1)

/-- `BlockCode table p t l code t' l'`: with `t` temporaries and `l` labels given out, the
statements `p` have the code `code`, and `t'` and `l'` are given out after it. -/
inductive BlockCode (table : SymbolTable) :
    Block → Nat → Nat → List Instr → Nat → Nat → Prop where
  | nil {t l} : BlockCode table [] t l [] t l
  | declareConst {name span value dst others t l code t' l'}
      (found : table.find? name = some dst) (ho : BlockCode table others t l code t' l') :
      BlockCode table (.declare name span (.number value) :: others) t l
        (.store dst (.const value) :: code) t' l'
  | declare {name span value dst others t l codeV a code t' l'}
      (hne : ∀ n, value ≠ .number n) (hv : ExprCode table value t codeV a)
      (found : table.find? name = some dst) (ho : BlockCode table others (a + 1) l code t' l') :
      BlockCode table (.declare name span value :: others) t l
        (codeV ++ .store dst (.temp ⟨a⟩) :: code) t' l'
  | print {value others t l codeV a code t' l'} (hv : ExprCode table value t codeV a)
      (ho : BlockCode table others (a + 1) l code t' l') :
      BlockCode table (.print value :: others) t l (codeV ++ .print ⟨a⟩ :: code) t' l'
  | ifThen {condition body others t l codeC t₁ codeB t₂ l₂ code t' l'}
      (hc : ConditionCode table condition ⟨l⟩ t codeC t₁)
      (hb : BlockCode table body t₁ (l + 2) codeB t₂ l₂)
      (ho : BlockCode table others t₂ l₂ code t' l') :
      BlockCode table (.ifThen condition body :: others) t l
        (codeC ++ (codeB ++ .jump ⟨l + 1⟩ :: .label ⟨l⟩ :: .label ⟨l + 1⟩ :: code)) t' l'
  | ifElse {condition body other others t l codeC t₁ codeB t₂ l₂ codeE t₃ l₃ code t' l'}
      (hc : ConditionCode table condition ⟨l⟩ t codeC t₁)
      (hb : BlockCode table body t₁ (l + 2) codeB t₂ l₂)
      (he : BlockCode table other t₂ l₂ codeE t₃ l₃)
      (ho : BlockCode table others t₃ l₃ code t' l') :
      BlockCode table (.ifElse condition body other :: others) t l
        (codeC ++ (codeB ++ .jump ⟨l + 1⟩ :: .label ⟨l⟩ :: (codeE ++ .label ⟨l + 1⟩ :: code))) t' l'
  | loop {condition body others t l codeC t₁ codeB t₂ l₂ code t' l'}
      (hc : ConditionCode table condition ⟨l + 1⟩ t codeC t₁)
      (hb : BlockCode table body t₁ (l + 2) codeB t₂ l₂)
      (ho : BlockCode table others t₂ l₂ code t' l') :
      BlockCode table (.loop condition body :: others) t l
        (.label ⟨l⟩ :: (codeC ++ (codeB ++ .jump ⟨l⟩ :: .label ⟨l + 1⟩ :: code))) t' l'
  | block {body others t l codeB t₁ l₁ code t' l'}
      (hb : BlockCode table body t l codeB t₁ l₁) (ho : BlockCode table others t₁ l₁ code t' l') :
      BlockCode table (.block body :: others) t l (codeB ++ code) t' l'

/-! ## Builders follow the rules -/

namespace Builder

/-- The second builder is the first one with some code appended. -/
structure Grew (b b' : Builder) (code : List Instr) : Prop where
  instrs : b'.instrs.toList = b.instrs.toList ++ code
  symbols : b'.symbols = b.symbols

theorem Grew.trans {b₁ b₂ b₃ : Builder} {code code' : List Instr} (h : Grew b₁ b₂ code)
    (h' : Grew b₂ b₃ code') : Grew b₁ b₃ (code ++ code') where
  instrs := by rw [h'.instrs, h.instrs, List.append_assoc]
  symbols := h'.symbols.trans h.symbols

theorem reference_eq_ok {name : String} {span : Span} {b b' : Builder} {symbol : Symbol}
    (h : reference name span b = .ok symbol b') :
    b.symbols.find? name = some symbol ∧ b' = b.reach symbol := by
  simp only [reference, EStateM.bind_eq_ok] at h
  obtain ⟨b₁, _, hget, h⟩ := h
  cases hget
  unfold Scope.use at h
  cases hf : b.symbols.find? name with
  | none => simp [hf] at h
  | some found =>
      simp only [hf] at h
      cases h
      exact ⟨rfl, rfl⟩

theorem reach_fields (b : Builder) (symbol : Symbol) :
    (b.reach symbol).instrs = b.instrs ∧ (b.reach symbol).symbols = b.symbols ∧
      (b.reach symbol).temps = b.temps ∧ (b.reach symbol).labels = b.labels := by
  unfold reach
  split <;> exact ⟨rfl, rfl, rfl, rfl⟩

theorem operand_eq_ok {e : Expr} {b b' : Builder} {o : Operand} (h : operand e b = .ok o b') :
    (∃ value, e = .number value ∧ o = .const value ∧ b' = b) ∨
      ((∀ value, e ≠ .number value) ∧ ∃ t, o = .temp t ∧ expr e b = .ok t b') := by
  unfold operand at h
  split at h
  · simp only [EStateM.pure_eq_ok] at h
    exact .inl ⟨_, rfl, h.1.symm, h.2.symm⟩
  · next hne =>
      simp only [EStateM.map_eq_ok] at h
      obtain ⟨t, ht, rfl⟩ := h
      exact .inr ⟨hne, t, rfl, ht⟩

theorem grew_append (b : Builder) (temps labels : Nat) (instr : Instr) :
    Grew b { b with instrs := b.instrs.push instr, temps, labels } [instr] where
  instrs := by simp
  symbols := rfl

theorem expr_shape {e : Expr} {b b' : Builder} {a : Temp} (h : expr e b = .ok a b') :
    ∃ code, ExprCode b.symbols e b.temps code a.id ∧ Grew b b' code ∧
      b'.temps = a.id + 1 ∧ b'.labels = b.labels := by
  induction e generalizing b b' a with
  | number value =>
      simp only [expr, EStateM.bind_eq_ok, freshTemp_apply, append_apply] at h
      obtain ⟨_, _, h₁, _, _, h₂, h₃⟩ := h
      cases h₁; cases h₂; cases h₃
      exact ⟨_, .number, grew_append b _ _ _, rfl, rfl⟩
  | var name span =>
      simp only [expr, EStateM.bind_eq_ok, freshTemp_apply, append_apply] at h
      obtain ⟨src, b₁, href, _, _, h₁, _, _, h₂, h₃⟩ := h
      cases h₁; cases h₂; cases h₃
      obtain ⟨hfound, rfl⟩ := reference_eq_ok href
      obtain ⟨hi, hs, ht, hl⟩ := reach_fields b src
      refine ⟨[.load ⟨b.temps⟩ src], ?_, ⟨?_, hs⟩, rfl, hl⟩
      · simp only [ht]
        exact .var hfound
      · simp [hi, ht]
  | binary op left right ihl ihr =>
      rw [expr_binary] at h
      simp only [EStateM.bind_eq_ok, freshTemp_apply, append_apply] at h
      obtain ⟨l, b₁, hl, o, b₂, hr, _, _, h₁, _, _, h₂, h₃⟩ := h
      cases h₁; cases h₂; cases h₃
      obtain ⟨code, hcode, hgrew, ht, hlab⟩ := ihl hl
      obtain ⟨value, rfl, rfl, rfl⟩ | ⟨hne, t, rfl, he⟩ := operand_eq_ok hr
      · refine ⟨_, ?_, hgrew.trans (grew_append _ _ _ _), rfl, hlab⟩
        rw [ht]
        exact .binaryConst hcode
      · obtain ⟨code', hcode', hgrew', ht', hlab'⟩ := ihr he
        refine ⟨_, ?_, hgrew.trans (hgrew'.trans (grew_append _ _ _ _)), rfl, hlab'.trans hlab⟩
        rw [hgrew.symbols, ht] at hcode'
        rw [ht']
        exact .binary hne hcode hcode'
  | not operand ih =>
      rw [expr_not] at h
      simp only [EStateM.bind_eq_ok, freshTemp_apply, append_apply] at h
      obtain ⟨o, b₁, ho, _, _, h₁, _, _, h₂, h₃⟩ := h
      cases h₁; cases h₂; cases h₃
      obtain ⟨value, rfl, rfl, rfl⟩ | ⟨hne, t, rfl, he⟩ := operand_eq_ok ho
      · exact ⟨_, .notConst, grew_append _ _ _ _, rfl, rfl⟩
      · obtain ⟨code, hcode, hgrew, ht, hlab⟩ := ih he
        refine ⟨_, ?_, hgrew.trans (grew_append _ _ _ _), rfl, hlab⟩
        rw [ht]
        exact .not hne hcode

theorem leaveUnless_shape {condition : Expr} {target : Label} {b b' : Builder}
    (h : leaveUnless condition target b = .ok () b') :
    ∃ code, ConditionCode b.symbols condition target b.temps code b'.temps ∧ Grew b b' code ∧
      b'.labels = b.labels := by
  unfold leaveUnless at h
  split at h
  · next rel left right =>
      simp only [EStateM.bind_eq_ok, append_apply] at h
      obtain ⟨l, b₁, hl, r, b₂, hr, h₁⟩ := h
      cases h₁
      obtain ⟨code, hcode, hgrew, ht, hlab⟩ := expr_shape hl
      obtain ⟨code', hcode', hgrew', ht', hlab'⟩ := expr_shape hr
      refine ⟨_, ?_, hgrew.trans (hgrew'.trans (grew_append _ _ _ _)), hlab'.trans hlab⟩
      rw [hgrew.symbols, ht] at hcode'
      simp only [ht']
      exact .compare hcode hcode'
  · simp at h

theorem grew_label (b : Builder) (labels : Nat) : Grew b { b with labels } [] where
  instrs := by simp
  symbols := rfl

mutual

/-- A statement appends what the rule for it says, whatever comes after. -/
theorem stmt_shape {s : Stmt} {b b₁ : Builder} (h : stmt s b = .ok () b₁) :
    ∃ code, Grew b b₁ code ∧ ∀ {others code' t' l'},
      BlockCode b.symbols others b₁.temps b₁.labels code' t' l' →
        BlockCode b.symbols (s :: others) b.temps b.labels (code ++ code') t' l' := by
  match s with
  | .declare name span value =>
      simp only [stmt, EStateM.bind_eq_ok, append_apply] at h
      obtain ⟨src, b₂, hsrc, dst, b₃, hdst, h⟩ := h
      cases h
      obtain ⟨hfound, rfl⟩ := reference_eq_ok hdst
      obtain ⟨hi, hs, ht, hl⟩ := reach_fields b₂ dst
      have hstore : Grew b₂
          { b₂.reach dst with instrs := (b₂.reach dst).instrs.push (.store dst src) }
          [.store dst src] := ⟨by simp [hi], hs⟩
      obtain ⟨n, rfl, rfl, rfl⟩ | ⟨hne, a, rfl, hv⟩ := operand_eq_ok hsrc
      · refine ⟨_, hstore, fun ho => ?_⟩
        simp only [ht, hl] at ho
        exact .declareConst hfound ho
      · obtain ⟨code, hcode, hgrew, hta, hla⟩ := expr_shape hv
        refine ⟨_, hgrew.trans hstore, fun ho => ?_⟩
        simp only [ht, hl, hta, hla] at ho
        rw [hgrew.symbols] at hfound
        simpa using BlockCode.declare hne hcode hfound ho
  | .print value =>
      simp only [stmt, EStateM.bind_eq_ok, append_apply] at h
      obtain ⟨a, b₂, hv, h⟩ := h
      cases h
      obtain ⟨code, hcode, hgrew, hta, hla⟩ := expr_shape hv
      refine ⟨_, hgrew.trans (grew_append _ _ _ _), fun ho => ?_⟩
      simp only [hta, hla] at ho
      simpa using BlockCode.print hcode ho
  | .ifThen condition body =>
      -- both labels are given out before anything is appended, also where only one is used
      simp only [stmt, EStateM.bind_eq_ok, freshLabel_apply, append_apply] at h
      obtain ⟨_, _, h₁, _, _, h₂, _, b₂, hc, _, b₃, hb, _, _, h₃, _, _, h₄, h₅⟩ := h
      cases h₁; cases h₂; cases h₃; cases h₄; cases h₅
      obtain ⟨codeC, hcodeC, hgrewC, hlC⟩ := leaveUnless_shape hc
      obtain ⟨codeB, hcodeB, hgrewB⟩ := block_shape hb
      refine ⟨_, (grew_label b _).trans (hgrewC.trans (hgrewB.trans ((grew_append _ _ _ _).trans
        ((grew_append _ _ _ _).trans (grew_append _ _ _ _))))), fun ho => ?_⟩
      rw [hgrewC.symbols, hlC] at hcodeB
      simpa using BlockCode.ifThen hcodeC hcodeB ho
  | .ifElse condition body other =>
      simp only [stmt, EStateM.bind_eq_ok, freshLabel_apply, append_apply] at h
      obtain ⟨_, _, h₁, _, _, h₂, _, b₂, hc, _, b₃, hb, _, _, h₃, _, _, h₄, _, b₄, he, h₅⟩ := h
      cases h₁; cases h₂; cases h₃; cases h₄; cases h₅
      obtain ⟨codeC, hcodeC, hgrewC, hlC⟩ := leaveUnless_shape hc
      obtain ⟨codeB, hcodeB, hgrewB⟩ := block_shape hb
      obtain ⟨codeE, hcodeE, hgrewE⟩ := block_shape he
      refine ⟨_, (grew_label b _).trans (hgrewC.trans (hgrewB.trans ((grew_append _ _ _ _).trans
        ((grew_append _ _ _ _).trans (hgrewE.trans (grew_append _ _ _ _)))))), fun ho => ?_⟩
      simp only [hgrewB.symbols, hgrewC.symbols, hlC] at hcodeB hcodeE
      simpa using BlockCode.ifElse hcodeC hcodeB hcodeE ho
  | .loop condition body =>
      simp only [stmt, EStateM.bind_eq_ok, freshLabel_apply, append_apply] at h
      obtain ⟨_, _, h₁, _, _, h₂, _, _, h₃, _, b₂, hc, _, b₃, hb, _, _, h₄, h₅⟩ := h
      cases h₁; cases h₂; cases h₃; cases h₄; cases h₅
      obtain ⟨codeC, hcodeC, hgrewC, hlC⟩ := leaveUnless_shape hc
      obtain ⟨codeB, hcodeB, hgrewB⟩ := block_shape hb
      refine ⟨_, (grew_label b _).trans ((grew_append _ _ _ _).trans (hgrewC.trans (hgrewB.trans
        ((grew_append _ _ _ _).trans (grew_append _ _ _ _))))), fun ho => ?_⟩
      rw [hgrewC.symbols, hlC] at hcodeB
      simpa using BlockCode.loop hcodeC hcodeB ho
  | .block body =>
      simp only [stmt] at h
      obtain ⟨code, hcode, hgrew⟩ := block_shape h
      exact ⟨code, hgrew, fun ho => .block hcode ho⟩

/-- **Building a block follows the rules.** -/
theorem block_shape {p : Block} {b b' : Builder} (h : block p b = .ok () b') :
    ∃ code, BlockCode b.symbols p b.temps b.labels code b'.temps b'.labels ∧ Grew b b' code := by
  match p with
  | [] =>
      simp only [block, EStateM.pure_eq_ok, true_and] at h
      subst h
      exact ⟨[], .nil, by simp, rfl⟩
  | first :: others =>
      simp only [block, EStateM.bind_eq_ok] at h
      obtain ⟨_, b₁, hfirst, hothers⟩ := h
      obtain ⟨code, hgrew, hcode⟩ := stmt_shape hfirst
      obtain ⟨code', hcode', hgrew'⟩ := block_shape hothers
      rw [hgrew.symbols] at hcode'
      exact ⟨code ++ code', hcode hcode', hgrew.trans hgrew'⟩

end

end Builder

/-- A builder that starts gives the code of the statements. -/
theorem Builder.program_eq_ok {p : Program} {table : SymbolTable} {source : Source} {code : Code}
    {b : Builder} (h : Builder.program p (.start table source) = .ok code b) :
    ∃ b₁, Builder.block p { Builder.start table source with used := true } = .ok () b₁ ∧
      code = b₁.code ∧ b = { b₁ with instrs := #[], slots := #[] } := by
  have hstart : Builder.program p (.start table source) =
      (do Builder.block p; Builder.takeCode : Build Code)
        { Builder.start table source with used := true } := rfl
  rw [hstart] at h
  simp only [EStateM.bind_eq_ok, Builder.takeCode_apply] at h
  obtain ⟨_, b₁, hb, hcode⟩ := h
  cases hcode
  exact ⟨b₁, hb, rfl, rfl⟩

/-- The code of a program follows the rules from the first temporary and the first label on. -/
theorem Builder.program_shape {p : Program} {table : SymbolTable} {source : Source} {code : Code}
    {b : Builder} (h : Builder.program p (.start table source) = .ok code b) :
    BlockCode table p 0 0 code.instrs b.temps b.labels := by
  obtain ⟨b₁, hb, rfl, rfl⟩ := Builder.program_eq_ok h
  obtain ⟨code, hshape, hgrew⟩ := Builder.block_shape hb
  have hinstrs : b₁.code.instrs = code := by
    simpa [Builder.start, Builder.code] using hgrew.instrs
  rw [hinstrs]
  exact hshape

theorem Program.build_eq_ok {source : Source} {table : SymbolTable} {program : Program}
    {code : Code} :
    program.build source table = .ok code ↔
      ∃ b, Builder.program program (.start table source) = .ok code b := by
  unfold Program.build
  cases Builder.program program (.start table source) <;> simp

theorem Program.build_shape {source : Source} {table : SymbolTable} {program : Program}
    {code : Code} (h : program.build source table = .ok code) :
    ∃ t l, BlockCode table program 0 0 code.instrs t l := by
  obtain ⟨b, hb⟩ := Program.build_eq_ok.mp h
  exact ⟨_, _, Builder.program_shape hb⟩

/-! ## Temporaries of built code -/

variable {table : SymbolTable}

theorem ExprCode.le {e : Expr} {t a : Nat} {code : List Instr} (h : ExprCode table e t code a) :
    t ≤ a := by
  induction h with
  | number | var | notConst => exact Nat.le_refl _
  | binaryConst _ ih | not _ _ ih => omega
  | binary _ _ _ ihl ihr => omega

theorem ExprCode.isControl_eq {e : Expr} {t a : Nat} {code : List Instr}
    (h : ExprCode table e t code a) : ∀ instr ∈ code, instr.isControl = false := by
  induction h with
  | number | var | notConst => simp [Instr.isControl]
  | binaryConst _ ih | not _ _ ih => simpa [or_imp, forall_and, Instr.isControl] using ih
  | binary _ _ _ ihl ihr => simpa [or_imp, forall_and, Instr.isControl] using ⟨ihl, ihr⟩

theorem ExprCode.labels_eq {e : Expr} {t a : Nat} {code : List Instr}
    (h : ExprCode table e t code a) : labels code = [] :=
  labels_eq_nil h.isControl_eq

/-- The value of an expression is written by the last instruction of its code. -/
theorem ExprCode.pending {e : Expr} {t a : Nat} {code : List Instr}
    (h : ExprCode table e t code a) : Pending ⟨a⟩ code := by
  cases h with
  | number | var | notConst =>
      show Pending _ ([] ++ [_])
      exact .concat rfl
  | binaryConst | not => exact .concat rfl
  | binary =>
      rw [← List.append_assoc]
      exact .concat rfl

/-- After the code for two expressions both values are there. -/
theorem ExprCode.pending_pair {left right : Expr} {t a b : Nat} {code code' : List Instr}
    (hl : ExprCode table left t code a) (hr : ExprCode table right (a + 1) code' b) :
    ∀ x ∈ [Temp.mk a, ⟨b⟩], Pending x (code ++ code') := by
  simp only [List.mem_cons, List.not_mem_nil, or_false, forall_eq_or_imp, forall_eq]
  exact ⟨hl.pending.append_right hr.isControl_eq, hr.pending.append_left code⟩

theorem ExprCode.straight {e : Expr} {t a : Nat} {code : List Instr}
    (h : ExprCode table e t code a) : Straight code := by
  induction h with
  | number | var | notConst => exact Straight.nil.cons rfl
  | binaryConst hl ih =>
      refine ih.concat ?_
      simpa [Instr.reads, Operand.reads] using hl.pending
  | not _ he ih =>
      refine ih.concat ?_
      simpa [Instr.reads, Operand.reads] using he.pending
  | binary _ hl hr ihl ihr =>
      rw [← List.append_assoc]
      exact (ihl.append ihr).concat (hl.pending_pair hr)

/-- An instruction that reads just the value of an expression may come after its code. -/
theorem ExprCode.straight_concat {e : Expr} {t a : Nat} {code : List Instr} {instr : Instr}
    (h : ExprCode table e t code a) (hr : instr.reads = [⟨a⟩]) : Straight (code ++ [instr]) := by
  refine h.straight.concat ?_
  rw [hr]
  simpa using h.pending

theorem ConditionCode.labels_eq {condition : Expr} {target : Label} {t t' : Nat}
    {code : List Instr} (h : ConditionCode table condition target t code t') :
    labels code = [] := by
  obtain ⟨hl, hr⟩ := h
  simp [Instr.label?, hl.labels_eq, hr.labels_eq]

theorem ConditionCode.straight {condition : Expr} {target : Label} {t t' : Nat}
    {code : List Instr} (h : ConditionCode table condition target t code t') : Straight code := by
  obtain ⟨hl, hr⟩ := h
  rw [← List.append_assoc]
  exact (hl.straight.append hr.straight).concat (hl.pending_pair hr)

/-- **Built code is straight**: no value is kept in a temporary from one statement to the next, nor
from a condition to what depends on it. -/
theorem BlockCode.straight {p : Block} {t l t' l' : Nat} {code : List Instr}
    (h : BlockCode table p t l code t' l') : Straight code := by
  induction h with
  | nil => exact .nil
  | declareConst _ _ ih => exact ih.cons rfl
  | declare _ hv _ _ ih =>
      rw [List.append_cons]
      exact (hv.straight_concat rfl).append ih
  | print hv _ ih =>
      rw [List.append_cons]
      exact (hv.straight_concat rfl).append ih
  | ifThen hc _ _ ihb iho =>
      exact hc.straight.append (ihb.append (((iho.cons rfl).cons rfl).cons rfl))
  | ifElse hc _ _ _ ihb ihe iho =>
      exact hc.straight.append (ihb.append (((ihe.append (iho.cons rfl)).cons rfl).cons rfl))
  | loop hc _ _ ihb iho =>
      exact (hc.straight.append (ihb.append ((iho.cons rfl).cons rfl))).cons rfl
  | block _ _ ihb iho => exact ihb.append iho

/-! ## Labels of built code -/

theorem BlockCode.label_le {p : Block} {t l t' l' : Nat} {code : List Instr}
    (h : BlockCode table p t l code t' l') : l ≤ l' := by
  induction h with
  | nil => exact Nat.le_refl _
  | declareConst | declare | print => assumption
  | ifThen | ifElse | loop | block => omega

/-- The labels of a block are among those given out while it was built. -/
theorem BlockCode.label_range {p : Block} {t l t' l' : Nat} {code : List Instr}
    (h : BlockCode table p t l code t' l') : ∀ x ∈ labels code, l ≤ x.id ∧ x.id < l' := by
  induction h with
  | nil => simp
  | declareConst _ _ ih => simpa [Instr.label?] using ih
  | declare _ hv _ _ ih => simpa [Instr.label?, hv.labels_eq] using ih
  | print hv _ ih => simpa [Instr.label?, hv.labels_eq] using ih
  | ifThen hc hb ho ihb iho =>
      have := hb.label_le
      have := ho.label_le
      intro x hx
      simp only [labels_append, labels_cons, hc.labels_eq, Instr.label?, List.mem_append,
        Option.toList_none, Option.toList_some, List.mem_singleton, List.not_mem_nil,
        false_or] at hx
      grind
  | ifElse hc hb he ho ihb ihe iho =>
      have := hb.label_le
      have := he.label_le
      have := ho.label_le
      intro x hx
      simp only [labels_append, labels_cons, hc.labels_eq, Instr.label?, List.mem_append,
        Option.toList_none, Option.toList_some, List.mem_singleton, List.not_mem_nil,
        false_or] at hx
      grind
  | loop hc hb ho ihb iho =>
      have := hb.label_le
      have := ho.label_le
      intro x hx
      simp only [labels_append, labels_cons, hc.labels_eq, Instr.label?, List.mem_append,
        Option.toList_none, Option.toList_some, List.mem_singleton, List.not_mem_nil,
        false_or] at hx
      grind
  | block hb ho ihb iho =>
      have := hb.label_le
      have := ho.label_le
      intro x hx
      rw [labels_append, List.mem_append] at hx
      grind

/-- **Built code places no label twice.** -/
theorem BlockCode.labels_nodup {p : Block} {t l t' l' : Nat} {code : List Instr}
    (h : BlockCode table p t l code t' l') : (labels code).Nodup := by
  induction h with
  | nil => exact List.nodup_nil
  | declareConst _ _ ih => simpa [Instr.label?] using ih
  | declare _ hv _ _ ih => simpa [Instr.label?, hv.labels_eq] using ih
  | print hv _ ih => simpa [Instr.label?, hv.labels_eq] using ih
  | ifThen hc hb ho ihb iho =>
      have := hb.label_le
      have := hb.label_range
      have := ho.label_range
      simp only [labels_append, labels_cons, hc.labels_eq, Instr.label?, Option.toList_none,
        Option.toList_some, List.nil_append, List.singleton_append]
      grind
  | ifElse hc hb he ho ihb ihe iho =>
      have := hb.label_le
      have := he.label_le
      have := hb.label_range
      have := he.label_range
      have := ho.label_range
      simp only [labels_append, labels_cons, hc.labels_eq, Instr.label?, Option.toList_none,
        Option.toList_some, List.nil_append, List.singleton_append]
      grind
  | loop hc hb ho ihb iho =>
      have := hb.label_le
      have := hb.label_range
      have := ho.label_range
      simp only [labels_append, labels_cons, hc.labels_eq, Instr.label?, Option.toList_none,
        Option.toList_some, List.nil_append, List.singleton_append]
      grind
  | block hb ho ihb iho =>
      have := hb.label_range
      have := ho.label_range
      rw [labels_append]
      grind

end SixReg
