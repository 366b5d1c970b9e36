import SixReg.Assembly.Lower
import SixReg.Proofs.Scope.Renaming
import SixReg.Proofs.Tac.Buildable

/-!
# Built code under other names

Three-address code keeps the names of variables next to their slots, but nothing comes of them.
`Instr.anonymous` strikes them out. Programs with paired names have the same code then
(`BlockCode.renamed`): by the rules of built code, all that can differ are the variables that are
found, and these have the same slots. Lowering never looks at a name (`Code.lower_anonymous`).
-/

namespace SixReg

open Tac

/-! ## Code without names -/

/-- The variable without its name. -/
def Symbol.anonymous (symbol : Symbol) : Symbol := { symbol with name := "" }

/-- The instruction without names. -/
def Tac.Instr.anonymous : Instr → Instr
  | .load dst src => .load dst src.anonymous
  | .store dst src => .store dst.anonymous src
  | instr => instr

namespace Tac.Instr

theorem select_anonymous (pool : Pool) (instr : Instr) :
    instr.anonymous.select pool = instr.select pool := by
  cases instr with
  | store dst src => cases src <;> rfl
  | const | load | binary | not | branch | jump | label | print => rfl

theorem reads_anonymous (instr : Instr) : instr.anonymous.reads = instr.reads := by
  cases instr <;> rfl

theorem result?_anonymous (instr : Instr) : instr.anonymous.result? = instr.result? := by
  cases instr <;> rfl

end Tac.Instr

namespace Lowerer

theorem lowerOne_anonymous (instr : Instr) : lowerOne instr.anonymous = lowerOne instr := by
  have hlabels : ∀ l : Lowerer, l.labelsAfter instr.anonymous = l.labelsAfter instr := by
    intro l
    cases instr <;> rfl
  funext l
  simp only [lowerOne, advance, hlabels, Instr.select_anonymous, Instr.retire,
    Instr.reads_anonymous, Instr.result?_anonymous]

theorem lowerAll_anonymous (instrs : List Instr) :
    lowerAll (instrs.map Instr.anonymous) = lowerAll instrs := by
  induction instrs with
  | nil => rfl
  | cons instr instrs ih => rw [List.map_cons, lowerAll, lowerAll, lowerOne_anonymous, ih]

end Lowerer

/-- **Lowering does not look at names.** -/
theorem Tac.Code.lower_anonymous (code : Code) (slots : List Symbol) :
    (⟨code.instrs.map Instr.anonymous, slots⟩ : Code).lower = code.lower := by
  have hreads : (⟨code.instrs.map Instr.anonymous, slots⟩ : Code).readCounts = code.readCounts := by
    simp only [Code.readCounts, Code.reads, List.flatMap_map, Instr.reads_anonymous]
  simp only [Code.lower, Lowerer.lowerProgram, Lowerer.restart, hreads, Lowerer.lowerAll_anonymous]

/-! ## The rules of built code -/

section Code

variable {R : String → String → Prop} {table table' : SymbolTable}

theorem Expr.Renamed.number_left {value : Int} {e' : Expr}
    (h : Expr.Renamed R (.number value) e') : e' = .number value := by
  cases h
  rfl

theorem Expr.Renamed.number_right {value : Int} {e : Expr}
    (h : Expr.Renamed R e (.number value)) : e = .number value := by
  cases h
  rfl

/-- Instructions on the same slot. -/
theorem SymbolTable.Renamed.anonymous_eq (hR : Relator.BiUnique R)
    (htable : SymbolTable.Renamed R table table') {name name' : String} {symbol symbol' : Symbol}
    (hname : R name name') (hfind : table.find? name = some symbol)
    (hfind' : table'.find? name' = some symbol') : symbol.anonymous = symbol'.anonymous := by
  rw [Symbol.anonymous, Symbol.anonymous, htable.slot_eq hR hname hfind hfind']

theorem ExprCode.renamed (hR : Relator.BiUnique R) (htable : SymbolTable.Renamed R table table')
    {e e' : Expr} {t a a' : Nat} {code code' : List Instr} (h : ExprCode table e t code a)
    (he : Expr.Renamed R e e') (h' : ExprCode table' e' t code' a') :
    code.map Instr.anonymous = code'.map Instr.anonymous ∧ a = a' := by
  induction h generalizing e' code' a' with
  | number =>
      cases he
      cases h'
      exact ⟨rfl, rfl⟩
  | var found =>
      cases he with
      | var hname =>
          cases h' with
          | var found' =>
              have hsymbol := htable.anonymous_eq hR hname found found'
              simp only [List.map_cons, List.map_nil, Instr.anonymous, hsymbol, and_self]
  | binaryConst _ ih =>
      cases he with
      | binary hl hr =>
          obtain rfl := hr.number_left
          cases h' with
          | binaryConst hl' =>
              obtain ⟨hcode, rfl⟩ := ih hl hl'
              simp only [List.map_append, List.map_cons, List.map_nil, hcode, Instr.anonymous,
                and_self]
          | binary hne => exact absurd rfl (hne _)
  | binary hne _ _ ihl ihr =>
      cases he with
      | binary hl hr =>
          cases h' with
          | binaryConst => exact absurd hr.number_right (hne _)
          | binary _ hl' hr' =>
              obtain ⟨hcode, rfl⟩ := ihl hl hl'
              obtain ⟨hcode', rfl⟩ := ihr hr hr'
              simp only [List.map_append, List.map_cons, List.map_nil, hcode, hcode',
                Instr.anonymous, and_self]
  | notConst =>
      cases he with
      | not he =>
          obtain rfl := he.number_left
          cases h' with
          | notConst => exact ⟨rfl, rfl⟩
          | not hne => exact absurd rfl (hne _)
  | not hne _ ih =>
      cases he with
      | not he =>
          cases h' with
          | notConst => exact absurd he.number_right (hne _)
          | not _ h' =>
              obtain ⟨hcode, rfl⟩ := ih he h'
              simp only [List.map_append, List.map_cons, List.map_nil, hcode, Instr.anonymous,
                and_self]

theorem ConditionCode.renamed (hR : Relator.BiUnique R)
    (htable : SymbolTable.Renamed R table table') {e e' : Expr} {target : Label} {t t₁ t₁' : Nat}
    {code code' : List Instr} (h : ConditionCode table e target t code t₁)
    (he : Expr.Renamed R e e') (h' : ConditionCode table' e' target t code' t₁') :
    code.map Instr.anonymous = code'.map Instr.anonymous ∧ t₁ = t₁' := by
  obtain ⟨hl, hr⟩ := h
  cases he with
  | binary hel her =>
      obtain ⟨hl', hr'⟩ := h'
      obtain ⟨hcode, rfl⟩ := hl.renamed hR htable hel hl'
      obtain ⟨hcode', rfl⟩ := hr.renamed hR htable her hr'
      simp only [List.map_append, List.map_cons, List.map_nil, hcode, hcode', Instr.anonymous,
        and_self]

/-- **Programs with paired names have the same code but for names.** -/
theorem BlockCode.renamed (hR : Relator.BiUnique R) (htable : SymbolTable.Renamed R table table')
    {p p' : Block} {t l t₁ l₁ t₁' l₁' : Nat} {code code' : List Instr}
    (h : BlockCode table p t l code t₁ l₁) (hp : Block.Renamed R p p')
    (h' : BlockCode table' p' t l code' t₁' l₁') :
    code.map Instr.anonymous = code'.map Instr.anonymous ∧ t₁ = t₁' ∧ l₁ = l₁' := by
  induction h generalizing p' code' t₁' l₁' with
  | nil =>
      cases hp
      cases h'
      exact ⟨rfl, rfl, rfl⟩
  | declareConst found _ ih =>
      cases hp with
      | declare hname hv ho =>
          obtain rfl := hv.number_left
          cases h' with
          | declareConst found' ho' =>
              have hsymbol := htable.anonymous_eq hR hname found found'
              obtain ⟨hcode, rfl, rfl⟩ := ih ho ho'
              simp only [List.map_cons, Instr.anonymous, hsymbol, hcode, and_self]
          | declare hne => exact absurd rfl (hne _)
  | declare hne hvalue found _ ih =>
      cases hp with
      | declare hname hv ho =>
          cases h' with
          | declareConst => exact absurd hv.number_right (hne _)
          | declare _ hvalue' found' ho' =>
              have hsymbol := htable.anonymous_eq hR hname found found'
              obtain ⟨hcodeV, rfl⟩ := hvalue.renamed hR htable hv hvalue'
              obtain ⟨hcode, rfl, rfl⟩ := ih ho ho'
              simp only [List.map_append, List.map_cons, Instr.anonymous, hcodeV, hsymbol, hcode,
                and_self]
  | print hvalue _ ih =>
      cases hp with
      | print hv ho =>
          cases h' with
          | print hvalue' ho' =>
              obtain ⟨hcodeV, rfl⟩ := hvalue.renamed hR htable hv hvalue'
              obtain ⟨hcode, rfl, rfl⟩ := ih ho ho'
              simp only [List.map_append, List.map_cons, Instr.anonymous, hcodeV, hcode, and_self]
  | ifThen hcondition _ _ ihb iho =>
      cases hp with
      | ifThen hc hb ho =>
          cases h' with
          | ifThen hcondition' hb' ho' =>
              obtain ⟨hcodeC, rfl⟩ := hcondition.renamed hR htable hc hcondition'
              obtain ⟨hcodeB, rfl, rfl⟩ := ihb hb hb'
              obtain ⟨hcode, rfl, rfl⟩ := iho ho ho'
              simp only [List.map_append, List.map_cons, Instr.anonymous, hcodeC, hcodeB, hcode,
                and_self]
  | ifElse hcondition _ _ _ ihb ihe iho =>
      cases hp with
      | ifElse hc hb he ho =>
          cases h' with
          | ifElse hcondition' hb' he' ho' =>
              obtain ⟨hcodeC, rfl⟩ := hcondition.renamed hR htable hc hcondition'
              obtain ⟨hcodeB, rfl, rfl⟩ := ihb hb hb'
              obtain ⟨hcodeE, rfl, rfl⟩ := ihe he he'
              obtain ⟨hcode, rfl, rfl⟩ := iho ho ho'
              simp only [List.map_append, List.map_cons, Instr.anonymous, hcodeC, hcodeB, hcodeE,
                hcode, and_self]
  | loop hcondition _ _ ihb iho =>
      cases hp with
      | loop hc hb ho =>
          cases h' with
          | loop hcondition' hb' ho' =>
              obtain ⟨hcodeC, rfl⟩ := hcondition.renamed hR htable hc hcondition'
              obtain ⟨hcodeB, rfl, rfl⟩ := ihb hb hb'
              obtain ⟨hcode, rfl, rfl⟩ := iho ho ho'
              simp only [List.map_append, List.map_cons, Instr.anonymous, hcodeC, hcodeB, hcode,
                and_self]
  | block _ _ ihb iho =>
      cases hp with
      | block hb ho =>
          cases h' with
          | block hb' ho' =>
              obtain ⟨hcodeB, rfl, rfl⟩ := ihb hb hb'
              obtain ⟨hcode, rfl, rfl⟩ := iho ho ho'
              simp only [List.map_append, hcodeB, hcode, and_self]

/-! ## Programs that can be built -/

theorem Expr.Renamed.isComparison_eq {e e' : Expr} (h : Expr.Renamed R e e') :
    e.isComparison = e'.isComparison := by
  cases h <;> rfl

/-- The conditions of both programs are comparisons, or those of neither are. -/
theorem Block.Renamed.conditions_iff {p p' : Block} (h : Block.Renamed R p p') :
    (∀ e, .condition e ∈ Block.sites p → e.isComparison = true) ↔
      ∀ e, .condition e ∈ Block.sites p' → e.isComparison = true := by
  induction h with
  | nil => rfl
  | declare _ _ _ iho | print _ _ iho => simpa [Block.sites, Stmt.sites] using iho
  | ifThen hc _ _ ihb iho | loop hc _ _ ihb iho =>
      simp only [Block.sites, Stmt.sites, List.cons_append, List.mem_cons, List.mem_append,
        Site.condition.injEq, or_imp, forall_and, forall_eq, hc.isComparison_eq, ihb, iho]
  | ifElse hc _ _ _ ihb ihe iho =>
      simp only [Block.sites, Stmt.sites, List.cons_append, List.mem_cons, List.mem_append,
        Site.condition.injEq, or_imp, forall_and, forall_eq, hc.isComparison_eq, ihb, ihe, iho]
  | block _ _ ihb iho =>
      simp only [Block.sites, Stmt.sites, List.mem_append, or_imp, forall_and, ihb, iho]

/-- **Building does not depend on what names are.** Of two programs with paired names that passed
the scope check, either both have code, which is the same but for names, or both have a condition
that is no comparison. -/
theorem Program.build_renamed (hR : Relator.BiUnique R) {p p' : Program} {policy : Redeclaration}
    {source source' : Source} (h : Block.Renamed R p p')
    (htable : SymbolTable.Renamed R table table')
    (hanalyze : p.analyze source policy = .ok table)
    (hanalyze' : p'.analyze source' policy = .ok table') :
    (∃ code code', p.build source table = .ok code ∧ p'.build source' table' = .ok code' ∧
      code.instrs.map Instr.anonymous = code'.instrs.map Instr.anonymous) ∨
    ∃ e e', p.build source table = .error (.unsupported (.condition e)) ∧
      p'.build source' table' = .error (.unsupported (.condition e')) := by
  have hbuild := Program.exists_build_iff hanalyze
  have hbuild' := Program.exists_build_iff hanalyze'
  rw [h.conditions_iff, ← hbuild'] at hbuild
  obtain ⟨code, hcode⟩ | ⟨e, -, -, herror⟩ := Program.build_cases hanalyze
  · obtain ⟨code', hcode'⟩ := hbuild.mp ⟨code, hcode⟩
    obtain ⟨_, _, hshape⟩ := Program.build_shape hcode
    obtain ⟨_, _, hshape'⟩ := Program.build_shape hcode'
    exact .inl ⟨code, code', hcode, hcode', (hshape.renamed hR htable h hshape').1⟩
  · obtain hcode' | ⟨e', -, -, herror'⟩ := Program.build_cases hanalyze'
    · obtain ⟨code, hcode⟩ := hbuild.mpr hcode'
      rw [hcode] at herror
      cases herror
    · exact .inr ⟨e, e', herror, herror'⟩

end Code

end SixReg
