import SixReg.Assembly.Lower
import SixReg.Proofs.Pool

/-!
# Selecting instructions

What lowering does with one instruction of three-address code, as far as it succeeds:

* `Selected` gives the machine instructions, one rule for each form of instruction;
* an instruction is selected just in case its operands have registers, its result has none, and
  there is a free register if it needs one (`Selected.ready`, `Ready.exists_selected`);
* counting the reads afterwards always succeeds and takes the registers of those temporaries that
  are read no more (`retire_settles`).
-/

namespace SixReg

theorem BinOp.aluOp_eq_ok {op : BinOp} {alu : AluOp} :
    op.aluOp = .ok alu ↔ ∃ a, op = .arith a ∧ a.aluOp = alu := by
  cases op <;> simp [BinOp.aluOp]

namespace Tac.Instr

variable {pool pool' : Pool} {instr : Instr} {chunk : List Instruction}

/-! ## The rules -/

/-- The machine instructions for an instruction, and the pool after them. -/
inductive Selected (pool : Pool) : Instr → List Instruction → Pool → Prop where
  | const {dst value rd pool'} (hd : pool.assign dst = .ok (rd, pool')) :
      Selected pool (.const dst value) [.movImm rd value] pool'
  | load {dst src rd pool'} (hd : pool.assign dst = .ok (rd, pool')) :
      Selected pool (.load dst src) [src.select, .memRead .load rd] pool'
  | store {dst src rs} (hs : pool.register? src = some rs) :
      Selected pool (.store dst (.temp src)) [dst.select, .memWrite .stor rs] pool
  | storeConst {dst value rs free} (hf : pool.free = rs :: free) :
      Selected pool (.store dst (.const value))
        [.movImm rs value, dst.select, .memWrite .stor rs]
        { pool with
          scratch := pool.scratch.filter (· != rs)
          peak := max pool.peak (poolSize - free.length) }
  | binaryConst {dst left op imm rs rd pool'} (hl : pool.register? left = some rs)
      (hd : pool.assign dst = .ok (rd, pool')) :
      Selected pool (.binary dst left (.arith op) (.const imm)) [.aluImm op.aluOp rs rd imm] pool'
  | binary {dst left op right rs rs' rd pool'} (hl : pool.register? left = some rs)
      (hr : pool.register? right = some rs') (hd : pool.assign dst = .ok (rd, pool')) :
      Selected pool (.binary dst left (.arith op) (.temp right)) [.alu op.aluOp rs rs' rd] pool'
  | notConst {dst imm rd pool'} (hd : pool.assign dst = .ok (rd, pool')) :
      Selected pool (.not dst (.const imm)) [.aluImm .not .r0 rd imm] pool'
  | not {dst src rs rd pool'} (hs : pool.register? src = some rs)
      (hd : pool.assign dst = .ok (rd, pool')) :
      Selected pool (.not dst (.temp src)) [.alu .not .r0 rs rd] pool'
  | branch {left right rel target rs rs'} (hl : pool.register? left = some rs)
      (hr : pool.register? right = some rs') :
      Selected pool (.branch left right rel target)
        [.branch rel.branchOp rs rs' (asImmediate target.id)] pool
  | jump {target} : Selected pool (.jump target) [.jump (asImmediate target.id)] pool
  | label {place} : Selected pool (.label place) [] pool
  | print {value rs} (hs : pool.register? value = some rs) :
      Selected pool (.print value) [.alu .mov .r0 rs .io] pool

theorem select_eq_ok :
    instr.select pool = .ok (chunk, pool') ↔ Selected pool instr chunk pool' := by
  constructor
  · intro h
    fun_cases select pool instr <;>
      simp only [select, Except.bind_eq_ok, Except.mapError_eq_ok, Except.pure_eq_ok,
        Pool.find_eq_ok, Prod.exists, Prod.mk.injEq] at h
    -- one case for each equation of `select`, in their order
    · obtain ⟨rd, _, hd, rfl, rfl⟩ := h
      exact .const hd
    · obtain ⟨rd, _, hd, rfl, rfl⟩ := h
      exact .load hd
    · obtain ⟨rs, hs, rfl, rfl⟩ := h
      exact .store hs
    · obtain ⟨rs, lent, hlend, _, hback, rfl, rfl⟩ := h
      obtain ⟨free, hf, rfl⟩ := Pool.borrow_eq_ok.mp ⟨lent, hlend, hback⟩
      exact .storeConst hf
    · obtain ⟨_, hop, rs, hl, rd, _, hd, rfl, rfl⟩ := h
      obtain ⟨op, rfl, rfl⟩ := BinOp.aluOp_eq_ok.mp hop
      exact .binaryConst hl hd
    · obtain ⟨_, hop, rs, hl, rs', hr, rd, _, hd, rfl, rfl⟩ := h
      obtain ⟨op, rfl, rfl⟩ := BinOp.aluOp_eq_ok.mp hop
      exact .binary hl hr hd
    · obtain ⟨rd, _, hd, rfl, rfl⟩ := h
      exact .notConst hd
    · obtain ⟨rs, hs, rd, _, hd, rfl, rfl⟩ := h
      exact .not hs hd
    · obtain ⟨rs, hl, rs', hr, rfl, rfl⟩ := h
      exact .branch hl hr
    · obtain ⟨rfl, rfl⟩ := h
      exact .jump
    · obtain ⟨rfl, rfl⟩ := h
      exact .label
    · obtain ⟨rs, hs, rfl, rfl⟩ := h
      exact .print hs
  · intro h
    cases h with
    | const hd => simp [select, hd]
    | load hd => simp [select, hd]
    | store hs => simp [select, Pool.find_eq_ok, hs]
    | @storeConst dst value rs free hf =>
        obtain ⟨lent, hlend, hback⟩ := Pool.borrow_eq_ok.mpr ⟨free, hf, rfl⟩
        simp [select, hlend, hback]
    | binaryConst hl hd => simp [select, BinOp.aluOp, Pool.find_eq_ok, hl, hd]
    | binary hl hr hd => simp [select, BinOp.aluOp, Pool.find_eq_ok, hl, hr, hd]
    | notConst hd => simp [select, hd]
    | not hs hd => simp [select, Pool.find_eq_ok, hs, hd]
    | branch hl hr => simp [select, Pool.find_eq_ok, hl, hr]
    | jump => rfl
    | label => rfl
    | print hs => simp [select, Pool.find_eq_ok, hs]

/-! ## What an instruction needs -/

/-- Whether an instruction takes a register: for its result, or for a constant that it stores. -/
def allocates : Instr → Bool
  | .store _ (.const _) => true
  | instr => instr.result?.isSome

/-- Whether an instruction wants the outcome of a comparison as a value. -/
def compares : Instr → Bool
  | .binary _ _ op _ => op.isComparison
  | _ => false

theorem allocates_of_result? {t : Temp} (h : instr.result? = some t) : instr.allocates = true := by
  cases instr <;> simp_all [allocates, result?]

/-- An instruction leaves the pool as it is, or binds its result, or borrows a register. -/
theorem Selected.pool_cases (h : Selected pool instr chunk pool') :
    (instr.allocates = false ∧ pool' = pool) ∨
      (∃ dst r, instr.result? = some dst ∧ pool.assign dst = .ok (r, pool')) ∨
      ∃ r free, instr.result? = none ∧ instr.allocates = true ∧ pool.free = r :: free ∧
        pool' = { pool with
          scratch := pool.scratch.filter (· != r)
          peak := max pool.peak (poolSize - free.length) } := by
  cases h with
  | const hd | load hd | notConst hd => exact .inr (.inl ⟨_, _, rfl, hd⟩)
  | binaryConst _ hd | not _ hd => exact .inr (.inl ⟨_, _, rfl, hd⟩)
  | binary _ _ hd => exact .inr (.inl ⟨_, _, rfl, hd⟩)
  | storeConst hf => exact .inr (.inr ⟨_, _, rfl, rfl, hf, rfl⟩)
  | store | branch | jump | label | print => exact .inl ⟨rfl, rfl⟩

/-- Nothing stands in the way of an instruction. -/
structure Ready (pool : Pool) (instr : Instr) : Prop where
  value : instr.compares = false
  operands : ∀ t ∈ instr.reads, (pool.register? t).isSome
  result : ∀ t, instr.result? = some t → pool.register? t = none
  room : instr.allocates = true → pool.free ≠ []

theorem Selected.ready (h : Selected pool instr chunk pool') : Ready pool instr where
  value := by cases h <;> rfl
  operands := by cases h <;> simp_all [reads, Operand.reads]
  result t ht := by
    obtain ⟨ha, -⟩ | ⟨dst, r, hdst, hassign⟩ | ⟨r, free, hnone, -⟩ := h.pool_cases
    · rw [allocates_of_result? ht] at ha
      cases ha
    · obtain rfl : dst = t := Option.some.inj (hdst.symm.trans ht)
      exact (Pool.assign_eq_ok.mp hassign).1
    · rw [hnone] at ht
      cases ht
  room ha := by
    obtain ⟨ha', -⟩ | ⟨dst, r, -, hassign⟩ | ⟨r, free, -, -, hfree, -⟩ := h.pool_cases
    · rw [ha'] at ha
      cases ha
    · obtain ⟨-, free, hfree, -⟩ := Pool.assign_eq_ok.mp hassign
      simp [hfree]
    · simp [hfree]

theorem Ready.exists_selected (h : Ready pool instr) :
    ∃ chunk pool', Selected pool instr chunk pool' := by
  have hassign : ∀ t, instr.result? = some t → ∃ r pool', pool.assign t = .ok (r, pool') := by
    intro t ht
    obtain ⟨r, free, hfree⟩ := List.exists_cons_of_ne_nil (h.room (allocates_of_result? ht))
    exact ⟨r, _, Pool.assign_eq_ok.mpr ⟨h.result t ht, free, hfree, rfl⟩⟩
  have hfind : ∀ t ∈ instr.reads, ∃ r, pool.register? t = some r :=
    fun t ht => Option.isSome_iff_exists.mp (h.operands t ht)
  cases instr with
  | const dst value =>
      obtain ⟨rd, pool', hd⟩ := hassign dst rfl
      exact ⟨_, _, .const hd⟩
  | load dst src =>
      obtain ⟨rd, pool', hd⟩ := hassign dst rfl
      exact ⟨_, _, .load hd⟩
  | store dst src =>
      cases src with
      | temp src =>
          obtain ⟨rs, hs⟩ := hfind src (.head _)
          exact ⟨_, _, .store hs⟩
      | const value =>
          obtain ⟨rs, free, hf⟩ := List.exists_cons_of_ne_nil (h.room rfl)
          exact ⟨_, _, .storeConst hf⟩
  | binary dst left op right =>
      obtain ⟨rd, pool', hd⟩ := hassign dst rfl
      obtain ⟨rs, hl⟩ := hfind left (.head _)
      cases op with
      | compare rel => cases h.value
      | arith op =>
          cases right with
          | const imm => exact ⟨_, _, .binaryConst hl hd⟩
          | temp right =>
              obtain ⟨rs', hr⟩ := hfind right (.tail _ (.head _))
              exact ⟨_, _, .binary hl hr hd⟩
  | not dst src =>
      obtain ⟨rd, pool', hd⟩ := hassign dst rfl
      cases src with
      | const imm => exact ⟨_, _, .notConst hd⟩
      | temp src =>
          obtain ⟨rs, hs⟩ := hfind src (.head _)
          exact ⟨_, _, .not hs hd⟩
  | branch left right rel target =>
      obtain ⟨rs, hl⟩ := hfind left (.head _)
      obtain ⟨rs', hr⟩ := hfind right (.tail _ (.head _))
      exact ⟨_, _, .branch hl hr⟩
  | jump target => exact ⟨_, _, .jump⟩
  | label place => exact ⟨_, _, .label⟩
  | print value =>
      obtain ⟨rs, hs⟩ := hfind value (.head _)
      exact ⟨_, _, .print hs⟩

/-! ## What the pool is afterwards -/

theorem Selected.consistent (h : Selected pool instr chunk pool') (hc : pool.Consistent)
    (hs : pool.scratch = []) : pool'.Consistent ∧ pool'.scratch = [] := by
  obtain ⟨-, rfl⟩ | ⟨dst, r, -, hassign⟩ | ⟨r, free, -, -, -, rfl⟩ := h.pool_cases
  · exact ⟨hc, hs⟩
  · refine ⟨hc.assign hassign, ?_⟩
    obtain ⟨-, free, -, rfl⟩ := Pool.assign_eq_ok.mp hassign
    exact hs
  · refine ⟨⟨?_, hc.keys, hc.occupants⟩, by simp [hs]⟩
    simpa [hs] using hc.shares

theorem Selected.remaining (h : Selected pool instr chunk pool') (t : Temp) :
    pool'.remaining t = pool.remaining t := by
  obtain ⟨-, rfl⟩ | ⟨dst, r, -, hassign⟩ | ⟨r, free, -, -, -, rfl⟩ := h.pool_cases
  · rfl
  · exact Pool.remaining_assign hassign t
  · rfl

/-- Selecting gives the result its register and takes none from any temporary. -/
theorem Selected.register?_of_ne (h : Selected pool instr chunk pool') {t : Temp}
    (ht : instr.result? ≠ some t) : pool'.register? t = pool.register? t := by
  obtain ⟨-, rfl⟩ | ⟨dst, r, hdst, hassign⟩ | ⟨r, free, -, -, -, rfl⟩ := h.pool_cases
  · rfl
  · have hne : t ≠ dst := by
      rintro rfl
      exact ht hdst
    rw [Pool.register?_assign hassign, if_neg hne]
  · rfl

theorem Selected.register?_result (h : Selected pool instr chunk pool') {t : Temp}
    (ht : instr.result? = some t) : (pool'.register? t).isSome := by
  obtain ⟨ha, -⟩ | ⟨dst, r, hdst, hassign⟩ | ⟨r, free, hnone, -⟩ := h.pool_cases
  · rw [allocates_of_result? ht] at ha
    cases ha
  · obtain rfl : dst = t := Option.some.inj (hdst.symm.trans ht)
    simp [Pool.register?_assign hassign]
  · rw [hnone] at ht
    cases ht

/-- The registers in use at the moment when an instruction has got its own. -/
theorem Selected.peak (h : Selected pool instr chunk pool') (hc : pool.Consistent)
    (hs : pool.scratch = []) :
    pool'.peak = max pool.peak (if instr.allocates then pool.bound.length + 1 else 0) := by
  have hlength := hc.length
  rw [hs] at hlength
  obtain ⟨ha, rfl⟩ | ⟨dst, r, hdst, hassign⟩ | ⟨r, free, -, ha, hfree, rfl⟩ := h.pool_cases
  · simp [ha]
  · obtain ⟨-, free, hfree, rfl⟩ := Pool.assign_eq_ok.mp hassign
    rw [allocates_of_result? hdst, if_pos rfl]
    simp only [hfree, List.length_cons, List.length_nil] at hlength
    show max pool.peak (poolSize - free.length) = _
    congr 1
    omega
  · rw [ha, if_pos rfl]
    simp only [hfree, List.length_cons, List.length_nil] at hlength
    show max pool.peak (poolSize - free.length) = _
    congr 1
    omega

/-! ## Counting the reads -/

/-- The pool has counted reads: those before it are `rest` now, and of the temporaries in `spent`
those that are not in `rest` have lost their registers. -/
structure Settled (pool : Pool) (spent rest : List Temp) (pool' : Pool) : Prop where
  consistent : pool.Consistent → pool'.Consistent
  scratch : pool'.scratch = pool.scratch
  peak : pool'.peak = pool.peak
  remaining : ∀ t, pool'.remaining t = rest.count t
  register? : ∀ t, pool'.register? t = if t ∈ spent ∧ t ∉ rest then none else pool.register? t

theorem countReads_settles (spent : List Temp) {rest : List Temp} {pool : Pool}
    (hbound : ∀ t ∈ spent, (pool.register? t).isSome)
    (hcount : ∀ t, pool.remaining t = (spent ++ rest).count t) :
    ∃ pool', spent.foldlM Pool.countRead pool = .ok pool' ∧ Settled pool spent rest pool' := by
  induction spent generalizing pool with
  | nil => exact ⟨pool, rfl, id, rfl, rfl, hcount, by simp⟩
  | cons t spent ih =>
      obtain ⟨r, hr⟩ := Option.isSome_iff_exists.mp (hbound t (.head _))
      obtain ⟨pool₁, hread⟩ : ∃ pool₁, pool.countRead t = .ok pool₁ :=
        ⟨_, Pool.countRead_eq_ok.mpr ⟨r, hr, rfl⟩⟩
      have hregister := Pool.register?_countRead hread
      -- the temporary keeps its register just in case it is read again
      have hlast : pool.remaining t ≤ 1 ↔ t ∉ spent ∧ t ∉ rest := by
        rw [hcount, List.cons_append, List.count_cons_self, ← not_or, ← List.mem_append,
          ← List.count_eq_zero]
        omega
      have hbound₁ : ∀ u ∈ spent, (pool₁.register? u).isSome := by
        intro u hu
        rw [hregister, if_neg]
        · exact hbound u (.tail _ hu)
        · rintro ⟨rfl, hle⟩
          exact (hlast.mp hle).1 hu
      have hcount₁ : ∀ u, pool₁.remaining u = (spent ++ rest).count u := by
        intro u
        rw [Pool.remaining_countRead hread, hcount, List.cons_append]
        by_cases hu : u = t
        · subst hu
          rw [if_pos rfl, List.count_cons_self]
          rfl
        · rw [if_neg hu, List.count_cons_of_ne (Ne.symm hu)]
      obtain ⟨pool', hfold, hs⟩ := ih hbound₁ hcount₁
      refine ⟨pool', ?_, ?_⟩
      · rw [List.foldlM_cons, hread]
        exact hfold
      · obtain ⟨hscratch, hpeak⟩ := Pool.countRead_frame hread
        refine ⟨fun hc => hs.consistent (hc.countRead hread), hs.scratch.trans hscratch,
          hs.peak.trans hpeak, hs.remaining, ?_⟩
        intro u
        rw [hs.register?, hregister]
        grind

theorem retire_settles {rest : List Temp} (hbound : ∀ t ∈ instr.reads, (pool.register? t).isSome)
    (hresult : ∀ t, instr.result? = some t → t ∉ instr.reads ∧ (pool.register? t).isSome)
    (hcount : ∀ t, pool.remaining t = (instr.reads ++ rest).count t) :
    ∃ pool', instr.retire pool = .ok pool' ∧
      Settled pool (instr.reads ++ instr.result?.toList) rest pool' := by
  obtain ⟨pool₁, hfold, hs⟩ := countReads_settles instr.reads hbound hcount
  unfold retire
  rw [hfold]
  cases hdst : instr.result? with
  | none => exact ⟨pool₁, rfl, by simpa using hs⟩
  | some dst =>
      obtain ⟨hread, hsome⟩ := hresult dst hdst
      show ∃ pool', (if pool₁.remaining dst = 0 then (pool₁.release dst).map Prod.snd
        else pure pool₁) = .ok pool' ∧ _
      have hregister : pool₁.register? dst = pool.register? dst := by
        rw [hs.register?, if_neg (fun h => hread h.1)]
      by_cases hrest : dst ∈ rest
      · have hne : pool₁.remaining dst ≠ 0 := by
          rw [hs.remaining]
          exact Nat.pos_iff_ne_zero.mp (List.count_pos_iff.mpr hrest)
        refine ⟨pool₁, if_neg hne, hs.consistent, hs.scratch, hs.peak, hs.remaining, ?_⟩
        intro u
        rw [hs.register?]
        grind
      · have hzero : pool₁.remaining dst = 0 := by
          rw [hs.remaining]
          exact List.count_eq_zero.mpr hrest
        obtain ⟨r, hr⟩ := Option.isSome_iff_exists.mp hsome
        obtain ⟨pool₂, hrelease⟩ : ∃ pool₂, pool₁.release dst = .ok (r, pool₂) :=
          ⟨_, Pool.release_eq_ok.mpr ⟨hregister.trans hr, rfl⟩⟩
        refine ⟨pool₂, ?_, ?_⟩
        · rw [if_pos hzero, hrelease]
          rfl
        · have hregister₂ := Pool.register?_release hrelease
          obtain ⟨-, rfl⟩ := Pool.release_eq_ok.mp hrelease
          refine ⟨fun hc => (hs.consistent hc).release hrelease, hs.scratch, hs.peak,
            hs.remaining, ?_⟩
          intro u
          rw [hregister₂, hs.register?]
          grind

end Tac.Instr

end SixReg
