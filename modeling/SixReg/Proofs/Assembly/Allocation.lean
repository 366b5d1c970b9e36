import SixReg.Proofs.Assembly.Failure

/-!
# Registers while code is lowered

What the pool knows when the first `n` instructions are lowered (`Tracks`) has consequences for the
next instruction and for the code as a whole:

* an instruction that gets a register gets one that no temporary has, its operands included
  (`Tracks.apart`), and can give up afterwards what it is to give up (`Tracks.step`);
* so of the refusals of the pool there are three that lowering passes on
  (`passedOn_of_lowerProgram`);
* behind the last instruction nothing is live, and all registers are free (`Tracks.all_free`).
-/

namespace SixReg

open Tac

namespace Tac

variable {instrs : List Instr} {instr : Instr} {n : Nat} {pool pool' : Pool}
  {chunk : List Instruction}

/-- An instruction has registers for its operands, and gets one for itself that is nobody's: for its
result, or for a constant on its way to memory. -/
structure Instr.Apart (pool : Pool) (instr : Instr) (chunk : List Instruction) (pool' : Pool) :
    Prop where
  operands : ∀ t ∈ instr.reads, (pool.register? t).isSome
  result : ∀ dst, instr.result? = some dst →
    ∃ r, pool'.register? dst = some r ∧ ∀ t, pool.register? t ≠ some r
  scratch : ∀ dst value, instr = .store dst (.const value) →
    ∃ r, chunk = [.movImm r value, dst.select, .memWrite .stor r] ∧ ∀ t, pool.register? t ≠ some r

namespace Tracks

theorem apart (h : Tracks instrs n pool) (hsel : instr.Selected pool chunk pool') :
    instr.Apart pool chunk pool' where
  operands := hsel.ready.operands
  result dst hdst := by
    obtain ⟨ha, -⟩ | ⟨dst', r, hdst', hassign⟩ | ⟨r, free, hnone, -⟩ := hsel.pool_cases
    · rw [Instr.allocates_of_result? hdst] at ha
      cases ha
    · obtain rfl : dst' = dst := Option.some.inj (hdst'.symm.trans hdst)
      refine ⟨r, by rw [Pool.register?_assign hassign, if_pos rfl], ?_⟩
      intro t ht
      exact h.consistent.ne_of_free (Pool.mem_free_of_assign hassign) ht rfl
    · rw [hnone] at hdst
      cases hdst
  scratch dst value hinstr := by
    subst hinstr
    cases hsel with
    | storeConst hfree =>
        refine ⟨_, rfl, ?_⟩
        intro t ht
        exact h.consistent.ne_of_free (hfree ▸ .head _) ht rfl

/-- Behind the last instruction all registers are free. -/
theorem all_free (h : Tracks instrs instrs.length pool) :
    pool.bound = [] ∧ pool.free.Perm Register.general := by
  have hbound : pool.bound = [] := by
    apply List.eq_nil_of_length_eq_zero
    rw [h.length_bound, Finset.card_eq_zero, Finset.eq_empty_iff_forall_notMem]
    intro t ht
    have hread := (mem_live.mp ht).2
    rw [List.drop_length] at hread
    cases hread
  refine ⟨hbound, ?_⟩
  simpa [hbound, h.scratch] using h.consistent.shares

end Tracks

end Tac

/-! ## What lowering passes on -/

/-- The refusals of the pool that can be a fault of the code: it writes a temporary that is still to
be read, reads one that was not written, or wants more registers than there are. -/
inductive PoolError.PassedOn : PoolError → Prop where
  | alreadyBound (t : Temp) : PassedOn (.alreadyBound t)
  | notBound (t : Temp) : PassedOn (.notBound t)
  | exhausted (t : Option Temp) : PassedOn (.exhausted t poolSize)

theorem Tac.Instr.Refused.passedOn {pool : Pool} {instr : Instr} {e : PoolError}
    (h : instr.Refused pool (.ofPool e)) : e.PassedOn := by
  generalize he : CompileError.ofPool e = err at h
  cases e with
  | alreadyBound t => exact .alreadyBound t
  | notBound t => exact .notBound t
  | exhausted t limit =>
      cases h with
      | room =>
          cases he
          exact .exhausted t
      | comparison | operand | result => cases he
  | nothingToRelease | notLent => cases h <;> cases he

namespace LabelTable

variable {table : LabelTable} {e : CompileError}

theorem resolveOne_eq_error {instr : Instruction} (h : table.resolveOne instr = .error e) :
    (∃ imm, e = .immediateOutOfRange imm) ∨ ∃ label, e = .unresolvedLabel label := by
  cases instr with
  | branch op rs1 rs2 imm =>
      simp only [resolveOne] at h
      split at h
      · cases h
        exact .inl ⟨imm, rfl⟩
      · unfold offset at h
        split at h <;> cases h
        exact .inr ⟨_, rfl⟩
  | alu | aluImm | memRead | memWrite | call => cases h

/-- Branches are not resolved for reasons that have nothing to do with the pool. -/
theorem resolve_eq_error {program rest : List Instruction}
    (h : table.resolve program = (.error e, rest)) :
    (∃ imm, e = .immediateOutOfRange imm) ∨ ∃ label, e = .unresolvedLabel label := by
  induction program generalizing rest with
  | nil => cases h
  | cons instr program ih =>
      unfold resolve at h
      split at h
      · next hone =>
          cases h
          exact resolveOne_eq_error hone
      · cases hrest : table.resolve program with
        | mk outcome instrs =>
            rw [hrest] at h
            cases h
            exact ih hrest

end LabelTable

namespace Lowerer

variable {code : Code} {n : Nat} {l l₀ : Lowerer}

/-- A lowerer starts afresh, whatever it did before. -/
theorem restart_eq (l : Lowerer) (code : Code) : l.restart code = Lowerer.empty.restart code := rfl

theorem passedOn_of_lowerProgram {e : PoolError} (h : lowerProgram code l₀ = .error (.ofPool e) l) :
    e.PassedOn := by
  rw [lowerProgram_apply, restart_eq] at h
  cases hall : lowerAll code.instrs (Lowerer.empty.restart code) with
  | error err l₁ =>
      simp only [hall, EStateM.Result.error.injEq] at h
      obtain ⟨rfl, -⟩ := h
      rcases refused_of_lowerAll_eq_error hall with ⟨-, label, hlabel⟩ | ⟨_, _, _, -, -, hrefused⟩
      · cases e <;> cases hlabel
      · exact hrefused.passedOn
  | ok _ l₁ =>
      rcases hresolve : l₁.labels.resolve l₁.instrs.toList with ⟨err | _, rest⟩
      · simp only [hall, hresolve, EStateM.Result.error.injEq] at h
        obtain ⟨rfl, -⟩ := h
        rcases LabelTable.resolve_eq_error hresolve with ⟨imm, himm⟩ | ⟨label, hlabel⟩
        · cases e <;> cases himm
        · cases e <;> cases hlabel
      · simp [hall, hresolve] at h

/-- **Lowering keeps track of what is live.** Take any code and a lowerer that has got through its
first `n` instructions. For every temporary, the reads that the pool still expects are the reads in
the rest of the code; the temporaries with a register are those that were written and are still to
be read; and no register is lent. If there is a next instruction with machine code, it gets no
register that a temporary has, one of its operands or another, and its reads can be counted and its
result, if nobody reads it, be freed. Hence the only refusals of the pool that lowering passes on
are for a temporary that has a register already, for one that has none, and for want of a register;
and when the last instruction is lowered all registers are free. -/
theorem lowering_tracks_liveness (code : Code) (l₀ : Lowerer) :
    (∀ n l, n ≤ code.instrs.length →
      lowerAll (code.instrs.take n) (l₀.restart code) = .ok () l →
      (∀ t, l.pool.remaining t = (readTemps (code.instrs.drop n)).count t) ∧
      (∀ t, (l.pool.register? t).isSome ↔
        t ∈ written (code.instrs.take n) ∧ t ∈ readTemps (code.instrs.drop n)) ∧
      l.pool.scratch = [] ∧
      ∀ instr chunk pool, code.instrs[n]? = some instr →
        instr.select l.pool = .ok (chunk, pool) →
        instr.Apart l.pool chunk pool ∧ ∃ pool', instr.retire pool = .ok pool') ∧
    (∀ e l, lowerProgram code l₀ = .error (.ofPool e) l → e.PassedOn) ∧
    ∀ l, lowerAll code.instrs (l₀.restart code) = .ok () l →
      l.pool.bound = [] ∧ l.pool.scratch = [] ∧ l.pool.free.Perm Register.general := by
  rw [restart_eq]
  have htracks : ∀ {n l}, n ≤ code.instrs.length →
      lowerAll (code.instrs.take n) (Lowerer.empty.restart code) = .ok () l →
      Tracks code.instrs n l.pool := fun hn h => (upto_of_lowerAll hn h).tracks
  refine ⟨?_, fun e l => passedOn_of_lowerProgram, ?_⟩
  · intro n l hn hl
    have h := htracks hn hl
    refine ⟨h.remaining, fun t => (h.bound t).trans mem_live, h.scratch, ?_⟩
    intro instr chunk pool hi hselect
    have hsel := Instr.select_eq_ok.mp hselect
    obtain ⟨pool', hretire, -⟩ := h.step hi hsel
    exact ⟨h.apart hsel, pool', hretire⟩
  · intro l hl
    have h := htracks (Nat.le_refl _) (by rwa [List.take_length])
    exact ⟨h.all_free.1, h.scratch, h.all_free.2⟩

/-- A temporary that the next instruction reads twice, a result that nobody reads, and a temporary
that is written again after its last read. -/
theorem lowering_tracks_liveness_rewritten :
    let x : Symbol := ⟨"x", 0⟩
    let sum : Instr := .binary ⟨1⟩ ⟨0⟩ (.arith .add) (.temp ⟨0⟩)
    let code : Code := ⟨[.load ⟨0⟩ x, sum, .not ⟨2⟩ (.temp ⟨1⟩), .const ⟨0⟩ 4], [x]⟩
    (∃ l chunk pool r, lowerAll (code.instrs.take 1) (Lowerer.empty.restart code) = .ok () l ∧
      l.pool.remaining ⟨0⟩ = 2 ∧ (l.pool.register? ⟨0⟩).isSome ∧
      sum.select l.pool = .ok (chunk, pool) ∧ pool.register? ⟨1⟩ = some r ∧
      l.pool.register? ⟨0⟩ ≠ some r) ∧
    ∃ l, lowerAll code.instrs (Lowerer.empty.restart code) = .ok () l ∧
      l.pool.free.Perm Register.general := by
  intro x sum code
  obtain ⟨htracks, -, hfree⟩ := lowering_tracks_liveness code .empty
  constructor
  · have hrun : (match lowerAll (code.instrs.take 1) (Lowerer.empty.restart code) with
        | .ok _ l => (sum.select l.pool).isOk
        | .error _ _ => false) = true := by decide +kernel
    split at hrun
    · next l hl =>
        obtain ⟨⟨chunk, pool⟩, hselect⟩ := Except.exists_of_isOk hrun
        obtain ⟨hremaining, hbound, -, hnext⟩ := htracks 1 l (by decide) hl
        obtain ⟨r, hr, hapart⟩ := (hnext sum chunk pool rfl hselect).1.result ⟨1⟩ rfl
        exact ⟨l, chunk, pool, r, hl, (hremaining ⟨0⟩).trans (by decide),
          (hbound ⟨0⟩).mpr ⟨by decide, by decide⟩, hselect, hr, hapart ⟨0⟩⟩
    · cases hrun
  · have hrun : (match lowerAll code.instrs (Lowerer.empty.restart code) with
        | .ok _ _ => true
        | .error _ _ => false) = true := by decide +kernel
    split at hrun
    · next l hl => exact ⟨l, hl, (hfree l hl).2.2⟩
    · cases hrun

end Lowerer

end SixReg
