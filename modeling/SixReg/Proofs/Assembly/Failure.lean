import SixReg.Proofs.Assembly.Lowerable

/-!
# How lowering fails

Lowering stops at the first instruction that it has no machine code for. Such an instruction is
*refused* for one of four reasons (`Refused`), which its error names: it wants the outcome of a
comparison as a value, an operand has no register, its result has one already, or there is none
left. There are two more ways to fail, a label that is placed twice and a branch that goes nowhere.
Where the labels of the code are in order, these are ruled out (`Code.refused_of_lower_eq_error`).
-/

namespace SixReg

/-! ## Pools that refuse -/

namespace Pool

variable {pool : Pool} {t : Temp} {e : PoolError}

theorem find_eq_error : pool.find t = .error e ↔ pool.register? t = none ∧ e = .notBound t := by
  unfold find
  split <;> simp [*, eq_comm]

theorem assign_eq_error :
    pool.assign t = .error e ↔
      ((pool.register? t).isSome ∧ e = .alreadyBound t) ∨
        (pool.register? t = none ∧ pool.free = [] ∧ e = .exhausted (some t) poolSize) := by
  unfold assign take
  cases pool.register? t <;> cases pool.free <;> simp [eq_comm]

theorem lend_eq_error :
    pool.lend = .error e ↔ pool.free = [] ∧ e = .exhausted none poolSize := by
  unfold lend take
  cases pool.free <;> simp [eq_comm]

/-- What was lent can be given back. -/
theorem giveBack_ne_error {r : Register} {lent : Pool} (h : pool.lend = .ok (r, lent)) :
    lent.giveBack r ≠ .error e := by
  obtain ⟨free, -, rfl⟩ := lend_eq_ok.mp h
  simp [giveBack]

end Pool

namespace Tac

/-! ## Instructions that are refused -/

namespace Instr

/-- Why an instruction has no machine code, with the error that says so. -/
inductive Refused (pool : Pool) (instr : Instr) : CompileError → Prop where
  | comparison {dst left rel right} (h : instr = .binary dst left (.compare rel) right) :
      Refused pool instr (.unsupported (.comparisonValue rel))
  | operand {t} (ht : t ∈ instr.reads) (h : pool.register? t = none) :
      Refused pool instr (.pool (.notBound t))
  | result {t} (ht : instr.result? = some t) (h : (pool.register? t).isSome) :
      Refused pool instr (.pool (.alreadyBound t))
  | room (ha : instr.allocates = true) (h : pool.free = []) :
      Refused pool instr (.tooManyLive poolSize)

variable {pool : Pool} {instr : Instr} {t : Temp} {e : CompileError}

theorem refused_of_find (ht : t ∈ instr.reads) (h : (pool.find t).mapError .ofPool = .error e) :
    Refused pool instr e := by
  obtain ⟨_, hfind, rfl⟩ := Except.mapError_eq_error.mp h
  obtain ⟨hnone, rfl⟩ := Pool.find_eq_error.mp hfind
  exact .operand ht hnone

theorem refused_of_assign (ht : instr.result? = some t)
    (h : (pool.assign t).mapError .ofPool = .error e) : Refused pool instr e := by
  obtain ⟨_, hassign, rfl⟩ := Except.mapError_eq_error.mp h
  rcases Pool.assign_eq_error.mp hassign with ⟨hsome, rfl⟩ | ⟨-, hfree, rfl⟩
  · exact .result ht hsome
  · exact .room (allocates_of_result? ht) hfree

theorem refused_of_aluOp {dst left : Temp} {op : BinOp} {right : Operand}
    (h : op.aluOp = .error e) : Refused pool (.binary dst left op right) e := by
  cases op with
  | arith op => cases h
  | compare rel =>
      cases h
      exact .comparison rfl

/-- **An instruction that is not selected is refused for a reason.** -/
theorem refused_of_select_eq_error (h : instr.select pool = .error e) : Refused pool instr e := by
  fun_cases select pool instr <;>
    simp only [select, Except.bind_eq_error, Except.pure_ne_error, and_false, exists_false,
      or_false] at h
  -- one case for each equation of `select`, in their order
  case case1 | case2 | case7 => exact refused_of_assign rfl h
  case case3 | case12 => exact refused_of_find (.head _) h
  case case4 =>
      rcases h with h | ⟨⟨r, lent⟩, hlend, h⟩
      · obtain ⟨_, hlend, rfl⟩ := Except.mapError_eq_error.mp h
        obtain ⟨hfree, rfl⟩ := Pool.lend_eq_error.mp hlend
        exact .room rfl hfree
      · obtain ⟨_, hback, -⟩ := Except.mapError_eq_error.mp h
        exact absurd hback (Pool.giveBack_ne_error (Except.mapError_eq_ok.mp hlend))
  case case5 =>
      rcases h with h | ⟨_, -, h | ⟨_, -, h⟩⟩
      · exact refused_of_aluOp h
      · exact refused_of_find (.head _) h
      · exact refused_of_assign rfl h
  case case6 =>
      rcases h with h | ⟨_, -, h | ⟨_, -, h | ⟨_, -, h⟩⟩⟩
      · exact refused_of_aluOp h
      · exact refused_of_find (.head _) h
      · exact refused_of_find (.tail _ (.head _)) h
      · exact refused_of_assign rfl h
  case case8 =>
      rcases h with h | ⟨_, -, h⟩
      · exact refused_of_find (.head _) h
      · exact refused_of_assign rfl h
  case case9 =>
      rcases h with h | ⟨_, -, h⟩
      · exact refused_of_find (.head _) h
      · exact refused_of_find (.tail _ (.head _)) h

end Instr

end Tac

open Tac

/-! ## The first instruction that fails -/

namespace Lowerer

variable {l l' l₀ : Lowerer} {instrs : List Instr} {instr : Instr} {n : Nat} {e : CompileError}

theorem advance_of_lowerOne_eq_error (h : lowerOne instr l = .error e l') :
    l.advance instr = .error e := by
  unfold lowerOne at h
  split at h
  · next hadvance =>
      cases h
      exact hadvance
  · cases h

/-- An instruction that is no second place of a label fails only if it is refused: once it is
selected, its reads can be counted. -/
theorem Upto.refused (h : Upto instrs n l) (hi : instrs[n]? = some instr)
    (hnodup : (Tac.labels (instrs.take (n + 1))).Nodup) (hone : lowerOne instr l = .error e l') :
    instr.Refused l.pool e := by
  have hlabels := labelsAfter_eq_ok.mpr ⟨(h.nodup_succ_iff hi).mp hnodup, rfl⟩
  have hadvance := advance_of_lowerOne_eq_error hone
  simp only [advance, hlabels, Except.bind_eq_error, Except.pure_ne_error, and_false, exists_false,
    or_false, reduceCtorEq, Except.ok.injEq, false_or, exists_eq_left'] at hadvance
  rcases hadvance with hselect | ⟨⟨chunk, pool⟩, hselect, hretire⟩
  · exact Instr.refused_of_select_eq_error hselect
  · obtain ⟨pool', hok, -⟩ := h.tracks.step hi (Instr.select_eq_ok.mp hselect)
    obtain ⟨_, herror, -⟩ := Except.mapError_eq_error.mp hretire
    rw [hok] at herror
    cases herror

/-- Lowering fails at some instruction, and has got through all that come before it. -/
theorem lowerAll_eq_error (h : lowerAll instrs l₀ = .error e l') :
    ∃ n instr l, instrs[n]? = some instr ∧ lowerAll (instrs.take n) l₀ = .ok () l ∧
      lowerOne instr l = .error e l' := by
  induction instrs generalizing l₀ with
  | nil => cases h
  | cons first others ih =>
      rcases EStateM.bind_eq_error.mp h with hfirst | ⟨_, l₁, hfirst, hothers⟩
      · exact ⟨0, first, l₀, rfl, rfl, hfirst⟩
      · obtain ⟨n, instr, l, hi, hbefore, hone⟩ := ih hothers
        refine ⟨n + 1, instr, l, hi, ?_, hone⟩
        rw [List.take_succ_cons]
        exact EStateM.bind_eq_ok.mpr ⟨(), l₁, hfirst, hbefore⟩

theorem labelsAfter_eq_error (h : l.labelsAfter instr = .error e) :
    ∃ label, e = .unsupported (.duplicateLabel label) := by
  cases instr with
  | label label =>
      simp only [labelsAfter, LabelTable.define] at h
      split at h
      · cases h
      · next hdefine =>
          cases h
          split at hdefine <;> cases hdefine
          exact ⟨label, rfl⟩
  | const | load | store | binary | not | branch | jump | print => cases h

/-- **Instructions are not lowered for two reasons**: a label is there a second time, or an
instruction is refused. -/
theorem refused_of_lowerAll_eq_error {code : Code}
    (h : lowerAll code.instrs (Lowerer.empty.restart code) = .error e l') :
    (¬ (Tac.labels code.instrs).Nodup ∧ ∃ label, e = .unsupported (.duplicateLabel label)) ∨
      ∃ n instr pool, code.instrs[n]? = some instr ∧ Tracks code.instrs n pool ∧
        instr.Refused pool e := by
  obtain ⟨n, instr, l, hi, hbefore, hone⟩ := lowerAll_eq_error h
  have hn := (List.getElem?_eq_some_iff.mp hi).1
  have hupto := upto_of_lowerAll (Nat.le_of_lt hn) hbefore
  by_cases hnodup : (Tac.labels (code.instrs.take (n + 1))).Nodup
  · exact .inr ⟨n, instr, l.pool, hi, hupto.tracks, hupto.refused hi hnodup hone⟩
  · left
    have hsub : (Tac.labels (code.instrs.take (n + 1))).Sublist (Tac.labels code.instrs) :=
      (List.take_sublist _ _).filterMap _
    refine ⟨fun hall => hnodup (hall.sublist hsub), ?_⟩
    -- the labels are looked at before anything else
    cases hlabels : l.labelsAfter instr with
    | ok labels =>
        exact absurd ((hupto.nodup_succ_iff hi).mpr (labelsAfter_eq_ok.mp hlabels).1) hnodup
    | error e' =>
        have hadvance := advance_of_lowerOne_eq_error hone
        rw [advance, hlabels] at hadvance
        cases hadvance
        exact labelsAfter_eq_error hlabels

end Lowerer

/-! ## Programs that are not lowered -/

namespace Tac.Code

variable {code : Code} {e : CompileError}

/-- A program is not lowered if one of its instructions is not or one of its branches is not
resolved. -/
theorem lower_eq_error (h : code.lower = .error e) :
    (∃ l, Lowerer.lowerAll code.instrs (Lowerer.empty.restart code) = .error e l) ∨
      ∃ l resolved, Lowerer.lowerAll code.instrs (Lowerer.empty.restart code) = .ok () l ∧
        l.labels.resolve l.instrs.toList = (.error e, resolved) := by
  rw [Code.lower, Lowerer.lowerProgram_apply] at h
  cases hall : Lowerer.lowerAll code.instrs (Lowerer.empty.restart code) with
  | error e' l =>
      simp only [hall, Except.error.injEq] at h
      exact .inl ⟨l, by rw [h]⟩
  | ok _ l =>
      rcases hresolve : l.labels.resolve l.instrs.toList with ⟨e' | _, resolved⟩
      · simp only [hall, hresolve, Except.error.injEq] at h
        exact .inr ⟨l, resolved, rfl, by rw [hresolve, h]⟩
      · simp [hall, hresolve] at h

/-- **Code whose labels are in order is refused at one of its instructions.** -/
theorem refused_of_lower_eq_error (hnodup : (labels code.instrs).Nodup)
    (htargets : ∀ target ∈ code.instrs.filterMap Instr.target?,
      target ∈ labels code.instrs ∧ target.id < 0x8000000000000000)
    (h : code.lower = .error e) :
    ∃ n instr pool, code.instrs[n]? = some instr ∧ Tracks code.instrs n pool ∧
      instr.Refused pool e := by
  rcases lower_eq_error h with ⟨l', hall⟩ | ⟨l, resolved, hall, hresolve⟩
  · rcases Lowerer.refused_of_lowerAll_eq_error hall with ⟨hdouble, -⟩ | hrefused
    · exact absurd hnodup hdouble
    · exact hrefused
  · have hupto : l.Upto code.instrs code.instrs.length :=
      Lowerer.upto_of_lowerAll (Nat.le_refl _) (by rwa [List.take_length])
    obtain ⟨resolved', hok⟩ := (resolve_isOk_iff_targets hupto).mpr htargets
    rw [hok] at hresolve
    cases hresolve

end Tac.Code

end SixReg
