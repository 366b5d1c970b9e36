import SixReg.Proofs.Assembly.Layout

/-!
# Which code can be lowered

Lowering keeps a pool of registers, counts reads and patches branches. Whether it succeeds, and how
many registers it takes, can be read off the code without any of this: `Lowerable` and `pressure`
speak of the order of writes and reads and of labels only.
-/

namespace SixReg.Tac

/-- Code that can be lowered: every instruction finds what it needs, every label stands in one place
only, and every branch and jump goes to a label that is there and whose number fits the immediate
field. -/
structure Lowerable (instrs : List Instr) : Prop where
  admits : ∀ n instr, instrs[n]? = some instr → Admits instrs n instr
  nodup : (labels instrs).Nodup
  targets : ∀ target ∈ instrs.filterMap Instr.target?,
    target ∈ labels instrs ∧ target.id < 0x8000000000000000

/-- The most registers that an instruction of the code demands. -/
def pressure (instrs : List Instr) : Nat := (Finset.range instrs.length).sup (demand instrs)

variable {code : Code} {l : Lowerer}

/-- The branches of lowered code are resolved just in case their labels are there. -/
theorem resolve_isOk_iff_targets (h : l.Upto code.instrs code.instrs.length) :
    (∃ resolved, l.labels.resolve l.instrs.toList = (.ok (), resolved)) ↔
      ∀ target ∈ code.instrs.filterMap Instr.target?,
        target ∈ labels code.instrs ∧ target.id < 0x8000000000000000 := by
  rw [LabelTable.resolve_isOk_iff, h.targets, List.take_length]
  simp only [List.forall_mem_map, h.locates.mem_iff, List.take_length]
  refine forall₂_congr fun target _ => ?_
  rw [asImmediate_nonneg_iff, and_comm]
  refine and_congr_left fun hlt => ?_
  rw [asImmediate_of_nonneg (asImmediate_nonneg_iff.mpr hlt), Int.toNat_natCast]

theorem exists_lowerAll_iff_lowerable :
    (∃ l resolved, Lowerer.lowerAll code.instrs (Lowerer.empty.restart code) = .ok () l ∧
      l.labels.resolve l.instrs.toList = (.ok (), resolved)) ↔ Lowerable code.instrs := by
  have hall := Lowerer.exists_lowerAll_iff (Nat.le_refl code.instrs.length)
  have hupto := fun l => Lowerer.upto_of_lowerAll (l := l) (Nat.le_refl code.instrs.length)
  rw [List.take_length] at hall hupto
  constructor
  · rintro ⟨l, resolved, hl, hresolve⟩
    obtain ⟨hadmits, hnodup⟩ := hall.mp ⟨l, hl⟩
    refine ⟨?_, hnodup, (resolve_isOk_iff_targets (hupto l hl)).mp ⟨resolved, hresolve⟩⟩
    intro n instr hi
    exact hadmits n instr (List.getElem?_eq_some_iff.mp hi).1 hi
  · rintro ⟨hadmits, hnodup, htargets⟩
    obtain ⟨l, hl⟩ := hall.mpr ⟨fun n instr _ => hadmits n instr, hnodup⟩
    obtain ⟨resolved, hresolve⟩ := (resolve_isOk_iff_targets (hupto l hl)).mpr htargets
    exact ⟨l, resolved, hl, hresolve⟩

/-- **Lowering succeeds exactly on lowerable code**, and then the most registers that were in use at
once are as many as the code demands. -/
theorem lower_succeeds_iff (code : Code) :
    ((∃ lowered, code.lower = .ok lowered) ↔ Lowerable code.instrs) ∧
      ∀ lowered, code.lower = .ok lowered → lowered.peak = pressure code.instrs := by
  constructor
  · rw [← exists_lowerAll_iff_lowerable]
    simp only [Code.lower_eq_ok]
    constructor
    · rintro ⟨lowered, l, hl, hresolve, -⟩
      exact ⟨l, lowered.instrs, hl, hresolve⟩
    · rintro ⟨l, resolved, hl, hresolve⟩
      exact ⟨⟨resolved, l.labels, l.pool.peak⟩, l, hl, hresolve, rfl, rfl⟩
  · intro lowered h
    obtain ⟨l, hl, -, -, hpeak⟩ := Code.lower_eq_ok.mp h
    rw [← List.take_length (l := code.instrs)] at hl
    rw [hpeak, (Lowerer.upto_of_lowerAll (Nat.le_refl _) hl).peak]
    rfl

/-- A temporary that is read twice by one instruction, one that is written again after its last
read, a result that nobody reads, a stored constant, and jumps in both directions. -/
theorem lower_succeeds_iff_rewritten :
    let x : Symbol := ⟨"x", 0⟩
    let code : Code := ⟨[.label ⟨7⟩, .load ⟨0⟩ x, .binary ⟨1⟩ ⟨0⟩ (.arith .add) (.temp ⟨0⟩),
      .not ⟨2⟩ (.temp ⟨1⟩), .const ⟨1⟩ 4, .store x (.const 5), .load ⟨3⟩ x, .const ⟨4⟩ 6,
      .binary ⟨5⟩ ⟨3⟩ (.arith .sub) (.temp ⟨4⟩), .branch ⟨5⟩ ⟨5⟩ .lt ⟨9⟩, .jump ⟨7⟩,
      .label ⟨9⟩], [x]⟩
    Lowerable code.instrs ∧ ∃ lowered, code.lower = .ok lowered ∧ lowered.peak = 3 := by
  intro x code
  obtain ⟨lowered, hl⟩ := Except.exists_of_isOk
    (show code.lower.isOk = true by decide +kernel)
  have hpressure : pressure code.instrs = 3 := by decide +kernel
  exact ⟨(lower_succeeds_iff code).1.mp ⟨lowered, hl⟩, lowered, hl,
    ((lower_succeeds_iff code).2 lowered hl).trans hpressure⟩

end SixReg.Tac
