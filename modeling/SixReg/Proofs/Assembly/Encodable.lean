import SixReg.Compile
import SixReg.Proofs.Assembly.Lowerable
import SixReg.Proofs.Machine.Encoding

/-!
# Which code can be assembled

Lowered code can be encoded just in case all of its immediates fit thirteen bits. The immediates
are the literals of the code, the slots of its variables and the offsets of the labels that it goes
to, so this too can be read off the code (`Encodable`): code is assembled exactly if it is lowerable
and encodable (`exists_assemble_iff`).
-/

namespace SixReg

open Tac

/-! ## Immediates -/

theorem fitsImmediate_natCast {n : Nat} : FitsImmediate n ↔ n ≤ 8191 := by
  unfold FitsImmediate maxImmediate
  omega

theorem fitsImmediate_asImmediate {n : Nat} : FitsImmediate (asImmediate n) ↔ n ≤ 8191 := by
  constructor
  · intro h
    rw [asImmediate_of_nonneg h.1] at h
    exact fitsImmediate_natCast.mp h
  · intro h
    rw [asImmediate_of_nonneg (asImmediate_nonneg_iff.mpr (by omega))]
    exact fitsImmediate_natCast.mpr h

/-- A branch fits if its offset does, and resolving leaves any other instruction as it is. -/
theorem LabelTable.fits_iff_of_resolveOne {table : LabelTable} {instr resolved : Instruction}
    (h : table.resolveOne instr = .ok resolved) :
    FitsImmediate resolved.immediate ↔
      (instr.target? = none → FitsImmediate instr.immediate) ∧
        ∀ imm ∈ instr.target?, ∀ offset ∈ table.offsets[(⟨imm.toNat⟩ : Label)]?, offset ≤ 8191 := by
  cases instr with
  | branch op rs1 rs2 imm =>
      simp only [resolveOne] at h
      split at h
      · cases h
      · simp only [Except.map_eq_ok, offset] at h
        obtain ⟨offset, hoffset, rfl⟩ := h
        split at hoffset
        · next ho =>
            cases hoffset
            simp [Instruction.target?, Instruction.immediate, ho, fitsImmediate_asImmediate]
        · cases hoffset
  | alu | aluImm | memRead | memWrite | call =>
      cases h
      simp [Instruction.target?]

theorem forall_mem_iff_of_forall₂ {α β : Type} {R : α → β → Prop} {P : α → Prop} {Q : β → Prop}
    {xs : List α} {ys : List β} (h : List.Forall₂ R xs ys) (hR : ∀ {x y}, R x y → (Q y ↔ P x)) :
    (∀ y ∈ ys, Q y) ↔ ∀ x ∈ xs, P x := by
  induction h with
  | nil => simp
  | cons hxy _ ih => rw [List.forall_mem_cons, List.forall_mem_cons, hR hxy, ih]

/-! ## Literals, variables and offsets of code -/

namespace Tac

/-- The number that an operand spells. -/
def Operand.literals : Operand → List Int
  | .temp _ => []
  | .const value => [value]

/-- The numbers that an instruction spells. -/
def Instr.literals : Instr → List Int
  | .const _ value => [value]
  | .store _ src | .not _ src => src.literals
  | .binary _ _ _ right => right.literals
  | .load _ _ | .branch _ _ _ _ | .jump _ | .label _ | .print _ => []

/-- The variables that an instruction loads or stores. -/
def Instr.symbols : Instr → List Symbol
  | .load _ symbol | .store symbol _ => [symbol]
  | .const _ _ | .binary _ _ _ _ | .not _ _ | .branch _ _ _ _ | .jump _ | .label _ | .print _ => []

/-- Code whose numbers, slots and offsets all fit the immediate field. -/
structure Encodable (instrs : List Instr) : Prop where
  literals : ∀ value ∈ instrs.flatMap Instr.literals, FitsImmediate value
  slots : ∀ symbol ∈ instrs.flatMap Instr.symbols, symbol.slot ≤ 8191
  offsets : ∀ target ∈ instrs.filterMap Instr.target?, ∀ n ∈ position? instrs target,
    place instrs n * wordsPerInstruction ≤ 8191

variable {instr : Instr} {pool pool' : Pool} {chunk : List Instruction}

/-- Besides the branches, the immediates of selected code are the literals and the slots. -/
theorem Instr.Selected.fits_iff (h : instr.Selected pool chunk pool') :
    (∀ i ∈ chunk, i.target? = none → FitsImmediate i.immediate) ↔
      (∀ value ∈ instr.literals, FitsImmediate value) ∧
        ∀ symbol ∈ instr.symbols, symbol.slot ≤ 8191 := by
  have hzero : FitsImmediate 0 := ⟨by decide, by decide⟩
  cases h <;>
    simp [Instr.literals, Operand.literals, Instr.symbols, Instruction.target?,
      Instruction.immediate, Instruction.movImm, Instruction.jump, Symbol.select,
      fitsImmediate_asImmediate, hzero]

end Tac

/-- What selection says of one instruction, lowering says of code. -/
theorem Lowerer.forall_mem_iff_of_lowerAll {P : Instruction → Prop} {Q : Instr → Prop}
    (hsel : ∀ {instr pool chunk pool'}, Instr.Selected pool instr chunk pool' →
      ((∀ i ∈ chunk, P i) ↔ Q instr))
    {instrs : List Instr} {l l' : Lowerer} (h : lowerAll instrs l = .ok () l') :
    (∀ i ∈ l'.instrs.toList, P i) ↔
      (∀ i ∈ l.instrs.toList, P i) ∧ ∀ instr ∈ instrs, Q instr := by
  induction instrs generalizing l with
  | nil =>
      simp only [lowerAll, EStateM.pure_eq_ok, true_and] at h
      simp [h]
  | cons instr instrs ih =>
      simp only [lowerAll, EStateM.bind_eq_ok] at h
      obtain ⟨_, l₁, hone, hrest⟩ := h
      obtain ⟨_, chunk, _, _, -, hchunk, -, rfl⟩ := lowerOne_eq_ok.mp hone
      rw [ih hrest, List.forall_mem_cons, ← hsel hchunk, Array.toList_appendList,
        List.forall_mem_append, and_assoc]

/-! ## Assembling -/

namespace Tac

variable {code : Code} {l : Lowerer} {resolved : List Instruction}

/-- **What is lowered fits just in case the code is encodable.** -/
theorem fits_iff_encodable
    (hl : Lowerer.lowerAll code.instrs (Lowerer.empty.restart code) = .ok () l)
    (hresolve : l.labels.resolve l.instrs.toList = (.ok (), resolved)) :
    (∀ instr ∈ resolved, FitsImmediate instr.immediate) ↔ Encodable code.instrs := by
  have hupto : l.Upto code.instrs code.instrs.length :=
    Lowerer.upto_of_lowerAll (Nat.le_refl _) (by rwa [List.take_length])
  have htargets := (resolve_isOk_iff_targets hupto).mp ⟨resolved, hresolve⟩
  -- before it is resolved, a branch has the number of its label in place of the offset
  have hoffset : ∀ target ∈ code.instrs.filterMap Instr.target?,
      l.labels.offsets[(⟨(asImmediate target.id).toNat⟩ : Label)]? =
        (position? code.instrs target).map fun n => place code.instrs n * wordsPerInstruction := by
    intro target htarget
    have hid := (htargets target htarget).2
    rw [asImmediate_of_nonneg (asImmediate_nonneg_iff.mpr hid), Int.toNat_natCast,
      hupto.locates, List.take_length]
  have hbranches : (∀ instr ∈ l.instrs.toList, ∀ imm ∈ instr.target?,
      ∀ offset ∈ l.labels.offsets[(⟨imm.toNat⟩ : Label)]?, offset ≤ 8191) ↔
        ∀ target ∈ code.instrs.filterMap Instr.target?, ∀ n ∈ position? code.instrs target,
          place code.instrs n * wordsPerInstruction ≤ 8191 := by
    refine List.forall_mem_filterMap.symm.trans ?_
    rw [hupto.targets, List.take_length, List.forall_mem_map]
    refine forall₂_congr fun target htarget => ?_
    rw [hoffset target htarget, Option.forall_mem_map]
  rw [forall_mem_iff_of_forall₂ (LabelTable.resolve_eq_ok.mp hresolve)
    LabelTable.fits_iff_of_resolveOne, forall₂_and,
    Lowerer.forall_mem_iff_of_lowerAll Instr.Selected.fits_iff hl, hbranches]
  -- what stood there when lowering began is nothing, which leaves the code
  constructor
  · rintro ⟨⟨-, hcode⟩, hoffsets⟩
    obtain ⟨hliterals, hslots⟩ := forall₂_and.mp hcode
    exact ⟨List.forall_mem_flatMap.mpr hliterals, List.forall_mem_flatMap.mpr hslots, hoffsets⟩
  · rintro ⟨hliterals, hslots, hoffsets⟩
    refine ⟨⟨List.forall_mem_nil _, forall₂_and.mpr ⟨?_, ?_⟩⟩, hoffsets⟩
    · exact List.forall_mem_flatMap.mp hliterals
    · exact List.forall_mem_flatMap.mp hslots

theorem exists_assemble_iff :
    (∃ c, code.assemble = .ok c) ↔ Lowerable code.instrs ∧ Encodable code.instrs := by
  rw [← exists_lowerAll_iff_lowerable]
  simp only [Code.assemble, Except.bind_eq_ok, Except.pure_eq_ok, Code.lower_eq_ok]
  constructor
  · rintro ⟨_, lowered, ⟨l, hl, hresolve, -⟩, encoded, hencode, -⟩
    have hfits := Instruction.exists_encodeAll_iff.mp ⟨encoded, hencode⟩
    exact ⟨⟨l, lowered.instrs, hl, hresolve⟩, (fits_iff_encodable hl hresolve).mp hfits⟩
  · rintro ⟨⟨l, resolved, hl, hresolve⟩, hencodable⟩
    have hfits := (fits_iff_encodable hl hresolve).mpr hencodable
    obtain ⟨encoded, hencode⟩ := Instruction.exists_encodeAll_iff.mpr hfits
    exact ⟨_, ⟨resolved, l.labels, l.pool.peak⟩, ⟨l, hl, hresolve, rfl, rfl⟩, encoded, hencode,
      rfl⟩

end Tac

end SixReg
