import SixReg.Compile
import SixReg.Proofs.Assembly.Layout
import SixReg.Proofs.Machine.Encoding
import SixReg.Proofs.Machine.Execution

/-!
# Assembled code in the machine

From code to an image there are three passes: selecting instructions, putting addresses into
branches, and encoding. A machine that fetches from the image decodes what was selected, with the
address of its label in a branch (`Fetches`). So all that a simulation has to know is one rule of
selection for each instruction, and where its chunk stands (`Chunk`).
-/

namespace SixReg

open Tac

theorem getElem?_of_forall₂ {α β : Type} {R : α → β → Prop} {xs : List α} {ys : List β}
    (h : List.Forall₂ R xs ys) {j : Nat} {x : α} (hx : xs[j]? = some x) :
    ∃ y, ys[j]? = some y ∧ R x y := by
  obtain ⟨hj, rfl⟩ := List.getElem?_eq_some_iff.mp hx
  have hj' : j < ys.length := h.length_eq ▸ hj
  exact ⟨ys[j], List.getElem?_eq_getElem hj', h.get hj hj'⟩

/-! ## Fetching -/

/-- The machine finds the instruction with index `j`, with its label replaced by an address, and
its immediate fits. -/
structure Fetches (image : Image) (table : LabelTable) (j : Nat) (instr : Instruction)
    (resolved : Instruction) : Prop where
  resolves : table.resolveOne instr = .ok resolved
  min : 0 ≤ resolved.immediate
  max : resolved.immediate ≤ maxImmediate
  fetches : ∃ e, image[j]? = some e ∧ e.decode = .ok resolved

/-- An image is what lowering leaves, with addresses in its branches. -/
structure Assembled (code : Code) (image : Image) (l : Lowerer) : Prop where
  lowers : Lowerer.lowerAll code.instrs (Lowerer.empty.restart code) = .ok () l
  size : image.size = l.instrs.size
  fetches : ∀ {j instr}, l.instrs.toList[j]? = some instr →
    ∃ resolved, Fetches image l.labels j instr resolved

theorem Tac.Code.exists_assembled {code : Code} {c : Compiled} (h : code.assemble = .ok c) :
    ∃ l, Assembled code c.image l := by
  simp only [Code.assemble, Except.bind_eq_ok, Except.pure_eq_ok] at h
  obtain ⟨lowered, hlower, encoded, hencode, rfl⟩ := h
  obtain ⟨l, hl, hresolve, -⟩ := Code.lower_eq_ok.mp hlower
  have hresolved := LabelTable.resolve_eq_ok.mp hresolve
  have hencoded := Instruction.encodeAll_eq_ok.mp hencode
  refine ⟨l, hl, ?_, ?_⟩
  · show encoded.toArray.size = l.instrs.size
    rw [List.size_toArray, ← hencoded.length_eq, ← hresolved.length_eq, Array.length_toList]
  · intro j instr hj
    obtain ⟨resolved, hj', hone⟩ := getElem?_of_forall₂ hresolved hj
    obtain ⟨e, he, hcode⟩ := getElem?_of_forall₂ hencoded hj'
    obtain ⟨⟨hmin, hmax⟩, -⟩ := Instruction.encode_eq_ok.mp hcode
    refine ⟨resolved, hone, hmin, hmax, e, ?_, Instruction.decode_of_encode hcode⟩
    show encoded.toArray[j]? = some e
    rw [List.getElem?_toArray, he]

section Steps

variable {image : Image} {table : LabelTable} {j : Nat} {instr resolved : Instruction}
  {m m' : Machine} {fault : Fault}

theorem Fetches.lt_stopOf (h : Fetches image table j instr resolved)
    (hpc : m.pc = j * wordsPerInstruction) : m.pc < Machine.stopOf image := by
  obtain ⟨e, he, -⟩ := h.fetches
  obtain ⟨hlt, -⟩ := Array.getElem?_eq_some_iff.mp he
  rw [hpc, Machine.stopOf]
  exact Nat.mul_lt_mul_of_pos_right hlt (by decide)

/-- A machine does what it fetches. -/
theorem Fetches.next (h : Fetches image table j instr resolved)
    (hpc : m.pc = j * wordsPerInstruction)
    (hstep : Machine.step (Machine.stopOf image) resolved m = .ok () m') :
    (Machine.system image).step m = .next { m' with steps := m'.steps + 1 } := by
  obtain ⟨e, he, hdecode⟩ := h.fetches
  have hj : m.pc / wordsPerInstruction = j := by rw [hpc, Nat.mul_div_cancel _ (by decide)]
  refine Machine.move_eq_next.mpr ⟨h.lt_stopOf hpc, ?_⟩
  simp only [Machine.stepAt, hj, he, hdecode, hstep]

theorem Fetches.fail (h : Fetches image table j instr resolved)
    (hpc : m.pc = j * wordsPerInstruction)
    (hstep : Machine.step (Machine.stopOf image) resolved m = .error fault m') :
    (Machine.system image).step m = .fail fault := by
  obtain ⟨e, he, hdecode⟩ := h.fetches
  have hj : m.pc / wordsPerInstruction = j := by rw [hpc, Nat.mul_div_cancel _ (by decide)]
  refine Machine.move_eq_fail.mpr ⟨h.lt_stopOf hpc, m', ?_⟩
  simp only [Machine.stepAt, hj, he, hdecode, hstep]

theorem Fetches.eq_of_target? (h : Fetches image table j instr resolved)
    (hi : instr.target? = none) : resolved = instr := by
  have hresolves := h.resolves
  rw [LabelTable.resolveOne_of_target? hi, Except.ok.injEq] at hresolves
  exact hresolves.symm

end Steps

/-! ## Chunks -/

variable {code : Code} {image : Image} {l : Lowerer} {n : Nat} {instr : Instr}

theorem Lowerer.lowerAll_prefix {instrs : List Instr} {l l' : Lowerer}
    (h : Lowerer.lowerAll instrs l = .ok () l') : l.instrs.toList <+: l'.instrs.toList := by
  induction instrs generalizing l with
  | nil =>
      simp only [Lowerer.lowerAll, EStateM.pure_eq_ok, true_and] at h
      exact h ▸ List.prefix_rfl
  | cons instr instrs ih =>
      simp only [Lowerer.lowerAll, EStateM.bind_eq_ok] at h
      obtain ⟨_, l₁, hone, hrest⟩ := h
      obtain ⟨_, chunk, _, _, -, -, -, rfl⟩ := Lowerer.lowerOne_eq_ok.mp hone
      refine List.IsPrefix.trans ?_ (ih hrest)
      rw [Array.toList_appendList]
      exact List.prefix_append _ _

/-- The code of instruction `n` in a lowering, and the pool before and after its selection. -/
structure Chunk (code : Code) (l : Lowerer) (n : Nat) (instr : Instr) (chunk : List Instruction)
    (before after : Pool) : Prop where
  instr_eq : code.instrs[n]? = some instr
  tracks : Tracks code.instrs n before
  selected : instr.Selected before chunk after
  codeAt : CodeAt l.instrs.toList (place code.instrs n) chunk
  /-- The pool in front of instruction `n`. -/
  before_eq : ∀ {l₁}, Lowerer.lowerAll (code.instrs.take n) (Lowerer.empty.restart code) =
    .ok () l₁ → l₁.pool = before
  /-- Behind it, registers were only given up. -/
  after_eq : ∀ {l₂}, Lowerer.lowerAll (code.instrs.take (n + 1)) (Lowerer.empty.restart code) =
    .ok () l₂ → ∀ {t r}, l₂.pool.register? t = some r → after.register? t = some r

namespace Assembled

/-- Every prefix of assembled code is lowered, and what is left goes behind it. -/
theorem exists_take (h : Assembled code image l) (n : Nat) :
    ∃ l₁, Lowerer.lowerAll (code.instrs.take n) (Lowerer.empty.restart code) = .ok () l₁ ∧
      Lowerer.lowerAll (code.instrs.drop n) l₁ = .ok () l := by
  have hl := h.lowers
  rw [← List.take_append_drop n code.instrs, Lowerer.lowerAll_append, EStateM.bind_eq_ok] at hl
  obtain ⟨_, l₁, hfirst, hrest⟩ := hl
  exact ⟨l₁, hfirst, hrest⟩

theorem exists_chunk (h : Assembled code image l) (hi : code.instrs[n]? = some instr) :
    ∃ chunk before after, Chunk code l n instr chunk before after := by
  obtain ⟨hn, -⟩ := List.getElem?_eq_some_iff.mp hi
  obtain ⟨l₂, hl₂, hrest⟩ := h.exists_take (n + 1)
  obtain ⟨l₁, hl₁, hone⟩ := (Lowerer.lowerAll_take_succ hi).mp hl₂
  have hupto := Lowerer.upto_of_lowerAll (Nat.le_of_lt hn) hl₁
  obtain ⟨labels, chunk, pool, pool', -, hsel, hretire, rfl⟩ := Lowerer.lowerOne_eq_ok.mp hone
  obtain ⟨pool'', hretire', hsettled, -⟩ := hupto.tracks.step hi hsel
  obtain rfl : pool'' = pool' := Except.ok.inj (hretire'.symm.trans hretire)
  refine ⟨chunk, l₁.pool, pool, hi, hupto.tracks, hsel, ?_, ?_, ?_⟩
  · obtain ⟨rest, hrest⟩ := Lowerer.lowerAll_prefix hrest
    rw [Array.toList_appendList, List.append_assoc] at hrest
    have hsize : l₁.instrs.toList.length = place code.instrs n := by
      rw [Array.length_toList, hupto.size]
    refine ⟨rest, ?_⟩
    rw [← hrest, ← hsize, List.drop_left]
  -- lowering is a function, so the lowering that is asked about is the one at hand
  · intro l₃ hl₃
    rw [hl₁] at hl₃
    cases hl₃
    rfl
  · intro l₃ hl₃ t r ht
    rw [hl₂] at hl₃
    cases hl₃
    rw [hsettled.register?] at ht
    split at ht
    · cases ht
    · exact ht

theorem upto (h : Assembled code image l) : l.Upto code.instrs code.instrs.length := by
  refine Lowerer.upto_of_lowerAll (Nat.le_refl _) ?_
  rw [List.take_length]
  exact h.lowers

theorem stopOf_eq (h : Assembled code image l) :
    Machine.stopOf image = place code.instrs code.instrs.length * wordsPerInstruction := by
  rw [Machine.stopOf, h.size, h.upto.size]

end Assembled

end SixReg
