import Mathlib.Algebra.Ring.Parity
import SixReg.Proofs.Assembly.Image

/-!
# Addresses

A branch is selected with the number of its label in the immediate field, where other instructions
have their constants and slots. When all is selected, the table of labels is complete and resolves
the branches. `Lowered.Layout` describes what comes out of this chunk by chunk, and `lower_layout`
shows that all lowered code is laid out so:

* lowering appends one draft for each instruction (`Lowerer.exists_drafts`);
* resolving goes through the drafts one by one (`exists_chunks`), leaves a draft without branches as
  it is (`LabelTable.eq_of_resolve`) and puts the address of its label into a branch
  (`LabelTable.resolveOne_branch`).
-/

namespace SixReg

open Tac

/-! ## Drafts and chunks -/

/-- Lowering appends what is selected for each instruction. -/
theorem Lowerer.exists_drafts {instrs : List Instr} {l l' : Lowerer}
    (h : lowerAll instrs l = .ok () l') :
    ∃ drafts, l'.instrs.toList = l.instrs.toList ++ drafts.flatten ∧
      List.Forall₂ (fun instr draft => ∃ pool pool', instr.Selected pool draft pool') instrs
        drafts := by
  induction instrs generalizing l with
  | nil =>
      simp only [lowerAll, EStateM.pure_eq_ok, true_and] at h
      exact ⟨[], by simp [h], .nil⟩
  | cons instr instrs ih =>
      simp only [lowerAll, EStateM.bind_eq_ok] at h
      obtain ⟨_, l₁, hone, hrest⟩ := h
      obtain ⟨_, draft, pool, _, -, hsel, -, rfl⟩ := lowerOne_eq_ok.mp hone
      obtain ⟨drafts, heq, hdrafts⟩ := ih hrest
      refine ⟨draft :: drafts, ?_, .cons ⟨_, _, hsel⟩ hdrafts⟩
      rw [heq, Array.toList_appendList, List.append_assoc, List.flatten_cons]

/-- What is related to a concatenation is a concatenation of what is related to its parts. -/
theorem exists_chunks {α β : Type} {R : α → β → Prop} {drafts : List (List α)} {whole : List β}
    (h : List.Forall₂ R drafts.flatten whole) :
    ∃ chunks, whole = chunks.flatten ∧ List.Forall₂ (List.Forall₂ R) drafts chunks := by
  induction drafts generalizing whole with
  | nil =>
      cases h
      exact ⟨[], rfl, .nil⟩
  | cons draft drafts ih =>
      rw [List.flatten_cons] at h
      have hdraft := List.forall₂_take draft.length h
      have hrest := List.forall₂_drop draft.length h
      rw [List.take_left] at hdraft
      rw [List.drop_left] at hrest
      obtain ⟨chunks, heq, hchunks⟩ := ih hrest
      refine ⟨_ :: chunks, ?_, .cons hdraft hchunks⟩
      rw [List.flatten_cons, ← heq, List.take_append_drop]

namespace LabelTable

variable {table : LabelTable} {op : BranchOp} {rs1 rs2 : Register} {imm : Int}
  {resolved : Instruction} {draft chunk : List Instruction}

theorem eq_of_resolve (h : List.Forall₂ (fun i i' => table.resolveOne i = .ok i') draft chunk)
    (htarget : draft.filterMap Instruction.target? = []) : chunk = draft := by
  rw [List.filterMap_eq_nil_iff] at htarget
  induction h with
  | nil => rfl
  | cons hone _ ih =>
      rw [List.forall_mem_cons] at htarget
      rw [resolveOne_of_target? htarget.1, Except.ok.injEq] at hone
      rw [hone, ih htarget.2]

theorem mem_toList_iff {label : Label} {offset : Nat} :
    (label, offset) ∈ table.toList ↔ table.offsets[label]? = some offset :=
  Std.TreeMap.mem_toList_iff_getElem?_eq_some

/-- A branch keeps its condition and gets the address of its label. -/
theorem resolveOne_branch {target : Label}
    (h : table.resolveOne (.branch op rs1 rs2 (asImmediate target.id)) = .ok resolved) :
    ∃ offset, (target, offset) ∈ table.toList ∧
      resolved = .branch op rs1 rs2 (asImmediate offset) := by
  simp only [resolveOne] at h
  split at h
  · cases h
  · next hnonneg =>
      have hid : asImmediate target.id = target.id := asImmediate_of_nonneg (Int.not_lt.mp hnonneg)
      simp only [hid, Int.toNat_natCast, Except.map_eq_ok, offset] at h
      obtain ⟨offset, hoffset, rfl⟩ := h
      split at hoffset
      · next hfound =>
          cases hoffset
          exact ⟨_, mem_toList_iff.mpr hfound, rfl⟩
      · cases hoffset

end LabelTable

/-! ## The layout of lowered code -/

namespace Tac.Instr

variable {instr : Instr} {pool pool' : Pool} {draft : List Instruction}

theorem Selected.eq_branch {target : Label} (h : instr.Selected pool draft pool')
    (ht : instr.target? = some target) :
    ∃ op rs1 rs2, draft = [.branch op rs1 rs2 (asImmediate target.id)] := by
  cases h with
  | branch | jump =>
      cases ht
      exact ⟨_, _, _, rfl⟩
  | const | load | store | storeConst | binaryConst | binary | notConst | not | label | print =>
      cases ht

end Tac.Instr

/-- How a lowered program is laid out. For each instruction of the code, `drafts` has the machine
instructions that were selected for it, and `chunks` has what became of them when their labels got
addresses. -/
structure Lowered.Layout (lowered : Lowered) (code : Code)
    (drafts chunks : List (List Instruction)) : Prop where
  selected : List.Forall₂ (fun instr draft => ∃ pool pool', instr.select pool = .ok (draft, pool'))
    code.instrs drafts
  resolved : lowered.labels.resolve drafts.flatten = (.ok (), lowered.instrs)
  /-- The program is one chunk after the other. -/
  instrs : lowered.instrs = chunks.flatten
  /-- How long a chunk is depends on the form of its instruction only. -/
  widths : chunks.map List.length = code.instrs.map Instr.width
  /-- The table has the labels of the code and no others, each with the words in front of it. -/
  labels : ∀ label offset, (label, offset) ∈ lowered.labels.toList ↔
    ∃ n, code.instrs[n]? = some (.label label) ∧ offset = 2 * (chunks.take n).flatten.length
  /-- A branch goes to the address of its label, which lies in the program or right behind it. -/
  branches : ∀ (n : Nat) (instr : Instr) (target : Label), code.instrs[n]? = some instr →
    instr.target? = some target →
    ∃ (op : BranchOp) (rs1 rs2 : Register) (imm : Int) (offset : Nat),
      drafts[n]? = some [.branch op rs1 rs2 (asImmediate target.id)] ∧
      chunks[n]? = some [.branch op rs1 rs2 imm] ∧ (target, offset) ∈ lowered.labels.toList ∧
      Even offset ∧ offset ≤ 2 * lowered.instrs.length ∧ imm = asImmediate offset ∧
      (2 * lowered.instrs.length < 0x8000000000000000 → imm = offset)
  /-- Nothing else is changed when addresses are put in. -/
  others : ∀ (n : Nat) (instr : Instr), code.instrs[n]? = some instr → instr.target? = none →
    chunks[n]? = drafts[n]?

/-- The chunks in front of an instruction are as long as its place says. -/
theorem length_flatten_take {instrs : List Instr} {chunks : List (List Instruction)}
    (h : chunks.map List.length = instrs.map Instr.width) (n : Nat) :
    (chunks.take n).flatten.length = place instrs n := by
  rw [List.length_flatten, List.map_take, h, ← List.map_take]
  rfl

/-- A label is in the table just in case it stands somewhere, and then with its place. -/
theorem Lowerer.Upto.mem_toList_iff {code : Code} {l : Lowerer}
    (h : l.Upto code.instrs code.instrs.length) {label : Label} {offset : Nat} :
    (label, offset) ∈ l.labels.toList ↔
      ∃ n, code.instrs[n]? = some (.label label) ∧ offset = 2 * place code.instrs n := by
  have hnodup := h.nodup
  rw [LabelTable.mem_toList_iff, h.locates, Option.map_eq_some_iff]
  rw [List.take_length] at hnodup ⊢
  constructor
  · rintro ⟨n, hn, rfl⟩
    exact ⟨n, getElem?_of_position? hn, Nat.mul_comm _ _⟩
  · rintro ⟨n, hn, rfl⟩
    exact ⟨n, position?_eq_some hnodup hn, Nat.mul_comm _ _⟩

/-- A chunk is as long as its draft, and that is as long as its instruction says. -/
theorem widths_eq {instrs : List Instr} {drafts chunks : List (List Instruction)}
    {R : Instruction → Instruction → Prop}
    (hselected : List.Forall₂ (fun instr draft => ∃ pool pool', instr.Selected pool draft pool')
      instrs drafts)
    (hresolved : List.Forall₂ (List.Forall₂ R) drafts chunks) :
    chunks.map List.length = instrs.map Instr.width := by
  induction hselected generalizing chunks with
  | nil =>
      cases hresolved
      rfl
  | cons hsel _ ih =>
      obtain ⟨pool, pool', hsel⟩ := hsel
      cases hresolved with
      | cons hchunk hchunks =>
          rw [List.map_cons, List.map_cons, ih hchunks, ← hchunk.length_eq, hsel.length_eq]

/-- The address of a label is that of an instruction, or the one behind the last. -/
theorem Tac.Code.offset_of_lower {code : Code} {lowered : Lowered} (h : code.lower = .ok lowered)
    {label : Label} {offset : Nat} (hmem : (label, offset) ∈ lowered.labels.toList) :
    Even offset ∧ offset ≤ 2 * lowered.instrs.length := by
  obtain ⟨l, hl, hresolve, hlabels, -⟩ := Code.lower_eq_ok.mp h
  have hupto : l.Upto code.instrs code.instrs.length :=
    Lowerer.upto_of_lowerAll (Nat.le_refl _) (by rwa [List.take_length])
  have hlength : lowered.instrs.length = place code.instrs code.instrs.length := by
    rw [← (LabelTable.resolve_eq_ok.mp hresolve).length_eq, Array.length_toList, hupto.size]
  obtain ⟨n, -, rfl⟩ := hupto.mem_toList_iff.mp (hlabels ▸ hmem)
  have hplace := place_le_length code.instrs n
  exact ⟨even_two_mul _, by omega⟩

/-- **Code is laid out chunk by chunk**, and resolving changes nothing but the targets of
branches. -/
theorem lower_layout {code : Code} {lowered : Lowered} (h : code.lower = .ok lowered) :
    ∃ drafts chunks, lowered.Layout code drafts chunks := by
  obtain ⟨l, hl, hresolve, hlabels, -⟩ := Code.lower_eq_ok.mp h
  have hupto : l.Upto code.instrs code.instrs.length :=
    Lowerer.upto_of_lowerAll (Nat.le_refl _) (by rwa [List.take_length])
  obtain ⟨drafts, hdrafts, hselected⟩ := Lowerer.exists_drafts hl
  replace hdrafts : l.instrs.toList = drafts.flatten := hdrafts
  rw [hdrafts, ← hlabels] at hresolve
  obtain ⟨chunks, hchunks, hresolved⟩ := exists_chunks (LabelTable.resolve_eq_ok.mp hresolve)
  have hwidths := widths_eq hselected hresolved
  have hplace := length_flatten_take hwidths
  refine ⟨drafts, chunks, ?_, hresolve, hchunks, hwidths, ?_, ?_, ?_⟩
  · apply hselected.imp
    rintro instr draft ⟨pool, pool', hsel⟩
    exact ⟨pool, pool', Instr.select_eq_ok.mpr hsel⟩
  · intro label offset
    simp only [hlabels, hupto.mem_toList_iff, hplace]
  · intro n instr target hi ht
    obtain ⟨draft, hdraft, pool, pool', hsel⟩ := getElem?_of_forall₂ hselected hi
    obtain ⟨chunk, hchunk, hones⟩ := getElem?_of_forall₂ hresolved hdraft
    obtain ⟨op, rs1, rs2, rfl⟩ := hsel.eq_branch ht
    obtain ⟨resolved, _, hone, hnil, rfl⟩ := List.forall₂_cons_left_iff.mp hones
    obtain rfl := List.forall₂_nil_left_iff.mp hnil
    obtain ⟨offset, hmem, rfl⟩ := LabelTable.resolveOne_branch hone
    obtain ⟨heven, hbound⟩ := Code.offset_of_lower h hmem
    refine ⟨op, rs1, rs2, _, offset, hdraft, hchunk, hmem, heven, hbound, rfl, ?_⟩
    intro hroom
    exact asImmediate_of_nonneg (asImmediate_nonneg_iff.mpr (Nat.lt_of_le_of_lt hbound hroom))
  · intro n instr hi ht
    obtain ⟨draft, hdraft, pool, pool', hsel⟩ := getElem?_of_forall₂ hselected hi
    obtain ⟨chunk, hchunk, hones⟩ := getElem?_of_forall₂ hresolved hdraft
    have hnone : draft.filterMap Instruction.target? = [] := by
      rw [Lowerer.target?_of_selected hsel, ht]
      rfl
    rw [hchunk, hdraft, LabelTable.eq_of_resolve hones hnone]

/-- Labels with crossed numbers, two of them in the same place and one behind the last instruction.
The constants and the slot are numbers of labels too, and stay as they are. -/
theorem lower_layout_crossed :
    let x : Symbol := ⟨"x", 2⟩
    let code : Code := ⟨[.label ⟨3⟩, .store x (.const 3), .load ⟨0⟩ x, .const ⟨1⟩ 1,
      .branch ⟨0⟩ ⟨1⟩ .ge ⟨1⟩, .jump ⟨2⟩, .label ⟨2⟩, .label ⟨0⟩, .jump ⟨3⟩, .label ⟨1⟩], [x]⟩
    ∃ lowered, code.lower = .ok lowered ∧
      lowered.labels.toList = [(⟨0⟩, 16), (⟨1⟩, 18), (⟨2⟩, 16), (⟨3⟩, 0)] ∧
      lowered.instrs = [.movImm .r5 3, .movImm .mar 2, .memWrite .stor .r5, .movImm .mar 2,
        .memRead .load .r5, .movImm .r4 1, .branch .bge .r5 .r4 18, .jump 16, .jump 0] ∧
      ∃ drafts chunks, lowered.Layout code drafts chunks := by
  intro x code
  obtain ⟨lowered, hl⟩ := Except.exists_of_isOk (show code.lower.isOk = true by decide +kernel)
  have hlowered : code.lower.toOption.map (fun l => (l.labels.toList, l.instrs)) =
      some ([(⟨0⟩, 16), (⟨1⟩, 18), (⟨2⟩, 16), (⟨3⟩, 0)],
        [.movImm .r5 3, .movImm .mar 2, .memWrite .stor .r5, .movImm .mar 2,
          .memRead .load .r5, .movImm .r4 1, .branch .bge .r5 .r4 18, .jump 16, .jump 0]) := by
    decide +kernel
  rw [hl] at hlowered
  obtain ⟨hlabels, hinstrs⟩ := Prod.mk.inj (Option.some.inj hlowered)
  exact ⟨lowered, hl, hlabels, hinstrs, lower_layout hl⟩

end SixReg
