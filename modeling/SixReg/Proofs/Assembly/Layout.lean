import Mathlib.Algebra.GroupWithZero.Nat
import Mathlib.Data.Finset.Lattice.Fold
import Mathlib.Order.Lattice.Nat
import Mathlib.Order.Nat
import SixReg.Proofs.Assembly.Liveness
import SixReg.Proofs.Tac.Semantics

/-!
# Where lowered code stands

The number of machine instructions for an instruction depends on its form only (`Instr.width`), so
the place of its code is known from the code before it (`place`), and a label stands at the place
of what comes after it. `Upto` gathers what holds of a lowering when the first `n` instructions are
done:

* one instruction keeps it (`Upto.step`), and can be lowered just in case the code around it admits
  it and it is no label that was there before (`Upto.exists_lowerOne_iff`);
* by induction, so does every prefix (`upto_of_lowerAll`, `exists_lowerAll_iff`);
* the branches of the whole are resolved just in case their labels are there (`resolve_isOk_iff`).
-/

namespace SixReg

open Tac

/-! ## Numbers in the immediate field -/

theorem asImmediate_nonneg_iff {n : Nat} : 0 ≤ asImmediate n ↔ n < 0x8000000000000000 := by
  unfold asImmediate
  split <;> omega

theorem asImmediate_of_nonneg {n : Nat} (h : 0 ≤ asImmediate n) : asImmediate n = n := by
  unfold asImmediate
  rw [if_pos (asImmediate_nonneg_iff.mp h)]

namespace Tac

variable {instrs : List Instr} {instr : Instr} {n : Nat}

/-! ## Places -/

/-- The number of machine instructions for an instruction. -/
def Instr.width : Instr → Nat
  | .label _ => 0
  | .load _ _ | .store _ (.temp _) => 2
  | .store _ (.const _) => 3
  | _ => 1

/-- The index of the first machine instruction for instruction `n`. -/
def place (instrs : List Instr) (n : Nat) : Nat := ((instrs.take n).map Instr.width).sum

/-- The label that an instruction may go to. -/
def Instr.target? : Instr → Option Label
  | .branch _ _ _ target | .jump target => some target
  | _ => none

theorem place_succ (hi : instrs[n]? = some instr) :
    place instrs (n + 1) = place instrs n + instr.width := by
  simp [place, take_succ hi]

theorem place_le_length (instrs : List Instr) (n : Nat) :
    place instrs n ≤ place instrs instrs.length := by
  have hsplit : place instrs instrs.length =
      place instrs n + ((instrs.drop n).map Instr.width).sum := by
    rw [place, place, ← List.sum_append, ← List.map_append, List.take_append_drop, List.take_length]
  rw [hsplit]
  exact Nat.le_add_right _ _

theorem Instr.Selected.length_eq {pool pool' : Pool} {chunk : List Instruction}
    (h : instr.Selected pool chunk pool') : chunk.length = instr.width := by
  cases h <;> rfl

theorem position?_take_succ (hi : instrs[n]? = some instr) (label : Label) :
    position? (instrs.take (n + 1)) label =
      (position? (instrs.take n) label).or (if instr = .label label then some n else none) := by
  obtain ⟨hn, -⟩ := List.getElem?_eq_some_iff.mp hi
  have hmin : min n instrs.length = n := Nat.min_eq_left (Nat.le_of_lt hn)
  simp only [position?, List.idxOf?, take_succ hi, List.findIdx?_append, List.findIdx?_singleton,
    List.length_take, hmin, beq_iff_eq]
  split <;> simp

theorem position?_eq_none_iff {label : Label} :
    position? instrs label = none ↔ label ∉ labels instrs := by
  rw [position?, List.idxOf?_eq_none_iff, mem_labels]

end Tac

/-! ## Tables of labels -/

/-- The table has the labels among the first `n` instructions, at their places. -/
def LabelTable.Locates (table : LabelTable) (instrs : List Instr) (n : Nat) : Prop :=
  ∀ label, table.offsets[label]? =
    (position? (instrs.take n) label).map fun i => place instrs i * wordsPerInstruction

/-- The number in the immediate field of a branch. -/
def Instruction.target? : Instruction → Option Int
  | .branch _ _ _ imm => some imm
  | _ => none

namespace LabelTable

variable {table : LabelTable} {instrs : List Instr} {n : Nat}

theorem Locates.mem_iff (h : table.Locates instrs n) {label : Label} :
    label ∈ table.offsets ↔ label ∈ labels (instrs.take n) := by
  rw [Std.TreeMap.mem_iff_isSome_getElem?, h, Option.isSome_map, Option.isSome_iff_ne_none, ne_eq,
    position?_eq_none_iff, not_not]

theorem resolveOne_isOk_iff {instr : Instruction} :
    (∃ resolved, table.resolveOne instr = .ok resolved) ↔
      ∀ imm, instr.target? = some imm → 0 ≤ imm ∧ (⟨imm.toNat⟩ : Label) ∈ table.offsets := by
  cases instr with
  | branch op rs1 rs2 imm =>
      simp only [resolveOne, Instruction.target?, Option.some.injEq, forall_eq']
      by_cases himm : imm < 0
      · simp [himm, Int.not_le.mpr himm]
      · rw [Std.TreeMap.mem_iff_isSome_getElem?]
        cases ho : table.offsets[(⟨imm.toNat⟩ : Label)]? <;>
          simp [himm, Int.not_lt.mp himm, offset, ho, Except.map]
  | alu | aluImm | memRead | memWrite | call => simp [resolveOne, Instruction.target?]

/-- Only branches are touched by resolving. -/
theorem resolveOne_of_target? {instr : Instruction} (h : instr.target? = none) :
    table.resolveOne instr = .ok instr := by
  cases instr with
  | branch => cases h
  | alu | aluImm | memRead | memWrite | call => rfl

/-- Resolving goes through a program one instruction after the other. -/
theorem resolve_eq_ok {program resolved : List Instruction} :
    table.resolve program = (.ok (), resolved) ↔
      List.Forall₂ (fun instr instr' => table.resolveOne instr = .ok instr') program resolved := by
  induction program generalizing resolved with
  | nil => simp [resolve, eq_comm]
  | cons instr program ih =>
      simp only [resolve, List.forall₂_cons_left_iff, ← ih]
      cases table.resolveOne instr with
      | error e => simp
      | ok instr' =>
          simp only [Prod.mk.injEq, Except.ok.injEq, exists_and_left, exists_eq_left']
          constructor
          · rintro ⟨ho, rfl⟩
            exact ⟨_, Prod.ext ho rfl, rfl⟩
          · rintro ⟨rest, hrest, rfl⟩
            simp [hrest]

theorem resolve_isOk_iff {program : List Instruction} :
    (∃ resolved, table.resolve program = (.ok (), resolved)) ↔
      ∀ imm ∈ program.filterMap Instruction.target?,
        0 ≤ imm ∧ (⟨imm.toNat⟩ : Label) ∈ table.offsets := by
  simp only [resolve_eq_ok]
  induction program with
  | nil => simp
  | cons instr program ih =>
      have hcons : (∃ resolved, List.Forall₂
          (fun instr instr' => table.resolveOne instr = .ok instr') (instr :: program) resolved) ↔
          (∃ instr', table.resolveOne instr = .ok instr') ∧ ∃ resolved, List.Forall₂
            (fun instr instr' => table.resolveOne instr = .ok instr') program resolved := by
        simp only [List.forall₂_cons_left_iff]
        constructor
        · rintro ⟨_, instr', rest, h, hrest, rfl⟩
          exact ⟨⟨instr', h⟩, rest, hrest⟩
        · rintro ⟨⟨instr', h⟩, rest, hrest⟩
          exact ⟨_, instr', rest, h, hrest, rfl⟩
      rw [hcons, ih, resolveOne_isOk_iff]
      cases h : instr.target? <;> simp [h]

end LabelTable

/-! ## A lowering under way -/

namespace Lowerer

variable {l l' l₀ : Lowerer} {instrs : List Instr} {instr : Instr} {n : Nat}

theorem labelsAfter_eq_ok {labels : LabelTable} :
    l.labelsAfter instr = .ok labels ↔
      (∀ label, instr = .label label → label ∉ l.labels.offsets) ∧
        labels = match instr with
          | .label label => ⟨l.labels.offsets.insert label (l.instrs.size * wordsPerInstruction)⟩
          | _ => l.labels := by
  cases instr with
  | label label =>
      simp only [labelsAfter, LabelTable.define]
      by_cases h : label ∈ l.labels.offsets <;> simp [h, eq_comm]
  | const | load | store | binary | not | branch | jump | print => simp [labelsAfter, eq_comm]

theorem lowerOne_eq_ok :
    lowerOne instr l = .ok () l' ↔
      ∃ labels chunk pool pool', l.labelsAfter instr = .ok labels ∧
        instr.Selected l.pool chunk pool ∧ instr.retire pool = .ok pool' ∧
        l' = ⟨l.instrs ++ chunk, pool', labels⟩ := by
  -- the passes of one instruction without the state: it is only put together when all are done
  have hadvance : ∀ chunk pool' labels, l.advance instr = .ok (chunk, pool', labels) ↔
      l.labelsAfter instr = .ok labels ∧ ∃ pool, instr.Selected l.pool chunk pool ∧
        instr.retire pool = .ok pool' := by
    intro chunk pool' labels
    simp only [advance, Except.bind_eq_ok, Except.mapError_eq_ok, Except.pure_eq_ok, Prod.exists,
      Instr.select_eq_ok, Prod.mk.injEq]
    constructor
    · rintro ⟨_, hlabels, _, pool, hsel, _, hretire, rfl, rfl, rfl⟩
      exact ⟨hlabels, pool, hsel, hretire⟩
    · rintro ⟨hlabels, pool, hsel, hretire⟩
      exact ⟨_, hlabels, _, pool, hsel, _, hretire, rfl, rfl, rfl⟩
  unfold lowerOne
  cases h : l.advance instr with
  | error e =>
      simp only [reduceCtorEq, false_iff]
      rintro ⟨labels, chunk, pool, pool', hlabels, hsel, hretire, -⟩
      rw [(hadvance _ _ _).mpr ⟨hlabels, pool, hsel, hretire⟩] at h
      cases h
  | ok result =>
      obtain ⟨chunk, pool', labels⟩ := result
      obtain ⟨hlabels, pool, hsel, hretire⟩ := (hadvance _ _ _).mp h
      constructor
      · rintro ⟨⟩
        exact ⟨labels, chunk, pool, pool', hlabels, hsel, hretire, rfl⟩
      · rintro ⟨labels₁, chunk₁, pool₁, pool₁', hlabels₁, hsel₁, hretire₁, rfl⟩
        rw [(hadvance _ _ _).mpr ⟨hlabels₁, pool₁, hsel₁, hretire₁⟩] at h
        cases h
        rfl

theorem lowerAll_append (first second : List Instr) :
    lowerAll (first ++ second) = lowerAll first >>= fun _ => lowerAll second := by
  induction first with
  | nil => rfl
  | cons instr first ih => simp only [List.cons_append, lowerAll, ih, bind_assoc]

theorem lowerAll_take_succ (hi : instrs[n]? = some instr) :
    lowerAll (instrs.take (n + 1)) l₀ = .ok () l' ↔
      ∃ l, lowerAll (instrs.take n) l₀ = .ok () l ∧ lowerOne instr l = .ok () l' := by
  simp only [take_succ hi, lowerAll_append, lowerAll, EStateM.bind_eq_ok, EStateM.pure_eq_ok]
  constructor
  · rintro ⟨_, l, hfirst, _, _, hone, -, rfl⟩
    exact ⟨l, hfirst, hone⟩
  · rintro ⟨l, hfirst, hone⟩
    exact ⟨(), l, hfirst, (), l', hone, trivial, rfl⟩

/-- What holds when the first `n` instructions are lowered. -/
structure Upto (instrs : List Instr) (n : Nat) (l : Lowerer) : Prop where
  tracks : Tracks instrs n l.pool
  peak : l.pool.peak = (Finset.range n).sup (demand instrs)
  size : l.instrs.size = place instrs n
  locates : l.labels.Locates instrs n
  nodup : (Tac.labels (instrs.take n)).Nodup
  targets : l.instrs.toList.filterMap Instruction.target? =
    ((instrs.take n).filterMap Instr.target?).map (asImmediate ·.id)

theorem upto_start (code : Code) : Upto code.instrs 0 (Lowerer.empty.restart code) where
  tracks := tracks_start code
  peak := rfl
  size := rfl
  locates label := by simp [restart, LabelTable.empty, position?]
  nodup := List.nodup_nil
  targets := rfl

theorem Upto.locates_succ (h : Upto instrs n l) (hi : instrs[n]? = some instr)
    {table : LabelTable} (hl : l.labelsAfter instr = .ok table) :
    table.Locates instrs (n + 1) := by
  intro label
  obtain ⟨hnew, rfl⟩ := labelsAfter_eq_ok.mp hl
  rw [position?_take_succ hi]
  cases instr with
  | label place =>
      -- the label was nowhere before, so the new entry is for its first place
      have hplace : position? (instrs.take n) place = none := by
        rw [position?_eq_none_iff, ← h.locates.mem_iff]
        exact hnew place rfl
      simp only [Std.TreeMap.getElem?_insert, Std.LawfulEqOrd.compare_eq_iff_eq, h.locates label,
        Instr.label.injEq]
      by_cases heq : place = label
      · subst heq
        simp [hplace, h.size]
      · simp [heq]
  | const | load | store | binary | not | branch | jump | print => simp [h.locates label]

theorem Upto.nodup_succ_iff (h : Upto instrs n l) (hi : instrs[n]? = some instr) :
    (Tac.labels (instrs.take (n + 1))).Nodup ↔
      ∀ label, instr = .label label → label ∉ l.labels.offsets := by
  rw [take_succ hi, labels_append, List.nodup_append]
  cases instr with
  | label place =>
      simp only [labels_cons, Instr.label?, Option.toList_some, labels_nil, h.nodup, true_and,
        Instr.label.injEq, forall_eq', h.locates.mem_iff]
      constructor
      · rintro ⟨-, hne⟩ hmem
        exact hne place hmem place (.head _) rfl
      · intro hmem
        refine ⟨List.nodup_singleton _, ?_⟩
        rintro label hlabel _ (_ | ⟨_, ⟨⟩⟩) rfl
        exact hmem hlabel
  | const | load | store | binary | not | branch | jump | print => simp [Instr.label?, h.nodup]

theorem target?_of_selected {pool pool' : Pool} {chunk : List Instruction}
    (h : instr.Selected pool chunk pool') :
    chunk.filterMap Instruction.target? = (instr.target?.map (asImmediate ·.id)).toList := by
  cases h <;> rfl

/-- **One instruction keeps everything in place.** -/
theorem Upto.step (h : Upto instrs n l) (hi : instrs[n]? = some instr)
    (hone : lowerOne instr l = .ok () l') : Upto instrs (n + 1) l' := by
  obtain ⟨table, chunk, pool, pool', hlabels, hsel, hretire, rfl⟩ := lowerOne_eq_ok.mp hone
  obtain ⟨pool'', hretire', -, htracks, hpeak⟩ := h.tracks.step hi hsel
  obtain rfl : pool'' = pool' := Except.ok.inj (hretire'.symm.trans hretire)
  refine ⟨htracks, ?_, ?_, h.locates_succ hi hlabels, ?_, ?_⟩
  · rw [hpeak, h.peak, Finset.range_add_one, Finset.sup_insert, Nat.max_comm]
  · rw [← Array.length_toList, Array.toList_appendList, List.length_append, Array.length_toList,
      h.size, hsel.length_eq, place_succ hi]
  · exact (h.nodup_succ_iff hi).mpr (labelsAfter_eq_ok.mp hlabels).1
  · simp only [take_succ hi, Array.toList_appendList, List.filterMap_append, h.targets,
      target?_of_selected hsel, List.map_append, List.append_cancel_left_eq]
    cases hj : instr.target? <;> simp [hj]

/-- An instruction is lowered just in case the code around it admits it and it is no label that
was there before. -/
theorem Upto.exists_lowerOne_iff (h : Upto instrs n l) (hi : instrs[n]? = some instr) :
    (∃ l', lowerOne instr l = .ok () l') ↔
      Admits instrs n instr ∧ (Tac.labels (instrs.take (n + 1))).Nodup := by
  simp only [lowerOne_eq_ok, h.nodup_succ_iff hi, ← h.tracks.ready_iff hi]
  constructor
  · rintro ⟨_, labels, chunk, pool, pool', hlabels, hsel, -⟩
    exact ⟨hsel.ready, (labelsAfter_eq_ok.mp hlabels).1⟩
  · rintro ⟨hready, hnew⟩
    obtain ⟨chunk, pool, hsel⟩ := hready.exists_selected
    obtain ⟨pool', hretire, -⟩ := h.tracks.step hi hsel
    exact ⟨_, _, chunk, pool, pool', labelsAfter_eq_ok.mpr ⟨hnew, rfl⟩, hsel, hretire, rfl⟩

/-! ## Every prefix of the code -/

theorem upto_of_lowerAll {code : Code} (hn : n ≤ code.instrs.length)
    (h : lowerAll (code.instrs.take n) (Lowerer.empty.restart code) = .ok () l) :
    Upto code.instrs n l := by
  induction n generalizing l with
  | zero =>
      simp only [List.take_zero, lowerAll, EStateM.pure_eq_ok, true_and] at h
      exact h ▸ upto_start code
  | succ n ih =>
      have hi := List.getElem?_eq_getElem (Nat.lt_of_succ_le hn)
      obtain ⟨l₁, hfirst, hone⟩ := (lowerAll_take_succ hi).mp h
      exact (ih (Nat.le_of_succ_le hn) hfirst).step hi hone

theorem exists_lowerAll_iff {code : Code} (hn : n ≤ code.instrs.length) :
    (∃ l, lowerAll (code.instrs.take n) (Lowerer.empty.restart code) = .ok () l) ↔
      (∀ i instr, i < n → code.instrs[i]? = some instr → Admits code.instrs i instr) ∧
        (Tac.labels (code.instrs.take n)).Nodup := by
  induction n with
  | zero => simp [lowerAll]
  | succ n ih =>
      have hi := List.getElem?_eq_getElem (Nat.lt_of_succ_le hn)
      constructor
      · rintro ⟨l', h⟩
        obtain ⟨l, hfirst, hone⟩ := (lowerAll_take_succ hi).mp h
        have hupto := upto_of_lowerAll (Nat.le_of_succ_le hn) hfirst
        obtain ⟨hadmits, hnodup⟩ := (hupto.exists_lowerOne_iff hi).mp ⟨l', hone⟩
        refine ⟨?_, hnodup⟩
        intro i instr hlt hinstr
        rcases Nat.lt_succ_iff_lt_or_eq.mp hlt with hlt | rfl
        · exact ((ih (Nat.le_of_succ_le hn)).mp ⟨l, hfirst⟩).1 i instr hlt hinstr
        · obtain rfl : _ = instr := Option.some.inj (hi.symm.trans hinstr)
          exact hadmits
      · rintro ⟨hadmits, hnodup⟩
        have hsub : (Tac.labels (code.instrs.take n)).Sublist
            (Tac.labels (code.instrs.take (n + 1))) :=
          (List.take_sublist_take_left (Nat.le_succ n)).filterMap _
        obtain ⟨l, hfirst⟩ := (ih (Nat.le_of_succ_le hn)).mpr
          ⟨fun i instr hlt => hadmits i instr (Nat.lt_succ_of_lt hlt), hnodup.sublist hsub⟩
        have hupto := upto_of_lowerAll (Nat.le_of_succ_le hn) hfirst
        obtain ⟨l', hone⟩ := (hupto.exists_lowerOne_iff hi).mpr
          ⟨hadmits n _ (Nat.lt_succ_self n) hi, hnodup⟩
        exact ⟨l', (lowerAll_take_succ hi).mpr ⟨l, hfirst, hone⟩⟩

/-- Lowering a program, with the monad opened. -/
theorem lowerProgram_apply (code : Code) (l : Lowerer) :
    lowerProgram code l =
      match lowerAll code.instrs (l.restart code) with
      | .error e l => .error e l
      | .ok _ l =>
        match l.labels.resolve l.instrs.toList with
        | (.error e, _) => .error e { l with instrs := #[], labels := LabelTable.empty }
        | (.ok (), instrs) =>
          .ok ⟨instrs, l.labels, l.pool.peak⟩
            { l with instrs := #[], labels := LabelTable.empty } := by
  have hrestart :
      (modify (·.restart code) : Lower PUnit) l = .ok PUnit.unit (l.restart code) := rfl
  unfold lowerProgram
  rw [EStateM.bind_of_ok hrestart]
  cases h : lowerAll code.instrs (l.restart code) with
  | error e l => exact EStateM.bind_of_error h
  | ok _ l =>
      have hclear : (set { l with instrs := #[], labels := LabelTable.empty } : Lower PUnit) l =
          .ok PUnit.unit { l with instrs := #[], labels := LabelTable.empty } := rfl
      rw [EStateM.bind_of_ok h, EStateM.get_bind, EStateM.bind_of_ok hclear]
      simp only
      rcases l.labels.resolve l.instrs.toList with ⟨e | _, resolved⟩ <;> rfl

end Lowerer

/-- A program is lowered when all of its instructions are and all of its branches are resolved. -/
theorem Tac.Code.lower_eq_ok {code : Code} {lowered : Lowered} :
    code.lower = .ok lowered ↔
      ∃ l, Lowerer.lowerAll code.instrs (Lowerer.empty.restart code) = .ok () l ∧
        l.labels.resolve l.instrs.toList = (.ok (), lowered.instrs) ∧
        lowered.labels = l.labels ∧ lowered.peak = l.pool.peak := by
  obtain ⟨instrs, labels, peak⟩ := lowered
  rw [Code.lower, Lowerer.lowerProgram_apply]
  cases Lowerer.lowerAll code.instrs (Lowerer.empty.restart code) with
  | error e l => simp
  | ok _ l =>
      simp only [EStateM.Result.ok.injEq, true_and, exists_eq_left']
      rcases l.labels.resolve l.instrs.toList with ⟨e | _, resolved⟩
      · simp
      · simp only [Except.ok.injEq, Lowered.mk.injEq, Prod.mk.injEq, true_and]
        grind

end SixReg
