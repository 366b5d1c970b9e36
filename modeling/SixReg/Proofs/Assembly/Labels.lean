import Mathlib.Data.List.Induction
import SixReg.Proofs.Assembly.Addresses

/-!
# Tables of labels over any history of definitions

A label may be defined once. A second definition is refused, but the table is written before it is
seen that the label was there: the place of the refused definition takes that of the one before. So
a refusal leaves the table as it was just in case it repeats the place that the label has, and in
the end a label stands where it was defined last.

* One definition moves the label that it is about, and no other (`getElem?_define`);
* by induction, a table has the last definition of every label (`getElem?_after`);
* `Resolving` has the rules by which branches get addresses, for labels at any places.
-/

namespace SixReg.LabelTable

variable {table : LabelTable} {label other : Label} {index : Nat}

/-! ## One definition -/

theorem getElem?_define (table : LabelTable) (label : Label) (index : Nat) (other : Label) :
    (table.define label index).2.offsets[other]? =
      if label = other then some (index * wordsPerInstruction) else table.offsets[other]? := by
  have hoffsets : (table.define label index).2.offsets =
      table.offsets.insert label (index * wordsPerInstruction) := by
    unfold define
    split <;> rfl
  simp only [hoffsets, Std.TreeMap.getElem?_insert, Std.LawfulEqOrd.compare_eq_iff_eq]

theorem define_fst (table : LabelTable) (label : Label) (index : Nat) :
    (table.define label index).1 =
      if label ∈ table.offsets then .error (.unsupported (.duplicateLabel label)) else .ok () := by
  unfold define
  split <;> rfl

theorem toList_eq_iff {table table' : LabelTable} :
    table.toList = table'.toList ↔
      ∀ label : Label, table.offsets[label]? = table'.offsets[label]? := by
  rw [toList, toList, ← Std.TreeMap.equiv_iff_toList_eq]
  exact ⟨fun h label => h.getElem?_eq, Std.TreeMap.Equiv.of_forall_constGet?_eq⟩

/-- A definition leaves a table as it was just in case it repeats the place that the label has. -/
theorem toList_define_eq_iff :
    (table.define label index).2.toList = table.toList ↔
      table.offsets[label]? = some (index * wordsPerInstruction) := by
  simp only [toList_eq_iff, getElem?_define]
  constructor
  · intro h
    rw [← h label, if_pos rfl]
  · intro h other
    split
    · next heq => rw [← heq, h]
    · rfl

/-! ## Every history -/

/-- The table after labels were defined at the given indices, each definition refused or not. -/
def after (definitions : List (Label × Nat)) : LabelTable :=
  definitions.foldl (fun table definition => (table.define definition.1 definition.2).2) .empty

theorem after_concat (definitions : List (Label × Nat)) (label : Label) (index : Nat) :
    after (definitions ++ [(label, index)]) = ((after definitions).define label index).2 := by
  rw [after, List.foldl_append]
  rfl

/-- **A label stands where it was defined last.** -/
theorem getElem?_after (definitions : List (Label × Nat)) (label : Label) :
    (after definitions).offsets[label]? =
      (definitions.reverse.lookup label).map (· * wordsPerInstruction) := by
  induction definitions using List.reverseRecOn with
  | nil => simp [after, empty]
  | append_singleton definitions definition ih =>
      obtain ⟨other, index⟩ := definition
      rw [after_concat, getElem?_define, List.reverse_concat, List.lookup_cons]
      by_cases h : other = label
      · simp [h]
      · have hbeq : (label == other) = false := beq_false_of_ne (Ne.symm h)
        rw [if_neg h, ih, hbeq]

theorem mem_after {definitions : List (Label × Nat)} :
    label ∈ (after definitions).offsets ↔ label ∈ definitions.map Prod.fst := by
  rw [Std.TreeMap.mem_iff_isSome_getElem?, getElem?_after, Option.isSome_map,
    Option.isSome_iff_ne_none, ne_eq, List.lookup_eq_none_iff]
  simp

/-- The address of a label, if it stands in front of the instruction with the given index. -/
def address (label : Label) : Option Nat → Except CompileError Nat
  | some index => .ok (index * wordsPerInstruction)
  | none => .error (.unresolvedLabel label)

theorem offset_after (definitions : List (Label × Nat)) (label : Label) :
    (after definitions).offset label = address label (definitions.reverse.lookup label) := by
  rw [offset, getElem?_after]
  cases definitions.reverse.lookup label <;> rfl

theorem address_injective : Function.Injective (address label) := by
  intro a b h
  cases a <;> cases b <;> simp_all [address, wordsPerInstruction]

/-! ## Branches -/

/-- How branches get addresses when labels stand in front of the instructions with the given
indices: one after the other, up to the first that goes to no label. -/
inductive Resolving (index? : Label → Option Nat) :
    List Instruction → Except CompileError Unit → List Instruction → Prop where
  | done : Resolving index? [] (.ok ()) []
  | other {instr program outcome resolved} (h : instr.target? = none)
      (hrest : Resolving index? program outcome resolved) :
      Resolving index? (instr :: program) outcome (instr :: resolved)
  | branch {op rs1 rs2 imm index program outcome resolved} (himm : 0 ≤ imm)
      (h : index? ⟨imm.toNat⟩ = some index) (hrest : Resolving index? program outcome resolved) :
      Resolving index? (.branch op rs1 rs2 imm :: program) outcome
        (.branch op rs1 rs2 (asImmediate (2 * index)) :: resolved)
  | negative {op rs1 rs2 imm program} (himm : imm < 0) :
      Resolving index? (.branch op rs1 rs2 imm :: program) (.error (.immediateOutOfRange imm))
        (.branch op rs1 rs2 imm :: program)
  | unresolved {op rs1 rs2 imm program} (himm : 0 ≤ imm) (h : index? ⟨imm.toNat⟩ = none) :
      Resolving index? (.branch op rs1 rs2 imm :: program)
        (.error (.unresolvedLabel ⟨imm.toNat⟩)) (.branch op rs1 rs2 imm :: program)

theorem resolving {index? : Label → Option Nat}
    (h : ∀ label, table.offset label = address label (index? label)) (program : List Instruction) :
    Resolving index? program (table.resolve program).1 (table.resolve program).2 := by
  induction program with
  | nil => exact .done
  | cons instr program ih =>
      rw [resolve]
      cases instr with
      | branch op rs1 rs2 imm =>
          rw [resolveOne]
          by_cases himm : imm < 0
          · simp only [himm, if_true]
            exact .negative himm
          · simp only [himm, if_false, h]
            have hpos := Int.not_lt.mp himm
            cases hindex : index? ⟨imm.toNat⟩ with
            | none => exact .unresolved hpos hindex
            | some index =>
                have hbranch : Resolving index? (.branch op rs1 rs2 imm :: program) _ _ :=
                  .branch hpos hindex ih
                rwa [Nat.mul_comm] at hbranch
      | alu | aluImm | memRead | memWrite | call => exact .other rfl ih

/-- **The last definition of a label stands.** Take any definitions, in any order and of any labels.
One more is refused just in case its label was defined before. It changes nothing about other
labels; if it is refused, it leaves the table as it was just in case it repeats the last index of
its label. In the end a label that was defined has twice the index of its last definition as
address, and all others have none; it is that of the first definition, for all labels, just in case
the first and the last index of each are the same. Branches are resolved to the last definitions.
An index may be any number; for a program in memory it is below `2 ^ 63`, and no address overflows
64 bits. -/
theorem last_definition_stands (definitions : List (Label × Nat)) :
    (∀ label index,
      ((after definitions).define label index).1 =
        (if label ∈ definitions.map Prod.fst then .error (.unsupported (.duplicateLabel label))
        else .ok ()) ∧
      (((after definitions).define label index).2.toList = (after definitions).toList ↔
        definitions.reverse.lookup label = some index) ∧
      ∀ other, other ≠ label →
        ((after definitions).define label index).2.offset other =
          (after definitions).offset other) ∧
    (∀ label, (after definitions).offset label =
      address label (definitions.reverse.lookup label)) ∧
    ((∀ label, (after definitions).offset label = address label (definitions.lookup label)) ↔
      ∀ label, definitions.lookup label = definitions.reverse.lookup label) ∧
    ∀ program, Resolving (definitions.reverse.lookup ·) program
      ((after definitions).resolve program).1 ((after definitions).resolve program).2 := by
  refine ⟨?_, offset_after definitions, ?_, resolving (offset_after definitions)⟩
  · intro label index
    refine ⟨?_, ?_, fun other hother => offset_define_of_ne _ _ hother.symm⟩
    · simp only [define_fst, mem_after]
    · rw [toList_define_eq_iff, getElem?_after, Option.map_eq_some_iff]
      simp [wordsPerInstruction]
  · refine forall_congr' fun label => ?_
    rw [offset_after, address_injective.eq_iff, eq_comm]

/-- A label that is defined at the beginning and, which is refused, once more at the fourth
instruction: it moves there, and a jump follows it. -/
theorem refused_definition_moves_label :
    let table := after [(⟨2⟩, 0)]
    let call := table.define ⟨2⟩ 3
    call.1 = .error (.unsupported (.duplicateLabel ⟨2⟩)) ∧ call.2.toList ≠ table.toList ∧
      table.offset ⟨2⟩ = .ok 0 ∧ call.2.offset ⟨2⟩ = .ok 6 ∧
      call.2.resolve [.jump 2] = (.ok (), [.jump 6]) := by
  decide +kernel

end SixReg.LabelTable
