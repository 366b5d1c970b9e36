import Mathlib.Data.List.Induction
import SixReg.Proofs.Tac.Semantics

/-!
# Code whose temporaries are local to blocks

Control enters a stretch of code between two labels only from its top. Code is *block-local* if
every temporary that is read was written before, in the same stretch: then a read that is reached
at all comes after that write, whichever way control took. Code is *straight* if control does not
even leave between the two, by a branch or a jump. Straight code is block-local
(`Straight.blockLocal`), and it is easier to put together.
-/

namespace SixReg.Tac

/-- The temporaries written since the last label, after one more instruction. -/
def Instr.extendLocals (temps : List Temp) : Instr → List Temp
  | .label _ => []
  | instr => instr.result?.toList ++ temps

/-- The temporaries that code has written since its last label. -/
def locals (instrs : List Instr) : List Temp := instrs.foldl Instr.extendLocals []

/-- Every temporary that an instruction reads is written before it, with no label between. -/
def BlockLocal (instrs : List Instr) : Prop :=
  ∀ before instr after, instrs = before ++ instr :: after → ∀ t ∈ instr.reads, t ∈ locals before

@[simp]
theorem locals_nil : locals [] = [] := rfl

@[simp]
theorem locals_concat (instrs : List Instr) (instr : Instr) :
    locals (instrs ++ [instr]) = instr.extendLocals (locals instrs) := by
  simp [locals]

/-- What came before a piece of code takes nothing away from its locals. -/
theorem mem_locals_append {t : Temp} (first : List Instr) {second : List Instr}
    (h : t ∈ locals second) : t ∈ locals (first ++ second) := by
  induction second using List.reverseRecOn with
  | nil => simp at h
  | append_singleton second instr ih =>
      rw [← List.append_assoc, locals_concat] at *
      cases instr with
      | label => exact h
      | const | load | store | binary | not | branch | jump | print =>
          simp only [Instr.extendLocals, List.mem_append] at h ⊢
          exact h.imp_right ih

/-- What comes without a label after a piece of code takes nothing away from its locals. -/
theorem mem_locals_append_of_labels {t : Temp} {first second : List Instr} (h : t ∈ locals first)
    (hl : labels second = []) : t ∈ locals (first ++ second) := by
  induction second using List.reverseRecOn with
  | nil => simpa using h
  | append_singleton second instr ih =>
      rw [labels_append, List.append_eq_nil_iff] at hl
      rw [← List.append_assoc, locals_concat]
      cases instr with
      | label => simp [Instr.label?] at hl
      | const | load | store | binary | not | branch | jump | print =>
          simp only [Instr.extendLocals, List.mem_append]
          exact .inr (ih hl.1)

theorem blockLocal_iff {instrs : List Instr} :
    BlockLocal instrs ↔
      ∀ n : Fin instrs.length, ∀ t ∈ (instrs.get n).reads, t ∈ locals (instrs.take n) := by
  constructor
  · intro h n
    refine h (instrs.take n) (instrs.get n) (instrs.drop (n + 1)) ?_
    rw [List.get_eq_getElem, List.getElem_cons_drop, List.take_append_drop]
  · rintro h before instr after rfl t ht
    have hn := h ⟨before.length, by simp⟩ t
    simpa [ht] using hn

instance (instrs : List Instr) : Decidable (BlockLocal instrs) :=
  decidable_of_iff _ blockLocal_iff.symm

/-- An instruction of two pieces of code stands in the second one or in the first one. -/
theorem split_append {first second before after : List Instr} {instr : Instr}
    (h : first ++ second = before ++ instr :: after) :
    (∃ rest, before = first ++ rest ∧ second = rest ++ instr :: after) ∨
      ∃ rest, first = before ++ instr :: rest := by
  obtain ⟨rest, hb, hs⟩ | ⟨rest, hf, hs⟩ := List.append_eq_append_iff.mp h
  · exact .inl ⟨rest, hb, hs⟩
  · cases rest with
    | nil => exact .inl ⟨[], by simpa using hf.symm, by simpa using hs.symm⟩
    | cons x rest =>
        simp only [List.cons_append, List.cons.injEq] at hs
        exact .inr ⟨rest, hs.1 ▸ hf⟩

/-! ## Straight code -/

/-- Whether control can enter or leave the code at the instruction. -/
def Instr.isControl : Instr → Bool
  | .branch _ _ _ _ | .jump _ | .label _ => true
  | .const _ _ | .load _ _ | .store _ _ | .binary _ _ _ _ | .not _ _ | .print _ => false

/-- Code writes the temporary, and control is not moved behind that. -/
def Pending (t : Temp) (instrs : List Instr) : Prop :=
  ∃ earlier definition between, instrs = earlier ++ definition :: between ∧
    definition.result? = some t ∧ ∀ instr ∈ between, instr.isControl = false

/-- Control is not moved between the write of a temporary and a read of it. -/
def Straight (instrs : List Instr) : Prop :=
  ∀ before instr after, instrs = before ++ instr :: after → ∀ t ∈ instr.reads, Pending t before

theorem labels_eq_nil {instrs : List Instr} (h : ∀ instr ∈ instrs, instr.isControl = false) :
    labels instrs = [] := by
  apply List.filterMap_eq_nil_iff.mpr
  intro instr hi
  have hcontrol := h instr hi
  cases instr with
  | label => cases hcontrol
  | const | load | store | binary | not | branch | jump | print => rfl

namespace Pending

variable {t : Temp} {first second : List Instr}

theorem concat {instr : Instr} (h : instr.result? = some t) : Pending t (first ++ [instr]) :=
  ⟨first, instr, [], rfl, h, by simp⟩

theorem append_left (first : List Instr) (h : Pending t second) : Pending t (first ++ second) := by
  obtain ⟨earlier, definition, between, rfl, hdef, hbetween⟩ := h
  exact ⟨first ++ earlier, definition, between, by simp, hdef, hbetween⟩

theorem append_right (h : Pending t first) (hs : ∀ instr ∈ second, instr.isControl = false) :
    Pending t (first ++ second) := by
  obtain ⟨earlier, definition, between, rfl, hdef, hbetween⟩ := h
  refine ⟨earlier, definition, between ++ second, by simp, hdef, ?_⟩
  exact List.forall_mem_append.mpr ⟨hbetween, hs⟩

theorem mem_locals {instrs : List Instr} (h : Pending t instrs) : t ∈ locals instrs := by
  obtain ⟨earlier, definition, between, rfl, hdef, hbetween⟩ := h
  have hone : t ∈ locals [definition] := by
    cases definition with
    | label => cases hdef
    | const | load | store | binary | not | branch | jump | print =>
        simp [locals, Instr.extendLocals, hdef]
  apply mem_locals_append
  exact mem_locals_append_of_labels hone (labels_eq_nil hbetween)

end Pending

namespace Straight

theorem blockLocal {instrs : List Instr} (h : Straight instrs) : BlockLocal instrs := by
  intro before instr after heq t ht
  exact (h before instr after heq t ht).mem_locals

theorem nil : Straight [] := by
  intro before instr after h
  simp at h

/-- Straight pieces make straight code. -/
theorem append {first second : List Instr} (h : Straight first) (h' : Straight second) :
    Straight (first ++ second) := by
  intro before instr after heq t ht
  obtain ⟨rest, rfl, hs⟩ | ⟨rest, hf⟩ := split_append heq
  · exact (h' rest instr after hs t ht).append_left first
  · exact h before instr rest hf t ht

/-- One more instruction may read what is pending. -/
theorem concat {instrs : List Instr} {instr : Instr} (h : Straight instrs)
    (hr : ∀ t ∈ instr.reads, Pending t instrs) : Straight (instrs ++ [instr]) := by
  intro before i after heq t ht
  obtain ⟨rest, rfl, hs⟩ | ⟨rest, hf⟩ := split_append heq
  · cases rest with
    | nil =>
        simp only [List.nil_append, List.cons.injEq] at hs
        rw [List.append_nil]
        exact hr t (hs.1 ▸ ht)
    | cons x rest => simp at hs
  · exact h before i rest hf t ht

/-- An instruction that reads nothing is straight by itself, and so it may come first. -/
theorem cons {instrs : List Instr} {instr : Instr} (h : Straight instrs) (hr : instr.reads = []) :
    Straight (instr :: instrs) := by
  have hone : Straight ([] ++ [instr]) := nil.concat (by simp [hr])
  exact hone.append h

end Straight

end SixReg.Tac
