import SixReg.Proofs.Semantics
import SixReg.Tac.Basic

/-!
# The meaning of three-address code

Code runs over the same domains of values as programs do. A state has the index of the next
instruction, the temporaries, the slots of the variables and the output. Control goes on with the
next instruction, or to the first place of a label; it stops past the last instruction.

`CodeAt` says that a piece of code stands at an index of a longer one. It is about lists of any
kind, and serves machine instructions as well.
-/

namespace SixReg

/-! ## Pieces of code -/

section CodeAt

variable {α : Type} {whole piece first second : List α} {index : Nat} {x : α}

/-- The piece stands at the given index. -/
def CodeAt (whole : List α) (index : Nat) (piece : List α) : Prop := piece <+: whole.drop index

theorem codeAt_append :
    CodeAt whole index (first ++ second) ↔
      CodeAt whole index first ∧ CodeAt whole (index + first.length) second := by
  unfold CodeAt
  constructor
  · rintro ⟨rest, h⟩
    rw [List.append_assoc] at h
    refine ⟨⟨second ++ rest, h⟩, ⟨rest, ?_⟩⟩
    rw [← List.drop_drop, ← h, List.drop_left]
  · rintro ⟨⟨rest, h⟩, ⟨rest', h'⟩⟩
    refine ⟨rest', ?_⟩
    rw [← List.drop_drop, ← h, List.drop_left] at h'
    rw [List.append_assoc, h', h]

theorem codeAt_cons :
    CodeAt whole index (x :: piece) ↔ whole[index]? = some x ∧ CodeAt whole (index + 1) piece := by
  have hsplit : CodeAt whole index ([x] ++ piece) ↔
      CodeAt whole index [x] ∧ CodeAt whole (index + 1) piece := codeAt_append
  rw [← List.singleton_append, hsplit]
  refine and_congr_left fun _ => ?_
  unfold CodeAt
  rw [← List.head?_drop]
  cases whole.drop index <;> simp [List.cons_prefix_cons, eq_comm]

theorem codeAt_self : CodeAt whole 0 whole := List.prefix_rfl

end CodeAt

namespace Tac

variable {V ε : Type} (D : Domain V ε)

/-! ## States and steps -/

/-- Code under way. -/
structure State (V : Type) where
  /-- The index of the next instruction. -/
  pc : Nat
  temps : Temp → V
  slots : Nat → V
  output : List V

namespace State

/-- The state in which code starts. -/
def start (temps : Temp → V) (slots : Nat → V) : State V := ⟨0, temps, slots, []⟩

/-- Goes on with the next instruction. -/
def next (s : State V) : State V := { s with pc := s.pc + 1 }

/-- Sets a temporary and goes on. -/
def define (s : State V) (t : Temp) (value : V) : State V :=
  { s with temps := Function.update s.temps t value, pc := s.pc + 1 }

end State

/-- The value of an operand. -/
def Operand.value (temps : Temp → V) : Operand → V
  | .temp t => temps t
  | .const value => D.const value

/-- The index at which a label stands first. -/
def position? (instrs : List Instr) (target : Label) : Option Nat :=
  instrs.idxOf? (.label target)

/-- Goes to a label. -/
def goTo (instrs : List Instr) (target : Label) (s : State V) : Except (Failure ε) (State V) :=
  match position? instrs target with
  | some pc => .ok { s with pc }
  | none => .error .malformed

/-- Does one instruction of the given code. -/
def exec (instrs : List Instr) (s : State V) : Instr → Except (Failure ε) (State V)
  | .const dst value => .ok (s.define dst (D.const value))
  | .load dst src => .ok (s.define dst (s.slots src.slot))
  | .store dst src =>
    .ok { s with slots := Function.update s.slots dst.slot (src.value D s.temps), pc := s.pc + 1 }
  | .binary dst left op right =>
    (D.apply op (s.temps left) (right.value D s.temps)).map fun value => s.define dst value
  | .not dst src => .ok (s.define dst (D.not (src.value D s.temps)))
  | .branch left right rel target =>
    if D.holds rel (s.temps left) (s.temps right) then goTo instrs target s else .ok s.next
  | .jump target => goTo instrs target s
  | .label _ => .ok s.next
  | .print value => .ok { s with output := s.output ++ [s.temps value], pc := s.pc + 1 }

/-- Does the next instruction. -/
def step (instrs : List Instr) (s : State V) : Move (State V) (Failure ε) :=
  match instrs[s.pc]? with
  | none => .stop
  | some instr => .ofExcept (exec D instrs s instr)

variable {instrs : List Instr}

theorem output_goTo {s t : State V} {target : Label}
    (h : goTo (ε := ε) instrs target s = .ok t) : s.output <+: t.output := by
  unfold goTo at h
  split at h
  · cases h
    exact List.prefix_rfl
  · cases h

theorem output_exec {s t : State V} {instr : Instr} (h : exec D instrs s instr = .ok t) :
    s.output <+: t.output := by
  cases instr with
  | const | load | store | not | label =>
      cases h
      exact List.prefix_rfl
  | print value =>
      cases h
      exact List.prefix_append _ _
  | binary dst left op right =>
      simp only [exec, Except.map_eq_ok] at h
      obtain ⟨value, -, rfl⟩ := h
      exact List.prefix_rfl
  | jump target => exact output_goTo h
  | branch left right rel target =>
      simp only [exec] at h
      split at h
      · exact output_goTo h
      · cases h
        exact List.prefix_rfl

theorem step_eq_stop_iff {s : State V} : step D instrs s = .stop ↔ instrs.length ≤ s.pc := by
  unfold step
  rw [← List.getElem?_eq_none_iff]
  cases instrs[s.pc]? <;> simp

theorem step_eq_next_iff {s t : State V} :
    step D instrs s = .next t ↔
      ∃ instr, instrs[s.pc]? = some instr ∧ exec D instrs s instr = .ok t := by
  unfold step
  cases instrs[s.pc]? <;> simp

theorem step_eq_fail_iff {s : State V} {e : Failure ε} :
    step D instrs s = .fail e ↔
      ∃ instr, instrs[s.pc]? = some instr ∧ exec D instrs s instr = .error e := by
  unfold step
  cases instrs[s.pc]? <;> simp

/-- Three-address code as a transition system. -/
def system (instrs : List Instr) : System (State V) (Failure ε) V where
  step := step D instrs
  output := State.output
  output_step h := by
    obtain ⟨instr, -, hexec⟩ := (step_eq_next_iff D).mp h
    exact output_exec D hexec

theorem step_of_getElem? {s : State V} {instr : Instr} (h : instrs[s.pc]? = some instr) :
    step D instrs s = .ofExcept (exec D instrs s instr) := by
  simp [step, h]

/-! ## Labels -/

/-- The label that an instruction places. -/
def Instr.label? : Instr → Option Label
  | .label place => some place
  | _ => none

/-- The labels that code places, in order. -/
def labels (instrs : List Instr) : List Label := instrs.filterMap Instr.label?

@[simp]
theorem labels_nil : labels [] = [] := rfl

@[simp]
theorem labels_append (first second : List Instr) :
    labels (first ++ second) = labels first ++ labels second := by
  simp [labels]

@[simp]
theorem labels_cons (instr : Instr) (instrs : List Instr) :
    labels (instr :: instrs) = instr.label?.toList ++ labels instrs := by
  cases h : instr.label? <;> simp [labels, h]

theorem mem_labels {target : Label} : target ∈ labels instrs ↔ .label target ∈ instrs := by
  unfold labels
  rw [List.mem_filterMap]
  constructor
  · rintro ⟨instr, hmem, h⟩
    cases instr <;> simp only [Instr.label?, Option.some.injEq, reduceCtorEq] at h
    exact h ▸ hmem
  · intro h
    exact ⟨_, h, rfl⟩

theorem getElem?_of_position? {target : Label} {index : Nat}
    (h : position? instrs target = some index) : instrs[index]? = some (.label target) := by
  obtain ⟨hlt, hget, -⟩ := List.findIdx?_eq_some_iff_getElem.mp h
  rw [List.getElem?_eq_getElem hlt, beq_iff_eq.mp hget]

/-- Where every label stands only once, its first place is its only one. -/
theorem position?_eq_some {target : Label} {index : Nat} (hnodup : (labels instrs).Nodup)
    (h : instrs[index]? = some (.label target)) : position? instrs target = some index := by
  induction instrs generalizing index with
  | nil => simp at h
  | cons instr instrs ih =>
      unfold position?
      rw [List.idxOf?_cons]
      cases index with
      | zero =>
          simp only [List.getElem?_cons_zero, Option.some.injEq] at h
          simp [h]
      | succ index =>
          rw [List.getElem?_cons_succ] at h
          have hmem : target ∈ labels instrs := mem_labels.mpr (List.mem_of_getElem? h)
          have hne : instr ≠ .label target := by
            rintro rfl
            exact (List.nodup_cons.mp hnodup).1 hmem
          have htail : (labels instrs).Nodup := by
            refine hnodup.sublist ?_
            exact (List.sublist_cons_self instr instrs).filterMap _
          simpa [hne, position?] using ih htail h

end Tac

end SixReg
