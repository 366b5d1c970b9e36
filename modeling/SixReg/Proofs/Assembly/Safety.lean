import SixReg.Proofs.Assembly.Simulation

/-!
# Assembled code never goes wrong

This is about any code that can be assembled, also code that reads temporaries which were never
written on the way taken. What the machine then computes is of no use, but it is well defined:
machine instructions come in chunks, control enters a chunk only from its top, and in a chunk every
access to memory stands right behind the choice of its address.

* `Guarded` says this of a program, without any mention of chunks: a program is guarded from the
  place of every instruction on (`Assembled.guarded_drop`);
* a machine that stands where the program is guarded, or at an access with its address chosen,
  stands so after the next step too, unless it divides by zero (`Stands.step`);
* so runs end well, divide by zero or use up their limit (`assembled_run_outcome`).
-/

namespace SixReg

open Tac

/-! ## Guarded programs -/

/-- Programs that leave the stack alone and, entered from the top, come to an access to memory only
by way of the choice of its address. -/
inductive Guarded : List Instruction → Prop where
  | nil : Guarded []
  | alu {op rs1 rs2 rd rest} (h : Guarded rest) : Guarded (.alu op rs1 rs2 rd :: rest)
  | aluImm {op rs1 rd imm rest} (h : Guarded rest) : Guarded (.aluImm op rs1 rd imm :: rest)
  | load {x : Symbol} {rd rest} (h : Guarded rest) :
      Guarded (x.select :: .memRead .load rd :: rest)
  | store {x : Symbol} {rs rest} (h : Guarded rest) :
      Guarded (x.select :: .memWrite .stor rs :: rest)
  | branch {op rs rs' rest} {target : Label} (h : Guarded rest) :
      Guarded (.branch op rs rs' (asImmediate target.id) :: rest)

theorem Guarded.append {first second : List Instruction} (h : Guarded first)
    (h' : Guarded second) : Guarded (first ++ second) := by
  induction h with
  | nil => exact h'
  | alu _ ih => exact .alu ih
  | aluImm _ ih => exact .aluImm ih
  | load _ ih => exact .load ih
  | store _ ih => exact .store ih
  | branch _ ih => exact .branch ih

theorem Tac.Instr.Selected.guarded {instr : Instr} {pool pool' : Pool} {chunk : List Instruction}
    (h : instr.Selected pool chunk pool') : Guarded chunk := by
  cases h with
  | const | binaryConst | notConst => exact .aluImm .nil
  | load => exact .load .nil
  | store => exact .store .nil
  | storeConst => exact .aluImm (.store .nil)
  | binary | not | print => exact .alu .nil
  | branch => exact .branch .nil
  | jump => exact .branch .nil
  | label => exact .nil

/-- What lowering appends is guarded, whatever the code. -/
theorem Lowerer.lowerAll_guarded {instrs : List Instr} {l l' : Lowerer}
    (h : Lowerer.lowerAll instrs l = .ok () l') :
    ∃ rest, l'.instrs.toList = l.instrs.toList ++ rest ∧ Guarded rest := by
  induction instrs generalizing l with
  | nil =>
      simp only [Lowerer.lowerAll, EStateM.pure_eq_ok, true_and] at h
      subst h
      exact ⟨[], (List.append_nil _).symm, .nil⟩
  | cons instr instrs ih =>
      simp only [Lowerer.lowerAll, EStateM.bind_eq_ok] at h
      obtain ⟨_, l₁, hone, hrest⟩ := h
      obtain ⟨_, chunk, _, _, -, hsel, -, rfl⟩ := Lowerer.lowerOne_eq_ok.mp hone
      obtain ⟨rest, heq, hguarded⟩ := ih hrest
      refine ⟨chunk ++ rest, ?_, hsel.guarded.append hguarded⟩
      rw [heq, Array.toList_appendList, List.append_assoc]

variable {code : Code} {image : Image} {l : Lowerer} {m m' : Machine}

/-- From the place of any instruction on, a lowered program is guarded. -/
theorem Assembled.guarded_drop (ha : Assembled code image l) {n : Nat}
    (hn : n ≤ code.instrs.length) : Guarded (l.instrs.toList.drop (place code.instrs n)) := by
  obtain ⟨l₁, hfirst, hrest⟩ := ha.exists_take n
  obtain ⟨rest, heq, hguarded⟩ := Lowerer.lowerAll_guarded hrest
  have hsize : l₁.instrs.toList.length = place code.instrs n := by
    rw [Array.length_toList, (Lowerer.upto_of_lowerAll hn hfirst).size]
  rw [heq, ← hsize, List.drop_left]
  exact hguarded

/-! ## Where the machine stands -/

/-- The machine stands where the program is guarded from there on, or between the choice of an
address and the access for which it was chosen. -/
inductive Stands (program : List Instruction) (m : Machine) : Prop where
  | between {j : Nat} (pc : m.pc = j * wordsPerInstruction) (guarded : Guarded (program.drop j))
  | load {j : Nat} {rd : Register} {rest : List Instruction} {i : Fin memorySize}
      (pc : m.pc = j * wordsPerInstruction) (next : program.drop j = .memRead .load rd :: rest)
      (guarded : Guarded rest) (address : m.address? = some i)
  | store {j : Nat} {rs : Register} {rest : List Instruction} {i : Fin memorySize}
      (pc : m.pc = j * wordsPerInstruction) (next : program.drop j = .memWrite .stor rs :: rest)
      (guarded : Guarded rest) (address : m.address? = some i)

/-- A step that leaves the machine where it may stand, or divides by zero. -/
def Harmless (program : List Instruction) : Move Machine Fault → Prop
  | .stop => True
  | .next m => Stands program m
  | .fail fault => ∃ pc, fault = .divisionByZero pc

theorem getElem?_of_drop {α : Type} {xs rest : List α} {x : α} {j : Nat}
    (h : xs.drop j = x :: rest) : xs[j]? = some x ∧ xs.drop (j + 1) = rest := by
  constructor
  · rw [← List.head?_drop, h]
    rfl
  · rw [← List.tail_drop, h]
    rfl

/-- Behind an instruction, where the rest of the program is guarded. -/
theorem Stands.after {program rest : List Instruction} {instr : Instruction} {j : Nat}
    (h : program.drop j = instr :: rest) (hrest : Guarded rest)
    (hpc : m.pc = j * wordsPerInstruction) (hpc' : m'.pc = m.pc + wordsPerInstruction) :
    Stands program m' := by
  refine .between (j := j + 1) ?_ ?_
  · rw [hpc', hpc, Nat.succ_mul]
  · rw [(getElem?_of_drop h).2]
    exact hrest

/-- An instruction of the arithmetic unit goes on or divides by zero. -/
theorem Assembled.harmless_calculate (ha : Assembled code image l) {instr : Instruction}
    {rest : List Instruction} {j : Nat} {op : AluOp} {a b : Word} {rd : Register}
    (h : l.instrs.toList.drop j = instr :: rest) (hrest : Guarded rest)
    (hpc : m.pc = j * wordsPerInstruction) (htarget : instr.target? = none)
    (hcalc : Machine.step (Machine.stopOf image) instr m = Machine.calculate op a b rd m) :
    Harmless l.instrs.toList (Machine.move image m) := by
  have hstep := ha.step_calculate (getElem?_of_drop h).1 htarget hpc hcalc
  cases hv : op.apply a b with
  | none =>
      rw [hv] at hstep
      rw [show Machine.move image m = .fail (.divisionByZero m.pc) from hstep]
      exact ⟨m.pc, rfl⟩
  | some value =>
      rw [hv] at hstep
      obtain ⟨m', hnext, hsets⟩ := hstep
      rw [show Machine.move image m = .next m' from hnext]
      exact .after h hrest hpc hsets.pc

/-- **One step keeps the machine where it may stand.** -/
theorem Stands.step (ha : Assembled code image l) (hm : Stands l.instrs.toList m) :
    Harmless l.instrs.toList (Machine.move image m) := by
  cases hm with
  | @between j hpc hguarded =>
      generalize hdrop : l.instrs.toList.drop j = program at hguarded
      cases hguarded with
      | nil =>
          have hle := List.drop_eq_nil_iff.mp hdrop
          rw [Array.length_toList, ← ha.size] at hle
          have hstop : Machine.move image m = .stop := by
            apply Machine.move_eq_stop.mpr
            rw [hpc]
            exact Nat.mul_le_mul_right _ hle
          rw [hstop]
          trivial
      | alu hrest => exact ha.harmless_calculate hdrop hrest hpc rfl (Machine.step_alu ..)
      | aluImm hrest => exact ha.harmless_calculate hdrop hrest hpc rfl (Machine.step_aluImm ..)
      | @load x rd rest hrest =>
          obtain ⟨hj, hnext⟩ := getElem?_of_drop hdrop
          obtain ⟨m', word, hstep, hsets, hslot, haddress⟩ := ha.step_select hj hpc
          rw [show Machine.move image m = .next m' from hstep]
          refine .load (j := j + 1) ?_ hnext hrest haddress
          rw [hsets.pc, hpc, Nat.succ_mul]
      | @store x rs rest hrest =>
          obtain ⟨hj, hnext⟩ := getElem?_of_drop hdrop
          obtain ⟨m', word, hstep, hsets, hslot, haddress⟩ := ha.step_select hj hpc
          rw [show Machine.move image m = .next m' from hstep]
          refine .store (j := j + 1) ?_ hnext hrest haddress
          rw [hsets.pc, hpc, Nat.succ_mul]
      | @branch op rs rs' rest target hrest =>
          obtain ⟨p, hp, hstep⟩ := ha.step_branch (getElem?_of_drop hdrop).1 hpc
          rw [show Machine.move image m = _ from hstep]
          split
          · have hle := (List.getElem?_eq_some_iff.mp (getElem?_of_position? hp)).1
            exact .between rfl (ha.guarded_drop (Nat.le_of_lt hle))
          · exact .after hdrop hrest hpc rfl
  | load hpc hnext hguarded haddress =>
      obtain ⟨m', hstep, hsets⟩ := ha.step_load (getElem?_of_drop hnext).1 hpc haddress
      rw [show Machine.move image m = .next m' from hstep]
      exact .after hnext hguarded hpc hsets.pc
  | store hpc hnext hguarded haddress =>
      obtain ⟨m', hstep, hstores⟩ := ha.step_stor (getElem?_of_drop hnext).1 hpc haddress
      rw [show Machine.move image m = .next m' from hstep]
      exact .after hnext hguarded hpc hstores.pc

/-! ## Runs -/

theorem stands_start (ha : Assembled code image l) : Stands l.instrs.toList .start :=
  .between (j := 0) rfl (ha.guarded_drop (Nat.zero_le _))

/-- The machine goes wrong nowhere on its way: all it can fail by is a division by zero. -/
theorem Assembled.fails_only_by_division (ha : Assembled code image l) {fault : Fault}
    (h : (Machine.system image).Fails .start m fault) : ∃ pc, fault = .divisionByZero pc := by
  obtain ⟨hreaches, hfail⟩ := h
  have hkeep : ∀ {m₁ m₂ : Machine}, Stands l.instrs.toList m₁ →
      (Machine.system image).step m₁ = .next m₂ → Stands l.instrs.toList m₂ := by
    intro m₁ m₂ hm₁ hstep
    have hharmless := hm₁.step ha
    rw [show Machine.move image m₁ = .next m₂ from hstep] at hharmless
    exact hharmless
  have hharmless := (hreaches.invariant hkeep (stands_start ha)).step ha
  rw [show Machine.move image m = .fail fault from hfail] at hharmless
  exact hharmless

/-- **Assembled code never goes wrong.** Whatever the code, if it can be assembled then a run of it
from rest returns a machine, or divides by zero, or uses up its limit. -/
theorem assembled_run_outcome {c : Compiled} (h : code.assemble = .ok c) (maxSteps : Nat) :
    (∃ m, c.image.run maxSteps = .ok m) ∨
      (∃ pc, c.image.run maxSteps = .error (.divisionByZero pc)) ∨
      c.image.run maxSteps = .error (.stepLimitExceeded maxSteps) := by
  obtain ⟨l, ha⟩ := Code.exists_assembled h
  unfold Image.run
  cases hrun : Machine.run c.image maxSteps .start with
  | ok _ m => exact .inl ⟨m, rfl⟩
  | error fault m =>
      rcases Machine.fails_of_run hrun with rfl | ⟨m', hfails, -⟩
      · exact .inr (.inr rfl)
      · obtain ⟨pc, rfl⟩ := ha.fails_only_by_division hfails
        exact .inr (.inl ⟨pc, rfl⟩)

/-- A jump over the only write of a temporary that is then stored in the last word of memory, loaded
and divided by: the code is not block-local, and what it reads is whatever the register holds. -/
theorem assembled_run_outcome_unwritten :
    let x : Symbol := ⟨"x", 8191⟩
    let code : Code := ⟨[.jump ⟨0⟩, .const ⟨0⟩ 5, .label ⟨0⟩, .store x (.temp ⟨0⟩), .load ⟨1⟩ x,
      .binary ⟨2⟩ ⟨1⟩ (.arith .div) (.temp ⟨1⟩), .print ⟨2⟩], [x]⟩
    ¬ BlockLocal code.instrs ∧ ∃ c, code.assemble = .ok c ∧ ∀ maxSteps,
      (∃ m, c.image.run maxSteps = .ok m) ∨
        (∃ pc, c.image.run maxSteps = .error (.divisionByZero pc)) ∨
        c.image.run maxSteps = .error (.stepLimitExceeded maxSteps) := by
  intro x code
  have hstale : ¬ BlockLocal code.instrs := by decide
  obtain ⟨c, hc⟩ := Except.exists_of_isOk (show code.assemble.isOk = true by decide +kernel)
  exact ⟨hstale, c, hc, fun maxSteps => assembled_run_outcome hc maxSteps⟩

end SixReg
