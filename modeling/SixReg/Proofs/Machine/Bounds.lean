import SixReg.Proofs.Machine.Progress

/-!
# Nothing leaves its bounds

Whatever words a program is made of, a machine that runs it from rest stays within the program,
within its memory and within its limit. A step that goes well keeps the program counter on an
instruction or at the end (`OnProgram`), and a step that fails changes nothing but the stack
(`error_stepAt`). So every machine that a run goes through, up to the one that it leaves, is one
that was reached by steps that went well, but for the stack of the last (`left_runFor`).
-/

namespace SixReg.Machine

variable {image : Image} {m m' : Machine} {rd rs1 : Register} {instr : Instruction} {fault : Fault}
  {stop j k limit : Nat}

/-! ## Steps that fail -/

theorem error_goTo {target : Nat} (h : goTo stop target m = .error fault m') : m' = m := by
  unfold goTo at h
  split at h <;> cases h
  rfl

/-- Only calls and returns have done something when they fail, and only to the stack. -/
theorem error_step (h : step stop instr m = .error fault m') : ∃ stack, m' = { m with stack } := by
  have hcalculate : ∀ {op a b rd}, calculate op a b rd m = .error fault m' → m' = m := by
    intro op a b rd h
    unfold calculate at h
    split at h <;> cases h
    rfl
  unfold step at h
  split at h
  · exact ⟨_, hcalculate h⟩
  · exact ⟨_, hcalculate h⟩
  -- a pop, a load and the two that move nothing
  · split at h <;> cases h
    exact ⟨_, rfl⟩
  · split at h <;> cases h
    exact ⟨_, rfl⟩
  · cases h
  · cases h
  -- a push, a store and the two that move nothing
  · cases h
  · split at h <;> cases h
    exact ⟨_, rfl⟩
  · cases h
  · cases h
  -- a call, a return and a branch
  · exact ⟨_, error_goTo h⟩
  · split at h
    · cases h
      exact ⟨_, rfl⟩
    · exact ⟨_, error_goTo h⟩
  · split at h
    · exact ⟨_, error_goTo h⟩
    · cases h

theorem error_stepAt (h : stepAt image m = .error fault m') : ∃ stack, m' = { m with stack } := by
  unfold stepAt at h
  split at h
  · cases h
  · split at h
    · cases h
      exact ⟨_, rfl⟩
    · split at h
      · cases h
      · next hstep =>
          cases h
          exact error_step hstep

/-- **What a run leaves** is a machine that it got to, but for the stack. -/
theorem left_runFor (image : Image) (limit budget : Nat) (m : Machine) :
    ∃ j m' stack, j ≤ budget ∧ (system image).after j m = some m' ∧
      left (runFor image limit budget m) = { m' with stack } := by
  obtain ⟨j, m', hj, hafter, ⟨-, hrun⟩ | ⟨fault, m'', hfail, -, hrun⟩ | ⟨-, hrun⟩⟩ :=
    runFor_trace image limit budget m
  · exact ⟨j, m', m'.stack, hj, hafter, by rw [hrun]; rfl⟩
  · obtain ⟨b, rfl⟩ := Nat.exists_eq_add_of_le hj
    obtain ⟨hpc, m₁, hstep⟩ := move_eq_fail.mp hfail
    rw [hrun]
    rw [runFor_of_after hafter] at hrun
    cases b with
    | zero =>
        -- there was no step left to fail
        simp only [runFor, hpc, if_true] at hrun
        cases hrun
        exact ⟨j, m', m'.stack, hj, hafter, rfl⟩
    | succ b =>
        simp only [runFor, hpc, if_true, hstep] at hrun
        cases hrun
        obtain ⟨stack, hstack⟩ := error_stepAt hstep
        exact ⟨j, m', stack, hj, hafter, hstack⟩
  · exact ⟨j, m', m'.stack, hj, hafter, by rw [hrun]; rfl⟩

/-! ## Memory -/

theorem address?_eq (m : Machine) :
    (∃ h : (m.register .mar).toNat < memorySize, m.address? = some ⟨_, h⟩) ∨
      memorySize ≤ (m.register .mar).toNat ∧ m.address? = none := by
  unfold address?
  split
  · next h => exact .inl ⟨h, rfl⟩
  · next h => exact .inr ⟨Nat.le_of_not_lt h, rfl⟩

/-- A load reads the word that the address register names, if memory has it. -/
theorem move_of_load (h : m.instruction? image = some (.memRead .load rd)) :
    (∃ (hlt : (m.register .mar).toNat < memorySize) (m' : Machine), move image m = .next m' ∧
      m'.register rd = m.memory.get ⟨_, hlt⟩ ∧ m'.memory = m.memory) ∨
    memorySize ≤ (m.register .mar).toNat ∧
      move image m = .fail (.addressOutOfRange m.pc (m.register .mar)) := by
  rw [move_of_instruction h]
  rcases m.address?_eq with ⟨hlt, haddress⟩ | ⟨hle, haddress⟩
  · refine .inl ⟨hlt, ?_⟩
    simp only [step, haddress, Move.next.injEq, exists_eq_left']
    exact ⟨register_write_self m rd _, memory_write⟩
  · exact .inr ⟨hle, by simp only [step, haddress]⟩

/-- A store writes the word that the address register names, if memory has it. -/
theorem move_of_stor (h : m.instruction? image = some (.memWrite .stor rs1)) :
    (∃ (hlt : (m.register .mar).toNat < memorySize) (m' : Machine), move image m = .next m' ∧
      m'.memory = m.memory.set _ (m.register rs1) hlt) ∨
    memorySize ≤ (m.register .mar).toNat ∧
      move image m = .fail (.addressOutOfRange m.pc (m.register .mar)) := by
  rw [move_of_instruction h]
  rcases m.address?_eq with ⟨hlt, haddress⟩ | ⟨hle, haddress⟩
  · refine .inl ⟨hlt, ?_⟩
    simp only [step, haddress, Move.next.injEq, exists_eq_left']
    rfl
  · exact .inr ⟨hle, by simp only [step, haddress]⟩

/-! ## All along a run -/

/-- The machines that a run from rest goes through: one in front of every step that the limit allows
for, and the one that the run leaves, whether it succeeds or fails. -/
inductive Met (image : Image) (limit : Nat) : Machine → Prop where
  | underway {j : Nat} {m : Machine} (hj : j ≤ limit) (h : (system image).after j .start = some m) :
      Met image limit m
  | last : Met image limit (left (run image limit .start))

/-- A machine is within its program, its memory and its limit. -/
structure WithinBounds (image : Image) (limit : Nat) (m : Machine) : Prop where
  even : m.pc % 2 = 0
  pc_le : m.pc ≤ 2 * image.size
  steps_le : m.steps ≤ limit
  words : m.memory.toArray.size = 8192
  /-- What is fetched is there, and starts at the program counter. -/
  fetch : m.pc < 2 * image.size → ∃ e, image[m.pc / 2]? = some e ∧ 2 * (m.pc / 2) = m.pc
  load : ∀ rd, m.instruction? image = some (.memRead .load rd) →
    (∃ (hlt : (m.register .mar).toNat < 8192) (m' : Machine), move image m = .next m' ∧
      m'.register rd = m.memory.get ⟨_, hlt⟩ ∧ m'.memory = m.memory) ∨
    8192 ≤ (m.register .mar).toNat ∧
      move image m = .fail (.addressOutOfRange m.pc (m.register .mar))
  stor : ∀ rs1, m.instruction? image = some (.memWrite .stor rs1) →
    (∃ (hlt : (m.register .mar).toNat < 8192) (m' : Machine), move image m = .next m' ∧
      m'.memory = m.memory.set _ (m.register rs1) hlt) ∨
    8192 ≤ (m.register .mar).toNat ∧
      move image m = .fail (.addressOutOfRange m.pc (m.register .mar))

theorem stopOf_eq_two_mul (image : Image) : stopOf image = 2 * image.size := Nat.mul_comm _ _

theorem withinBounds_of_onProgram (h : m.OnProgram image) (hsteps : m.steps ≤ limit) :
    WithinBounds image limit m where
  even := h.2
  pc_le := stopOf_eq_two_mul image ▸ h.1
  steps_le := hsteps
  words := m.memory.size_toArray
  fetch hlt := by
    have heven : m.pc % 2 = 0 := h.2
    have hindex : m.pc / 2 < image.size := by omega
    exact ⟨_, Array.getElem?_eq_getElem hindex, by omega⟩
  load _ := move_of_load
  stor _ := move_of_stor

/-- Nothing in the bounds is about the stack. -/
theorem Met.withinBounds (h : Met image limit m) : WithinBounds image limit m := by
  have hreached : ∀ {j m}, j ≤ limit → (system image).after j .start = some m →
      m.OnProgram image ∧ m.steps ≤ limit := by
    intro j m hj hafter
    refine ⟨onProgram_of_reaches ⟨j, hafter⟩, ?_⟩
    rw [steps_of_after hafter, start, Nat.zero_add]
    exact hj
  cases h with
  | underway hj hafter =>
      obtain ⟨hprogram, hsteps⟩ := hreached hj hafter
      exact withinBounds_of_onProgram hprogram hsteps
  | last =>
      obtain ⟨j, m', stack, hj, hafter, hleft⟩ := left_runFor image limit limit .start
      obtain ⟨hprogram, hsteps⟩ := hreached hj hafter
      rw [run_start, hleft]
      exact withinBounds_of_onProgram hprogram hsteps

theorem output_prefix_of_after (hjk : j ≤ k) (hj : (system image).after j .start = some m)
    (hk : (system image).after k .start = some m') : m.output.toList <+: m'.output.toList :=
  System.output_prefix_of_reaches (S := system image) ⟨k - j, System.after_sub hj hk hjk⟩

/-- What a run leaves printed starts with what was printed at any time before. -/
theorem output_prefix_left (hj : j ≤ limit) (h : (system image).after j .start = some m) :
    m.output.toList <+: (left (run image limit .start)).output.toList := by
  obtain ⟨b, rfl⟩ := Nat.exists_eq_add_of_le hj
  obtain ⟨i, m', stack, -, hafter, hleft⟩ := left_runFor image (j + b) b m
  have hgrows : m.output.toList <+: m'.output.toList :=
    System.output_prefix_of_reaches (S := system image) ⟨i, hafter⟩
  rw [run_start, runFor_of_after h, hleft]
  exact hgrows

/-- **Nothing leaves its bounds.** Whatever words a program is made of and whatever the limit is,
all machines that a run from rest goes through have their program counter at an even address of the
program or at its end, so that what they fetch is there; their memory has 8192 words, and what they
load or store is among these, or the step fails and says so; and they have not done more steps than
the limit. Output is only ever added to. A run that succeeds has its program counter just past the
program. -/
theorem run_within_bounds (image : Image) (limit : Nat) :
    (∀ m, Met image limit m → WithinBounds image limit m) ∧
    (∀ j k m m', j ≤ k → (system image).after j .start = some m →
      (system image).after k .start = some m' → m.output.toList <+: m'.output.toList) ∧
    (∀ j m, j ≤ limit → (system image).after j .start = some m →
      m.output.toList <+: (left (run image limit .start)).output.toList) ∧
    ∀ m, image.run limit = .ok m → m.pc = 2 * image.size := by
  refine ⟨fun m => Met.withinBounds, fun j k m m' => output_prefix_of_after,
    fun j m => output_prefix_left, ?_⟩
  intro m hrun
  have hok : run image limit .start = .ok () m := by
    unfold Image.run at hrun
    split at hrun <;> cases hrun
    assumption
  obtain ⟨hreach, hstop⟩ := halts_of_run hok
  have hge := move_eq_stop.mp hstop
  have hle := (onProgram_of_reaches hreach).1
  rw [← stopOf_eq_two_mul]
  exact Nat.le_antisymm hle hge

/-- A program that outputs a word and then loads from the first address that memory does not have,
with two words behind it that are no instruction. -/
theorem run_within_bounds_garbage :
    -- `movi IO,R0,#9`, `movi MAR,R0,#8192`, `load R0`
    let image : Image := #[⟨0x3a07, 9⟩, ⟨0x3a06, 8192⟩, ⟨0x4600, 0⟩, ⟨0xffff, 0xffff⟩]
    ∃ m, Met image 7 m ∧ m.pc = 4 ∧ m.output = #[9] ∧ WithinBounds image 7 m ∧
      move image m = .fail (.addressOutOfRange 4 8192) ∧
      [9] <+: (left (run image 7 .start)).output.toList := by
  intro image
  have hrun : ((system image).after 2 .start).map
      (fun m => (m.pc, m.output, m.instruction? image, m.register .mar)) =
        some (4, #[9], some (.memRead .load .r0), 8192) := by
    decide +kernel
  obtain ⟨m, hafter, hm⟩ := Option.map_eq_some_iff.mp hrun
  simp only [Prod.mk.injEq] at hm
  obtain ⟨hpc, hout, hinstr, hmar⟩ := hm
  obtain ⟨hbounds, -, hgrows, -⟩ := run_within_bounds image 7
  have hmet : Met image 7 m := .underway (by decide) hafter
  have hwords := hgrows 2 m (by decide) hafter
  rw [hout] at hwords
  refine ⟨m, hmet, hpc, hout, hbounds m hmet, ?_, hwords⟩
  -- the address register is past the end of memory
  rcases (hbounds m hmet).load .r0 hinstr with ⟨hlt, -⟩ | ⟨-, hfail⟩
  · rw [hmar] at hlt
    cases Nat.lt_irrefl _ hlt
  · rw [hfail, hpc, hmar]

end SixReg.Machine
