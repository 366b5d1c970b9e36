import SixReg.Proofs.Machine.Progress

/-!
# Calls and returns

A call pushes the address behind it and a return goes to the address that it pops, so a return that
finds the stack as a call left it goes back behind that call. What is pushed is a word, however, and
programs may be longer than words can say: behind a call at address 65534 or further on, the return
goes to what is left of the address in sixteen bits. It is still an address of an instruction, so a
return never fails (`return_to_caller`), but it is not where the call was (`return_wraps`).
-/

namespace SixReg

namespace Machine

variable {image : Image} {m m' : Machine} {stop target : Nat} {imm : Int}

theorem goTo_of_isTarget (h : IsTarget stop target) :
    goTo stop target m = .ok () { m with pc := target } := by
  have hvalid : ¬ (stop < target ∨ target % wordsPerInstruction ≠ 0) := by
    rw [not_or, Nat.not_lt, Decidable.not_not]
    exact h
  rw [goTo, if_neg hvalid]

/-- A call with a target pushes the address behind it. -/
theorem next_of_call (hcall : m.instruction? image = some (.call .call imm))
    (htarget : IsTarget (stopOf image) imm.toNat) :
    (system image).step m = .next { m with
      stack := .ofNat 16 (m.pc + wordsPerInstruction) :: m.stack
      pc := imm.toNat
      steps := m.steps + 1 } := by
  show move image m = _
  rw [move_of_instruction hcall, step, goTo_of_isTarget htarget]
  rfl

/-- A return goes to the address that it pops. -/
theorem next_of_ret {top : Word} {stack : List Word}
    (hret : m.instruction? image = some (.call .ret imm)) (hstack : m.stack = top :: stack)
    (htarget : IsTarget (stopOf image) top.toNat) :
    (system image).step m = .next { m with stack, pc := top.toNat, steps := m.steps + 1 } := by
  show move image m = _
  rw [move_of_instruction hret, step, hstack]
  simp only [goTo_of_isTarget htarget]

theorem lt_stopOf_of_instruction {instr : Instruction} (h : m.instruction? image = some instr) :
    m.pc < stopOf image := by
  by_cases hpc : m.pc < stopOf image
  · exact hpc
  · have hstop := move_eq_stop.mpr (Nat.le_of_not_lt hpc)
    rw [move_of_instruction h] at hstop
    cases hs : step (stopOf image) instr m <;> simp [hs] at hstop

/-- The address behind an instruction, cut down to a word, is a target: the program has the
instruction, and words are cut off at an even number. -/
theorem isTarget_behind {instr : Instruction} (hreach : (system image).Reaches .start m)
    (h : m.instruction? image = some instr) :
    IsTarget (stopOf image) ((m.pc + wordsPerInstruction) % 65536) := by
  have haligned : m.pc % wordsPerInstruction = 0 := (onProgram_of_reaches hreach).2
  have hlt := lt_stopOf_of_instruction h
  have hstop := stopOf_mod image
  unfold IsTarget
  unfold wordsPerInstruction at *
  omega

end Machine

/-- **A return goes back behind its call.** From any state that a machine started from rest can get
to and whose next instruction is a call with a target, the call goes well; and if the machine then
comes to a return with the stack as the call left it, the return goes well too, and it leaves the
stack as it was in front of the call. It goes to the address behind the call, as far as a word can
say it: in programs of up to 65535 words that is the address itself. -/
theorem return_to_caller {image : Image} {m : Machine} {imm : Int}
    (hreach : (Machine.system image).Reaches .start m)
    (hcall : m.instruction? image = some (.call .call imm))
    (htarget : Machine.IsTarget (Machine.stopOf image) imm.toNat) :
    ∃ m₁, (Machine.system image).step m = .next m₁ ∧
      ∀ m₂ imm', (Machine.system image).Reaches m₁ m₂ →
        m₂.instruction? image = some (.call .ret imm') → m₂.stack = m₁.stack →
        ∃ m₃, (Machine.system image).step m₂ = .next m₃ ∧ (Machine.system image).Reaches m m₃ ∧
          m₃.pc = (m.pc + wordsPerInstruction) % 65536 ∧
          (m.pc + wordsPerInstruction < 65536 → m₃.pc = m.pc + wordsPerInstruction) ∧
          m₃.stack = m.stack := by
  have hstep := Machine.next_of_call hcall htarget
  refine ⟨_, hstep, ?_⟩
  intro m₂ imm' hcallee hret hstack
  -- the word on top of the stack is the address behind the call, without the bits above
  have htop : (BitVec.ofNat 16 (m.pc + wordsPerInstruction)).toNat =
      (m.pc + wordsPerInstruction) % 65536 := BitVec.toNat_ofNat _ _
  have hstep' := Machine.next_of_ret hret hstack (htop ▸ Machine.isTarget_behind hreach hcall)
  refine ⟨_, hstep', ?_, htop, ?_, rfl⟩
  · exact (System.Reaches.of_next hstep).trans (hcallee.trans (.of_next hstep'))
  · intro hlt
    exact htop.trans (Nat.mod_eq_of_lt hlt)

/-- A subroutine that pushes and pops before it returns. -/
theorem return_to_caller_subroutine :
    -- `call @4`, `jump @10`, `push R0`, `pop R5`, `ret`
    let image : Image := #[⟨0x8000, 4⟩, ⟨0xbe00, 10⟩, ⟨0xe000, 0⟩, ⟨0x4205, 0⟩, ⟨0x8200, 0⟩]
    ∃ m, (Machine.system image).Reaches .start m ∧ m.pc = 2 ∧ m.stack = [] := by
  intro image
  obtain ⟨m₁, hstep, hreturn⟩ := return_to_caller (System.Reaches.refl _)
    (show Machine.start.instruction? image = some (.call .call 4) by decide)
    ⟨by decide, by decide⟩
  have hcall : ((Machine.system image).after 1 .start).map Machine.stack = some [2] := by
    decide +kernel
  have hcallee : ((Machine.system image).after 3 .start).map
      (fun m => (m.instruction? image, m.stack)) = some (some (.call .ret 0), [2]) := by
    decide +kernel
  rw [System.after_succ_of_next hstep] at hcall hcallee
  obtain ⟨m₂, hafter, hm₂⟩ := Option.map_eq_some_iff.mp hcallee
  obtain ⟨hret, hstack⟩ := Prod.mk.inj hm₂
  obtain ⟨m₃, -, hreach, -, hpc, hsame⟩ :=
    hreturn m₂ 0 ⟨2, hafter⟩ hret (hstack.trans (Option.some.inj hcall).symm)
  exact ⟨m₃, hreach, hpc (by decide), hsame⟩

/-- A call at the last address that a word can hold does not come back: the address behind it is
65536, of which a word keeps zero. -/
theorem return_wraps :
    -- `jump @65534`, then nothing but `ret` up to a last `call @2`
    let image : Image := #[⟨0xbe00, 65534⟩] ++ Array.replicate 32766 ⟨0x8200, 0⟩ ++ #[⟨0x8000, 2⟩]
    ∃ m m₁ m₂ m₃, (Machine.system image).Reaches .start m ∧
      m.instruction? image = some (.call .call 2) ∧
      Machine.IsTarget (Machine.stopOf image) 2 ∧ (Machine.system image).step m = .next m₁ ∧
      (Machine.system image).Reaches m₁ m₂ ∧ m₂.instruction? image = some (.call .ret 0) ∧
      m₂.stack = m₁.stack ∧ (Machine.system image).step m₂ = .next m₃ ∧
      m₃.pc = 0 ∧ m.pc + wordsPerInstruction = 65536 := by
  intro image
  have hstop : Machine.stopOf image = 65536 := by simp [image, Machine.stopOf, wordsPerInstruction]
  have hfirst : image[0]? = some ⟨0xbe00, 65534⟩ := by simp [image]
  have hsecond : image[1]? = some ⟨0x8200, 0⟩ := by simp [image, Array.getElem_push]
  have hlast : image[32767]? = some ⟨0x8000, 2⟩ := by simp [image, Array.getElem_push]
  clear_value image
  let m : Machine := { Machine.start with pc := 65534, steps := 1 }
  let m₁ : Machine := { m with stack := [0], pc := 2, steps := 2 }
  -- the jump
  have hjump : Machine.start.instruction? image = some (.branch .jump .r0 .r0 65534) := by
    show image[0]?.bind _ = _
    rw [hfirst]
    rfl
  have hm : (Machine.system image).step .start = .next m := by
    show Machine.move image .start = _
    rw [Machine.move_of_instruction hjump, hstop]
    rfl
  -- the call
  have hcall : m.instruction? image = some (.call .call 2) := by
    have hindex : m.pc / wordsPerInstruction = 32767 := by decide
    rw [Machine.instruction?, hindex, hlast]
    rfl
  have htarget : Machine.IsTarget (Machine.stopOf image) 2 := by
    rw [hstop]
    exact ⟨by decide, by decide⟩
  have hm₁ : (Machine.system image).step m = .next m₁ := by
    have hword : BitVec.ofNat 16 (m.pc + wordsPerInstruction) = 0 := by decide
    rw [Machine.next_of_call hcall htarget, hword]
    rfl
  -- the return, with which the subroutine starts
  have hret : m₁.instruction? image = some (.call .ret 0) := by
    have hindex : m₁.pc / wordsPerInstruction = 1 := by decide
    rw [Machine.instruction?, hindex, hsecond]
    rfl
  have hm₃ := Machine.next_of_ret hret rfl ⟨Nat.zero_le _, rfl⟩
  exact ⟨m, m₁, m₁, _, .of_next hm, hcall, htarget, hm₁, .refl m₁, hret, rfl, hm₃, rfl, rfl⟩

end SixReg
