import SixReg.Proofs.Machine.Execution

/-!
# Where a machine goes

A step goes on to the next instruction, or sends control to a target that was looked at: the address
of an instruction or the end of the program. Nothing else happens to the program counter, and
whichever instruction it is, one step is counted (`advances_of_next`). So the count says how many
steps were done (`steps_of_after`), and the program counter of a machine that was started from rest
is always at an instruction or at the end (`onProgram_of_reaches`).
-/

namespace SixReg.Machine

variable {image : Image} {m m' : Machine} {r : Register} {value : Word} {instr : Instruction}
  {fault : Fault} {stop k : Nat}

/-! ## What an instruction does -/

@[simp]
theorem steps_write : (m.write r value).steps = m.steps := by
  unfold write
  split <;> rfl

/-- Where control may be sent: to an instruction, or to the end of the program. -/
def IsTarget (stop target : Nat) : Prop := target ≤ stop ∧ target % wordsPerInstruction = 0

/-- A computation that succeeds goes on to the next instruction or to a target, and leaves the count
of steps to others. One that fails stays where it is, and not because a limit is reached. -/
def Advances (stop : Nat) (m : Machine) : EStateM.Result Fault Machine Unit → Prop
  | .ok _ m' => m'.steps = m.steps ∧ (m'.pc = m.next.pc ∨ IsTarget stop m'.pc)
  | .error fault m' =>
    m'.steps = m.steps ∧ m'.pc = m.pc ∧ ∀ limit, fault ≠ .stepLimitExceeded limit

theorem advances_next_write (stop : Nat) (m : Machine) (r : Register) (value : Word) :
    Advances stop m (.ok () (m.write r value).next) := by
  refine ⟨steps_write, .inl ?_⟩
  simp only [next, pc_write]

theorem advances_calculate (stop : Nat) (op : AluOp) (a b : Word) (rd : Register) (m : Machine) :
    Advances stop m (calculate op a b rd m) := by
  unfold calculate
  split
  · exact advances_next_write stop m rd _
  · exact ⟨rfl, rfl, nofun⟩

theorem advances_goTo (stop target : Nat) (m : Machine) :
    Advances stop m (goTo stop target m) := by
  unfold goTo
  split
  · exact ⟨rfl, rfl, nofun⟩
  · next h =>
      rw [not_or, Nat.not_lt, Decidable.not_not] at h
      exact ⟨rfl, .inr h⟩

theorem advances_step (stop : Nat) (instr : Instruction) (m : Machine) :
    Advances stop m (step stop instr m) := by
  unfold step
  split
  · exact advances_calculate ..
  · exact advances_calculate ..
  -- a pop, a load and the two that move nothing
  · split
    · exact ⟨rfl, rfl, nofun⟩
    · next top stack _ => exact advances_next_write stop { m with stack } _ top
  · split
    · exact ⟨rfl, rfl, nofun⟩
    · exact advances_next_write ..
  · exact advances_next_write ..
  · exact advances_next_write ..
  -- a push, a store and the two that move nothing
  · exact ⟨rfl, .inl rfl⟩
  · split
    · exact ⟨rfl, rfl, nofun⟩
    · exact ⟨rfl, .inl rfl⟩
  · exact ⟨rfl, .inl rfl⟩
  · exact ⟨rfl, .inl rfl⟩
  -- a call, a return and a branch
  · next imm =>
      exact advances_goTo stop imm.toNat { m with stack := .ofNat 16 m.next.pc :: m.stack }
  · split
    · exact ⟨rfl, rfl, nofun⟩
    · next top stack _ => exact advances_goTo stop top.toNat { m with stack }
  · split
    · exact advances_goTo ..
    · exact ⟨rfl, .inl rfl⟩

/-! ## What a move does -/

/-- The instruction that a machine is to do, if there is one and it can be decoded. -/
def instruction? (image : Image) (m : Machine) : Option Instruction :=
  image[m.pc / wordsPerInstruction]?.bind fun e => e.decode.toOption

/-- A machine does the instruction that it is to do. -/
theorem move_of_instruction (h : m.instruction? image = some instr) :
    move image m =
      match step (stopOf image) instr m with
      | .ok _ m' => .next { m' with steps := m'.steps + 1 }
      | .error fault _ => .fail fault := by
  obtain ⟨e, he, hdecode⟩ := Option.bind_eq_some_iff.mp h
  have hpc : m.pc < stopOf image := by
    obtain ⟨hlt, -⟩ := Array.getElem?_eq_some_iff.mp he
    exact (Nat.div_lt_iff_lt_mul (by decide)).mp hlt
  cases hd : e.decode with
  | error err => simp [hd, Except.toOption] at hdecode
  | ok found =>
      obtain rfl : found = instr := by simpa [hd, Except.toOption] using hdecode
      simp only [move, hpc, if_true, stepAt, he, hd]
      cases step (stopOf image) found m <;> rfl

/-- A machine that is not at its end has an instruction, or fails to decode it. -/
theorem instruction_or_invalid (h : m.pc < stopOf image) :
    (∃ instr, m.instruction? image = some instr) ∨
      ∃ e, move image m = .fail (.invalidInstruction m.pc e) := by
  have hlt : m.pc / wordsPerInstruction < image.size := (Nat.div_lt_iff_lt_mul (by decide)).mpr h
  have he := Array.getElem?_eq_getElem hlt
  cases hd : (image[m.pc / wordsPerInstruction]).decode with
  | error err => exact .inr ⟨err, by simp only [move, h, if_true, stepAt, he, hd]⟩
  | ok instr => exact .inl ⟨instr, by rw [instruction?, he, Option.bind_some, hd]; rfl⟩

/-- **What a move does** to the program counter and the count of steps. -/
theorem advances_of_next (h : move image m = .next m') :
    m'.steps = m.steps + 1 ∧ (m'.pc = m.next.pc ∨ IsTarget (stopOf image) m'.pc) := by
  obtain ⟨instr, hinstr⟩ | ⟨e, hfail⟩ := instruction_or_invalid (move_eq_next.mp h).1
  · have hadvances := advances_step (stopOf image) instr m
    rw [move_of_instruction hinstr] at h
    cases hs : step (stopOf image) instr m with
    | error fault _ => simp [hs] at h
    | ok _ m₁ =>
        simp only [hs, Move.next.injEq] at h hadvances
        subst h
        exact ⟨congrArg (· + 1) hadvances.1, hadvances.2⟩
  · rw [hfail] at h
    cases h

/-- A machine never fails because of a limit: that is for runs to say. -/
theorem ne_stepLimit_of_fail (h : move image m = .fail fault) (limit : Nat) :
    fault ≠ .stepLimitExceeded limit := by
  obtain ⟨instr, hinstr⟩ | ⟨e, hfail⟩ := instruction_or_invalid (move_eq_fail.mp h).1
  · have hadvances := advances_step (stopOf image) instr m
    rw [move_of_instruction hinstr] at h
    cases hs : step (stopOf image) instr m with
    | ok _ m₁ => simp [hs] at h
    | error fault' m₁ =>
        simp only [hs, Move.fail.injEq] at h hadvances
        exact h ▸ hadvances.2.2 limit
  · rw [hfail] at h
    cases h
    exact nofun

/-! ## What a run does -/

/-- The count of steps is exact. -/
theorem steps_of_after (h : (system image).after k m = some m') : m'.steps = m.steps + k := by
  induction k generalizing m with
  | zero =>
      cases h
      rfl
  | succ k ih =>
      obtain ⟨m₁, hstep, hafter⟩ := System.after_succ_eq_some.mp h
      rw [ih hafter, (advances_of_next hstep).1, Nat.add_assoc, Nat.add_comm 1 k]

theorem stopOf_mod (image : Image) : stopOf image % wordsPerInstruction = 0 :=
  Nat.mul_mod_left _ _

/-- The program counter is at an instruction of the program or at its end. -/
def OnProgram (image : Image) (m : Machine) : Prop := IsTarget (stopOf image) m.pc

theorem OnProgram.next (h : m.OnProgram image) (hstep : move image m = .next m') :
    m'.OnProgram image := by
  rcases (advances_of_next hstep).2 with hnext | htarget
  · -- the end of the program is a target too, so the next address is not behind it
    have hlt := (move_eq_next.mp hstep).1
    have hpc : m'.pc = m.pc + 2 := hnext
    have heven : m.pc % 2 = 0 := h.2
    have hstop : stopOf image % 2 = 0 := stopOf_mod image
    refine ⟨by omega, ?_⟩
    show m'.pc % 2 = 0
    omega
  · exact htarget

theorem onProgram_of_reaches (h : (system image).Reaches .start m) : m.OnProgram image := by
  have hstart : start.OnProgram image := ⟨Nat.zero_le _, rfl⟩
  exact h.invariant OnProgram.next hstart

end SixReg.Machine
