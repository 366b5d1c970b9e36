import SixReg.Machine.Run
import SixReg.Proofs.Computation
import SixReg.Proofs.Transition

/-!
# Runs of the machine

The machine with a program is a transition system (`Machine.system`). A run with a limit on its
steps is that system cut off at the limit, so what the system does as a whole is what runs do when
the limit grows:

* it halts in a machine just in case runs return that machine, from some limit on (`halts_of_run`,
  `run_of_halts`);
* it fails just in case they report that fault (`fails_of_run`, `run_of_fails`);
* it diverges just in case every run reports its limit (`diverges_iff_run`).

`RunsLike` puts this together: all that runs of an image show, in terms of another system.
-/

namespace SixReg

namespace Machine

variable {image : Image} {m m' : Machine} {r r' : Register} {value : Word} {instr : Instruction}
  {fault : Fault} {stop : Nat}

/-! ## Fields -/

@[simp]
theorem pc_write : (m.write r value).pc = m.pc := by
  unfold write
  split <;> rfl

@[simp]
theorem memory_write : (m.write r value).memory = m.memory := by
  unfold write
  split <;> rfl

theorem output_write :
    (m.write r value).output = if r = .io then m.output.push value else m.output := by
  unfold write
  split <;> rfl

theorem register_write :
    (m.write r value).register r' = if r' = r then value else m.register r' := by
  by_cases h : r' = r
  · rw [if_pos h, h, register_write_self]
  · rw [if_neg h, register_write_of_ne m value (Ne.symm h)]

/-! ## The arithmetic unit -/

theorem step_alu (op : AluOp) (rs1 rs2 rd : Register) :
    step stop (.alu op rs1 rs2 rd) m = calculate op (m.register rs1) (m.register rs2) rd m := rfl

theorem step_aluImm (op : AluOp) (rs1 rd : Register) (imm : Int) :
    step stop (.aluImm op rs1 rd imm) m = calculate op (m.register rs1) (.ofInt 16 imm) rd m := rfl

/-! ## Output only grows -/

/-- A computation that succeeds adds to the output, and one that fails leaves it as it is. -/
def Grows (m : Machine) : EStateM.Result Fault Machine Unit → Prop
  | .ok _ m' => m.output.toList <+: m'.output.toList
  | .error _ m' => m'.output = m.output

theorem output_prefix_write (m : Machine) (r : Register) (value : Word) :
    m.output.toList <+: (m.write r value).output.toList := by
  rw [output_write]
  split
  · simp
  · exact List.prefix_rfl

theorem grows_calculate (op : AluOp) (a b : Word) (rd : Register) (m : Machine) :
    m.Grows (calculate op a b rd m) := by
  unfold calculate
  split
  · exact output_prefix_write m rd _
  · rfl

theorem grows_goTo (stop target : Nat) (m : Machine) : m.Grows (goTo stop target m) := by
  unfold goTo
  split
  · rfl
  · exact List.prefix_rfl

theorem grows_step (stop : Nat) (instr : Instruction) (m : Machine) :
    m.Grows (step stop instr m) := by
  unfold step
  split
  · exact grows_calculate ..
  · exact grows_calculate ..
  -- what the machine reads: a pop, a load and the two that move nothing
  · split
    · rfl
    · next top stack _ => exact output_prefix_write { m with stack } _ top
  · split
    · rfl
    · exact output_prefix_write ..
  · exact output_prefix_write ..
  · exact output_prefix_write ..
  -- what it writes: a push, a store and the two that move nothing
  · exact List.prefix_rfl
  · split
    · rfl
    · exact List.prefix_rfl
  · exact List.prefix_rfl
  · exact List.prefix_rfl
  -- where it goes: a call, a return and a branch
  · next imm => exact grows_goTo stop imm.toNat { m with stack := .ofNat 16 m.next.pc :: m.stack }
  · split
    · rfl
    · next top stack _ => exact grows_goTo stop top.toNat { m with stack }
  · split
    · exact grows_goTo ..
    · exact List.prefix_rfl

theorem grows_stepAt (image : Image) (m : Machine) : m.Grows (stepAt image m) := by
  unfold stepAt
  split
  · exact List.prefix_rfl
  · split
    · rfl
    · next instr _ =>
        have h := grows_step (stopOf image) instr m
        split
        · next hs =>
            rw [hs] at h
            exact h
        · next hs =>
            rw [hs] at h
            exact h

/-! ## The machine as a transition system -/

/-- The next step of a machine with a program; past the program it stops. -/
def move (image : Image) (m : Machine) : Move Machine Fault :=
  if m.pc < stopOf image then
    match stepAt image m with
    | .ok _ m => .next m
    | .error fault _ => .fail fault
  else .stop

theorem move_eq_next : move image m = .next m' ↔
    m.pc < stopOf image ∧ stepAt image m = .ok () m' := by
  unfold move
  split
  · next h => cases hs : stepAt image m <;> simp [h]
  · next h => simp [h]

theorem move_eq_fail : move image m = .fail fault ↔
    m.pc < stopOf image ∧ ∃ m', stepAt image m = .error fault m' := by
  unfold move
  split
  · next h => cases hs : stepAt image m <;> simp [h]
  · next h => simp [h]

theorem move_eq_stop : move image m = .stop ↔ stopOf image ≤ m.pc := by
  unfold move
  split
  · next h => cases hs : stepAt image m <;> simp [h]
  · next h => simpa using h

/-- A machine with a program. -/
def system (image : Image) : System Machine Fault Word where
  step := move image
  output m := m.output.toList
  output_step {m m'} h := by
    have hgrows := grows_stepAt image m
    rw [(move_eq_next.mp h).2] at hgrows
    exact hgrows

/-! ## Runs with a limit -/

/-- The machine that a computation leaves, whether it succeeds or fails. -/
def left : EStateM.Result Fault Machine Unit → Machine
  | .ok _ m => m
  | .error _ m => m

variable {limit budget k n : Nat}

/-- A run goes through all states of the system. -/
theorem runFor_of_after (h : (system image).after k m = some m') :
    runFor image limit (k + budget) m = runFor image limit budget m' := by
  induction k generalizing m with
  | zero =>
      cases h
      rw [Nat.zero_add]
  | succ k ih =>
      obtain ⟨m₁, hstep, hafter⟩ := System.after_succ_eq_some.mp h
      obtain ⟨hpc, hat⟩ := move_eq_next.mp hstep
      simp only [Nat.succ_add, runFor, hpc, if_true, hat]
      exact ih hafter

theorem runFor_of_stop (h : move image m = .stop) : runFor image limit budget m = .ok () m := by
  have hpc := Nat.not_lt.mpr (move_eq_stop.mp h)
  cases budget <;> simp [runFor, hpc]

theorem runFor_of_fail (h : move image m = .fail fault) :
    ∃ m', m'.output = m.output ∧
      ∀ limit budget, runFor image limit (budget + 1) m = .error fault m' := by
  obtain ⟨hpc, m', hstep⟩ := move_eq_fail.mp h
  refine ⟨m', ?_, fun limit budget => by simp [runFor, hpc, hstep]⟩
  have hgrows := grows_stepAt image m
  rw [hstep] at hgrows
  exact hgrows

/-- All that a run can come to: it stops, or a step fails, or its steps are used up. -/
theorem runFor_trace (image : Image) (limit budget : Nat) (m : Machine) :
    ∃ j m', j ≤ budget ∧ (system image).after j m = some m' ∧
      ((move image m' = .stop ∧ runFor image limit budget m = .ok () m') ∨
        (∃ fault m'', move image m' = .fail fault ∧ m''.output = m'.output ∧
          runFor image limit budget m = .error fault m'') ∨
        (j = budget ∧ runFor image limit budget m = .error (.stepLimitExceeded limit) m')) := by
  induction budget generalizing m with
  | zero =>
      refine ⟨0, m, Nat.le_refl 0, rfl, ?_⟩
      by_cases hpc : m.pc < stopOf image
      · exact .inr (.inr ⟨rfl, by simp [runFor, hpc]⟩)
      · exact .inl ⟨move_eq_stop.mpr (Nat.not_lt.mp hpc), by simp [runFor, hpc]⟩
  | succ budget ih =>
      cases hmove : move image m with
      | stop => exact ⟨0, m, Nat.zero_le _, rfl, .inl ⟨hmove, runFor_of_stop hmove⟩⟩
      | fail fault =>
          obtain ⟨m', hout, hrun⟩ := runFor_of_fail hmove
          exact ⟨0, m, Nat.zero_le _, rfl, .inr (.inl ⟨fault, m', hmove, hout, hrun _ _⟩)⟩
      | next m₁ =>
          have hone : (system image).after 1 m = some m₁ := System.after_succ_of_next hmove 0
          have hrun : runFor image limit (budget + 1) m = runFor image limit budget m₁ := by
            rw [Nat.add_comm, runFor_of_after hone]
          obtain ⟨j, m', hj, hafter, hend⟩ := ih m₁
          refine ⟨j + 1, m', Nat.succ_le_succ hj, ?_, ?_⟩
          · rw [System.after_succ_of_next hmove]
            exact hafter
          · rw [hrun]
            exact hend.imp_right (.imp_right fun h => ⟨congrArg (· + 1) h.1, h.2⟩)

/-- The run of a machine at rest may take as many steps as the limit says. -/
theorem run_start (image : Image) (n : Nat) :
    run image n .start = runFor image n n .start := rfl

theorem run_of_halts (h : (system image).Halts .start m) :
    ∃ k, ∀ n, k ≤ n → run image n .start = .ok () m := by
  obtain ⟨⟨k, hk⟩, hstop⟩ := h
  refine ⟨k, fun n hn => ?_⟩
  obtain ⟨b, rfl⟩ := Nat.exists_eq_add_of_le hn
  rw [run_start, runFor_of_after hk, runFor_of_stop hstop]

theorem run_of_fails (h : (system image).Fails .start m fault) :
    ∃ k m', m'.output = m.output ∧ ∀ n, k ≤ n → run image n .start = .error fault m' := by
  obtain ⟨⟨k, hk⟩, hfail⟩ := h
  obtain ⟨m', hout, hrun⟩ := runFor_of_fail hfail
  refine ⟨k + 1, m', hout, fun n hn => ?_⟩
  obtain ⟨b, rfl⟩ := Nat.exists_eq_add_of_le hn
  rw [run_start, Nat.add_assoc, runFor_of_after hk, Nat.add_comm 1 b, hrun]

theorem run_of_diverges (h : (system image).Diverges .start) (n : Nat) :
    ∃ m, run image n .start = .error (.stepLimitExceeded n) m := by
  obtain ⟨j, m, -, hafter, ⟨hstop, -⟩ | ⟨fault, m', hfail, -⟩ | ⟨-, hrun⟩⟩ :=
    runFor_trace image n n .start
  · exact (h.not_stuck ⟨j, hafter⟩ (by simp [system, hstop])).elim
  · exact (h.not_stuck ⟨j, hafter⟩ (by simp [system, hfail])).elim
  · exact ⟨m, hrun⟩

theorem halts_of_run (h : run image n .start = .ok () m) : (system image).Halts .start m := by
  obtain ⟨j, m', -, hafter, ⟨hstop, hrun⟩ | ⟨_, _, -, -, hrun⟩ | ⟨-, hrun⟩⟩ :=
    runFor_trace image n n .start
  · rw [run_start, hrun] at h
    cases h
    exact ⟨⟨j, hafter⟩, hstop⟩
  · rw [run_start, hrun] at h
    cases h
  · rw [run_start, hrun] at h
    cases h

theorem fails_of_run (h : run image n .start = .error fault m) :
    fault = .stepLimitExceeded n ∨
      ∃ m', (system image).Fails .start m' fault ∧ m.output = m'.output := by
  obtain ⟨j, m', -, hafter, ⟨-, hrun⟩ | ⟨_, _, hfail, hout, hrun⟩ | ⟨-, hrun⟩⟩ :=
    runFor_trace image n n .start
  · rw [run_start, hrun] at h
    cases h
  · rw [run_start, hrun] at h
    cases h
    exact .inr ⟨m', ⟨⟨j, hafter⟩, hfail⟩, hout⟩
  · rw [run_start, hrun] at h
    cases h
    exact .inl rfl

/-- A machine runs forever just in case no limit is enough. One fault cannot report two limits, so
a run that fails is none. -/
theorem diverges_iff_run :
    (system image).Diverges .start ↔
      ∀ n, ∃ m, run image n .start = .error (.stepLimitExceeded n) m := by
  refine ⟨run_of_diverges, fun h => ?_⟩
  rcases System.halts_or_fails_or_diverges (S := system image) .start with
    ⟨m, hm⟩ | ⟨m, fault, hm⟩ | hd
  · obtain ⟨k, hk⟩ := run_of_halts hm
    obtain ⟨m', hrun⟩ := h k
    rw [hk k (Nat.le_refl k)] at hrun
    cases hrun
  · obtain ⟨k, m', -, hk⟩ := run_of_fails hm
    obtain ⟨_, hrun⟩ := h k
    obtain ⟨_, hrun'⟩ := h (k + 1)
    rw [hk k (Nat.le_refl k)] at hrun
    rw [hk (k + 1) (Nat.le_succ k)] at hrun'
    cases hrun
    cases hrun'
  · exact hd

/-- What a machine prints is what runs leave printed. -/
theorem prints_iff_run {values : List Word} :
    (system image).Prints .start values ↔
      ∃ n, values <+: (left (run image n .start)).output.toList := by
  constructor
  · rintro ⟨m, ⟨n, hn⟩, hpre⟩
    have hrun : runFor image n (n + 0) .start = runFor image n 0 m := runFor_of_after hn
    have hleft : left (runFor image n 0 m) = m := by
      simp only [runFor]
      split <;> rfl
    rw [Nat.add_zero] at hrun
    refine ⟨n, ?_⟩
    rw [run_start, hrun, hleft]
    exact hpre
  · rintro ⟨n, hpre⟩
    obtain ⟨j, m, -, hafter, ⟨-, hrun⟩ | ⟨_, _, -, hout, hrun⟩ | ⟨-, hrun⟩⟩ :=
      runFor_trace image n n .start
    · rw [run_start, hrun] at hpre
      exact ⟨m, ⟨j, hafter⟩, hpre⟩
    · rw [run_start, hrun, left, hout] at hpre
      exact ⟨m, ⟨j, hafter⟩, hpre⟩
    · rw [run_start, hrun] at hpre
      exact ⟨m, ⟨j, hafter⟩, hpre⟩

end Machine

/-! ## What runs show -/

/-- Runs of an image do what a system does from one of its states, whose only error is `zero`: they
return a machine that is related to its last state, or divide by zero where it fails, or use up
every limit; and they print the same. -/
structure RunsLike {σ ε : Type} (S : System σ ε Word) (a : σ) (zero : ε) (image : Image)
    (Final : σ → Machine → Prop) : Prop where
  halts : ∀ a', S.Halts a a' →
    ∃ k m, (∀ n, k ≤ n → Machine.run image n .start = .ok () m) ∧
      m.output.toList = S.output a' ∧ Final a' m
  halts_back : ∀ n m, Machine.run image n .start = .ok () m →
    ∃ a', S.Halts a a' ∧ m.output.toList = S.output a' ∧ Final a' m
  fails : ∀ a' e, S.Fails a a' e → e = zero ∧
    ∃ k pc m, (∀ n, k ≤ n → Machine.run image n .start = .error (.divisionByZero pc) m) ∧
      m.output.toList = S.output a'
  fails_back : ∀ n fault m, Machine.run image n .start = .error fault m →
    fault = .stepLimitExceeded n ∨ (∃ pc, fault = .divisionByZero pc) ∧
      ∃ a', S.Fails a a' zero ∧ m.output.toList = S.output a'
  diverges : S.Diverges a ↔
    ∀ n, ∃ m, Machine.run image n .start = .error (.stepLimitExceeded n) m
  prints : ∀ values, S.Prints a values ↔
    ∃ n, values <+: (Machine.left (Machine.run image n .start)).output.toList

theorem RunsLike.of_alike {σ ε : Type} {S : System σ ε Word} {a : σ} {zero : ε} {image : Image}
    {Final : σ → Machine → Prop}
    (h : Alike S (Machine.system image) Final
      (fun e fault => e = zero ∧ ∃ pc, fault = .divisionByZero pc) a .start) :
    RunsLike S a zero image Final where
  halts a' ha := by
    obtain ⟨m, hm, hout, hfinal⟩ := h.halts a' ha
    obtain ⟨k, hk⟩ := Machine.run_of_halts hm
    exact ⟨k, m, hk, hout.symm, hfinal⟩
  halts_back n m hrun := by
    obtain ⟨a', ha, hout, hfinal⟩ := h.halts_back m (Machine.halts_of_run hrun)
    exact ⟨a', ha, hout.symm, hfinal⟩
  fails a' e ha := by
    obtain ⟨m, fault, hm, hout, rfl, pc, rfl⟩ := h.fails a' e ha
    obtain ⟨k, m', hm', hk⟩ := Machine.run_of_fails hm
    refine ⟨rfl, k, pc, m', hk, ?_⟩
    rw [hm']
    exact hout.symm
  fails_back n fault m hrun := by
    refine (Machine.fails_of_run hrun).imp_right ?_
    rintro ⟨m', hm', hm⟩
    obtain ⟨a', e, ha, hout, rfl, hpc⟩ := h.fails_back m' fault hm'
    refine ⟨hpc, a', ha, ?_⟩
    rw [hm]
    exact hout.symm
  diverges := h.diverges.trans Machine.diverges_iff_run
  prints values := (h.prints values).trans Machine.prints_iff_run

end SixReg
