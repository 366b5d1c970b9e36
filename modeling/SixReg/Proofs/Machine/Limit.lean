import SixReg.Proofs.Machine.Progress

/-!
# What a limit on the steps does

A run with a limit follows the machine for that many steps and no further. It reports the limit
just in case there is an instruction left to do after them (`run_eq_stepLimit`), and it looks at the
limit before it does anything, so the machine that it leaves then is the one that was reached.
Hence:

* a limit cuts a run off and changes nothing else about it: a program halts, or has a fault of its
  own, or goes on forever, and the limit only says whether a run gets to see that;
* a run that was cut off can be taken up again with a larger limit (`run_resume`).
-/

namespace SixReg

namespace Machine

variable {image : Image} {m : Machine} {fault : Fault} {limit k n n' : Nat}

/-- A run is cut off where its steps are used up and the program is not. -/
theorem run_eq_stepLimit :
    run image n .start = .error (.stepLimitExceeded limit) m ↔
      limit = n ∧ (system image).after n .start = some m ∧ m.pc < stopOf image := by
  have hlast : ∀ m, (system image).after n .start = some m →
      run image n .start = runFor image n 0 m := by
    intro m hm
    show runFor image n (n + 0) .start = _
    exact runFor_of_after hm
  constructor
  · intro h
    obtain ⟨j, m', -, hafter, hend⟩ := runFor_trace image n n .start
    rw [← run_start, h] at hend
    rcases hend with ⟨-, hok⟩ | ⟨fault, m'', hfail, -, herror⟩ | ⟨rfl, herror⟩
    · cases hok
    · cases herror
      exact absurd rfl (ne_stepLimit_of_fail hfail limit)
    · cases herror
      refine ⟨rfl, hafter, ?_⟩
      rw [hlast m hafter] at h
      by_cases hpc : m.pc < stopOf image
      · exact hpc
      · simp [runFor, hpc] at h
  · rintro ⟨rfl, hafter, hpc⟩
    rw [hlast m hafter]
    simp [runFor, hpc]

/-- **A run that was cut off can be taken up again.** -/
theorem run_resume (h : run image n .start = .error (.stepLimitExceeded limit) m) (hn : n ≤ n') :
    run image n' m = run image n' .start := by
  obtain ⟨-, hafter, -⟩ := run_eq_stepLimit.mp h
  have hsteps : m.steps = n := by rw [steps_of_after hafter, start, Nat.zero_add]
  obtain ⟨b, rfl⟩ := Nat.exists_eq_add_of_le hn
  rw [run_start, runFor_of_after hafter, run, hsteps, Nat.add_sub_cancel_left]

end Machine

namespace Image

variable {image : Image} {m : Machine} {fault : Fault} {k n : Nat}

/-- Runs return the machine as soon as the limit allows for its steps. -/
structure HaltsAfter (image : Image) (k : Nat) (m : Machine) : Prop where
  steps : m.steps = k
  enough : ∀ n, k ≤ n → image.run n = .ok m
  short : ∀ n, n < k → image.run n = .error (.stepLimitExceeded n)

/-- Runs report the fault as soon as the limit allows for one step more than those that go well. -/
structure FaultsAfter (image : Image) (k : Nat) (fault : Fault) : Prop where
  ne_limit : ∀ limit, fault ≠ .stepLimitExceeded limit
  enough : ∀ n, k < n → image.run n = .error fault
  short : ∀ n, n ≤ k → image.run n = .error (.stepLimitExceeded n)

/-- Runs never have enough. -/
def RunsForever (image : Image) : Prop :=
  ∀ n, image.run n = .error (.stepLimitExceeded n)

theorem run_of_ok (h : Machine.run image n .start = .ok () m) : image.run n = .ok m := by
  rw [Image.run, h]

theorem run_of_error (h : Machine.run image n .start = .error fault m) :
    image.run n = .error fault := by
  rw [Image.run, h]

/-- A limit is reported as long as there are steps to do. -/
theorem run_short (h : (Machine.system image).after k .start = some m) (hn : n < k) :
    image.run n = .error (.stepLimitExceeded n) := by
  obtain ⟨m', hm', hrest⟩ := System.exists_after_of_le h (Nat.le_of_lt hn)
  obtain ⟨j, hj⟩ : ∃ j, k - n = j + 1 := ⟨k - n - 1, by omega⟩
  rw [hj] at hrest
  obtain ⟨_, hstep, -⟩ := System.after_succ_eq_some.mp hrest
  exact run_of_error (Machine.run_eq_stepLimit.mpr ⟨rfl, hm', (Machine.move_eq_next.mp hstep).1⟩)

theorem haltsAfter_of_stop (h : (Machine.system image).after k .start = some m)
    (hstop : Machine.move image m = .stop) : image.HaltsAfter k m where
  steps := by rw [Machine.steps_of_after h, Machine.start, Nat.zero_add]
  enough n hn := by
    obtain ⟨b, rfl⟩ := Nat.exists_eq_add_of_le hn
    apply run_of_ok
    rw [Machine.run_start, Machine.runFor_of_after h, Machine.runFor_of_stop hstop]
  short n hn := run_short h hn

theorem faultsAfter_of_fail (h : (Machine.system image).after k .start = some m)
    (hfail : Machine.move image m = .fail fault) : image.FaultsAfter k fault where
  ne_limit := Machine.ne_stepLimit_of_fail hfail
  enough n hn := by
    obtain ⟨b, rfl⟩ := Nat.exists_eq_add_of_lt hn
    obtain ⟨m', -, hrun⟩ := Machine.runFor_of_fail hfail
    apply run_of_error (m := m')
    rw [Machine.run_start, Nat.add_assoc, Machine.runFor_of_after h, hrun]
  short n hn := by
    rcases Nat.lt_or_eq_of_le hn with hlt | rfl
    · exact run_short h hlt
    · exact run_of_error (Machine.run_eq_stepLimit.mpr ⟨rfl, h, (Machine.move_eq_fail.mp hfail).1⟩)

theorem HaltsAfter.not_faultsAfter {k' : Nat} (h : image.HaltsAfter k m) :
    ¬ image.FaultsAfter k' fault := by
  intro h'
  have hrun := h.enough (k + (k' + 1)) (Nat.le_add_right _ _)
  rw [h'.enough _ (by omega)] at hrun
  cases hrun

theorem HaltsAfter.not_runsForever (h : image.HaltsAfter k m) : ¬ image.RunsForever := by
  intro hforever
  have hrun := h.enough k (Nat.le_refl k)
  rw [hforever k] at hrun
  cases hrun

theorem FaultsAfter.not_runsForever (h : image.FaultsAfter k fault) : ¬ image.RunsForever := by
  intro hforever
  have hrun := h.enough (k + 1) (Nat.lt_succ_self k)
  rw [hforever (k + 1)] at hrun
  exact h.ne_limit _ (Except.error.inj hrun).symm

/-- **A limit only cuts runs off.** Whatever the words of a program are, just one of three things
is true of its runs from rest: they return a machine from the limit on that is its number of steps;
or they report one fault, which is not the limit, from the first limit on that lets them get to it;
or they report every limit. Below these limits they report the limit. And a run that was cut off,
taken up again with a limit that is not smaller, does what a run from rest does with that limit. -/
theorem limit_only_truncates (image : Image) :
    ((∃ k m, image.HaltsAfter k m) ∨ (∃ k fault, image.FaultsAfter k fault) ∨
      image.RunsForever) ∧
    ¬ ((∃ k m, image.HaltsAfter k m) ∧ ∃ k fault, image.FaultsAfter k fault) ∧
    ¬ ((∃ k m, image.HaltsAfter k m) ∧ image.RunsForever) ∧
    ¬ ((∃ k fault, image.FaultsAfter k fault) ∧ image.RunsForever) ∧
    ∀ n n' limit m, n ≤ n' →
      Machine.run image n .start = .error (.stepLimitExceeded limit) m →
      Machine.run image n' m = Machine.run image n' .start := by
  refine ⟨?_, ?_, ?_, ?_, fun n n' limit m hn h => Machine.run_resume h hn⟩
  · rcases System.halts_or_fails_or_diverges (S := Machine.system image) .start with
      ⟨m, ⟨k, hk⟩, hstop⟩ | ⟨m, fault, ⟨k, hk⟩, hfail⟩ | hdiverges
    · exact .inl ⟨k, m, haltsAfter_of_stop hk hstop⟩
    · exact .inr (.inl ⟨k, fault, faultsAfter_of_fail hk hfail⟩)
    · refine .inr (.inr fun n => ?_)
      obtain ⟨m, hrun⟩ := Machine.run_of_diverges hdiverges n
      exact run_of_error hrun
  · rintro ⟨⟨k, m, hhalts⟩, k', fault, hfaults⟩
    exact hhalts.not_faultsAfter hfaults
  · rintro ⟨⟨k, m, hhalts⟩, hforever⟩
    exact hhalts.not_runsForever hforever
  · rintro ⟨⟨k, fault, hfaults⟩, hforever⟩
    exact hfaults.not_runsForever hforever

/-- A call of a subroutine that is cut off inside of it, and then comes back. -/
theorem limit_only_truncates_subroutine :
    -- `call @4`, `jump @8`, `movi R5,R0,#3`, `ret`
    let image : Image := #[⟨0x8000, 4⟩, ⟨0xbe00, 8⟩, ⟨0x3a05, 3⟩, ⟨0x8200, 0⟩]
    ∃ m m', Machine.run image 2 .start = .error (.stepLimitExceeded 2) m ∧ m.pc = 6 ∧
      Machine.run image 4 m = .ok () m' ∧ m'.pc = 8 ∧ ¬ image.RunsForever := by
  intro image
  have hcut : ((Machine.system image).after 2 .start).map Machine.pc = some 6 := by decide +kernel
  have hend : ((Machine.system image).after 4 .start).map Machine.pc = some 8 := by decide +kernel
  obtain ⟨m, hm, hpc⟩ := Option.map_eq_some_iff.mp hcut
  obtain ⟨m', hm', hpc'⟩ := Option.map_eq_some_iff.mp hend
  obtain ⟨-, -, hnot, -, hresume⟩ := limit_only_truncates image
  have hrun : Machine.run image 2 .start = .error (.stepLimitExceeded 2) m := by
    apply Machine.run_eq_stepLimit.mpr
    rw [hpc]
    exact ⟨rfl, hm, by decide⟩
  have hstop : Machine.move image m' = .stop := by
    apply Machine.move_eq_stop.mpr
    rw [hpc']
    decide
  have hrun' : Machine.run image 4 .start = .ok () m' := by
    show Machine.runFor image 4 (4 + 0) .start = _
    rw [Machine.runFor_of_after hm', Machine.runFor_of_stop hstop]
  refine ⟨m, m', hrun, hpc, (hresume 2 4 2 m (by decide) hrun).trans hrun', hpc', ?_⟩
  intro hforever
  exact hnot ⟨⟨4, m', haltsAfter_of_stop hm' hstop⟩, hforever⟩

end Image

end SixReg
