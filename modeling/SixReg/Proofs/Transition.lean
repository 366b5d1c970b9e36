/-!
# Transition systems and simulations

A program is a step function, whichever way it is written: as a tree, as three-address code or as
words of the machine. This file says what such a program does as a whole, and when two of them do
the same.

* a run **halts**, **fails** or **diverges** (`halts_or_fails_or_diverges`), and steps being a
  function, only one of the three;
* what a run prints is the set of finite prefixes of its output (`Prints`), which makes sense of a
  run without end too;
* a `Simulation` matches every step of one system by steps of the other, where a step may be matched
  by none as long as a rank goes down. Both systems then behave `Alike` (`Simulation.alike`), in
  both directions: the converses come from determinism and not from a second simulation.
-/

namespace SixReg

/-- What a step of a system does. -/
inductive Move (σ ε : Type) where
  | stop
  | next (state : σ)
  | fail (error : ε)

/-- The step to the state that a computation yields, if it yields one. -/
def Move.ofExcept {σ ε : Type} : Except ε σ → Move σ ε
  | .ok s => .next s
  | .error e => .fail e

section Move

variable {σ ε : Type} {x : Except ε σ}

@[simp]
theorem Move.ofExcept_eq_next {s : σ} : Move.ofExcept x = .next s ↔ x = .ok s := by
  cases x <;> simp [Move.ofExcept]

@[simp]
theorem Move.ofExcept_eq_fail {e : ε} : Move.ofExcept x = .fail e ↔ x = .error e := by
  cases x <;> simp [Move.ofExcept]

@[simp]
theorem Move.ofExcept_ne_stop : Move.ofExcept x ≠ .stop := by
  cases x <;> simp [Move.ofExcept]

end Move

/-- A system of states with a step function, whose output only ever grows. -/
structure System (σ ε α : Type) where
  step : σ → Move σ ε
  output : σ → List α
  output_step : ∀ {s t : σ}, step s = .next t → output s <+: output t

namespace System

variable {σ ε α : Type} (S : System σ ε α)

/-! ## Runs -/

/-- The state after exactly `n` steps. -/
def after : Nat → σ → Option σ
  | 0, s => some s
  | n + 1, s =>
    match S.step s with
    | .next t => after n t
    | .stop | .fail _ => none

/-- Some number of steps leads from one state to the other. -/
def Reaches (s t : σ) : Prop := ∃ n, S.after n s = some t

/-- At least one step leads from one state to the other. -/
def Progresses (s t : σ) : Prop := ∃ n, S.after (n + 1) s = some t

/-- The run ends in the given state. -/
def Halts (s t : σ) : Prop := S.Reaches s t ∧ S.step t = .stop

/-- The run gets to the given state, where the next step fails. -/
def Fails (s t : σ) (e : ε) : Prop := S.Reaches s t ∧ S.step t = .fail e

/-- The run has no end. -/
def Diverges (s : σ) : Prop := ∀ n, ∃ t, S.after n s = some t

/-- The output of the run starts with the given values. -/
def Prints (s : σ) (values : List α) : Prop := ∃ t, S.Reaches s t ∧ values <+: S.output t

variable {S}

theorem after_succ_of_next {s t : σ} (h : S.step s = .next t) (n : Nat) :
    S.after (n + 1) s = S.after n t := by
  simp [after, h]

theorem after_succ_eq_some {n : Nat} {s u : σ} :
    S.after (n + 1) s = some u ↔ ∃ t, S.step s = .next t ∧ S.after n t = some u := by
  cases h : S.step s <;> simp [after, h]

theorem after_add {m n : Nat} {s t : σ} (h : S.after m s = some t) :
    S.after (m + n) s = S.after n t := by
  induction m generalizing s with
  | zero =>
      cases h
      rw [Nat.zero_add]
  | succ m ih =>
      obtain ⟨s', hs, ht⟩ := after_succ_eq_some.mp h
      rw [Nat.succ_add, after_succ_of_next hs, ih ht]

theorem after_add_none {m : Nat} {s : σ} (h : S.after m s = none) (n : Nat) :
    S.after (m + n) s = none := by
  induction m generalizing s with
  | zero => cases h
  | succ m ih =>
      rw [Nat.succ_add]
      cases hs : S.step s with
      | next t =>
          rw [after_succ_of_next hs] at h ⊢
          exact ih h
      | stop => simp [after, hs]
      | fail e => simp [after, hs]

/-- A run goes through the end of every shorter one. -/
theorem after_sub {m n : Nat} {s t u : σ} (h : S.after m s = some t) (h' : S.after n s = some u)
    (hmn : m ≤ n) : S.after (n - m) t = some u := by
  rw [← after_add h, Nat.add_sub_cancel' hmn]
  exact h'

/-- A run goes through a state for every number of steps that it has. -/
theorem exists_after_of_le {m n : Nat} {s u : σ} (h : S.after n s = some u) (hmn : m ≤ n) :
    ∃ t, S.after m s = some t ∧ S.after (n - m) t = some u := by
  cases hm : S.after m s with
  | some t => exact ⟨t, rfl, after_sub hm h hmn⟩
  | none =>
      have hnone := after_add_none hm (n - m)
      rw [Nat.add_sub_cancel' hmn, h] at hnone
      cases hnone

theorem Reaches.refl (s : σ) : S.Reaches s s := ⟨0, rfl⟩

theorem Reaches.trans {s t u : σ} : S.Reaches s t → S.Reaches t u → S.Reaches s u := by
  rintro ⟨m, hm⟩ ⟨n, hn⟩
  exact ⟨m + n, by rw [after_add hm, hn]⟩

theorem Reaches.of_next {s t : σ} (h : S.step s = .next t) : S.Reaches s t :=
  ⟨1, by rw [after_succ_of_next h]; rfl⟩

theorem Reaches.head {s t u : σ} (h : S.step s = .next t) (h' : S.Reaches t u) : S.Reaches s u :=
  (Reaches.of_next h).trans h'

theorem Reaches.progresses {s t u : σ} (h : S.Reaches s t) (ht : S.step t = .next u) :
    S.Progresses s u := by
  obtain ⟨n, hn⟩ := h
  refine ⟨n, ?_⟩
  rw [after_add hn, after_succ_of_next ht]
  rfl

theorem Progresses.of_reaches {s t u : σ} (h : S.Reaches s t) (h' : S.Progresses t u) :
    S.Progresses s u := by
  obtain ⟨m, hm⟩ := h
  obtain ⟨n, hn⟩ := h'
  exact ⟨m + n, by rw [Nat.add_assoc, after_add hm, hn]⟩

theorem Halts.of_reaches {s t u : σ} (h : S.Reaches s t) (h' : S.Halts t u) : S.Halts s u :=
  ⟨h.trans h'.1, h'.2⟩

theorem Fails.of_reaches {s t u : σ} {e : ε} (h : S.Reaches s t) (h' : S.Fails t u e) :
    S.Fails s u e :=
  ⟨h.trans h'.1, h'.2⟩

/-- What every step keeps holds of all that is reached. -/
theorem Reaches.invariant {Inv : σ → Prop} (hstep : ∀ {s t}, Inv s → S.step s = .next t → Inv t)
    {s t : σ} (hs : Inv s) (h : S.Reaches s t) : Inv t := by
  obtain ⟨n, hn⟩ := h
  induction n generalizing s with
  | zero =>
      cases hn
      exact hs
  | succ n ih =>
      obtain ⟨s', hs', ht⟩ := after_succ_eq_some.mp hn
      exact ih (hstep hs hs') ht

/-- Output is never taken back. -/
theorem output_prefix_of_reaches {s t : σ} (h : S.Reaches s t) : S.output s <+: S.output t := by
  obtain ⟨n, hn⟩ := h
  induction n generalizing s with
  | zero => cases hn; exact List.prefix_rfl
  | succ n ih =>
      obtain ⟨s', hs, ht⟩ := after_succ_eq_some.mp hn
      exact (S.output_step hs).trans (ih ht)

/-! ## The three ways of a run -/

theorem after_succ_of_stuck {s : σ} (h : ∀ t, S.step s ≠ .next t) (n : Nat) :
    S.after (n + 1) s = none := by
  cases hs : S.step s with
  | next t => exact absurd hs (h t)
  | stop => simp [after, hs]
  | fail e => simp [after, hs]

/-- A run goes through all that is reached on the way to its end. -/
theorem Reaches.to_last {s t u : σ} (ht : S.Reaches s t) (hu : S.Reaches s u)
    (h : ∀ v, S.step u ≠ .next v) : S.Reaches t u := by
  obtain ⟨m, hm⟩ := ht
  obtain ⟨n, hn⟩ := hu
  rcases Nat.lt_or_ge n m with hlt | hle
  · have hnone := after_succ_of_stuck h (m - n - 1)
    rw [Nat.sub_add_cancel (by omega), after_sub hn hm (Nat.le_of_lt hlt)] at hnone
    cases hnone
  · exact ⟨n - m, after_sub hm hn hle⟩

/-- The end of a run is the only one. -/
theorem Reaches.last_unique {s t u : σ} (ht : S.Reaches s t) (hu : S.Reaches s u)
    (ht' : ∀ v, S.step t ≠ .next v) (hu' : ∀ v, S.step u ≠ .next v) : t = u := by
  obtain ⟨n, hn⟩ := ht.to_last hu hu'
  cases n with
  | zero => exact Option.some.inj hn
  | succ n =>
      rw [after_succ_of_stuck ht'] at hn
      cases hn

theorem Halts.stuck {s t : σ} (h : S.Halts s t) (u : σ) : S.step t ≠ .next u := by
  simp [h.2]

theorem Fails.stuck {s t : σ} {e : ε} (h : S.Fails s t e) (u : σ) : S.step t ≠ .next u := by
  simp [h.2]

theorem Halts.not_fails {s t u : σ} {e : ε} (h : S.Halts s t) (h' : S.Fails s u e) : False := by
  have htu := h.1.last_unique h'.1 h.stuck h'.stuck
  have hstep := h'.2
  rw [← htu, h.2] at hstep
  cases hstep

theorem Diverges.next {s t : σ} (h : S.Diverges s) (hs : S.step s = .next t) : S.Diverges t := by
  intro n
  obtain ⟨u, hu⟩ := h (n + 1)
  exact ⟨u, by rwa [after_succ_of_next hs] at hu⟩

theorem Diverges.not_stuck {s t : σ} (hd : S.Diverges s) (ht : S.Reaches s t)
    (h : ∀ v, S.step t ≠ .next v) : False := by
  obtain ⟨n, hn⟩ := ht
  obtain ⟨u, hu⟩ := hd (n + 1)
  rw [after_add hn, after_succ_of_stuck h] at hu
  cases hu

/-- **There is no fourth way**: the shortest number of steps that cannot be taken is one more than
the number that leads to a last state. -/
theorem halts_or_fails_or_diverges (s : σ) :
    (∃ t, S.Halts s t) ∨ (∃ t e, S.Fails s t e) ∨ S.Diverges s := by
  by_cases hd : S.Diverges s
  · exact .inr (.inr hd)
  · obtain ⟨n, hn⟩ := Classical.not_forall.mp hd
    induction n with
    | zero => exact absurd ⟨s, rfl⟩ hn
    | succ n ih =>
        by_cases h : ∃ t, S.after n s = some t
        · obtain ⟨t, ht⟩ := h
          cases hs : S.step t with
          | stop => exact .inl ⟨t, ⟨n, ht⟩, hs⟩
          | fail e => exact .inr (.inl ⟨t, e, ⟨n, ht⟩, hs⟩)
          | next u =>
              refine absurd ⟨u, ?_⟩ hn
              rw [after_add ht, after_succ_of_next hs]
              rfl
        · exact ih h

end System

/-! ## Simulations

`S` is the system that is followed and `T` the one that follows. Nothing asks for steps of `T` to
be matched by steps of `S`: since `T` is deterministic, all that it does is what `S` makes it do. -/

section Simulation

variable {σ τ ε δ α : Type}

/-- Two systems, one from `a` and the other from `b`, halt together in states related by `Final`,
fail together with errors related by `Error`, diverge together, and print the same. -/
structure Alike (S : System σ ε α) (T : System τ δ α) (Final : σ → τ → Prop)
    (Error : ε → δ → Prop) (a : σ) (b : τ) : Prop where
  halts : ∀ a', S.Halts a a' → ∃ b', T.Halts b b' ∧ S.output a' = T.output b' ∧ Final a' b'
  halts_back : ∀ b', T.Halts b b' → ∃ a', S.Halts a a' ∧ S.output a' = T.output b' ∧ Final a' b'
  fails : ∀ a' e, S.Fails a a' e →
    ∃ b' d, T.Fails b b' d ∧ S.output a' = T.output b' ∧ Error e d
  fails_back : ∀ b' d, T.Fails b b' d →
    ∃ a' e, S.Fails a a' e ∧ S.output a' = T.output b' ∧ Error e d
  diverges : S.Diverges a ↔ T.Diverges b
  prints : ∀ values, S.Prints a values ↔ T.Prints b values

/-- Every step of `S` is matched by steps of `T`, and by at least one unless the rank goes down. -/
structure Simulation (S : System σ ε α) (T : System τ δ α) (Match : σ → τ → Prop)
    (Error : ε → δ → Prop) (rank : σ → Nat) : Prop where
  output : ∀ {a b}, Match a b → S.output a = T.output b
  next : ∀ {a a' b}, Match a b → S.step a = .next a' →
    ∃ n b', T.after n b = some b' ∧ Match a' b' ∧ (n = 0 → rank a' < rank a)
  stop : ∀ {a b}, Match a b → S.step a = .stop →
    ∃ b', T.Halts b b' ∧ Match a b'
  fail : ∀ {a b e}, Match a b → S.step a = .fail e →
    ∃ b' d, T.Fails b b' d ∧ S.output a = T.output b' ∧ Error e d

namespace Simulation

variable {S : System σ ε α} {T : System τ δ α} {Match : σ → τ → Prop} {Error : ε → δ → Prop}
  {rank : σ → Nat} (sim : Simulation S T Match Error rank)

include sim

theorem reaches {a a' : σ} {b : τ} (hm : Match a b) (h : S.Reaches a a') :
    ∃ b', T.Reaches b b' ∧ Match a' b' := by
  obtain ⟨n, hn⟩ := h
  induction n generalizing a b with
  | zero =>
      cases hn
      exact ⟨b, .refl b, hm⟩
  | succ n ih =>
      obtain ⟨a₁, ha, hn⟩ := System.after_succ_eq_some.mp hn
      obtain ⟨k, b₁, hb, hm₁, -⟩ := sim.next hm ha
      obtain ⟨b', hr, hm'⟩ := ih hm₁ hn
      exact ⟨b', .trans ⟨k, hb⟩ hr, hm'⟩

theorem halts {a a' : σ} {b : τ} (hm : Match a b) (h : S.Halts a a') :
    ∃ b', T.Halts b b' ∧ Match a' b' := by
  obtain ⟨b₁, hr, hm₁⟩ := sim.reaches hm h.1
  obtain ⟨b', hb, hm'⟩ := sim.stop hm₁ h.2
  exact ⟨b', .of_reaches hr hb, hm'⟩

theorem fails {a a' : σ} {b : τ} {e : ε} (hm : Match a b) (h : S.Fails a a' e) :
    ∃ b' d, T.Fails b b' d ∧ S.output a' = T.output b' ∧ Error e d := by
  obtain ⟨b₁, hr, hm₁⟩ := sim.reaches hm h.1
  obtain ⟨b', d, hb, ho, he⟩ := sim.fail hm₁ h.2
  exact ⟨b', d, .of_reaches hr hb, ho, he⟩

/-- A run without end is matched by at least one step: the rank of the first system allows only
so many steps that are matched by none. -/
theorem progress {a : σ} {b : τ} (hm : Match a b) (hd : S.Diverges a) :
    ∃ n a' b', S.Diverges a' ∧ S.Reaches a a' ∧ T.after (n + 1) b = some b' ∧ Match a' b' := by
  induction hr : rank a using Nat.strongRecOn generalizing a b with
  | _ r ih =>
    obtain ⟨t, ht⟩ := hd 1
    obtain ⟨a₁, ha, -⟩ := System.after_succ_eq_some.mp ht
    have hd₁ := hd.next ha
    obtain ⟨k, b₁, hb, hm₁, hrank⟩ := sim.next hm ha
    cases k with
    | succ k => exact ⟨k, a₁, b₁, hd₁, .of_next ha, hb, hm₁⟩
    | zero =>
        cases hb
        obtain ⟨n, a', b', hd', har, hb', hm'⟩ := ih _ (hr ▸ hrank rfl) hm₁ hd₁ rfl
        exact ⟨n, a', b', hd', har.head ha, hb', hm'⟩

/-- A run without end is matched by as many steps as one likes. -/
theorem progress_many {a : σ} {b : τ} (hm : Match a b) (hd : S.Diverges a) (n : Nat) :
    ∃ k a' b', n ≤ k ∧ S.Reaches a a' ∧ T.after k b = some b' ∧ Match a' b' := by
  induction n generalizing a b with
  | zero => exact ⟨0, a, b, Nat.le_refl 0, .refl a, rfl, hm⟩
  | succ n ih =>
      obtain ⟨j, a₁, b₁, hd₁, hr₁, hb₁, hm₁⟩ := sim.progress hm hd
      obtain ⟨k, a', b', hk, hr, hb, hm'⟩ := ih hm₁ hd₁
      refine ⟨j + 1 + k, a', b', by omega, hr₁.trans hr, ?_, hm'⟩
      rw [System.after_add hb₁, hb]

theorem diverges {a : σ} {b : τ} (hm : Match a b) (hd : S.Diverges a) : T.Diverges b := by
  intro n
  obtain ⟨k, -, b', hk, -, hb, -⟩ := sim.progress_many hm hd n
  obtain ⟨t, ht, -⟩ := System.exists_after_of_le hb hk
  exact ⟨t, ht⟩

/-! ### The converses

Each way of the second system is a way of the first one: whatever else the first one did, the second
one would do that too. -/

theorem halts_back {a : σ} {b b' : τ} (hm : Match a b) (h : T.Halts b b') :
    ∃ a', S.Halts a a' ∧ Match a' b' := by
  rcases System.halts_or_fails_or_diverges (S := S) a with ⟨a', ha⟩ | ⟨a', e, ha⟩ | hd
  · obtain ⟨b₁, hb, hm'⟩ := sim.halts hm ha
    obtain rfl := hb.1.last_unique h.1 hb.stuck h.stuck
    exact ⟨a', ha, hm'⟩
  · obtain ⟨b₁, d, hb, -⟩ := sim.fails hm ha
    exact (h.not_fails hb).elim
  · exact ((sim.diverges hm hd).not_stuck h.1 h.stuck).elim

theorem fails_back {a : σ} {b b' : τ} {d : δ} (hm : Match a b) (h : T.Fails b b' d) :
    ∃ a' e, S.Fails a a' e ∧ S.output a' = T.output b' ∧ Error e d := by
  rcases System.halts_or_fails_or_diverges (S := S) a with ⟨a', ha⟩ | ⟨a', e, ha⟩ | hd
  · obtain ⟨b₁, hb, -⟩ := sim.halts hm ha
    exact (hb.not_fails h).elim
  · obtain ⟨b₁, d₁, hb, ho, he⟩ := sim.fails hm ha
    obtain rfl := hb.1.last_unique h.1 hb.stuck h.stuck
    obtain rfl : d₁ = d := Move.fail.inj (hb.2.symm.trans h.2)
    exact ⟨a', e, ha, ho, he⟩
  · exact ((sim.diverges hm hd).not_stuck h.1 h.stuck).elim

theorem diverges_back {a : σ} {b : τ} (hm : Match a b) (h : T.Diverges b) : S.Diverges a := by
  rcases System.halts_or_fails_or_diverges (S := S) a with ⟨a', ha⟩ | ⟨a', e, ha⟩ | hd
  · obtain ⟨b₁, hb, -⟩ := sim.halts hm ha
    exact (h.not_stuck hb.1 hb.stuck).elim
  · obtain ⟨b₁, d, hb, -⟩ := sim.fails hm ha
    exact (h.not_stuck hb.1 hb.stuck).elim
  · exact hd

/-- Whatever the second system has printed, the first one will have printed at some point: the
second one has then come further. -/
theorem prints_back {a : σ} {b : τ} {values : List α} (hm : Match a b)
    (h : T.Prints b values) : S.Prints a values := by
  obtain ⟨t, ht, hpre⟩ := h
  rcases System.halts_or_fails_or_diverges (S := S) a with ⟨a', ha⟩ | ⟨a', e, ha⟩ | hd
  · obtain ⟨b', hb, hm'⟩ := sim.halts hm ha
    refine ⟨a', ha.1, hpre.trans ?_⟩
    rw [sim.output hm']
    exact System.output_prefix_of_reaches (ht.to_last hb.1 hb.stuck)
  · obtain ⟨b', d, hb, ho, -⟩ := sim.fails hm ha
    refine ⟨a', ha.1, hpre.trans ?_⟩
    rw [ho]
    exact System.output_prefix_of_reaches (ht.to_last hb.1 hb.stuck)
  · obtain ⟨n, hn⟩ := ht
    obtain ⟨k, a', b', hk, hr, hb, hm'⟩ := sim.progress_many hm hd n
    refine ⟨a', hr, hpre.trans ?_⟩
    rw [sim.output hm']
    exact System.output_prefix_of_reaches ⟨k - n, System.after_sub hn hb hk⟩

/-- **A simulation makes two systems behave alike.** -/
theorem alike {a : σ} {b : τ} (hm : Match a b) : Alike S T Match Error a b where
  halts a' ha := by
    obtain ⟨b', hb, hm'⟩ := sim.halts hm ha
    exact ⟨b', hb, sim.output hm', hm'⟩
  halts_back b' hb := by
    obtain ⟨a', ha, hm'⟩ := sim.halts_back hm hb
    exact ⟨a', ha, sim.output hm', hm'⟩
  fails a' e ha := sim.fails hm ha
  fails_back b' d hb := sim.fails_back hm hb
  diverges := ⟨sim.diverges hm, sim.diverges_back hm⟩
  prints values := by
    refine ⟨?_, sim.prints_back hm⟩
    rintro ⟨a', ha, hpre⟩
    obtain ⟨b', hb, hm'⟩ := sim.reaches hm ha
    exact ⟨b', hb, sim.output hm' ▸ hpre⟩

end Simulation

/-- What the final states are related by may be weakened. -/
theorem Alike.imp {S : System σ ε α} {T : System τ δ α} {Final Final' : σ → τ → Prop}
    {Error Error' : ε → δ → Prop} {a : σ} {b : τ} (h : Alike S T Final Error a b)
    (hf : ∀ {a' b'}, Final a' b' → Final' a' b') (he : ∀ {e d}, Error e d → Error' e d) :
    Alike S T Final' Error' a b where
  halts a' ha := by
    obtain ⟨b', hb, ho, hf'⟩ := h.halts a' ha
    exact ⟨b', hb, ho, hf hf'⟩
  halts_back b' hb := by
    obtain ⟨a', ha, ho, hf'⟩ := h.halts_back b' hb
    exact ⟨a', ha, ho, hf hf'⟩
  fails a' e ha := by
    obtain ⟨b', d, hb, ho, he'⟩ := h.fails a' e ha
    exact ⟨b', d, hb, ho, he he'⟩
  fails_back b' d hb := by
    obtain ⟨a', e, ha, ho, he'⟩ := h.fails_back b' d hb
    exact ⟨a', e, ha, ho, he he'⟩
  diverges := h.diverges
  prints := h.prints

/-- Likeness goes through a system in between. -/
theorem Alike.trans {υ γ : Type} {S : System σ ε α} {T : System τ δ α} {U : System υ γ α}
    {Final : σ → τ → Prop} {Final' : τ → υ → Prop} {Error : ε → δ → Prop} {Error' : δ → γ → Prop}
    {a : σ} {b : τ} {c : υ} (h : Alike S T Final Error a b) (h' : Alike T U Final' Error' b c) :
    Alike S U (fun x z => ∃ y, Final x y ∧ Final' y z) (fun x z => ∃ y, Error x y ∧ Error' y z)
      a c where
  halts a' ha := by
    obtain ⟨b', hb, ho, hf⟩ := h.halts a' ha
    obtain ⟨c', hc, ho', hf'⟩ := h'.halts b' hb
    exact ⟨c', hc, ho.trans ho', b', hf, hf'⟩
  halts_back c' hc := by
    obtain ⟨b', hb, ho', hf'⟩ := h'.halts_back c' hc
    obtain ⟨a', ha, ho, hf⟩ := h.halts_back b' hb
    exact ⟨a', ha, ho.trans ho', b', hf, hf'⟩
  fails a' e ha := by
    obtain ⟨b', d, hb, ho, he⟩ := h.fails a' e ha
    obtain ⟨c', g, hc, ho', he'⟩ := h'.fails b' d hb
    exact ⟨c', g, hc, ho.trans ho', d, he, he'⟩
  fails_back c' g hc := by
    obtain ⟨b', d, hb, ho', he'⟩ := h'.fails_back c' g hc
    obtain ⟨a', e, ha, ho, he⟩ := h.fails_back b' d hb
    exact ⟨a', e, ha, ho.trans ho', d, he, he'⟩
  diverges := h.diverges.trans h'.diverges
  prints values := (h.prints values).trans (h'.prints values)

end Simulation

end SixReg
