/-!
# Computations that succeed

The passes of the compiler are written in `Except` and in `EStateM`. Such a computation succeeds
just in case all of its parts do, one after the other; the lemmas here take it apart, so that no
proof about a pass has to open the monad that the pass is written in.
-/

namespace SixReg

section Except

variable {ε δ α β : Type}

@[simp]
theorem Except.pure_eq_ok {a b : α} : (pure a : Except ε α) = .ok b ↔ a = b := by
  simp [pure, Except.pure]

@[simp]
theorem Except.bind_eq_ok {x : Except ε α} {f : α → Except ε β} {b : β} :
    (x >>= f) = .ok b ↔ ∃ a, x = .ok a ∧ f a = .ok b := by
  cases x <;> simp [bind, Except.bind]

theorem Except.pure_ne_error {a : α} {e : ε} : (pure a : Except ε α) ≠ .error e :=
  nofun

theorem Except.bind_eq_error {x : Except ε α} {f : α → Except ε β} {e : ε} :
    (x >>= f) = .error e ↔ x = .error e ∨ ∃ a, x = .ok a ∧ f a = .error e := by
  cases x <;> simp [bind, Except.bind]

@[simp]
theorem Except.mapError_eq_ok {x : Except ε α} {f : ε → δ} {a : α} :
    x.mapError f = .ok a ↔ x = .ok a := by
  cases x with
  | error e => exact ⟨nofun, nofun⟩
  | ok b =>
      constructor
      · rintro ⟨⟩
        rfl
      · rintro ⟨⟩
        rfl

theorem Except.mapError_eq_error {x : Except ε α} {f : ε → δ} {e : δ} :
    x.mapError f = .error e ↔ ∃ e', x = .error e' ∧ f e' = e := by
  cases x with
  | error e' =>
      constructor
      · rintro ⟨⟩
        exact ⟨e', rfl, rfl⟩
      · rintro ⟨_, ⟨⟩, rfl⟩
        rfl
  | ok a => exact ⟨nofun, nofun⟩

@[simp]
theorem Except.map_eq_ok {x : Except ε α} {f : α → β} {b : β} :
    x.map f = .ok b ↔ ∃ a, x = .ok a ∧ f a = b := by
  cases x <;> simp [Except.map]

@[simp]
theorem Except.fmap_eq_ok {x : Except ε α} {f : α → β} {b : β} :
    f <$> x = .ok b ↔ ∃ a, x = .ok a ∧ f a = b :=
  Except.map_eq_ok

theorem Except.exists_of_isOk {x : Except ε α} (h : x.isOk = true) : ∃ a, x = .ok a := by
  cases x with
  | ok a => exact ⟨a, rfl⟩
  | error e => cases h

theorem Except.bind_pure_eq_map (x : Except ε α) (f : α → β) :
    (x >>= fun a => pure (f a)) = x.map f := by
  cases x <;> rfl

/-- All of a list of results are there. -/
theorem Except.mapM_id_eq_ok {xs : List (Except ε α)} {as : List α} :
    xs.mapM id = .ok as ↔ xs = as.map .ok := by
  induction xs generalizing as with
  | nil => cases as <;> simp
  | cons x xs ih => cases as <;> simp [ih]

/-- The first of a list of results that is none stops the rest. -/
theorem Except.mapM_id_eq_error {xs : List (Except ε α)} {e : ε} :
    xs.mapM id = .error e ↔
      ∃ (as : List α) (rest : List (Except ε α)), xs = as.map .ok ++ .error e :: rest := by
  induction xs with
  | nil => simp [Except.pure_ne_error]
  | cons x xs ih =>
      rw [List.mapM_cons, Except.bind_eq_error]
      cases x with
      | error e' =>
          constructor
          · intro h
            rcases h with h | ⟨a, h, -⟩
            · cases h
              exact ⟨[], xs, rfl⟩
            · cases h
          · rintro ⟨as, rest, h⟩
            cases as <;> cases h
            exact .inl rfl
      | ok a =>
          constructor
          · intro h
            rcases h with h | ⟨b, h, hxs⟩
            · cases h
            · cases h
              rw [Except.bind_eq_error] at hxs
              rcases hxs with hxs | ⟨bs, -, hpure⟩
              · obtain ⟨as, rest, rfl⟩ := ih.mp hxs
                exact ⟨a :: as, rest, rfl⟩
              · cases hpure
          · rintro ⟨as, rest, h⟩
            cases as with
            | nil => cases h
            | cons b as =>
                obtain ⟨-, hxs⟩ := List.cons.inj h
                refine .inr ⟨a, rfl, ?_⟩
                rw [Except.bind_eq_error]
                exact .inl (ih.mpr ⟨as, rest, hxs⟩)

end Except

section EStateM

variable {ε σ α β : Type}

@[simp]
theorem EStateM.pure_eq_ok {a b : α} {s t : σ} :
    (pure a : EStateM ε σ α) s = .ok b t ↔ a = b ∧ s = t := by
  simp [pure, EStateM.pure]

@[simp]
theorem EStateM.bind_eq_ok {x : EStateM ε σ α} {f : α → EStateM ε σ β} {s u : σ} {b : β} :
    (x >>= f) s = .ok b u ↔ ∃ a t, x s = .ok a t ∧ f a t = .ok b u := by
  cases h : x s with
  | error e t => simp [bind, EStateM.bind, h]
  | ok a t =>
      simp only [bind, EStateM.bind, h, EStateM.Result.ok.injEq]
      constructor
      · intro hf
        exact ⟨a, t, ⟨rfl, rfl⟩, hf⟩
      · rintro ⟨_, _, ⟨rfl, rfl⟩, hf⟩
        exact hf

theorem EStateM.bind_eq_error {x : EStateM ε σ α} {f : α → EStateM ε σ β} {s u : σ} {e : ε} :
    (x >>= f) s = .error e u ↔ x s = .error e u ∨ ∃ a t, x s = .ok a t ∧ f a t = .error e u := by
  cases h : x s with
  | error e' t => simp [bind, EStateM.bind, h]
  | ok a t =>
      simp only [bind, EStateM.bind, h, EStateM.Result.ok.injEq, reduceCtorEq, false_or]
      constructor
      · intro hf
        exact ⟨a, t, ⟨rfl, rfl⟩, hf⟩
      · rintro ⟨_, _, ⟨rfl, rfl⟩, hf⟩
        exact hf

theorem EStateM.bind_of_ok {x : EStateM ε σ α} {f : α → EStateM ε σ β} {s t : σ} {a : α}
    (h : x s = .ok a t) : (x >>= f) s = f a t := by
  simp only [bind, EStateM.bind, h]

theorem EStateM.bind_of_error {x : EStateM ε σ α} {f : α → EStateM ε σ β} {s t : σ} {e : ε}
    (h : x s = .error e t) : (x >>= f) s = .error e t := by
  simp only [bind, EStateM.bind, h]

theorem EStateM.map_of_ok {x : EStateM ε σ α} {f : α → β} {s t : σ} {a : α}
    (h : x s = .ok a t) : (f <$> x) s = .ok (f a) t := by
  simp only [Functor.map, EStateM.map, h]

theorem EStateM.map_of_error {x : EStateM ε σ α} {f : α → β} {s t : σ} {e : ε}
    (h : x s = .error e t) : (f <$> x) s = .error e t := by
  simp only [Functor.map, EStateM.map, h]

theorem EStateM.get_bind (f : σ → EStateM ε σ β) (s : σ) : (get >>= f) s = f s s := rfl

@[simp]
theorem EStateM.map_eq_ok {x : EStateM ε σ α} {f : α → β} {s u : σ} {b : β} :
    (f <$> x) s = .ok b u ↔ ∃ a, x s = .ok a u ∧ f a = b := by
  cases h : x s with
  | error e t => simp [Functor.map, EStateM.map, h]
  | ok a t =>
      simp only [Functor.map, EStateM.map, h, EStateM.Result.ok.injEq]
      constructor
      · rintro ⟨rfl, rfl⟩
        exact ⟨a, ⟨rfl, rfl⟩, rfl⟩
      · rintro ⟨_, ⟨rfl, rfl⟩, rfl⟩
        exact ⟨rfl, rfl⟩

@[simp]
theorem EStateM.throw_ne_ok {e : ε} {a : α} {s t : σ} :
    (throw e : EStateM ε σ α) s ≠ .ok a t :=
  nofun

end EStateM

end SixReg
