import Mathlib.Data.List.Nodup
import SixReg.Proofs.Pool

/-!
# The pool over any history of requests

A request yields a new pool or is refused. A caller that keeps one pool and changes it in place sees
the same requests as several writes: the free registers, the two directions of the bindings and the
counts are written one after the other, one of them could be forgotten, and a refusal could come
between two. `InPlace` gives every request in that form, write by write; that it does what the
function of the same name says, and that a refused one has written nothing, is
`Request.perform_apply`.

* one request, granted or refused, keeps the registers shared out and the two directions of the
  bindings inverse to each other (`Consistent.next`), and raises the peak to what is then in use
  (`peak_next`);
* by induction, so does every history of requests (`history_keeps_invariant`).
-/

namespace SixReg.Pool

/-- What can be asked of a pool. -/
inductive Request where
  | assign (t : Temp)
  | release (t : Temp)
  | countRead (t : Temp)
  | find (t : Temp)
  | lend
  | giveBack (r : Register)
  | expect (reads : Tac.ReadCounts)
  | reset

/-! ## Requests in place -/

/-- A computation that changes a pool in place: if it is refused, what it had written stays. -/
abbrev InPlace := EStateM PoolError Pool

namespace InPlace

/-- Takes the next free register. -/
def take (request : Option Temp) : InPlace Register := do
  match (← get).free with
  | [] => throw (.exhausted request poolSize)
  | r :: free =>
    modify fun pool => { pool with free }
    modify fun pool => { pool with peak := max pool.peak pool.inUse }
    return r

/-- Binds a register to a temporary that has none. -/
def assign (t : Temp) : InPlace Register := do
  match (← get).register? t with
  | some _ => throw (.alreadyBound t)
  | none =>
    let r ← take (some t)
    modify fun pool => { pool with bound := (t, r) :: pool.bound }
    modify fun pool => { pool with occupants := (r, t) :: pool.occupants }
    return r

/-- Takes the register of a temporary back. -/
def release (t : Temp) : InPlace Register := do
  match (← get).register? t with
  | none => throw (.nothingToRelease t)
  | some r =>
    modify fun pool => { pool with bound := pool.bound.filter (·.1 != t) }
    modify fun pool => { pool with occupants := pool.occupants.filter (·.1 != r) }
    modify fun pool => { pool with free := r :: pool.free }
    return r

/-- Counts a read of a temporary; the count is written before the register is taken back. -/
def countRead (t : Temp) : InPlace Unit := do
  match (← get).register? t with
  | none => throw (.nothingToRelease t)
  | some _ =>
    modify fun pool => { pool with reads := pool.reads.insert t (pool.remaining t - 1) }
    if (← get).remaining t = 0 then
      let _ ← release t

/-- The register of a temporary that must have one. -/
def find (t : Temp) : InPlace Register := do
  match (← get).register? t with
  | none => throw (.notBound t)
  | some r => return r

/-- Lends a register as scratch. -/
def lend : InPlace Register := do
  let r ← take none
  modify fun pool => { pool with scratch := r :: pool.scratch }
  return r

/-- Takes a scratch register back. -/
def giveBack (r : Register) : InPlace Unit := do
  if r ∈ (← get).scratch then
    modify fun pool => { pool with scratch := pool.scratch.filter (· != r) }
    modify fun pool => { pool with free := r :: pool.free }
  else throw (.notLent r)

end InPlace

/-- Performs a request in place, and replies with the register that it is about. -/
def Request.perform : Request → InPlace (Option Register)
  | .assign t => some <$> InPlace.assign t
  | .release t => some <$> InPlace.release t
  | .countRead t => (fun _ => none) <$> InPlace.countRead t
  | .find t => some <$> InPlace.find t
  | .lend => some <$> InPlace.lend
  | .giveBack r => (fun _ => none) <$> InPlace.giveBack r
  | .expect reads => do
    modify fun pool => pool.expect reads
    return none
  | .reset => do
    set start
    return none

/-- The reply to a request and the pool after it, or the refusal. -/
def serve (pool : Pool) : Request → Except PoolError (Option Register × Pool)
  | .assign t => (pool.assign t).map fun (r, pool) => (some r, pool)
  | .release t => (pool.release t).map fun (r, pool) => (some r, pool)
  | .countRead t => (pool.countRead t).map fun pool => (none, pool)
  | .find t => (pool.find t).map fun r => (some r, pool)
  | .lend => pool.lend.map fun (r, pool) => (some r, pool)
  | .giveBack r => (pool.giveBack r).map fun pool => (none, pool)
  | .expect reads => .ok (none, pool.expect reads)
  | .reset => .ok (none, start)

/-- What a request looks like in place if a refusal has written nothing. -/
def settle {α : Type} (pool : Pool) : Except PoolError (α × Pool) → EStateM.Result PoolError Pool α
  | .ok (a, pool') => .ok a pool'
  | .error e => .error e pool

variable {pool pool' : Pool} {t : Temp} {r : Register} {request : Request}

namespace InPlace

theorem take_apply (request : Option Temp) (pool : Pool) :
    take request pool = settle pool (pool.take request) := by
  simp only [take, Pool.take, EStateM.get_bind]
  cases pool.free <;> rfl

theorem assign_apply (t : Temp) (pool : Pool) :
    assign t pool = settle pool (pool.assign t) := by
  simp only [assign, Pool.assign, EStateM.get_bind]
  cases pool.register? t with
  | some r => rfl
  | none =>
      simp only [bind, EStateM.bind, take_apply]
      cases pool.take (some t) <;> rfl

theorem release_apply (t : Temp) (pool : Pool) :
    release t pool = settle pool (pool.release t) := by
  simp only [release, Pool.release, EStateM.get_bind]
  cases pool.register? t <;> rfl

/-- The register that is taken back after the last read is there: nothing was unbound between. -/
theorem countRead_apply (t : Temp) (pool : Pool) :
    countRead t pool = settle pool ((pool.countRead t).map fun pool => ((), pool)) := by
  simp only [countRead, Pool.countRead, EStateM.get_bind]
  cases hr : pool.register? t with
  | none => rfl
  | some r =>
      let counted := { pool with reads := pool.reads.insert t (pool.remaining t - 1) }
      show (if counted.remaining t = 0 then release t >>= fun _ => pure () else pure () :
        InPlace Unit) counted = _
      have hleft : counted.remaining t = pool.remaining t - 1 := by simp [counted, remaining]
      have hregister : counted.register? t = some r := hr
      rw [hleft]
      by_cases hlast : pool.remaining t - 1 = 0
      · simp only [hlast, if_true, bind, EStateM.bind, release_apply, Pool.release, hregister]
        rw [show Pool.register? { pool with reads := pool.reads.insert t 0 } t = some r from hr]
        simp only [counted, hlast]
        rfl
      · simp only [hlast, if_false]
        rfl

theorem find_apply (t : Temp) (pool : Pool) :
    find t pool = settle pool ((pool.find t).map fun r => (r, pool)) := by
  simp only [find, Pool.find, EStateM.get_bind]
  cases pool.register? t <;> rfl

theorem lend_apply (pool : Pool) : lend pool = settle pool pool.lend := by
  simp only [lend, Pool.lend, bind, EStateM.bind, take_apply]
  cases pool.take none <;> rfl

theorem giveBack_apply (r : Register) (pool : Pool) :
    giveBack r pool = settle pool ((pool.giveBack r).map fun pool => ((), pool)) := by
  simp only [giveBack, Pool.giveBack, EStateM.get_bind]
  split <;> rfl

end InPlace

theorem map_settle {α β : Type} {x : InPlace α} {y : Except PoolError (α × Pool)} (f : α → β)
    (h : x pool = settle pool y) : (f <$> x) pool = settle pool (y.map (Prod.map f id)) := by
  simp only [Functor.map, EStateM.map, h]
  cases y <;> rfl

/-- **Requests in place do what the functions on pools say, and a refused one has written
nothing.** -/
theorem Request.perform_apply (request : Request) (pool : Pool) :
    request.perform pool = settle pool (pool.serve request) := by
  cases request with
  | assign t => exact map_settle some (InPlace.assign_apply t pool)
  | release t => exact map_settle some (InPlace.release_apply t pool)
  | countRead t =>
      refine (map_settle _ (InPlace.countRead_apply t pool)).trans ?_
      simp only [serve]
      cases pool.countRead t <;> rfl
  | find t =>
      refine (map_settle some (InPlace.find_apply t pool)).trans ?_
      simp only [serve]
      cases pool.find t <;> rfl
  | lend => exact map_settle some (InPlace.lend_apply pool)
  | giveBack r =>
      refine (map_settle _ (InPlace.giveBack_apply r pool)).trans ?_
      simp only [serve]
      cases pool.giveBack r <;> rfl
  | expect reads => rfl
  | reset => rfl

/-! ## One request -/

/-- The pool after a request, granted or refused. -/
def next (pool : Pool) (request : Request) : Pool :=
  match request.perform pool with
  | .ok _ pool' => pool'
  | .error _ pool' => pool'

/-- A request is granted and leaves a pool, or is refused and leaves the pool that was there. -/
theorem next_cases (pool : Pool) (request : Request) :
    (∃ reply, pool.serve request = .ok (reply, pool.next request)) ∨
      (∃ e, pool.serve request = .error e) ∧ pool.next request = pool := by
  unfold next
  rw [request.perform_apply]
  cases pool.serve request with
  | ok result => exact .inl ⟨result.1, rfl⟩
  | error e => exact .inr ⟨⟨e, rfl⟩, rfl⟩

namespace Consistent

theorem lend (h : pool.Consistent) (hl : pool.lend = .ok (r, pool')) : pool'.Consistent := by
  obtain ⟨free, hfree, rfl⟩ := lend_eq_ok.mp hl
  refine ⟨List.Perm.trans ?_ h.shares, h.keys, h.occupants⟩
  rw [hfree]
  exact List.perm_middle

/-- A register that is lent is so once. -/
theorem scratch_perm (h : pool.Consistent) (hr : r ∈ pool.scratch) :
    pool.scratch.Perm (r :: pool.scratch.filter (· != r)) := by
  have hnodup := (List.nodup_append.mp h.nodup).2.1
  rw [← hnodup.erase_eq_filter]
  exact List.perm_cons_erase hr

theorem giveBack (h : pool.Consistent) (hg : pool.giveBack r = .ok pool') :
    pool'.Consistent := by
  obtain ⟨hr, rfl⟩ := giveBack_eq_ok.mp hg
  refine ⟨List.Perm.trans ?_ h.shares, h.keys, h.occupants⟩
  refine List.Perm.trans ?_ ((h.scratch_perm hr).symm.append_left _)
  exact List.perm_middle.symm

theorem serve (h : pool.Consistent) {reply : Option Register}
    (hs : pool.serve request = .ok (reply, pool')) : pool'.Consistent := by
  cases request with
  | assign t =>
      obtain ⟨⟨r, _⟩, ha, ⟨⟩⟩ := Except.map_eq_ok.mp hs
      exact h.assign ha
  | release t =>
      obtain ⟨⟨r, _⟩, hr, ⟨⟩⟩ := Except.map_eq_ok.mp hs
      exact h.release hr
  | countRead t =>
      obtain ⟨_, hc, ⟨⟩⟩ := Except.map_eq_ok.mp hs
      exact h.countRead hc
  | find t =>
      obtain ⟨r, -, ⟨⟩⟩ := Except.map_eq_ok.mp hs
      exact h
  | lend =>
      obtain ⟨⟨r, _⟩, hl, ⟨⟩⟩ := Except.map_eq_ok.mp hs
      exact h.lend hl
  | giveBack r =>
      obtain ⟨_, hg, ⟨⟩⟩ := Except.map_eq_ok.mp hs
      exact h.giveBack hg
  | expect reads =>
      cases hs
      exact ⟨h.shares, h.keys, h.occupants⟩
  | reset =>
      cases hs
      exact consistent_start ∅

/-- **One request keeps the registers shared out**, granted or refused, and the bindings inverse. -/
theorem next (h : pool.Consistent) (request : Request) : (pool.next request).Consistent := by
  obtain ⟨reply, hs⟩ | ⟨-, heq⟩ := next_cases pool request
  · exact h.serve hs
  · rw [heq]
    exact h

theorem inUse_eq (h : pool.Consistent) : pool.inUse = pool.bound.length + pool.scratch.length := by
  have hlength := h.length
  unfold inUse
  omega

end Consistent

/-- Registers that are taken raise the peak, and registers that come back leave it. -/
theorem peak_serve (hle : pool.inUse ≤ pool.peak) (hreset : request ≠ .reset)
    {reply : Option Register} (hs : pool.serve request = .ok (reply, pool')) :
    pool'.peak = max pool.peak pool'.inUse := by
  -- a register more that is free is one less in use
  have hback : ∀ free : List Register, pool.free.length ≤ free.length →
      pool.peak = max pool.peak (poolSize - free.length) := by
    intro free hfree
    unfold inUse at hle
    omega
  cases request with
  | assign t =>
      obtain ⟨⟨r, _⟩, ha, ⟨⟩⟩ := Except.map_eq_ok.mp hs
      obtain ⟨-, free, -, rfl⟩ := assign_eq_ok.mp ha
      rfl
  | release t =>
      obtain ⟨⟨r, _⟩, hr, ⟨⟩⟩ := Except.map_eq_ok.mp hs
      obtain ⟨-, rfl⟩ := release_eq_ok.mp hr
      exact hback _ (Nat.le_succ _)
  | countRead t =>
      obtain ⟨_, hc, ⟨⟩⟩ := Except.map_eq_ok.mp hs
      obtain ⟨r, -, rfl⟩ := countRead_eq_ok.mp hc
      apply hback
      show pool.free.length ≤ List.length (if _ then _ else _)
      split
      · exact Nat.le_succ _
      · exact Nat.le_refl _
  | find t =>
      obtain ⟨r, -, ⟨⟩⟩ := Except.map_eq_ok.mp hs
      exact hback _ (Nat.le_refl _)
  | lend =>
      obtain ⟨⟨r, _⟩, hl, ⟨⟩⟩ := Except.map_eq_ok.mp hs
      obtain ⟨free, -, rfl⟩ := lend_eq_ok.mp hl
      rfl
  | giveBack r =>
      obtain ⟨_, hg, ⟨⟩⟩ := Except.map_eq_ok.mp hs
      obtain ⟨-, rfl⟩ := giveBack_eq_ok.mp hg
      exact hback _ (Nat.le_succ _)
  | expect reads =>
      cases hs
      exact hback _ (Nat.le_refl _)
  | reset => exact absurd rfl hreset

/-- **One request raises the peak to what is then in use.** -/
theorem peak_next (hle : pool.inUse ≤ pool.peak) (hreset : request ≠ .reset) :
    (pool.next request).peak = max pool.peak (pool.next request).inUse := by
  obtain ⟨reply, hs⟩ | ⟨-, heq⟩ := next_cases pool request
  · exact peak_serve hle hreset hs
  · rw [heq]
    exact (Nat.max_eq_left hle).symm

/-! ## Every history -/

/-- The requests that were made of a pool so far, the latest first. -/
abbrev History := List Request

/-- The pool after a history that began with all registers free. -/
def History.after : History → Pool
  | [] => start
  | request :: earlier => (History.after earlier).next request

/-- The pools since the last reset, the latest first; without a reset, since the beginning. -/
def History.sinceReset : History → List Pool
  | [] | .reset :: _ => [start]
  | request :: earlier => History.after (request :: earlier) :: History.sinceReset earlier

theorem History.consistent (history : History) : history.after.Consistent := by
  induction history with
  | nil => exact consistent_start ∅
  | cons request earlier ih => exact ih.next request

theorem History.peak_eq (history : History) :
    (history.sinceReset.map inUse).max? = some history.after.peak ∧
      history.after.inUse ≤ history.after.peak := by
  induction history with
  | nil => exact ⟨rfl, Nat.le_refl 0⟩
  | cons request earlier ih =>
      obtain ⟨hmax, hle⟩ := ih
      by_cases hreset : request = .reset
      · subst hreset
        exact ⟨rfl, Nat.le_refl 0⟩
      · have hpeak := peak_next hle hreset
        have hsince : History.sinceReset (request :: earlier) =
            History.after (request :: earlier) :: History.sinceReset earlier := by
          cases request with
          | reset => exact absurd rfl hreset
          | assign | release | countRead | find | lend | giveBack | expect => rfl
        constructor
        · rw [hsince, List.map_cons, List.max?_cons, hmax]
          show some (max _ _) = some ((History.after earlier).next request).peak
          rw [hpeak, Nat.max_comm]
          rfl
        · show ((History.after earlier).next request).inUse ≤ _
          rw [History.after, hpeak]
          exact Nat.le_max_right _ _

/-- What holds of the pool at all times. -/
structure Invariant (pool : Pool) : Prop where
  /-- No register is free twice. -/
  free_nodup : pool.free.Nodup
  /-- No register is in two of the three places. -/
  free_bound : pool.free.Disjoint (pool.bound.map Prod.snd)
  free_scratch : pool.free.Disjoint pool.scratch
  bound_scratch : (pool.bound.map Prod.snd).Disjoint pool.scratch
  /-- Just the general registers are anywhere. -/
  covers : ∀ r, r ∈ pool.free ∨ r ∈ pool.bound.map Prod.snd ∨ r ∈ pool.scratch ↔
    r ∈ Register.general
  /-- The registers of temporaries and the occupants of registers are inverse to each other. -/
  inverse : ∀ t r, pool.register? t = some r ↔ pool.occupant? r = some t
  /-- No two temporaries have one register. -/
  injective : ∀ t u r, pool.register? t = some r → pool.register? u = some r → t = u
  /-- No temporary is bound twice, no register has two occupants, and none is lent twice. -/
  bound_nodup : (pool.bound.map Prod.fst).Nodup
  occupants_nodup : (pool.occupants.map Prod.fst).Nodup
  scratch_nodup : pool.scratch.Nodup
  /-- What is in use is bound or lent. -/
  inUse_eq : pool.inUse = pool.bound.length + pool.scratch.length
  length_occupants : pool.occupants.length = pool.bound.length
  inUse_le : pool.inUse ≤ 6

theorem find?_eq_some_iff_of_nodup {α β : Type} [BEq β] [LawfulBEq β] (key : α → β) {xs : List α}
    (h : (xs.map key).Nodup) {a : α} {b : β} :
    xs.find? (key · == b) = some a ↔ a ∈ xs ∧ key a = b := by
  induction xs with
  | nil => simp
  | cons x xs ih =>
      obtain ⟨hx, hxs⟩ := List.nodup_cons.mp h
      rw [List.find?_cons]
      by_cases hkey : key x = b
      · subst hkey
        simp only [BEq.rfl, Option.some.injEq, List.mem_cons]
        constructor
        · rintro rfl
          exact ⟨.inl rfl, rfl⟩
        · rintro ⟨rfl | ha, hkey⟩
          · rfl
          · exact absurd (List.mem_map.mpr ⟨a, ha, hkey⟩) hx
      · rw [show (key x == b) = false by simpa using hkey]
        simp only [ih hxs, List.mem_cons]
        constructor
        · exact fun ⟨ha, hb⟩ => ⟨.inr ha, hb⟩
        · rintro ⟨rfl | ha, hb⟩
          · exact absurd hb hkey
          · exact ⟨ha, hb⟩

theorem Consistent.invariant (h : pool.Consistent) : pool.Invariant := by
  obtain ⟨hfront, hscratch, hapart⟩ := List.nodup_append'.mp h.nodup
  obtain ⟨hfree, hbound, hfb⟩ := List.nodup_append'.mp hfront
  have hdisjoint := List.disjoint_append_left.mp hapart
  have hkeys : pool.occupants.map Prod.fst = pool.bound.map Prod.snd := by
    rw [h.occupants, List.map_map]
    rfl
  have hoccupants : (pool.occupants.map Prod.fst).Nodup := hkeys ▸ hbound
  -- each direction is a lookup in its own list, and the lists have the same pairs
  have hinverse : ∀ t r, pool.register? t = some r ↔ pool.occupant? r = some t := by
    intro t r
    have hregister : pool.register? t = some r ↔ (t, r) ∈ pool.bound := by
      simp [register?, find?_eq_some_iff_of_nodup Prod.fst h.keys]
    have hoccupant : pool.occupant? r = some t ↔ (r, t) ∈ pool.occupants := by
      simp [occupant?, find?_eq_some_iff_of_nodup Prod.fst hoccupants]
    rw [hregister, hoccupant, h.occupants]
    simp
  refine ⟨hfree, hfb, hdisjoint.1, hdisjoint.2, ?_, hinverse, ?_, h.keys, hoccupants, hscratch,
    h.inUse_eq, ?_, ?_⟩
  · intro r
    rw [← h.shares.mem_iff, List.mem_append, List.mem_append, or_assoc]
  · intro t u r ht hu
    exact Option.some.inj (((hinverse t r).mp ht).symm.trans ((hinverse u r).mp hu))
  · rw [h.occupants, List.length_map]
  · exact Nat.sub_le _ _

/-- **The pool is sound over any history of requests**, granted or refused, with any arguments and
in any order: the registers are shared out, the peak is the most that was in use since the last
reset, and a request that is refused leaves the pool as it was. -/
theorem history_keeps_invariant (history : History) :
    history.after.Invariant ∧
      (history.sinceReset.map inUse).max? = some history.after.peak ∧
      ∀ (request : Request) (e : PoolError) (pool' : Pool),
        request.perform history.after = .error e pool' → pool' = history.after := by
  refine ⟨history.consistent.invariant, history.peak_eq.1, ?_⟩
  intro request e pool' hrefused
  rw [request.perform_apply] at hrefused
  cases hs : history.after.serve request with
  | ok result =>
      rw [hs] at hrefused
      cases hrefused
  | error e =>
      rw [hs] at hrefused
      cases hrefused
      rfl

/-- Two temporaries and a scratch register; then a register is given back that was never lent, and a
temporary is read that nobody counts on. The second one loses its register, which has no occupant
then, and the first keeps its own when it asks for another. -/
theorem history_keeps_invariant_misused :
    let history : History :=
      [.countRead ⟨1⟩, .giveBack .r0, .lend, .assign ⟨1⟩, .assign ⟨0⟩, .reset, .assign ⟨7⟩]
    history.after.Invariant ∧ history.after.inUse = 2 ∧ history.after.peak = 3 ∧
      (history.after.occupant? .r5 = some ⟨0⟩ ∧ history.after.occupant? .r4 = none) ∧
      ∃ e pool', Request.perform (.assign ⟨0⟩) history.after = .error e pool' ∧
        pool'.register? ⟨0⟩ = some .r5 := by
  intro history
  obtain ⟨hinvariant, hpeak, hrefused⟩ := history_keeps_invariant history
  have hmax : (history.sinceReset.map inUse).max? = some 3 := by decide +kernel
  have hregister : history.after.register? ⟨0⟩ = some .r5 := by decide +kernel
  refine ⟨hinvariant, by decide +kernel, Option.some.inj (hpeak.symm.trans hmax),
    ⟨(hinvariant.inverse _ _).mp hregister, by decide +kernel⟩, ?_⟩
  have hassign : Request.perform (.assign ⟨0⟩) history.after =
      .error (.alreadyBound ⟨0⟩) history.after := by
    simp [Request.perform_apply, serve, assign, hregister, settle, Except.map]
  refine ⟨_, _, hassign, ?_⟩
  rw [hrefused _ _ _ hassign]
  exact hregister

end SixReg.Pool
