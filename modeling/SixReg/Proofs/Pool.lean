import Mathlib.Data.List.Nodup
import SixReg.Pool
import SixReg.Proofs.Computation

/-!
# The pool of registers, step by step

* each request succeeds in exactly one way, which its `_eq_ok` lemma spells out;
* a granted request changes the register of one temporary at most, and the reads of one at most
  (`register?_assign`, `register?_countRead`, `remaining_countRead`);
* at all times the free registers, the bound ones and the lent ones are the general registers, each
  of them once, and the bindings say the same in both directions (`Consistent`): so a register that
  is handed out is nobody else's.
-/

namespace SixReg.Pool

variable {pool pool' : Pool} {t u : Temp} {r r' : Register}

/-! ## Requests that succeed -/

theorem take_eq_ok {request : Option Temp} :
    pool.take request = .ok (r, pool') ↔
      ∃ free, pool.free = r :: free ∧
        pool' = { pool with free, peak := max pool.peak (poolSize - free.length) } := by
  unfold take
  split
  · next h => simp [h]
  · next r₁ free h =>
      rw [h]
      constructor
      · rintro ⟨⟩
        exact ⟨free, rfl, rfl⟩
      · rintro ⟨_, ⟨⟩, rfl⟩
        rfl

theorem assign_eq_ok :
    pool.assign t = .ok (r, pool') ↔
      pool.register? t = none ∧ ∃ free, pool.free = r :: free ∧
        pool' = { pool with
          free
          bound := (t, r) :: pool.bound
          occupants := (r, t) :: pool.occupants
          peak := max pool.peak (poolSize - free.length) } := by
  unfold assign
  split
  · next h => simp [h]
  · next h =>
      split
      · next e he =>
          -- the pool is empty, and the right side asks for a free register
          simp only [reduceCtorEq, h, true_and, false_iff, not_exists, not_and]
          rintro free hfree -
          simp [take, hfree] at he
      · next r₁ pool₁ hok =>
          obtain ⟨free, hfree, rfl⟩ := take_eq_ok.mp hok
          simp only [h, true_and, hfree]
          constructor
          · rintro ⟨⟩
            exact ⟨free, rfl, rfl⟩
          · rintro ⟨_, ⟨⟩, rfl⟩
            rfl

theorem release_eq_ok :
    pool.release t = .ok (r, pool') ↔
      pool.register? t = some r ∧
        pool' = { pool with
          free := r :: pool.free
          bound := pool.bound.filter (·.1 != t)
          occupants := pool.occupants.filter (·.1 != r) } := by
  unfold release
  split
  · next h => simp [h]
  · next r₁ h =>
      rw [h]
      constructor
      · rintro ⟨⟩
        exact ⟨rfl, rfl⟩
      · rintro ⟨⟨⟩, rfl⟩
        rfl

theorem find_eq_ok : pool.find t = .ok r ↔ pool.register? t = some r := by
  unfold find
  split <;> simp [*]

/-- A read is counted for a temporary that has a register, which it loses with its last read. -/
theorem countRead_eq_ok :
    pool.countRead t = .ok pool' ↔
      ∃ r, pool.register? t = some r ∧
        pool' = { pool with
          free := if pool.remaining t ≤ 1 then r :: pool.free else pool.free
          bound := if pool.remaining t ≤ 1 then pool.bound.filter (·.1 != t) else pool.bound
          occupants :=
            if pool.remaining t ≤ 1 then pool.occupants.filter (·.1 != r) else pool.occupants
          reads := pool.reads.insert t (pool.remaining t - 1) } := by
  unfold countRead
  split
  · next h => simp [h]
  · next r h =>
      simp only [h, Option.some.injEq, exists_eq_left', Nat.sub_eq_zero_iff_le]
      by_cases hlast : pool.remaining t ≤ 1
      · simp only [hlast, if_true, Except.map_eq_ok, Prod.exists, release_eq_ok]
        constructor
        · rintro ⟨r₁, _, ⟨hr₁, rfl⟩, rfl⟩
          obtain rfl : r = r₁ := Option.some.inj (h.symm.trans hr₁)
          rfl
        · rintro rfl
          exact ⟨r, _, ⟨h, rfl⟩, rfl⟩
      · simp only [hlast, if_false, Except.ok.injEq]
        exact eq_comm

theorem lend_eq_ok :
    pool.lend = .ok (r, pool') ↔
      ∃ free, pool.free = r :: free ∧
        pool' = { pool with
          free, scratch := r :: pool.scratch
          peak := max pool.peak (poolSize - free.length) } := by
  unfold lend
  split
  · next e he =>
      simp only [reduceCtorEq, false_iff, not_exists, not_and]
      rintro free hfree -
      simp [take, hfree] at he
  · next r₁ pool₁ hok =>
      obtain ⟨free, hfree, rfl⟩ := take_eq_ok.mp hok
      rw [hfree]
      constructor
      · rintro ⟨⟩
        exact ⟨free, rfl, rfl⟩
      · rintro ⟨_, ⟨⟩, rfl⟩
        rfl

theorem giveBack_eq_ok :
    pool.giveBack r = .ok pool' ↔
      r ∈ pool.scratch ∧
        pool' = { pool with
          free := r :: pool.free, scratch := pool.scratch.filter (· != r) } := by
  unfold giveBack
  split
  · next h => simp [h, eq_comm]
  · next h => simp [h]

/-- A register that is lent and given back at once is on top of the free ones again. -/
theorem borrow_eq_ok :
    (∃ lent, pool.lend = .ok (r, lent) ∧ lent.giveBack r = .ok pool') ↔
      ∃ free, pool.free = r :: free ∧
        pool' = { pool with
          scratch := pool.scratch.filter (· != r)
          peak := max pool.peak (poolSize - free.length) } := by
  simp only [lend_eq_ok, giveBack_eq_ok]
  constructor
  · rintro ⟨_, ⟨free, hfree, rfl⟩, -, rfl⟩
    exact ⟨free, hfree, by simp [hfree]⟩
  · rintro ⟨free, hfree, rfl⟩
    exact ⟨_, ⟨free, hfree, rfl⟩, .head _, by simp [hfree]⟩

theorem mem_free_of_assign (h : pool.assign t = .ok (r, pool')) : r ∈ pool.free := by
  obtain ⟨-, free, hfree, -⟩ := assign_eq_ok.mp h
  rw [hfree]
  exact .head _

/-! ## Who has a register -/

theorem register?_isSome_iff : (pool.register? t).isSome ↔ t ∈ pool.bound.map Prod.fst := by
  simp [register?, List.find?_isSome]

theorem mem_bound_of_register? (h : pool.register? t = some r) : (t, r) ∈ pool.bound := by
  obtain ⟨⟨t₁, r₁⟩, hfind, rfl⟩ := Option.map_eq_some_iff.mp h
  obtain rfl : t₁ = t := by simpa using List.find?_some hfind
  exact List.mem_of_find?_eq_some hfind

theorem register?_assign (h : pool.assign t = .ok (r, pool')) (u : Temp) :
    pool'.register? u = if u = t then some r else pool.register? u := by
  obtain ⟨-, free, -, rfl⟩ := assign_eq_ok.mp h
  unfold register?
  rw [List.find?_cons]
  by_cases hu : u = t
  · simp [hu]
  · have hkey : (t == u) = false := by simpa using Ne.symm hu
    simp [hu, hkey]

theorem register?_release (h : pool.release t = .ok (r, pool')) (u : Temp) :
    pool'.register? u = if u = t then none else pool.register? u := by
  obtain ⟨-, rfl⟩ := release_eq_ok.mp h
  unfold register?
  rw [List.find?_filter]
  by_cases hu : u = t
  · simp [hu]
  · have hkey : (fun p : Temp × Register => decide (p.1 != t ∧ p.1 == u)) = fun p => p.1 == u := by
      funext p
      by_cases hp : p.1 = u <;> simp [hp, hu]
    simp only [hkey, hu, if_false]

theorem register?_countRead (h : pool.countRead t = .ok pool') (u : Temp) :
    pool'.register? u =
      if u = t ∧ pool.remaining t ≤ 1 then none else pool.register? u := by
  obtain ⟨r, hr, rfl⟩ := countRead_eq_ok.mp h
  by_cases hlast : pool.remaining t ≤ 1
  · have hrelease : pool.release t = .ok (r, _) := release_eq_ok.mpr ⟨hr, rfl⟩
    simpa [hlast, register?] using register?_release hrelease u
  · simp [hlast, register?]

theorem remaining_assign (h : pool.assign t = .ok (r, pool')) (u : Temp) :
    pool'.remaining u = pool.remaining u := by
  obtain ⟨-, free, -, rfl⟩ := assign_eq_ok.mp h
  rfl

theorem remaining_countRead (h : pool.countRead t = .ok pool') (u : Temp) :
    pool'.remaining u = if u = t then pool.remaining u - 1 else pool.remaining u := by
  obtain ⟨r, -, rfl⟩ := countRead_eq_ok.mp h
  unfold remaining
  by_cases hu : u = t
  · simp [hu]
  · simp [hu, Std.TreeMap.getD_insert, Ne.symm hu]

theorem countRead_frame (h : pool.countRead t = .ok pool') :
    pool'.scratch = pool.scratch ∧ pool'.peak = pool.peak := by
  obtain ⟨r, -, rfl⟩ := countRead_eq_ok.mp h
  exact ⟨rfl, rfl⟩

/-! ## The registers are shared out -/

/-- Every general register is free, bound to one temporary or lent, and just one of these; no
temporary has two registers; and registers have the temporaries that have them. -/
structure Consistent (pool : Pool) : Prop where
  shares : (pool.free ++ pool.bound.map Prod.snd ++ pool.scratch).Perm Register.general
  keys : (pool.bound.map Prod.fst).Nodup
  occupants : pool.occupants = pool.bound.map Prod.swap

theorem consistent_start (reads : Tac.ReadCounts) : (start.expect reads).Consistent where
  shares := by
    simp only [expect, start, List.map_nil, List.append_nil]
    exact List.reverse_perm _
  keys := List.nodup_nil
  occupants := rfl

namespace Consistent

theorem nodup (h : pool.Consistent) :
    (pool.free ++ pool.bound.map Prod.snd ++ pool.scratch).Nodup :=
  h.shares.nodup_iff.mpr (by decide)

theorem length (h : pool.Consistent) :
    pool.free.length + pool.bound.length + pool.scratch.length = poolSize := by
  simpa [poolSize, Nat.add_assoc] using h.shares.length_eq

theorem mem_general_of_free (h : pool.Consistent) (hr : r ∈ pool.free) : r ∈ Register.general :=
  h.shares.subset (by simp [hr])

theorem mem_general_of_register? (h : pool.Consistent) (hr : pool.register? t = some r) :
    r ∈ Register.general := by
  refine h.shares.subset ?_
  have hmem := List.mem_map_of_mem (f := Prod.snd) (mem_bound_of_register? hr)
  simp only [List.mem_append]
  exact .inl (.inr hmem)

/-- A free register is nobody's. -/
theorem ne_of_free (h : pool.Consistent) (hr : r ∈ pool.free) (hr' : pool.register? t = some r') :
    r' ≠ r := by
  rintro rfl
  have hmem := List.mem_map_of_mem (f := Prod.snd) (mem_bound_of_register? hr')
  exact (List.nodup_append.mp (List.nodup_append.mp h.nodup).1).2.2 r' hr r' hmem rfl

/-- The entry of a temporary in front of all others. -/
theorem bound_perm (h : pool.Consistent) (hr : pool.register? t = some r) :
    pool.bound.Perm ((t, r) :: pool.bound.filter (·.1 != t)) := by
  have hmem := mem_bound_of_register? hr
  have hkeys := h.keys
  -- the induction is on the list; nothing else of the pool plays a part
  generalize pool.bound = bound at hmem hkeys
  induction bound with
  | nil => cases hmem
  | cons p bound ih =>
      obtain ⟨hp, hkeys⟩ := List.nodup_cons.mp hkeys
      rcases List.mem_cons.mp hmem with rfl | hmem
      · have hrest : bound.filter (·.1 != t) = bound := by
          refine List.filter_eq_self.mpr fun q hq => ?_
          simp only [bne_iff_ne]
          intro hq'
          exact hp (List.mem_map.mpr ⟨q, hq, hq'⟩)
        simp [hrest]
      · have hne : p.1 ≠ t := by
          intro hp'
          exact hp (List.mem_map.mpr ⟨(t, r), hmem, hp'.symm⟩)
        simp only [List.filter_cons, bne_iff_ne, ne_eq, hne, not_false_eq_true, if_true]
        exact ((ih hmem hkeys).cons p).trans (.swap _ _ _)

theorem assign (h : pool.Consistent) (ha : pool.assign t = .ok (r, pool')) : pool'.Consistent := by
  obtain ⟨hnone, free, hfree, rfl⟩ := assign_eq_ok.mp ha
  refine ⟨?_, ?_, ?_⟩
  · refine List.Perm.trans ?_ h.shares
    simp only [hfree, List.map_cons, List.cons_append]
    exact (List.perm_middle).append_right _
  · rw [List.map_cons, List.nodup_cons, ← register?_isSome_iff]
    exact ⟨by simp [hnone], h.keys⟩
  · rw [List.map_cons, ← h.occupants]
    rfl

/-- An entry is about a temporary just in case it is about its register. -/
theorem fst_eq_iff_snd_eq (h : pool.Consistent) {p q : Temp × Register} (hp : p ∈ pool.bound)
    (hq : q ∈ pool.bound) : p.1 = q.1 ↔ p.2 = q.2 := by
  have hregisters : (pool.bound.map Prod.snd).Nodup :=
    (List.nodup_append.mp (List.nodup_append.mp h.nodup).1).2.1
  constructor
  · intro heq
    rw [List.inj_on_of_nodup_map h.keys hp hq heq]
  · intro heq
    rw [List.inj_on_of_nodup_map hregisters hp hq heq]

/-- Without the entry of a temporary in one direction, and that of its register in the other. -/
theorem occupants_filter (h : pool.Consistent) (hr : pool.register? t = some r) :
    pool.occupants.filter (·.1 != r) = (pool.bound.filter (·.1 != t)).map Prod.swap := by
  rw [h.occupants, List.filter_map]
  congr 1
  apply List.filter_congr
  intro p hp
  have hiff := h.fst_eq_iff_snd_eq hp (mem_bound_of_register? hr)
  rw [Bool.eq_iff_iff, Function.comp_apply, bne_iff_ne, bne_iff_ne]
  exact not_congr hiff.symm

theorem release (h : pool.Consistent) (hr : pool.release t = .ok (r, pool')) :
    pool'.Consistent := by
  obtain ⟨hsome, rfl⟩ := release_eq_ok.mp hr
  have hbound := h.bound_perm hsome
  refine ⟨?_, ?_, h.occupants_filter hsome⟩
  · refine List.Perm.trans ?_ h.shares
    refine List.Perm.append_right _ ?_
    refine List.Perm.trans ?_ ((hbound.map Prod.snd).symm.append_left _)
    exact List.perm_middle.symm
  · exact h.keys.sublist (List.filter_sublist.map _)

theorem countRead (h : pool.Consistent) (hr : pool.countRead t = .ok pool') :
    pool'.Consistent := by
  obtain ⟨r, hsome, rfl⟩ := countRead_eq_ok.mp hr
  by_cases hlast : pool.remaining t ≤ 1
  · have hrelease : pool.release t = .ok (r, _) := release_eq_ok.mpr ⟨hsome, rfl⟩
    simp only [hlast, if_true]
    have hreleased := h.release hrelease
    exact ⟨hreleased.shares, hreleased.keys, hreleased.occupants⟩
  · simp only [hlast, if_false]
    exact ⟨h.shares, h.keys, h.occupants⟩

end Consistent

end SixReg.Pool
