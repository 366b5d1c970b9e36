import Mathlib.Data.Finset.Card
import Mathlib.Data.Finset.Insert
import SixReg.Proofs.Assembly.Selection

/-!
# Live temporaries

A temporary is live in front of an instruction if it is written before that instruction and read by
it or after it, in the order of the code and whatever the jumps. While code is lowered, the live
temporaries are the ones that have a register (`Tracks`). So the live temporaries alone decide which
instructions can be lowered (`Tracks.ready_iff`) and how many registers are in use
(`Tracks.step`), with no mention of the pool.
-/

namespace SixReg.Tac

variable {instrs : List Instr} {instr : Instr} {n : Nat} {pool pool' : Pool}
  {chunk : List Instruction} {t : Temp}

/-! ## Liveness -/

/-- The temporaries that code writes. -/
def written (instrs : List Instr) : List Temp := instrs.filterMap Instr.result?

/-- The temporaries that code reads, each as often as it is read. -/
def readTemps (instrs : List Instr) : List Temp := instrs.flatMap Instr.reads

/-- The temporaries that are written before instruction `n` and read by it or after it. -/
def live (instrs : List Instr) (n : Nat) : Finset Temp :=
  (written (instrs.take n)).toFinset ∩ (readTemps (instrs.drop n)).toFinset

/-- The registers in use when instruction `n` has got its own, or 0 if it takes none. -/
def demand (instrs : List Instr) (n : Nat) : Nat :=
  match instrs[n]? with
  | some instr => if instr.allocates then (live instrs n).card + 1 else 0
  | none => 0

theorem mem_live : t ∈ live instrs n ↔
    t ∈ written (instrs.take n) ∧ t ∈ readTemps (instrs.drop n) := by
  simp [live]

theorem readTemps_drop (hi : instrs[n]? = some instr) :
    readTemps (instrs.drop n) = instr.reads ++ readTemps (instrs.drop (n + 1)) := by
  obtain ⟨hn, rfl⟩ := List.getElem?_eq_some_iff.mp hi
  rw [List.drop_eq_getElem_cons hn]
  rfl

theorem take_succ (hi : instrs[n]? = some instr) :
    instrs.take (n + 1) = instrs.take n ++ [instr] := by
  rw [List.take_add_one, hi]
  rfl

theorem written_take (hi : instrs[n]? = some instr) :
    written (instrs.take (n + 1)) = written (instrs.take n) ++ instr.result?.toList := by
  rw [take_succ hi]
  cases h : instr.result? <;> simp [written, h]

/-- The counts that a lowering starts with are the numbers of reads. -/
theorem getD_readCounts (code : Code) (t : Temp) :
    code.readCounts.getD t 0 = (readTemps code.instrs).count t := by
  have hfold : ∀ (ts : List Temp) (counts : ReadCounts),
      (ts.foldl Code.countRead counts).getD t 0 = counts.getD t 0 + ts.count t := by
    intro ts
    induction ts with
    | nil => simp
    | cons u ts ih =>
        intro counts
        rw [List.foldl_cons, ih, Code.countRead, Std.TreeMap.getD_insert, List.count_cons]
        by_cases hu : u = t
        · subst hu
          simp [Nat.add_assoc, Nat.add_comm]
        · simp [hu]
  have hcount := hfold code.reads ∅
  simpa [Code.readCounts, Code.reads, readTemps] using hcount

/-! ## The pool while code is lowered -/

/-- What the pool knows in front of instruction `n`. -/
structure Tracks (instrs : List Instr) (n : Nat) (pool : Pool) : Prop where
  consistent : pool.Consistent
  scratch : pool.scratch = []
  remaining : ∀ t, pool.remaining t = (readTemps (instrs.drop n)).count t
  bound : ∀ t, (pool.register? t).isSome ↔ t ∈ live instrs n

theorem tracks_start (code : Code) :
    Tracks code.instrs 0 (Pool.start.expect code.readCounts) where
  consistent := Pool.consistent_start _
  scratch := rfl
  remaining t := getD_readCounts code t
  bound t := by simp [Pool.register?, Pool.expect, Pool.start, mem_live, written]

/-- What instruction `n` asks of the code around it. -/
structure Admits (instrs : List Instr) (n : Nat) (instr : Instr) : Prop where
  /-- The outcome of a comparison is no value. -/
  value : instr.compares = false
  /-- What is read has been written. -/
  operands : ∀ t ∈ instr.reads, t ∈ written (instrs.take n)
  /-- What is written is not waiting to be read. -/
  result : ∀ t, instr.result? = some t → t ∉ live instrs n
  /-- There is a register left. -/
  room : instr.allocates = true → (live instrs n).card ≤ 5

namespace Tracks

theorem length_bound (h : Tracks instrs n pool) : pool.bound.length = (live instrs n).card := by
  have heq : (pool.bound.map Prod.fst).toFinset = live instrs n := by
    ext t
    rw [List.mem_toFinset, ← Pool.register?_isSome_iff]
    exact h.bound t
  rw [← heq, List.toFinset_card_of_nodup h.consistent.keys, List.length_map]

theorem free_ne_nil_iff (h : Tracks instrs n pool) : pool.free ≠ [] ↔ (live instrs n).card ≤ 5 := by
  have hlength := h.consistent.length
  rw [h.scratch, h.length_bound, show poolSize = 6 from rfl] at hlength
  rw [← List.length_pos_iff]
  simp only [List.length_nil] at hlength
  omega

theorem bound_of_read (h : Tracks instrs n pool) (hi : instrs[n]? = some instr)
    (ht : t ∈ instr.reads) : (pool.register? t).isSome ↔ t ∈ written (instrs.take n) := by
  rw [h.bound, mem_live, readTemps_drop hi]
  exact and_iff_left (List.mem_append_left _ ht)

/-- Whether an instruction can be lowered is decided by the code around it. -/
theorem ready_iff (h : Tracks instrs n pool) (hi : instrs[n]? = some instr) :
    instr.Ready pool ↔ Admits instrs n instr := by
  have hresult : ∀ t, pool.register? t = none ↔ t ∉ live instrs n := by
    intro t
    rw [← h.bound, Option.isSome_iff_ne_none, not_not]
  constructor
  · intro hr
    refine ⟨hr.value, ?_, ?_, fun ha => h.free_ne_nil_iff.mp (hr.room ha)⟩
    · intro t ht
      exact (h.bound_of_read hi ht).mp (hr.operands t ht)
    · intro t ht
      exact (hresult t).mp (hr.result t ht)
  · intro ha
    refine ⟨ha.value, ?_, ?_, fun hr => h.free_ne_nil_iff.mpr (ha.room hr)⟩
    · intro t ht
      exact (h.bound_of_read hi ht).mpr (ha.operands t ht)
    · intro t ht
      exact (hresult t).mpr (ha.result t ht)

/-- **One instruction keeps track.** Once it is selected, its reads can be counted; then the live
temporaries have registers again, and the peak has seen what the instruction needed. -/
theorem step (h : Tracks instrs n pool) (hi : instrs[n]? = some instr)
    (hsel : instr.Selected pool chunk pool') :
    ∃ pool'', instr.retire pool' = .ok pool'' ∧
      Instr.Settled pool' (instr.reads ++ instr.result?.toList) (readTemps (instrs.drop (n + 1)))
        pool'' ∧
      Tracks instrs (n + 1) pool'' ∧ pool''.peak = max pool.peak (demand instrs n) := by
  have hready := hsel.ready
  obtain ⟨hconsistent, hscratch⟩ := hsel.consistent h.consistent h.scratch
  -- the result had no register, so it is none of the operands
  have hfresh : ∀ u, instr.result? = some u → u ∉ instr.reads := by
    intro u hu hread
    have hsome := hready.operands u hread
    rw [hready.result u hu] at hsome
    cases hsome
  have hoperands : ∀ u ∈ instr.reads, (pool'.register? u).isSome := by
    intro u hu
    rw [hsel.register?_of_ne fun hu' => hfresh u hu' hu]
    exact hready.operands u hu
  have hcount : ∀ u, pool'.remaining u =
      (instr.reads ++ readTemps (instrs.drop (n + 1))).count u := by
    intro u
    rw [hsel.remaining, h.remaining, readTemps_drop hi]
  obtain ⟨pool'', hretire, hs⟩ := Instr.retire_settles hoperands
    (fun u hu => ⟨hfresh u hu, hsel.register?_result hu⟩) hcount
  refine ⟨pool'', hretire, hs, ⟨hs.consistent hconsistent, hs.scratch.trans hscratch,
    hs.remaining, ?_⟩, ?_⟩
  · intro u
    rw [hs.register?, mem_live, written_take hi]
    -- a result is live from here on if it is read at all, any other temporary if it was live before
    by_cases hu : instr.result? = some u
    · have hsome := hsel.register?_result hu
      grind
    · have hbound := h.bound u
      rw [mem_live, readTemps_drop hi, ← hsel.register?_of_ne hu] at hbound
      grind
  · rw [hs.peak, hsel.peak h.consistent h.scratch, h.length_bound]
    simp [demand, hi]

end Tracks

end SixReg.Tac
