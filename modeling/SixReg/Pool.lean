import SixReg.Machine.Register
import SixReg.Tac.Text

/-!
# The pool of registers

Hands out the general registers. A register is free, or bound to a temporary, or lent as scratch.
Bindings are kept in both directions, for each temporary its register and for each register its
temporary. The pool also knows how many reads each temporary has still before it: the last of them
gives the register back. Free registers form a stack, so the one that was given back last is handed
out first.
-/

namespace SixReg

/-- Why the pool refuses a request. -/
inductive PoolError where
  | alreadyBound (temp : Temp)
  | nothingToRelease (temp : Temp)
  | notBound (temp : Temp)
  /-- All of so many registers are in use; `none` if a scratch register was asked for. -/
  | exhausted (temp : Option Temp) (limit : Nat)
  | notLent (register : Register)
deriving DecidableEq, Repr, Inhabited

/-- The number of registers that the pool hands out. -/
def poolSize : Nat := Register.general.length

/-- The wording of a refusal. -/
def PoolError.message : PoolError → String
  | .alreadyBound t => s!"{t.text} already has a register"
  | .nothingToRelease t => s!"{t.text} has no register to release"
  | .notBound t => s!"{t.text} is not mapped to any register"
  | .exhausted _ limit => s!"no free register ({limit} in use)"
  | .notLent r => s!"{r.name} is not a scratch register"

/-- The state of the pool. -/
structure Pool where
  /-- The free registers, the next one first. -/
  free : List Register
  /-- The register of each temporary that has one. -/
  bound : List (Temp × Register)
  /-- The temporary of each register that is bound. -/
  occupants : List (Register × Temp)
  /-- The registers that are lent as scratch. -/
  scratch : List Register
  /-- The reads that each temporary has still before it. -/
  reads : Tac.ReadCounts
  /-- The most registers that were in use at once. -/
  peak : Nat
deriving Inhabited

namespace Pool

/-- The pool with every register free; the one with the highest number goes first. -/
def start : Pool := ⟨Register.general.reverse, [], [], [], ∅, 0⟩

/-- The number of registers that are bound or lent. -/
def inUse (pool : Pool) : Nat := poolSize - pool.free.length

/-- The register of a temporary. -/
def register? (pool : Pool) (t : Temp) : Option Register :=
  (pool.bound.find? (·.1 == t)).map Prod.snd

/-- The temporary that a register is bound to. -/
def occupant? (pool : Pool) (r : Register) : Option Temp :=
  (pool.occupants.find? (·.1 == r)).map Prod.snd

/-- The reads that a temporary has still before it. -/
def remaining (pool : Pool) (t : Temp) : Nat := pool.reads.getD t 0

/-- Sets the reads that every temporary has before it. -/
def expect (pool : Pool) (reads : Tac.ReadCounts) : Pool := { pool with reads }

/-- Takes the next free register, for a temporary or as scratch. -/
def take (pool : Pool) (t : Option Temp) : Except PoolError (Register × Pool) :=
  match pool.free with
  | [] => .error (.exhausted t poolSize)
  | r :: free => .ok (r, { pool with free, peak := max pool.peak (poolSize - free.length) })

/-- Binds a register to a temporary that has none. -/
def assign (pool : Pool) (t : Temp) : Except PoolError (Register × Pool) :=
  match pool.register? t with
  | some _ => .error (.alreadyBound t)
  | none =>
    match pool.take (some t) with
    | .error e => .error e
    | .ok (r, pool) =>
      .ok (r, { pool with
        bound := (t, r) :: pool.bound
        occupants := (r, t) :: pool.occupants })

/-- Takes the register of a temporary back. -/
def release (pool : Pool) (t : Temp) : Except PoolError (Register × Pool) :=
  match pool.register? t with
  | none => .error (.nothingToRelease t)
  | some r =>
    .ok (r, { pool with
      free := r :: pool.free
      bound := pool.bound.filter (·.1 != t)
      occupants := pool.occupants.filter (·.1 != r) })

/-- Counts a read of a temporary. The last read takes its register back. -/
def countRead (pool : Pool) (t : Temp) : Except PoolError Pool :=
  match pool.register? t with
  | none => .error (.nothingToRelease t)
  | some _ =>
    let left := pool.remaining t - 1
    let pool := { pool with reads := pool.reads.insert t left }
    if left = 0 then (pool.release t).map Prod.snd else .ok pool

/-- The register of a temporary that must have one. -/
def find (pool : Pool) (t : Temp) : Except PoolError Register :=
  match pool.register? t with
  | none => .error (.notBound t)
  | some r => .ok r

/-- Lends a register as scratch. -/
def lend (pool : Pool) : Except PoolError (Register × Pool) :=
  match pool.take none with
  | .error e => .error e
  | .ok (r, pool) => .ok (r, { pool with scratch := r :: pool.scratch })

/-- Takes a scratch register back. -/
def giveBack (pool : Pool) (r : Register) : Except PoolError Pool :=
  if r ∈ pool.scratch then
    .ok { pool with free := r :: pool.free, scratch := pool.scratch.filter (· != r) }
  else .error (.notLent r)

end Pool

end SixReg
