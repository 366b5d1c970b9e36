import SixReg.Proofs.Assembly.Allocation
import SixReg.Proofs.Pool.History

/-!
# One lowerer for many programs

A lowerer that is kept from one program to the next has a history. If a program fails, it leaves
temporaries with registers, a pool whose free registers are in another order, machine instructions
and labels; which register is handed out next depends on all of this. `InPlace` gives lowering write
by write, so that a failure in the middle of an instruction leaves what was written up to there.

* What is written for one instruction is what the function of the same name puts together at its
  end (`InPlace.outcome_lowerOne`), and so for a program (`InPlace.outcome_lowerProgram`). The two
  may differ in what they leave after a failure, and in nothing else.
* Whatever was left, the next program is lowered as by a new lowerer (`reuse_carries_nothing_over`).
-/

namespace SixReg

open Tac

/-! ## Outcomes -/

/-- What a computation comes to, up to the state that a failure leaves. -/
def EStateM.outcome {ε σ α : Type} : EStateM.Result ε σ α → Except ε (α × σ)
  | .ok a s => .ok (a, s)
  | .error e _ => .error e

namespace EStateM

variable {ε σ α β : Type}

theorem outcome_bind (x : EStateM ε σ α) (f : α → EStateM ε σ β) (s : σ) :
    outcome ((x >>= f) s) = outcome (x s) >>= fun (a, t) => outcome (f a t) := by
  cases h : x s with
  | ok a t => rw [bind_of_ok h]; rfl
  | error e t => rw [bind_of_error h]; rfl

end EStateM

namespace Lowerer

/-! ## Lowering in place -/

namespace InPlace

/-- Makes a request of the pool. -/
def onPool {α : Type} (request : Pool.InPlace α) : Lower α := fun l =>
  match request l.pool with
  | .ok a pool => .ok a { l with pool }
  | .error e pool => .error (.ofPool e) { l with pool }

/-- Appends a machine instruction. -/
def push (instr : Instruction) : Lower Unit :=
  modify fun l => { l with instrs := l.instrs.push instr }

/-- Says that a label stands where the next machine instruction will go. The table is written
whether or not the label was there before. -/
def define (label : Label) : Lower Unit := fun l =>
  match l.labels.define label l.instrs.size with
  | (.ok (), labels) => .ok () { l with labels }
  | (.error e, labels) => .error e { l with labels }

/-- The operation that computes a binary operator. -/
def aluOp (op : BinOp) : Lower AluOp :=
  match op.aluOp with
  | .ok op => pure op
  | .error e => throw e

/-- Appends the machine instructions for an instruction. -/
def emit : Instr → Lower Unit
  | .const dst value => do
    let rd ← onPool (.assign dst)
    push (.movImm rd value)
  | .load dst src => do
    push src.select
    let rd ← onPool (.assign dst)
    push (.memRead .load rd)
  | .store dst (.temp src) => do
    let rs1 ← onPool (.find src)
    push dst.select
    push (.memWrite .stor rs1)
  | .store dst (.const value) => do
    let rs1 ← onPool .lend
    push (.movImm rs1 value)
    push dst.select
    push (.memWrite .stor rs1)
    onPool (.giveBack rs1)
  | .binary dst left op right => do
    let op ← aluOp op
    let rs1 ← onPool (.find left)
    match right with
    | .const imm =>
      let rd ← onPool (.assign dst)
      push (.aluImm op rs1 rd imm)
    | .temp right =>
      let rs2 ← onPool (.find right)
      let rd ← onPool (.assign dst)
      push (.alu op rs1 rs2 rd)
  | .not dst (.const imm) => do
    let rd ← onPool (.assign dst)
    push (.aluImm .not .r0 rd imm)
  | .not dst (.temp src) => do
    let rs2 ← onPool (.find src)
    let rd ← onPool (.assign dst)
    push (.alu .not .r0 rs2 rd)
  | .branch left right rel target => do
    let rs1 ← onPool (.find left)
    let rs2 ← onPool (.find right)
    push (.branch rel.branchOp rs1 rs2 (asImmediate target.id))
  | .jump target => push (.jump (asImmediate target.id))
  | .label label => define label
  | .print value => do
    let rs2 ← onPool (.find value)
    push (.alu .mov .r0 rs2 .io)

/-- Counts reads of temporaries, up to the first that has no register. -/
def countReads : List Temp → Lower Unit
  | [] => pure ()
  | t :: ts => do
    onPool (.countRead t)
    countReads ts

/-- Counts the reads of an instruction and frees its result if nobody reads it. -/
def retire (instr : Instr) : Lower Unit := do
  countReads instr.reads
  match instr.result? with
  | none => return
  | some dst =>
    if (← get).pool.remaining dst = 0 then
      let _ ← onPool (.release dst)

/-- Lowers one instruction. -/
def lowerOne (instr : Instr) : Lower Unit := do
  emit instr
  retire instr

/-- Lowers instructions up to the first that fails. -/
def lowerAll : List Instr → Lower Unit
  | [] => pure ()
  | instr :: instrs => do
    lowerOne instr
    lowerAll instrs

/-- Takes the labels and the machine instructions out of the lowerer and resolves the branches. -/
def finish : Lower Lowered := do
  let labels := (← get).labels
  modify fun l => { l with labels := .empty }
  let instrs := (← get).instrs
  modify fun l => { l with instrs := #[] }
  match labels.resolve instrs.toList with
  | (.error e, _) => throw e
  | (.ok (), instrs) => return ⟨instrs, labels, (← get).pool.peak⟩

/-- Lowers a program. -/
def lowerProgram (code : Code) : Lower Lowered := do
  modify fun l => { l with pool := .start }
  modify fun l => { l with instrs := #[] }
  modify fun l => { l with labels := .empty }
  modify fun l => { l with pool := l.pool.expect code.readCounts }
  lowerAll code.instrs
  finish

/-! ## What is written in place -/

variable {α : Type} {l : Lowerer} {instr : Instr}

theorem outcome_push (instr : Instruction) (next : Unit → Lower α) (l : Lowerer) :
    EStateM.outcome ((push instr >>= next) l) =
      EStateM.outcome (next () { l with instrs := l.instrs.push instr }) := rfl

theorem outcome_aluOp (op : BinOp) (next : AluOp → Lower α) (l : Lowerer) :
    EStateM.outcome ((aluOp op >>= next) l) =
      op.aluOp >>= fun op => EStateM.outcome (next op l) := by
  rw [EStateM.outcome_bind, aluOp]
  cases op.aluOp <;> rfl

/-- A request in place does to the pool of a lowerer what the function of the same name does. -/
theorem outcome_onPool {β : Type} {request : Pool.InPlace β} {reply : Except PoolError (β × Pool)}
    (h : request l.pool = Pool.settle l.pool reply) (next : β → Lower α) :
    EStateM.outcome ((onPool request >>= next) l) =
      reply.mapError .ofPool >>= fun (b, pool) =>
        EStateM.outcome (next b { l with pool }) := by
  rw [EStateM.outcome_bind, onPool, h]
  cases reply <;> rfl

theorem outcome_assign (t : Temp) (next : Register → Lower α) (l : Lowerer) :
    EStateM.outcome ((onPool (.assign t) >>= next) l) =
      (l.pool.assign t).mapError .ofPool >>= fun (r, pool) =>
        EStateM.outcome (next r { l with pool }) :=
  outcome_onPool (Pool.InPlace.assign_apply t l.pool) next

theorem outcome_find (t : Temp) (next : Register → Lower α) (l : Lowerer) :
    EStateM.outcome ((onPool (.find t) >>= next) l) =
      (l.pool.find t).mapError .ofPool >>= fun r =>
        EStateM.outcome (next r l) := by
  rw [outcome_onPool (Pool.InPlace.find_apply t l.pool)]
  cases l.pool.find t <;> rfl

theorem outcome_lend (next : Register → Lower α) (l : Lowerer) :
    EStateM.outcome ((onPool .lend >>= next) l) =
      l.pool.lend.mapError .ofPool >>= fun (r, pool) =>
        EStateM.outcome (next r { l with pool }) :=
  outcome_onPool (Pool.InPlace.lend_apply l.pool) next

theorem outcome_giveBack (r : Register) (l : Lowerer) :
    EStateM.outcome (onPool (.giveBack r) l) =
      (l.pool.giveBack r).mapError .ofPool >>= fun pool =>
        pure ((), { l with pool }) := by
  rw [← bind_pure (onPool (.giveBack r)),
    outcome_onPool (Pool.InPlace.giveBack_apply r l.pool)]
  cases l.pool.giveBack r <;> rfl

theorem outcome_countRead (t : Temp) (next : Unit → Lower α) (l : Lowerer) :
    EStateM.outcome ((onPool (.countRead t) >>= next) l) =
      (l.pool.countRead t).mapError .ofPool >>= fun pool =>
        EStateM.outcome (next () { l with pool }) := by
  rw [outcome_onPool (Pool.InPlace.countRead_apply t l.pool)]
  cases l.pool.countRead t <;> rfl

/-- What is appended is what is selected. -/
theorem outcome_emit (instr : Instr) (l : Lowerer) :
    EStateM.outcome (emit instr l) = do
      let labels ← l.labelsAfter instr
      let (chunk, pool) ← instr.select l.pool
      return ((), ⟨l.instrs ++ chunk, pool, labels⟩) := by
  cases instr with
  | const dst value | load dst value =>
      simp only [emit, Instr.select, outcome_push, outcome_assign, bind_assoc, pure_bind]
      rfl
  | store dst src =>
      cases src with
      | temp src =>
          simp only [emit, Instr.select, outcome_find, bind_assoc, pure_bind]
          rfl
      | const value =>
          simp only [emit, Instr.select, outcome_lend, outcome_push, outcome_giveBack, bind_assoc,
            pure_bind]
          rfl
  | binary dst left op right =>
      cases right with
      | const imm | temp right =>
          simp only [emit, Instr.select, outcome_aluOp, outcome_find, outcome_assign, bind_assoc,
            pure_bind]
          rfl
  | not dst src =>
      cases src with
      | const imm | temp src =>
          simp only [emit, Instr.select, outcome_find, outcome_assign, bind_assoc, pure_bind]
          rfl
  | branch left right rel target =>
      simp only [emit, Instr.select, outcome_find, bind_assoc, pure_bind]
      rfl
  | jump target => rfl
  | label label =>
      simp only [emit, define, labelsAfter]
      rcases l.labels.define label l.instrs.size with ⟨_ | _, labels⟩ <;> rfl
  | print value =>
      simp only [emit, Instr.select, outcome_find, bind_assoc, pure_bind]
      rfl

theorem outcome_countReads (temps : List Temp) (next : Unit → Lower α) (l : Lowerer) :
    EStateM.outcome ((countReads temps >>= next) l) =
      (temps.foldlM Pool.countRead l.pool).mapError .ofPool >>= fun pool =>
        EStateM.outcome (next () { l with pool }) := by
  induction temps generalizing l with
  | nil => rfl
  | cons t temps ih =>
      simp only [countReads, bind_assoc, outcome_countRead, ih, List.foldlM_cons]
      cases l.pool.countRead t <;> rfl

theorem outcome_retire (instr : Instr) (l : Lowerer) :
    EStateM.outcome (retire instr l) =
      (instr.retire l.pool).mapError .ofPool >>= fun pool => pure ((), { l with pool }) := by
  rw [retire, outcome_countReads, Instr.retire]
  cases instr.reads.foldlM Pool.countRead l.pool with
  | error e => rfl
  | ok pool =>
      cases instr.result? with
      | none => rfl
      | some dst =>
          show EStateM.outcome ((if pool.remaining dst = 0 then
            onPool (.release dst) >>= fun _ => pure () else pure () : Lower Unit) { l with pool }) =
            Except.mapError .ofPool (if pool.remaining dst = 0 then
              (pool.release dst).map Prod.snd else pure pool) >>= _
          split
          · rw [outcome_onPool (Pool.InPlace.release_apply dst pool)]
            cases pool.release dst <;> rfl
          · rfl

/-- **One instruction is lowered as it is written in place.** -/
theorem outcome_lowerOne (instr : Instr) (l : Lowerer) :
    EStateM.outcome (lowerOne instr l) = EStateM.outcome (Lowerer.lowerOne instr l) := by
  have hwhole : EStateM.outcome (Lowerer.lowerOne instr l) =
      l.advance instr >>= fun (chunk, pool, labels) =>
        pure ((), ⟨l.instrs ++ chunk, pool, labels⟩) := by
    rw [Lowerer.lowerOne]
    cases l.advance instr <;> rfl
  simp only [lowerOne, EStateM.outcome_bind, outcome_emit, outcome_retire, hwhole, advance,
    bind_assoc, pure_bind]

theorem outcome_lowerAll (instrs : List Instr) (l : Lowerer) :
    EStateM.outcome (lowerAll instrs l) = EStateM.outcome (Lowerer.lowerAll instrs l) := by
  induction instrs generalizing l with
  | nil => rfl
  | cons instr instrs ih =>
      simp only [lowerAll, Lowerer.lowerAll, EStateM.outcome_bind, outcome_lowerOne, ih]

/-- **A program is lowered as it is written in place**, whatever the lowerer holds. -/
theorem outcome_lowerProgram (code : Code) (l : Lowerer) :
    EStateM.outcome (lowerProgram code l) = EStateM.outcome (Lowerer.lowerProgram code l) := by
  rw [lowerProgram_apply]
  show EStateM.outcome ((lowerAll code.instrs >>= fun _ => finish) (l.restart code)) = _
  rw [EStateM.outcome_bind, outcome_lowerAll]
  cases Lowerer.lowerAll code.instrs (l.restart code) with
  | error e l => rfl
  | ok _ l =>
      show EStateM.outcome ((match l.labels.resolve l.instrs.toList with
        | (.error e, _) => throw e
        | (.ok (), instrs) => get >>= fun l' => pure ⟨instrs, l.labels, l'.pool.peak⟩ :
          Lower Lowered) { l with instrs := #[], labels := .empty }) = _
      simp only
      rcases l.labels.resolve l.instrs.toList with ⟨_ | _, instrs⟩ <;> rfl

end InPlace

/-! ## Many programs -/

/-- What a lowerer makes of programs that it is given one after the other, whatever becomes of
each. -/
def session (lower : Code → Lower Lowered) :
    List Code → Lowerer → List (Except CompileError Lowered)
  | [], _ => []
  | code :: codes, l =>
    match lower code l with
    | .ok lowered l => .ok lowered :: session lower codes l
    | .error e l => .error e :: session lower codes l

/-- Whatever a lowerer holds, it makes of a program what a new one makes of it. -/
theorem outcome_lowerProgram (code : Code) (l : Lowerer) :
    (EStateM.outcome (lowerProgram code l)).map Prod.fst = code.lower := by
  rw [Code.lower, lowerProgram_apply, restart_eq, ← lowerProgram_apply]
  cases lowerProgram code .empty <;> rfl

theorem session_eq {lower : Code → Lower Lowered}
    (h : ∀ code l, (EStateM.outcome (lower code l)).map Prod.fst = code.lower)
    (codes : List Code) (l : Lowerer) : session lower codes l = codes.map Code.lower := by
  induction codes generalizing l with
  | nil => rfl
  | cons code codes ih =>
      rw [session, List.map_cons, ← h code l]
      cases lower code l with
      | ok lowered l' | error e l' => exact congrArg (List.cons _) (ih l')

/-- **A lowerer carries nothing over.** Take any lowerer, in whatever state, and give it any
programs one after the other, of which any may fail at any of its instructions or when its branches
are resolved. Each comes to what lowering it alone comes to: the same machine instructions, labels
and peak, or the same error. This holds for lowering as a whole and write by write, where a failure
leaves an instruction half done. -/
theorem reuse_carries_nothing_over (codes : List Code) (l : Lowerer) :
    session lowerProgram codes l = codes.map Code.lower ∧
      session InPlace.lowerProgram codes l = codes.map Code.lower := by
  refine ⟨session_eq outcome_lowerProgram codes l, session_eq ?_ codes l⟩
  intro code l
  rw [InPlace.outcome_lowerProgram, outcome_lowerProgram]

/-- Six values are held when a seventh is loaded. This fails, and what it leaves is no free register
and the first half of the load; the next program is lowered all the same. -/
theorem reuse_carries_nothing_over_leftovers :
    let crowded : Code := ⟨(List.range 6).map (fun i => .const ⟨i⟩ i) ++
      .load ⟨6⟩ ⟨"x", 0⟩ :: (List.range 7).map (fun i => .print ⟨i⟩), []⟩
    let small : Code := ⟨[.const ⟨0⟩ 1, .print ⟨0⟩], []⟩
    (match InPlace.lowerProgram crowded .empty with
      | .ok _ l | .error _ l => (l.pool.free, l.pool.bound.length, l.instrs.size)) = ([], 6, 7) ∧
    (session InPlace.lowerProgram [crowded, small] .empty).map Except.isOk = [false, true] := by
  intro crowded small
  refine ⟨by decide +kernel, ?_⟩
  rw [(reuse_carries_nothing_over [crowded, small] .empty).2]
  decide +kernel

end Lowerer

end SixReg
