import SixReg.Proofs.Assembly.Image
import SixReg.Proofs.Tac.Locality

/-!
# Assembled code does what three-address code does

A machine mirrors a state of three-address code if it is at the place of the next instruction, its
memory holds the slots, and the register of each temporary that was written since the last label
holds its value (`Mirrors`). Registers are handed out in the order of the text, while control goes
where the branches lead; but in front of a label nothing is asked of the registers, and
block-local code reads nothing there that was written before.

Each instruction is matched by its chunk, and a label by no step at all. Hence block-local code
and its image behave alike (`code_simulation`, `assemble_preserves_meaning`).
-/

namespace SixReg

open Tac

/-! ## Operators -/

/-- The arithmetic unit computes the operators. -/
theorem Arith.aluOp_apply (op : Arith) (a b : Word) :
    op.aluOp.apply a b = (op.onWords a b).toOption := by
  have hdiv : a.sdiv b = .ofInt 16 (a.toInt.tdiv b.toInt) := by
    apply BitVec.eq_of_toInt_eq
    rw [BitVec.toInt_sdiv, BitVec.toInt_ofInt]
  have hrem : a.srem b = .ofInt 16 (a.toInt.tmod b.toInt) := by
    rw [← BitVec.toInt_srem, BitVec.ofInt_toInt]
  cases op <;> simp only [aluOp, AluOp.apply, onWords, Except.toOption, hdiv, hrem] <;>
    split <;> rfl

/-- A branch is taken when its relation holds. -/
theorem Relation.branchOp_taken (rel : Relation) (a b : Word) :
    rel.branchOp.taken a b = rel.onWords a b := by
  rw [Bool.eq_iff_iff]
  cases rel <;> simp [branchOp, BranchOp.taken, onWords, BitVec.sle, BitVec.slt]

/-! ## Steps of the machine -/

/-- A register is set, and control goes on. -/
structure Machine.Sets (m : Machine) (rd : Register) (value : Word) (m' : Machine) : Prop where
  pc : m'.pc = m.pc + wordsPerInstruction
  output : m'.output = if rd = .io then m.output.push value else m.output
  memory : m'.memory = m.memory
  register : ∀ r, m'.register r = if r = rd then value else m.register r

theorem Machine.sets_write (m : Machine) (rd : Register) (value : Word) (steps : Nat) :
    m.Sets rd value { (m.write rd value).next with steps } where
  pc := congrArg (· + wordsPerInstruction) pc_write
  output := output_write
  memory := memory_write
  register _ := register_write

section Steps

variable {code : Code} {image : Image} {l : Lowerer} {j : Nat} {m : Machine} {rd rs rs' : Register}
  {op : AluOp}

theorem Assembled.fetch (ha : Assembled code image l) {instr : Instruction}
    (hj : l.instrs.toList[j]? = some instr) (hi : instr.target? = none) :
    Fetches image l.labels j instr instr := by
  obtain ⟨resolved, hf⟩ := ha.fetches hj
  exact hf.eq_of_target? hi ▸ hf

/-- The arithmetic unit sets a register, unless it divides by zero. -/
theorem Assembled.step_calculate (ha : Assembled code image l) {instr : Instruction} {a b : Word}
    (hj : l.instrs.toList[j]? = some instr) (hi : instr.target? = none)
    (hpc : m.pc = j * wordsPerInstruction)
    (hcalc : Machine.step (Machine.stopOf image) instr m = Machine.calculate op a b rd m) :
    match op.apply a b with
    | some value => ∃ m', (Machine.system image).step m = .next m' ∧ m.Sets rd value m'
    | none => (Machine.system image).step m = .fail (.divisionByZero m.pc) := by
  unfold Machine.calculate at hcalc
  cases hv : op.apply a b with
  | none =>
      rw [hv] at hcalc
      exact (ha.fetch hj hi).fail hpc hcalc
  | some value =>
      rw [hv] at hcalc
      exact ⟨_, (ha.fetch hj hi).next hpc hcalc, m.sets_write rd value _⟩

/-- A slot that could be encoded is an address. -/
theorem Assembled.slot_lt (ha : Assembled code image l) {x : Symbol}
    (hj : l.instrs.toList[j]? = some x.select) : x.slot < memorySize := by
  have hf := ha.fetch hj rfl
  have hmin : 0 ≤ asImmediate x.slot := hf.min
  have hmax : asImmediate x.slot ≤ maxImmediate := hf.max
  rw [asImmediate_of_nonneg hmin] at hmax
  unfold maxImmediate at hmax
  unfold memorySize
  omega

/-- The slot of a variable goes to the address register. -/
theorem Assembled.step_select (ha : Assembled code image l) {x : Symbol}
    (hj : l.instrs.toList[j]? = some x.select) (hpc : m.pc = j * wordsPerInstruction) :
    ∃ m' word, (Machine.system image).step m = .next m' ∧ m.Sets .mar word m' ∧
      ∃ h : x.slot < memorySize, m'.address? = some ⟨x.slot, h⟩ := by
  have hf := ha.fetch hj rfl
  have hmin : 0 ≤ asImmediate x.slot := hf.min
  obtain ⟨m', hstep, hsets⟩ := ha.step_calculate hj rfl hpc (Machine.step_aluImm ..)
  have hword : (m'.register .mar).toNat = x.slot := by
    have himm := toNat_ofInt_immediate hmin hf.max
    rw [hsets.register, if_pos rfl]
    rw [asImmediate_of_nonneg hmin] at himm ⊢
    exact Int.ofNat.inj himm
  have hslot := ha.slot_lt hj
  refine ⟨m', _, hstep, hsets, hslot, ?_⟩
  simp [Machine.address?, hword, hslot]

theorem Assembled.step_load (ha : Assembled code image l)
    (hj : l.instrs.toList[j]? = some (.memRead .load rd)) (hpc : m.pc = j * wordsPerInstruction)
    {i : Fin memorySize} (hi : m.address? = some i) :
    ∃ m', (Machine.system image).step m = .next m' ∧ m.Sets rd m.memory[i] m' := by
  refine ⟨_, (ha.fetch hj rfl).next hpc ?_, m.sets_write rd _ _⟩
  simp only [Machine.step, hi]

/-- A word of memory is set, and control goes on. -/
structure Machine.Stores (m : Machine) (i : Fin memorySize) (value : Word) (m' : Machine) :
    Prop where
  pc : m'.pc = m.pc + wordsPerInstruction
  output : m'.output = m.output
  memory : m'.memory = m.memory.set i value
  register : ∀ r, m'.register r = m.register r

theorem Assembled.step_stor (ha : Assembled code image l)
    (hj : l.instrs.toList[j]? = some (.memWrite .stor rs)) (hpc : m.pc = j * wordsPerInstruction)
    {i : Fin memorySize} (hi : m.address? = some i) :
    ∃ m', (Machine.system image).step m = .next m' ∧ m.Stores i (m.register rs) m' := by
  have hstep : Machine.step (Machine.stopOf image) (.memWrite .stor rs) m =
      .ok () ({ m with memory := m.memory.set i (m.register rs) } : Machine).next := by
    simp only [Machine.step, hi]
  exact ⟨_, (ha.fetch hj rfl).next hpc hstep, rfl, rfl, rfl, fun _ => rfl⟩

/-- A register is stored in the slot of a variable. -/
theorem Assembled.after_store (ha : Assembled code image l) {x : Symbol}
    (hat : CodeAt l.instrs.toList j [x.select, .memWrite .stor rs])
    (hpc : m.pc = j * wordsPerInstruction) (hrs : rs ≠ .mar) :
    ∃ m', ∃ h : x.slot < memorySize, (Machine.system image).after 2 m = some m' ∧
      m'.pc = m.pc + 2 * wordsPerInstruction ∧ m'.output = m.output ∧
      m'.memory = m.memory.set x.slot (m.register rs) ∧
      ∀ r, r ≠ .mar → m'.register r = m.register r := by
  obtain ⟨hselect, hat⟩ := codeAt_cons.mp hat
  obtain ⟨hstore, -⟩ := codeAt_cons.mp hat
  obtain ⟨m₁, word, hstep, hsets, hslot, haddress⟩ := ha.step_select hselect hpc
  have hpc₁ : m₁.pc = (j + 1) * wordsPerInstruction := by rw [hsets.pc, hpc, Nat.succ_mul]
  obtain ⟨m₂, hstep₂, hstores⟩ := ha.step_stor hstore hpc₁ haddress
  refine ⟨m₂, hslot, ?_, ?_, hstores.output.trans hsets.output, ?_, ?_⟩
  · rw [System.after_succ_of_next hstep, System.after_succ_of_next hstep₂]
    rfl
  · rw [hstores.pc, hsets.pc, Nat.add_assoc, Nat.two_mul]
  · rw [hstores.memory, hsets.register, if_neg hrs, hsets.memory]
  · intro r hr
    rw [hstores.register, hsets.register, if_neg hr]

end Steps

/-! ## Mirrored states -/

/-- The temporaries whose registers can be relied on in front of instruction `n`: those that were
written since the last label, and none in front of a label, where a jump may lead. -/
def Tac.entryLocals (instrs : List Instr) (n : Nat) : List Temp :=
  match instrs[n]? with
  | some (.label _) => []
  | _ => locals (instrs.take n)

theorem Tac.mem_locals_of_mem_entryLocals {instrs : List Instr} {n : Nat} {t : Temp}
    (h : t ∈ entryLocals instrs n) : t ∈ locals (instrs.take n) := by
  unfold entryLocals at h
  split at h
  · cases h
  · exact h

/-- The machine is where the code is, its memory holds the slots, and its registers hold the
temporaries that can be read. -/
structure Mirrors (code : Code) (s : Tac.State Word) (m : Machine) : Prop where
  pc_le : s.pc ≤ code.instrs.length
  pc : m.pc = place code.instrs s.pc * wordsPerInstruction
  output : s.output = m.output.toList
  memory : ∀ i : Fin memorySize, m.memory[i] = s.slots i
  registers : ∀ {l}, Lowerer.lowerAll (code.instrs.take s.pc) (Lowerer.empty.restart code) =
    .ok () l → ∀ {t r}, t ∈ entryLocals code.instrs s.pc → l.pool.register? t = some r →
      m.register r = s.temps t

theorem mirrors_start (code : Code) (temps : Temp → Word) :
    Mirrors code (.start temps fun _ => 0) .start where
  pc_le := Nat.zero_le _
  pc := rfl
  output := rfl
  memory i := by
    show (Vector.replicate memorySize (0 : Word))[i] = 0
    simp
  registers {l} _ {t r} ht := by
    have hmem := mem_locals_of_mem_entryLocals ht
    simp [State.start] at hmem

namespace Mirrors

variable {code : Code} {image : Image} {l : Lowerer} {s s' : Tac.State Word} {m m' : Machine}
  {instr : Instr} {chunk : List Instruction} {before after : Pool} {t dst : Temp}
  {r rd rs : Register} {value : Word}

/-- The register of a temporary that was written since the last label holds its value. -/
theorem register_eq (hm : Mirrors code s m) (ha : Assembled code image l)
    (hc : Chunk code l s.pc instr chunk before after) (hlabel : instr.label? = none)
    (ht : t ∈ locals (code.instrs.take s.pc)) (hr : before.register? t = some r) :
    m.register r = s.temps t := by
  obtain ⟨l₁, hl₁, -⟩ := ha.exists_take s.pc
  refine hm.registers hl₁ ?_ (hc.before_eq hl₁ ▸ hr)
  unfold entryLocals
  rw [hc.instr_eq]
  cases instr with
  | label place => cases hlabel
  | const | load | store | binary | not | branch | jump | print => exact ht

/-- The registers of the operands hold their values. -/
theorem operand_eq (hm : Mirrors code s m) (ha : Assembled code image l)
    (hb : BlockLocal code.instrs) (hc : Chunk code l s.pc instr chunk before after)
    (ht : t ∈ instr.reads) (hr : before.register? t = some r) : m.register r = s.temps t := by
  obtain ⟨hlt, hget⟩ := List.getElem?_eq_some_iff.mp hc.instr_eq
  have hsplit : code.instrs =
      code.instrs.take s.pc ++ instr :: code.instrs.drop (s.pc + 1) := by
    rw [← hget, List.getElem_cons_drop, List.take_append_drop]
  have hlabel : instr.label? = none := by
    cases instr with
    | label place => cases ht
    | const | load | store | binary | not | branch | jump | print => rfl
  exact hm.register_eq ha hc hlabel (hb _ _ _ hsplit t ht) hr

/-- Behind an instruction that control goes through. -/
theorem advance (hm : Mirrors code s m) (hc : Chunk code l s.pc instr chunk before after)
    (hpc : s'.pc = s.pc + 1) (hpc' : m'.pc = m.pc + instr.width * wordsPerInstruction)
    (hout : s'.output = m'.output.toList) (hmem : ∀ i : Fin memorySize, m'.memory[i] = s'.slots i)
    (hreg : ∀ {t r}, t ∈ instr.extendLocals (locals (code.instrs.take s.pc)) →
      after.register? t = some r → m'.register r = s'.temps t) : Mirrors code s' m' where
  pc_le := by
    rw [hpc]
    exact (List.getElem?_eq_some_iff.mp hc.instr_eq).1
  pc := by rw [hpc', hm.pc, hpc, place_succ hc.instr_eq, Nat.add_mul]
  output := hout
  memory := hmem
  registers {l₂} hl₂ {t r} ht hr := by
    rw [hpc] at hl₂ ht
    refine hreg ?_ (hc.after_eq hl₂ hr)
    have hlocals := mem_locals_of_mem_entryLocals ht
    rwa [take_succ hc.instr_eq, locals_concat] at hlocals

/-- An instruction that is no label adds its result to the temporaries that can be read. -/
theorem mem_of_extendLocals {temps : List Temp} (h : t ∈ instr.extendLocals temps) :
    instr.label? = none ∧ (instr.result? = some t ∨ t ∈ temps) := by
  cases instr with
  | label place => cases h
  | const | load | store | binary | not | branch | jump | print =>
      simpa [Instr.extendLocals, Instr.label?, Instr.result?, eq_comm] using h

/-- A result is set in its register, and no other register of a temporary changes: the one that
the result got was free. -/
theorem define (hm : Mirrors code s m) (ha : Assembled code image l)
    (hc : Chunk code l s.pc instr chunk before after) (hdst : instr.result? = some dst)
    (hd : before.assign dst = .ok (rd, after))
    (hpc : m'.pc = m.pc + instr.width * wordsPerInstruction) (hout : m'.output = m.output)
    (hmem : m'.memory = m.memory) (hrd : m'.register rd = value)
    (hkeep : ∀ r ∈ Register.general, r ≠ rd → m'.register r = m.register r) :
    Mirrors code (s.define dst value) m' := by
  refine hm.advance hc rfl hpc ?_ ?_ ?_
  · rw [hout]
    exact hm.output
  · intro i
    rw [hmem]
    exact hm.memory i
  · intro t r ht hr
    obtain ⟨hlabel, hmem⟩ := mem_of_extendLocals ht
    rw [Pool.register?_assign hd] at hr
    show m'.register r = Function.update s.temps dst value t
    by_cases heq : t = dst
    · subst heq
      rw [if_pos rfl] at hr
      cases hr
      rw [Function.update_self, hrd]
    · rw [if_neg heq] at hr
      have hlocal : t ∈ locals (code.instrs.take s.pc) := by
        refine hmem.resolve_left fun hres => heq ?_
        exact Option.some.inj (hres.symm.trans hdst)
      have hconsistent := hc.tracks.consistent
      have hne : r ≠ rd := hconsistent.ne_of_free (Pool.mem_free_of_assign hd) hr
      rw [Function.update_of_ne heq, hkeep r (hconsistent.mem_general_of_register? hr) hne]
      exact hm.register_eq ha hc hlabel hlocal hr

/-- An instruction without a result leaves the registers of temporaries alone. -/
theorem keep (hm : Mirrors code s m) (ha : Assembled code image l)
    (hc : Chunk code l s.pc instr chunk before after) (hnone : instr.result? = none)
    (hpc : s'.pc = s.pc + 1) (htemps : s'.temps = s.temps)
    (hpc' : m'.pc = m.pc + instr.width * wordsPerInstruction)
    (hout : s'.output = m'.output.toList) (hmem : ∀ i : Fin memorySize, m'.memory[i] = s'.slots i)
    (hkeep : ∀ {t r}, before.register? t = some r → m'.register r = m.register r) :
    Mirrors code s' m' := by
  refine hm.advance hc hpc hpc' hout hmem ?_
  intro t r ht hr
  obtain ⟨hlabel, hmem⟩ := mem_of_extendLocals ht
  rw [hc.selected.register?_of_ne (by simp [hnone])] at hr
  rw [hkeep hr, htemps]
  refine hm.register_eq ha hc hlabel (hmem.resolve_left ?_) hr
  simp [hnone]

/-- In front of a label, where a jump leads, nothing is asked of the registers. -/
theorem jump (hm : Mirrors code s m) {target : Label} {p : Nat}
    (hp : position? code.instrs target = some p)
    (hpc : m'.pc = place code.instrs p * wordsPerInstruction) (hout : m'.output = m.output)
    (hmem : m'.memory = m.memory) : Mirrors code { s with pc := p } m' := by
  have hget := getElem?_of_position? hp
  refine ⟨?_, hpc, ?_, ?_, ?_⟩
  · exact Nat.le_of_lt (List.getElem?_eq_some_iff.mp hget).1
  · rw [hout]
    exact hm.output
  · intro i
    rw [hmem]
    exact hm.memory i
  · intro l₁ _ t r ht
    simp only [entryLocals, hget] at ht
    cases ht

end Mirrors

/-! ## One instruction -/

section Answers

variable {code : Code} {image : Image} {l : Lowerer} {s : Tac.State Word} {m m' : Machine}
  {instr : Instr} {i : Instruction} {chunk : List Instruction} {before after : Pool} {dst : Temp}
  {rd : Register} {a b value : Word}

theorem Register.ne_of_general {r : Register} (h : r ∈ Register.general) : r ≠ .mar ∧ r ≠ .io := by
  revert r
  decide

/-- How the machine answers one instruction of the code. -/
def AnswersCode (code : Code) (image : Image) (s : Tac.State Word) (m : Machine) :
    Except (Failure ArithmeticError) (Tac.State Word) → Prop
  | .ok s' => ∃ k m', (Machine.system image).after k m = some m' ∧ Mirrors code s' m' ∧
      (k = 0 → s'.pc = s.pc + 1)
  | .error e => e = .operator .divisionByZero ∧
      ∃ pc, (Machine.system image).Fails m m (.divisionByZero pc)

/-- A chunk of one instruction that sets the register of the result. -/
theorem answers_define (hm : Mirrors code s m) (ha : Assembled code image l)
    (hc : Chunk code l s.pc instr chunk before after) (hdst : instr.result? = some dst)
    (hwidth : instr.width = 1) (hd : before.assign dst = .ok (rd, after))
    (hstep : (Machine.system image).step m = .next m') (hsets : m.Sets rd value m') :
    AnswersCode code image s m (.ok (s.define dst value)) := by
  have hgeneral := hc.tracks.consistent.mem_general_of_free (Pool.mem_free_of_assign hd)
  refine ⟨1, m', System.after_succ_of_next hstep 0, ?_, fun h => absurd h (Nat.succ_ne_zero _)⟩
  refine hm.define ha hc hdst hd ?_ ?_ hsets.memory ?_ ?_
  · rw [hsets.pc, hwidth, Nat.one_mul]
  · rw [hsets.output, if_neg (Register.ne_of_general hgeneral).2]
  · rw [hsets.register, if_pos rfl]
  · intro r _ hr
    rw [hsets.register, if_neg hr]

/-- A chunk of one instruction that computes an operator. -/
theorem answers_binary {op : Arith} (hm : Mirrors code s m) (ha : Assembled code image l)
    (hc : Chunk code l s.pc instr [i] before after) (hdst : instr.result? = some dst)
    (hwidth : instr.width = 1) (hd : before.assign dst = .ok (rd, after))
    (hi : i.target? = none)
    (hcalc : Machine.step (Machine.stopOf image) i m = Machine.calculate op.aluOp a b rd m) :
    AnswersCode code image s m
      ((words.apply (.arith op) a b).map fun value => s.define dst value) := by
  have hstep := ha.step_calculate (codeAt_cons.mp hc.codeAt).1 hi hm.pc hcalc
  rw [op.aluOp_apply] at hstep
  show AnswersCode code image s m (((op.onWords a b).mapError .operator).map _)
  cases hv : op.onWords a b with
  | error e =>
      rw [hv] at hstep
      cases e
      exact ⟨rfl, m.pc, .refl m, hstep⟩
  | ok value =>
      rw [hv] at hstep
      obtain ⟨m', hnext, hsets⟩ := hstep
      exact answers_define hm ha hc hdst hwidth hd hnext hsets

theorem memory_update {memory : Vector Word memorySize} {slots : Nat → Word} {slot : Nat}
    (hslot : slot < memorySize) (h : ∀ i : Fin memorySize, memory[i] = slots i)
    (i : Fin memorySize) :
    (memory.set slot value)[i] = Function.update slots slot value i := by
  by_cases hi : i.val = slot
  · subst hi
    simp
  · rw [Function.update_of_ne hi, ← h i]
    exact Vector.getElem_set_ne hslot i.isLt (Ne.symm hi)

/-- The address in a branch is the place of its label. -/
theorem Assembled.fetch_branch {op : BranchOp} {rs rs' : Register} {target : Label} {j : Nat}
    (ha : Assembled code image l)
    (hj : l.instrs.toList[j]? = some (.branch op rs rs' (asImmediate target.id))) :
    ∃ p, position? code.instrs target = some p ∧
      Fetches image l.labels j (.branch op rs rs' (asImmediate target.id))
        (.branch op rs rs' ↑(place code.instrs p * wordsPerInstruction)) := by
  obtain ⟨resolved, hf⟩ := ha.fetches hj
  have hresolves := hf.resolves
  simp only [LabelTable.resolveOne] at hresolves
  split at hresolves
  · cases hresolves
  · next hneg =>
      have hid : asImmediate target.id = target.id := asImmediate_of_nonneg (Int.not_lt.mp hneg)
      rw [hid, Int.toNat_natCast] at hresolves
      obtain ⟨offset, hoffset, rfl⟩ := Except.map_eq_ok.mp hresolves
      have hlocated := ha.upto.locates target
      rw [List.take_length] at hlocated
      unfold LabelTable.offset at hoffset
      split at hoffset
      · next found hfound =>
          cases hoffset
          obtain ⟨p, hp, hplace⟩ := Option.map_eq_some_iff.mp (hlocated.symm.trans hfound)
          refine ⟨p, hp, ?_⟩
          rw [hplace, ← asImmediate_of_nonneg hf.min]
          exact hf
      · cases hoffset

/-- A branch that is taken goes to the place of its label, and one that is not goes on. -/
theorem Assembled.step_branch {op : BranchOp} {rs rs' : Register} {target : Label} {j : Nat}
    (ha : Assembled code image l)
    (hj : l.instrs.toList[j]? = some (.branch op rs rs' (asImmediate target.id)))
    (hpc : m.pc = j * wordsPerInstruction) :
    ∃ p, position? code.instrs target = some p ∧
      (Machine.system image).step m = .next
        { m with
          pc := if op.taken (m.register rs) (m.register rs')
            then place code.instrs p * wordsPerInstruction else m.pc + wordsPerInstruction
          steps := m.steps + 1 } := by
  obtain ⟨p, hp, hf⟩ := ha.fetch_branch hj
  refine ⟨p, hp, ?_⟩
  have hle : place code.instrs p * wordsPerInstruction ≤ Machine.stopOf image := by
    rw [ha.stopOf_eq]
    exact Nat.mul_le_mul_right _ (place_le_length _ _)
  have heven : place code.instrs p * wordsPerInstruction % wordsPerInstruction = 0 :=
    Nat.mul_mod_left _ _
  split
  · next htaken =>
      have hbranch : Machine.step (Machine.stopOf image)
          (.branch op rs rs' ↑(place code.instrs p * wordsPerInstruction)) m =
            .ok () { m with pc := place code.instrs p * wordsPerInstruction } := by
        simp only [Machine.step, htaken, if_true, Int.toNat_natCast, Machine.goTo]
        rw [if_neg]
        exact fun h => h.elim (Nat.not_lt.mpr hle) fun h => h heven
      exact hf.next hpc hbranch
  · next htaken =>
      have hbranch : Machine.step (Machine.stopOf image)
          (.branch op rs rs' ↑(place code.instrs p * wordsPerInstruction)) m = .ok () m.next := by
        simp [Machine.step, htaken]
      exact hf.next hpc hbranch

theorem answers_goTo {op : BranchOp} {rs rs' : Register} {target : Label}
    (hm : Mirrors code s m) (ha : Assembled code image l)
    (hc : Chunk code l s.pc instr [.branch op rs rs' (asImmediate target.id)] before after)
    (htaken : op.taken (m.register rs) (m.register rs') = true) :
    AnswersCode code image s m (goTo code.instrs target s) := by
  obtain ⟨p, hp, hstep⟩ := ha.step_branch (codeAt_cons.mp hc.codeAt).1 hm.pc
  rw [if_pos htaken] at hstep
  simp only [goTo, hp]
  refine ⟨1, _, System.after_succ_of_next hstep 0, ?_, fun h => absurd h (Nat.succ_ne_zero _)⟩
  exact hm.jump hp rfl rfl rfl

theorem answers_next {op : BranchOp} {rs rs' : Register} {target : Label}
    (hm : Mirrors code s m) (ha : Assembled code image l)
    (hc : Chunk code l s.pc instr [.branch op rs rs' (asImmediate target.id)] before after)
    (hnone : instr.result? = none) (hwidth : instr.width = 1)
    (htaken : op.taken (m.register rs) (m.register rs') = false) :
    AnswersCode code image s m (.ok s.next) := by
  obtain ⟨p, hp, hstep⟩ := ha.step_branch (codeAt_cons.mp hc.codeAt).1 hm.pc
  rw [if_neg (by simp [htaken])] at hstep
  refine ⟨1, _, System.after_succ_of_next hstep 0, ?_, fun h => absurd h (Nat.succ_ne_zero _)⟩
  refine hm.keep ha hc hnone rfl rfl ?_ hm.output hm.memory fun _ => rfl
  rw [hwidth, Nat.one_mul]

/-- **The machine answers every instruction** of block-local code with the chunk of that
instruction. -/
theorem answers_exec (hm : Mirrors code s m) (ha : Assembled code image l)
    (hb : BlockLocal code.instrs) (hi : code.instrs[s.pc]? = some instr) :
    AnswersCode code image s m (exec words code.instrs s instr) := by
  obtain ⟨chunk, before, after, hc⟩ := ha.exists_chunk hi
  have hconsistent := hc.tracks.consistent
  have hoperand : ∀ t ∈ instr.reads, ∀ r, before.register? t = some r →
      m.register r = s.temps t := fun t ht r hr => hm.operand_eq ha hb hc ht hr
  have hkept : ∀ {t r}, before.register? t = some r → r ≠ .mar := fun hr =>
    (Register.ne_of_general (hconsistent.mem_general_of_register? hr)).1
  cases hc.selected with
  | @const dst value rd _ hd =>
      obtain ⟨m', hstep, hsets⟩ :=
        ha.step_calculate (codeAt_cons.mp hc.codeAt).1 rfl hm.pc (Machine.step_aluImm ..)
      exact answers_define hm ha hc rfl rfl hd hstep hsets
  | @load dst src rd _ hd =>
      obtain ⟨hselect, hat⟩ := codeAt_cons.mp hc.codeAt
      obtain ⟨hload, -⟩ := codeAt_cons.mp hat
      obtain ⟨m₁, word, hstep, hsets, hslot, haddress⟩ := ha.step_select hselect hm.pc
      have hpc₁ : m₁.pc = (place code.instrs s.pc + 1) * wordsPerInstruction := by
        rw [hsets.pc, hm.pc, Nat.succ_mul]
      obtain ⟨m₂, hstep₂, hsets₂⟩ := ha.step_load hload hpc₁ haddress
      have hgeneral := hconsistent.mem_general_of_free (Pool.mem_free_of_assign hd)
      refine ⟨2, m₂, ?_, ?_, fun h => absurd h (Nat.succ_ne_zero _)⟩
      · rw [System.after_succ_of_next hstep, System.after_succ_of_next hstep₂]
        rfl
      · refine hm.define ha hc rfl hd ?_ ?_ ?_ ?_ ?_
        · rw [hsets₂.pc, hsets.pc, Nat.add_assoc]
          rfl
        · rw [hsets₂.output, if_neg (Register.ne_of_general hgeneral).2, hsets.output]
          rfl
        · rw [hsets₂.memory, hsets.memory]
        · rw [hsets₂.register, if_pos rfl, hsets.memory]
          exact hm.memory ⟨src.slot, hslot⟩
        · intro r hr hne
          rw [hsets₂.register, if_neg hne, hsets.register, if_neg (Register.ne_of_general hr).1]
  | @store dst src rs hs =>
      obtain ⟨m', hslot, hafter, hpc, hout, hmem, hkeep⟩ :=
        ha.after_store hc.codeAt hm.pc (hkept hs)
      refine ⟨2, m', hafter, ?_, fun h => absurd h (Nat.succ_ne_zero _)⟩
      refine hm.keep ha hc rfl rfl rfl hpc ?_ ?_ fun hr => hkeep _ (hkept hr)
      · rw [hout]
        exact hm.output
      · rw [hmem, hoperand src (.head _) rs hs]
        exact memory_update hslot hm.memory
  | @storeConst dst value rs free hf =>
      obtain ⟨hmov, hat⟩ := codeAt_cons.mp hc.codeAt
      obtain ⟨m₁, hstep, hsets⟩ := ha.step_calculate hmov rfl hm.pc (Machine.step_aluImm ..)
      have hpc₁ : m₁.pc = (place code.instrs s.pc + 1) * wordsPerInstruction := by
        rw [hsets.pc, hm.pc, Nat.succ_mul]
      -- the register that is borrowed was free, so it is no temporary's
      have hfree : rs ∈ before.free := by
        rw [hf]
        exact .head _
      have hgeneral := Register.ne_of_general (hconsistent.mem_general_of_free hfree)
      obtain ⟨m', hslot, hafter, hpc, hout, hmem, hkeep⟩ := ha.after_store hat hpc₁ hgeneral.1
      refine ⟨3, m', ?_, ?_, fun h => absurd h (Nat.succ_ne_zero _)⟩
      · rw [System.after_succ_of_next hstep, hafter]
      · refine hm.keep ha hc rfl rfl rfl ?_ ?_ ?_ ?_
        · rw [hpc, hsets.pc, Nat.add_assoc]
          rfl
        · rw [hout, hsets.output, if_neg hgeneral.2]
          exact hm.output
        · rw [hmem, hsets.memory, hsets.register, if_pos rfl]
          exact memory_update hslot hm.memory
        · intro t r hr
          rw [hkeep r (hkept hr), hsets.register, if_neg (hconsistent.ne_of_free hfree hr)]
  | @binaryConst dst left op imm rs rd _ hl hd =>
      simp only [exec, Operand.value, ← hoperand left (.head _) rs hl]
      exact answers_binary hm ha hc rfl rfl hd rfl rfl
  | @binary dst left op right rs rs' rd _ hl hr hd =>
      simp only [exec, Operand.value, ← hoperand left (.head _) rs hl,
        ← hoperand right (.tail _ (.head _)) rs' hr]
      exact answers_binary hm ha hc rfl rfl hd rfl rfl
  | @notConst dst imm rd _ hd =>
      obtain ⟨m', hstep, hsets⟩ :=
        ha.step_calculate (codeAt_cons.mp hc.codeAt).1 rfl hm.pc (Machine.step_aluImm ..)
      exact answers_define hm ha hc rfl rfl hd hstep hsets
  | @not dst src rs rd _ hs hd =>
      obtain ⟨m', hstep, hsets⟩ :=
        ha.step_calculate (codeAt_cons.mp hc.codeAt).1 rfl hm.pc (Machine.step_alu ..)
      rw [hoperand src (.head _) rs hs] at hsets
      exact answers_define hm ha hc rfl rfl hd hstep hsets
  | @branch left right rel target rs rs' hl hr =>
      have htaken := rel.branchOp_taken (m.register rs) (m.register rs')
      simp only [exec, ← hoperand left (.head _) rs hl, ← hoperand right (.tail _ (.head _)) rs' hr]
      split
      · next h => exact answers_goTo hm ha hc (htaken.trans h)
      · next h => exact answers_next hm ha hc rfl rfl (htaken.trans (Bool.not_eq_true _ ▸ h))
  | jump => exact answers_goTo hm ha hc rfl
  | label =>
      refine ⟨0, m, rfl, ?_, fun _ => rfl⟩
      exact hm.keep ha hc rfl rfl rfl rfl hm.output hm.memory fun _ => rfl
  | @print value rs hs =>
      obtain ⟨m', hstep, hsets⟩ :=
        ha.step_calculate (codeAt_cons.mp hc.codeAt).1 rfl hm.pc (Machine.step_alu ..)
      refine ⟨1, m', System.after_succ_of_next hstep 0, ?_, fun h => absurd h (Nat.succ_ne_zero _)⟩
      refine hm.keep ha hc rfl rfl rfl ?_ ?_ ?_ ?_
      · rw [hsets.pc]
        rfl
      · rw [hsets.output, if_pos rfl, Array.toList_push, ← hm.output,
          hoperand value (.head _) rs hs]
      · rw [hsets.memory]
        exact hm.memory
      · intro t r hr
        have hgeneral := hconsistent.mem_general_of_register? hr
        rw [hsets.register, if_neg (Register.ne_of_general hgeneral).2]

end Answers

/-! ## All of the code -/

/-- The only way in which code fails in the machine. -/
def DividesByZero (e : Failure ArithmeticError) (fault : Fault) : Prop :=
  e = .operator .divisionByZero ∧ ∃ pc, fault = .divisionByZero pc

/-- Block-local code and its image, step by step. The rank is the number of instructions that are
left: only labels have no code of their own. -/
theorem code_simulation {code : Code} {image : Image} {l : Lowerer} (hb : BlockLocal code.instrs)
    (ha : Assembled code image l) :
    Simulation (Tac.system words code.instrs) (Machine.system image) (Mirrors code) DividesByZero
      fun s => code.instrs.length - s.pc where
  output hm := hm.output
  next {s s' m} hm hstep := by
    obtain ⟨instr, hi, hexec⟩ := (Tac.step_eq_next_iff words).mp hstep
    have hanswer := answers_exec hm ha hb hi
    rw [hexec] at hanswer
    obtain ⟨k, m', hafter, hm', hzero⟩ := hanswer
    refine ⟨k, m', hafter, hm', fun hk => ?_⟩
    have hlt := (List.getElem?_eq_some_iff.mp hi).1
    rw [hzero hk]
    omega
  stop {s m} hm hstep := by
    have hpc : s.pc = code.instrs.length :=
      Nat.le_antisymm hm.pc_le ((Tac.step_eq_stop_iff words).mp hstep)
    refine ⟨m, ⟨.refl m, Machine.move_eq_stop.mpr ?_⟩, hm⟩
    rw [hm.pc, hpc, ha.stopOf_eq]
  fail {s m e} hm hstep := by
    obtain ⟨instr, hi, hexec⟩ := (Tac.step_eq_fail_iff words).mp hstep
    have hanswer := answers_exec hm ha hb hi
    rw [hexec] at hanswer
    obtain ⟨rfl, pc, hfails⟩ := hanswer
    exact ⟨m, .divisionByZero pc, hfails, hm.output, rfl, pc, rfl⟩

/-- The memory of a machine holds the slots of code. -/
def HoldsSlots (s : Tac.State Word) (m : Machine) : Prop :=
  ∀ i : Fin memorySize, m.memory.get i = s.slots i

/-- **Assembling preserves meaning.** Code whose temporaries are local to blocks and its image, on a
machine at rest, print the same values, halt together with the same memory, divide by zero together
and run forever together; and nothing else happens, whatever the limit of a run. -/
theorem assemble_preserves_meaning {code : Code} {c : Compiled} (hb : BlockLocal code.instrs)
    (h : code.assemble = .ok c) (temps : Temp → Word) :
    RunsLike (Tac.system words code.instrs) (.start temps fun _ => 0) (.operator .divisionByZero)
      c.image HoldsSlots := by
  obtain ⟨l, ha⟩ := Code.exists_assembled h
  have halike := (code_simulation hb ha).alike (mirrors_start code temps)
  exact .of_alike (halike.imp (fun hm => hm.memory) id)

/-- A loop that counts down from 2 and prints twice the count. It reads a temporary twice in one
instruction, and writes one again after its last read. -/
theorem assemble_preserves_meaning_countdown :
    let x : Symbol := ⟨"x", 0⟩
    let code : Code := ⟨[.store x (.const 2), .label ⟨0⟩, .load ⟨0⟩ x, .const ⟨1⟩ 0,
      .branch ⟨0⟩ ⟨1⟩ .le ⟨1⟩, .load ⟨2⟩ x, .binary ⟨3⟩ ⟨2⟩ (.arith .add) (.temp ⟨2⟩), .print ⟨3⟩,
      .load ⟨4⟩ x, .binary ⟨5⟩ ⟨4⟩ (.arith .sub) (.const 1), .store x (.temp ⟨5⟩), .jump ⟨0⟩,
      .label ⟨1⟩, .const ⟨5⟩ 7], [x]⟩
    BlockLocal code.instrs ∧ ∃ c k m, code.assemble = .ok c ∧
      (∀ n, k ≤ n → Machine.run c.image n .start = .ok () m) ∧ m.output.toList = [4, 2] := by
  intro x code
  have hb : BlockLocal code.instrs := by decide
  obtain ⟨c, hc⟩ := Except.exists_of_isOk (show code.assemble.isOk = true by decide +kernel)
  have hrun : (((Tac.system words code.instrs).after 29 (.start (fun _ => 0) fun _ => 0)).map
      fun s => (s.output, s.pc)) = some ([4, 2], 14) := by decide +kernel
  obtain ⟨s, hs, hend⟩ := Option.map_eq_some_iff.mp hrun
  obtain ⟨hout, hpc⟩ := Prod.mk.inj hend
  have hstop : (Tac.system words code.instrs).step s = .stop :=
    (Tac.step_eq_stop_iff words).mpr (Nat.le_of_eq hpc.symm)
  obtain ⟨k, m, hk, hm, -⟩ :=
    (assemble_preserves_meaning hb hc fun _ => 0).halts s ⟨⟨29, hs⟩, hstop⟩
  exact ⟨hb, c, k, m, hc, hk, hm.trans hout⟩

end SixReg
