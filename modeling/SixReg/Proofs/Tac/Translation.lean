import SixReg.Proofs.Symbol
import SixReg.Proofs.Tac.Shape

/-!
# Built code does what its program does

A program and the code that is built from it behave alike, over every domain of values and from
every initial contents of the slots. The proof is one simulation:

* the code of an expression leaves its value in a temporary and touches no older one, or fails as
  the expression does (`ExprCode.computes`);
* `Follows` says that the statements still to do stand in the code from an index on, up to jumps
  and labels in between: this is what links the list of statements of a `Program.State` to the
  index of a `Tac.State`, for every nesting of conditions and loops;
* one statement of the program is matched by at least one instruction, or it is a block, which has
  no code of its own and makes the list of statements smaller.
-/

namespace SixReg

open Tac

variable {V ε : Type} {D : Domain V ε} {table : SymbolTable} {instrs : List Instr}

/-! ## Slots and variables -/

/-- The slots of the variables hold the store; the other ones hold what they held initially. -/
structure Stored (table : SymbolTable) (store : String → V) (initial slots : Nat → V) : Prop where
  vars : ∀ {name symbol}, table.find? name = some symbol → slots symbol.slot = store name
  others : ∀ {i}, (∀ name symbol, table.find? name = some symbol → symbol.slot ≠ i) →
    slots i = initial i

theorem Stored.update {store : String → V} {initial slots : Nat → V} {name : String}
    {symbol : Symbol} (h : Stored table store initial slots)
    (hf : table.find? name = some symbol) (value : V) :
    Stored table (Function.update store name value) initial
      (Function.update slots symbol.slot value) where
  vars {name' symbol'} hf' := by
    by_cases hn : name' = name
    · subst hn
      obtain rfl : symbol = symbol' := Option.some.inj (hf.symm.trans hf')
      rw [Function.update_self, Function.update_self]
    · have hs : symbol'.slot ≠ symbol.slot := fun hs => hn (SymbolTable.slot_injective hf' hf hs)
      rw [Function.update_of_ne hs, Function.update_of_ne hn]
      exact h.vars hf'
  others {i} hi := by
    rw [Function.update_of_ne (hi name symbol hf).symm]
    exact h.others hi

/-! ## Expressions -/

/-- The run fails in the given way before it prints anything more. -/
def FailsSilently (D : Domain V ε) (instrs : List Instr) (s : State V) (f : Failure ε) : Prop :=
  ∃ s', (system D instrs).Fails s s' f ∧ s'.output = s.output

theorem FailsSilently.of_reaches {s s₁ : State V} {f : Failure ε}
    (h : FailsSilently D instrs s₁ f) (hr : (system D instrs).Reaches s s₁)
    (ho : s₁.output = s.output) : FailsSilently D instrs s f := by
  obtain ⟨s', hfails, hout⟩ := h
  exact ⟨s', .of_reaches hr hfails, hout.trans ho⟩

/-- What code of the given length makes of the outcome of an expression: the value ends up in
temporary `a`, and no temporary below `t` changes; or the code fails in the same way. -/
def Computes (D : Domain V ε) (instrs : List Instr) (s : State V) (length t a : Nat) :
    Except (Failure ε) V → Prop
  | .ok v => ∃ temps, (system D instrs).Reaches s { s with pc := s.pc + length, temps } ∧
      temps ⟨a⟩ = v ∧ ∀ u : Temp, u.id < t → temps u = s.temps u
  | .error f => FailsSilently D instrs s f

/-- The last instruction of an expression's code sets the temporary of its value. -/
theorem Computes.define {s : State V} {pc t a length : Nat} {temps : Temp → V} {instr : Instr}
    {x : Except (Failure ε) V} (hr : (system D instrs).Reaches s { s with pc, temps })
    (hi : instrs[pc]? = some instr)
    (hx : exec D instrs { s with pc, temps } instr =
      x.map fun v => ({ s with pc, temps } : State V).define ⟨a⟩ v)
    (hkeep : ∀ u : Temp, u.id < t → temps u = s.temps u) (ha : t ≤ a)
    (hlen : s.pc + length = pc + 1) : Computes D instrs s length t a x := by
  have hstep : (system D instrs).step { s with pc, temps } = .ofExcept (x.map _) :=
    (step_of_getElem? D hi).trans (congrArg _ hx)
  cases x with
  | error f => exact ⟨_, ⟨hr, hstep⟩, rfl⟩
  | ok v =>
      refine ⟨Function.update temps ⟨a⟩ v, ?_, Function.update_self .., ?_⟩
      · rw [hlen]
        exact hr.trans (.of_next hstep)
      · intro u hu
        rw [Function.update_of_ne, hkeep u hu]
        rintro rfl
        exact absurd hu (Nat.not_lt.mpr ha)

/-- Two expressions, one after the other. The first value is older than all that the second code
writes, so it is still there. -/
theorem Computes.both {s : State V} {length length' t a b : Nat} {x y : Except (Failure ε) V}
    (hx : Computes D instrs s length t a x)
    (hy : ∀ temps, Computes D instrs { s with pc := s.pc + length, temps } length' (a + 1) b y)
    (ha : t ≤ a) :
    match x, y with
    | .ok v, .ok w => ∃ temps,
        (system D instrs).Reaches s { s with pc := s.pc + length + length', temps } ∧
        temps ⟨a⟩ = v ∧ temps ⟨b⟩ = w ∧ ∀ u : Temp, u.id < t → temps u = s.temps u
    | .error f, _ | .ok _, .error f => FailsSilently D instrs s f := by
  cases x with
  | error f => exact hx
  | ok v =>
      obtain ⟨temps, hreach, rfl, hkeep⟩ := hx
      have hsecond := hy temps
      cases y with
      | error f => exact hsecond.of_reaches hreach rfl
      | ok w =>
          obtain ⟨temps', hreach', rfl, hkeep'⟩ := hsecond
          refine ⟨temps', hreach.trans hreach', hkeep' ⟨a⟩ (Nat.lt_succ_self a), rfl, ?_⟩
          intro u hu
          rw [hkeep' u (Nat.lt_succ_of_lt (Nat.lt_of_lt_of_le hu ha))]
          exact hkeep u hu

theorem ExprCode.computes {e : Expr} {t a : Nat} {code : List Instr}
    (h : ExprCode table e t code a) {s : State V} {store : String → V}
    (hat : CodeAt instrs s.pc code)
    (hs : ∀ {name symbol}, table.find? name = some symbol → s.slots symbol.slot = store name) :
    Computes D instrs s code.length t a (e.eval D store) := by
  induction h generalizing s with
  | number =>
      obtain ⟨hi, -⟩ := codeAt_cons.mp hat
      exact Computes.define (.refl s) hi rfl (fun _ _ => rfl) (Nat.le_refl _) rfl
  | var found =>
      obtain ⟨hi, -⟩ := codeAt_cons.mp hat
      refine Computes.define (.refl s) hi ?_ (fun _ _ => rfl) (Nat.le_refl _) rfl
      simp only [exec, hs found, Expr.eval, Except.map]
  | notConst =>
      obtain ⟨hi, -⟩ := codeAt_cons.mp hat
      exact Computes.define (.refl s) hi rfl (fun _ _ => rfl) (Nat.le_refl _) rfl
  | @binaryConst op left value t code a hl ih =>
      obtain ⟨hatL, hatI⟩ := codeAt_append.mp hat
      have hleft := ih hatL hs
      simp only [Expr.eval]
      cases hev : left.eval D store with
      | error f =>
          rw [hev] at hleft
          exact hleft
      | ok v =>
          rw [hev] at hleft
          obtain ⟨temps, hr, rfl, hkeep⟩ := hleft
          refine Computes.define hr (codeAt_cons.mp hatI).1 rfl hkeep ?_ ?_
          · exact Nat.le_succ_of_le hl.le
          · simp [Nat.add_assoc]
  | @binary op left right t code code' a b hne hl hr ihl ihr =>
      obtain ⟨hatL, hat⟩ := codeAt_append.mp hat
      obtain ⟨hatR, hatI⟩ := codeAt_append.mp hat
      have hboth := (ihl hatL hs).both (fun _ => ihr hatR hs) hl.le
      simp only [Expr.eval]
      cases hev : left.eval D store with
      | error f =>
          rw [hev] at hboth
          exact hboth
      | ok v =>
          cases hev' : right.eval D store with
          | error f =>
              rw [hev, hev'] at hboth
              exact hboth
          | ok w =>
              rw [hev, hev'] at hboth
              obtain ⟨temps, hreach, rfl, rfl, hkeep⟩ := hboth
              refine Computes.define hreach (codeAt_cons.mp hatI).1 rfl hkeep ?_ ?_
              · have := hl.le
                have := hr.le
                omega
              · simp [Nat.add_assoc]
  | @not operand t code a hne he ih =>
      obtain ⟨hatE, hatI⟩ := codeAt_append.mp hat
      have hinner := ih hatE hs
      simp only [Expr.eval]
      cases hev : operand.eval D store with
      | error f =>
          rw [hev] at hinner
          exact hinner
      | ok v =>
          rw [hev] at hinner
          obtain ⟨temps, hr, rfl, hkeep⟩ := hinner
          refine Computes.define hr (codeAt_cons.mp hatI).1 rfl hkeep ?_ ?_
          · exact Nat.le_succ_of_le he.le
          · simp [Nat.add_assoc]

/-! ## Conditions -/

/-- Code that goes elsewhere unless a condition holds ends up behind itself if it holds and at the
target if not. It branches on the inverse relation, so this is where the law of the domain is
used. -/
theorem ConditionCode.tests {condition : Expr} {target : Label} {t t' : Nat} {code : List Instr}
    (h : ConditionCode table condition target t code t') {s : State V} {store : String → V}
    {pc : Nat} (hat : CodeAt instrs s.pc code) (htarget : position? instrs target = some pc)
    (hs : ∀ {name symbol}, table.find? name = some symbol → s.slots symbol.slot = store name) :
    match condition.test D store with
    | .ok holds => ∃ temps, (system D instrs).Progresses s
        { s with pc := if holds then s.pc + code.length else pc, temps }
    | .error f => FailsSilently D instrs s f := by
  obtain ⟨hl, hr⟩ := h
  rename_i rel left right code code' a b
  obtain ⟨hatL, hat⟩ := codeAt_append.mp hat
  obtain ⟨hatR, hatI⟩ := codeAt_append.mp hat
  have hboth := (hl.computes (D := D) hatL hs).both (fun _ => hr.computes hatR hs) hl.le
  simp only [Expr.test]
  cases hev : left.eval D store with
  | error f =>
      rw [hev] at hboth
      exact hboth
  | ok v =>
      cases hev' : right.eval D store with
      | error f =>
          rw [hev, hev'] at hboth
          exact hboth
      | ok w =>
          rw [hev, hev'] at hboth
          obtain ⟨temps, hreach, rfl, rfl, -⟩ := hboth
          refine ⟨temps, hreach.progresses ?_⟩
          refine (step_of_getElem? D (codeAt_cons.mp hatI).1).trans ?_
          simp only [exec, D.holds_inverse, goTo, htarget]
          cases D.holds rel (temps ⟨a⟩) (temps ⟨b⟩) <;>
            simp [Move.ofExcept, State.next, Nat.add_assoc]

/-! ## Where the statements to do stand

Between two statements of a list there may be jumps and labels: behind the body of a loop stands
the jump back, and behind it nothing else of the loop. -/

/-- From the index on, the code does the given statements and then stops. -/
inductive Follows (table : SymbolTable) (instrs : List Instr) : Nat → Block → Prop where
  | stop : Follows table instrs instrs.length []
  | block {pc p rest t l code t' l'} (hb : BlockCode table p t l code t' l')
      (hat : CodeAt instrs pc code) (hf : Follows table instrs (pc + code.length) rest) :
      Follows table instrs pc (p ++ rest)
  | jump {pc target pc' todo} (hi : instrs[pc]? = some (.jump target))
      (hl : instrs[pc']? = some (.label target)) (hf : Follows table instrs pc' todo) :
      Follows table instrs pc todo
  | label {pc place todo} (hi : instrs[pc]? = some (.label place))
      (hf : Follows table instrs (pc + 1) todo) : Follows table instrs pc todo

theorem reaches_label {s : State V} {place : Label} (hi : instrs[s.pc]? = some (.label place)) :
    (system D instrs).Reaches s { s with pc := s.pc + 1 } :=
  .of_next (step_of_getElem? D hi)

theorem reaches_jump {s : State V} {target : Label} {pc : Nat} (hn : (labels instrs).Nodup)
    (hi : instrs[s.pc]? = some (.jump target)) (hl : instrs[pc]? = some (.label target)) :
    (system D instrs).Reaches s { s with pc } := by
  refine .of_next ((step_of_getElem? D hi).trans ?_)
  simp only [exec, goTo, position?_eq_some hn hl, Move.ofExcept]

/-- Behind the last statement there are only jumps and labels on the way to the end. -/
theorem Follows.reaches_stop (hn : (labels instrs).Nodup) {pc : Nat} {todo : Block}
    (h : Follows table instrs pc todo) (htodo : todo = []) {s : State V} (hpc : s.pc = pc) :
    (system D instrs).Reaches s { s with pc := instrs.length } := by
  induction h generalizing s with
  | stop =>
      rw [← hpc]
      exact .refl s
  | block hb hat hf ih =>
      obtain ⟨rfl, rfl⟩ := List.append_eq_nil_iff.mp htodo
      cases hb
      exact ih rfl hpc
  | jump hi hl hf ih =>
      subst hpc
      exact (reaches_jump hn hi hl).trans (ih htodo rfl)
  | label hi hf ih =>
      subst hpc
      exact (reaches_label hi).trans (ih htodo rfl)

/-- There are only jumps and labels on the way to the code of the first statement. -/
theorem Follows.reaches_first (hn : (labels instrs).Nodup) {pc : Nat} {todo : Block}
    (h : Follows table instrs pc todo) {first : Stmt} {others : Block}
    (htodo : todo = first :: others) {s : State V} (hpc : s.pc = pc) :
    ∃ pc' p rest t l code t' l', (system D instrs).Reaches s { s with pc := pc' } ∧
      others = p ++ rest ∧ BlockCode table (first :: p) t l code t' l' ∧
      CodeAt instrs pc' code ∧ Follows table instrs (pc' + code.length) rest := by
  induction h generalizing s with
  | stop => cases htodo
  | @block pc p rest t l code t' l' hb hat hf ih =>
      cases p with
      | nil =>
          cases hb
          exact ih htodo hpc
      | cons x p =>
          obtain ⟨rfl, rfl⟩ := List.cons.inj htodo
          subst hpc
          exact ⟨s.pc, p, rest, t, l, code, t', l', .refl s, rfl, hb, hat, hf⟩
  | jump hi hl hf ih =>
      subst hpc
      obtain ⟨pc', p, rest, t, l, code, t', l', hr, hrest⟩ := ih htodo (s := { s with pc := _ }) rfl
      exact ⟨pc', p, rest, t, l, code, t', l', (reaches_jump hn hi hl).trans hr, hrest⟩
  | label hi hf ih =>
      subst hpc
      obtain ⟨pc', p, rest, t, l, code, t', l', hr, hrest⟩ := ih htodo (s := { s with pc := _ }) rfl
      exact ⟨pc', p, rest, t, l, code, t', l', (reaches_label hi).trans hr, hrest⟩

/-! ## The simulation -/

/-- The code is where the program is, the slots hold the variables and the output is the same. -/
structure Matches (table : SymbolTable) (instrs : List Instr) (initial : Nat → V)
    (a : Program.State V) (b : State V) : Prop where
  follows : Follows table instrs b.pc a.todo
  stored : Stored table a.store initial b.slots
  output : a.output = b.output

/-- How the code answers one statement of the program. -/
def Answers (D : Domain V ε) (table : SymbolTable) (instrs : List Instr) (initial : Nat → V)
    (b : State V) (size : Nat) : Except (Failure ε) (Program.State V) → Prop
  | .ok a' => ∃ b', Matches table instrs initial a' b' ∧
      ((system D instrs).Progresses b b' ∨ b' = b ∧ sizeOf a'.todo < size)
  | .error f => FailsSilently D instrs b f

variable {initial : Nat → V} {a : Program.State V} {b : State V} {p rest : Block}
  {t l t' l' : Nat} {code : List Instr}

theorem sizeOf_append_lt (body others : Block) :
    sizeOf (body ++ others) < sizeOf (Stmt.block body :: others) := by
  have h : sizeOf (body ++ others) + 1 = sizeOf body + sizeOf others := by
    induction body with
    | nil => simp [Nat.add_comm]
    | cons first body ih =>
        simp only [List.cons_append, List.cons.sizeOf_spec]
        omega
  simp only [List.cons.sizeOf_spec, Stmt.block.sizeOf_spec]
  omega

theorem Answers.of_next {b₁ : State V} {size : Nat} {x : Except (Failure ε) (Program.State V)}
    (h : Answers D table instrs initial b₁ size x) (hstep : step D instrs b = .next b₁)
    (ho : b₁.output = b.output) : Answers D table instrs initial b size x := by
  have hreach : (system D instrs).Reaches b b₁ := .of_next hstep
  cases x with
  | error f => exact FailsSilently.of_reaches h hreach ho
  | ok a' =>
      obtain ⟨b', hmatch, hprogress | ⟨rfl, -⟩⟩ := h
      · exact ⟨b', hmatch, .inl (.of_reaches hreach hprogress)⟩
      · exact ⟨b', hmatch, .inl (System.Reaches.progresses (.refl b) hstep)⟩

/-- A statement that computes a value and then does one instruction with it. -/
theorem answers_of_computes {value : Expr} {codeV : List Instr} {instr : Instr} {v : Nat}
    {size : Nat} {after : V → Program.State V}
    (hv : ExprCode table value t codeV v) (hat : CodeAt instrs b.pc codeV)
    (hi : instrs[b.pc + codeV.length]? = some instr)
    (hstored : Stored table a.store initial b.slots)
    (hafter : ∀ temps, ∃ b', exec D instrs { b with pc := b.pc + codeV.length, temps } instr =
      .ok b' ∧ Matches table instrs initial (after (temps ⟨v⟩)) b') :
    Answers D table instrs initial b size ((value.eval D a.store).map after) := by
  have hcomputes := hv.computes (D := D) hat hstored.vars
  cases hev : value.eval D a.store with
  | error f =>
      rw [hev] at hcomputes
      exact hcomputes
  | ok x =>
      rw [hev] at hcomputes
      obtain ⟨temps, hreach, rfl, -⟩ := hcomputes
      obtain ⟨b', hexec, hmatch⟩ := hafter temps
      refine ⟨b', hmatch, .inl (hreach.progresses ?_)⟩
      exact (step_of_getElem? D hi).trans (congrArg Move.ofExcept hexec)

/-- A statement that tests a condition first. -/
theorem answers_of_tests {condition : Expr} {target : Label} {codeC : List Instr} {pc : Nat}
    {size : Nat} {after : Bool → Program.State V} (hn : (labels instrs).Nodup)
    (hc : ConditionCode table condition target t codeC t') (hat : CodeAt instrs b.pc codeC)
    (hl : instrs[pc]? = some (.label target))
    (hstored : Stored table a.store initial b.slots)
    (hafter : ∀ holds temps, Matches table instrs initial (after holds)
      { b with pc := if holds then b.pc + codeC.length else pc, temps }) :
    Answers D table instrs initial b size ((condition.test D a.store).map after) := by
  have htests := hc.tests (D := D) hat (position?_eq_some hn hl) hstored.vars
  cases hev : condition.test D a.store with
  | error f =>
      rw [hev] at htests
      exact htests
  | ok holds =>
      rw [hev] at htests
      obtain ⟨temps, hprogress⟩ := htests
      exact ⟨_, hafter holds temps, .inl hprogress⟩

theorem BlockCode.follows {pc stop : Nat} (h : BlockCode table p t l code t' l')
    (hat : CodeAt instrs pc code) (hf : Follows table instrs stop rest)
    (hstop : stop = pc + code.length) : Follows table instrs pc (p ++ rest) := by
  subst hstop
  exact .block h hat hf

/-- **One statement of the program**, one case for each rule. -/
theorem BlockCode.answers {first : Stmt} (hn : (labels instrs).Nodup)
    (h : BlockCode table (first :: p) t l code t' l') (hat : CodeAt instrs b.pc code)
    (hf : Follows table instrs (b.pc + code.length) rest) (htodo : a.todo = p ++ rest)
    (hstored : Stored table a.store initial b.slots) (hout : a.output = b.output) :
    Answers D table instrs initial b (sizeOf (first :: a.todo)) (Program.exec D a first) := by
  -- what the statement leaves to do, seen from the index behind its code
  have hothers : ∀ {pc t l code' t' l'}, BlockCode table p t l code' t' l' →
      CodeAt instrs pc code' → b.pc + code.length = pc + code'.length →
      Follows table instrs pc a.todo := by
    intro pc t l code' t' l' ho hat' hlen
    rw [htodo]
    exact ho.follows hat' hf hlen
  cases h with
  | @declareConst name _ value dst _ _ _ code' _ _ found ho =>
      obtain ⟨hi, hatO⟩ := codeAt_cons.mp hat
      have hrest := hothers ho hatO (by simp only [List.length_cons]; omega)
      refine ⟨{ b with slots := Function.update b.slots dst.slot (D.const value), pc := b.pc + 1 },
        ⟨hrest, hstored.update found _, hout⟩, .inl (System.Reaches.progresses (.refl b) ?_)⟩
      exact step_of_getElem? D hi
  | @declare name _ value dst _ _ _ codeV v code' _ _ hne hv found ho =>
      obtain ⟨hatV, hatI⟩ := codeAt_append.mp hat
      obtain ⟨hi, hatO⟩ := codeAt_cons.mp hatI
      have hrest := hothers ho hatO (by simp only [List.length_append, List.length_cons]; omega)
      simp only [Program.exec, Except.bind_pure_eq_map]
      refine answers_of_computes hv hatV hi hstored fun temps => ⟨_, rfl, ?_⟩
      exact ⟨hrest, hstored.update found _, hout⟩
  | @print value _ _ _ codeV v code' _ _ hv ho =>
      obtain ⟨hatV, hatI⟩ := codeAt_append.mp hat
      obtain ⟨hi, hatO⟩ := codeAt_cons.mp hatI
      have hrest := hothers ho hatO (by simp only [List.length_append, List.length_cons]; omega)
      simp only [Program.exec, Except.bind_pure_eq_map]
      refine answers_of_computes hv hatV hi hstored fun temps => ⟨_, rfl, ?_⟩
      exact ⟨hrest, hstored, by simp only [hout]⟩
  | @ifThen condition body _ _ _ codeC _ codeB _ _ code' _ _ hc hb ho =>
      obtain ⟨hatC, hat⟩ := codeAt_append.mp hat
      obtain ⟨hatB, hat⟩ := codeAt_append.mp hat
      obtain ⟨hjump, hat⟩ := codeAt_cons.mp hat
      obtain ⟨hother, hat⟩ := codeAt_cons.mp hat
      obtain ⟨hstop, hatO⟩ := codeAt_cons.mp hat
      have hrest := hothers ho hatO (by simp only [List.length_append, List.length_cons]; omega)
      have hend := Follows.label hstop hrest
      simp only [Program.exec, Except.bind_pure_eq_map]
      refine answers_of_tests hn hc hatC hother hstored fun holds temps => ⟨?_, hstored, hout⟩
      cases holds with
      | true => exact .block hb hatB (.jump hjump hstop hend)
      | false => exact .label hother hend
  | @ifElse condition body other _ _ _ codeC _ codeB _ _ codeE _ _ code' _ _ hc hb he ho =>
      obtain ⟨hatC, hat⟩ := codeAt_append.mp hat
      obtain ⟨hatB, hat⟩ := codeAt_append.mp hat
      obtain ⟨hjump, hat⟩ := codeAt_cons.mp hat
      obtain ⟨hother, hat⟩ := codeAt_cons.mp hat
      obtain ⟨hatE, hat⟩ := codeAt_append.mp hat
      obtain ⟨hstop, hatO⟩ := codeAt_cons.mp hat
      have hrest := hothers ho hatO (by simp only [List.length_append, List.length_cons]; omega)
      have hend := Follows.label hstop hrest
      simp only [Program.exec, Except.bind_pure_eq_map]
      refine answers_of_tests hn hc hatC hother hstored fun holds temps => ⟨?_, hstored, hout⟩
      cases holds with
      | true => exact .block hb hatB (.jump hjump hstop hend)
      | false => exact .label hother (.block he hatE hend)
  | @loop condition body _ _ _ codeC _ codeB _ _ code' _ _ hc hb ho =>
      -- behind its body the loop is to do once more, and control is where it is now
      have hagain : Follows table instrs b.pc (.loop condition body :: a.todo) := by
        rw [htodo]
        exact (BlockCode.loop hc hb ho).follows hat hf rfl
      obtain ⟨hfirst, hat⟩ := codeAt_cons.mp hat
      obtain ⟨hatC, hat⟩ := codeAt_append.mp hat
      obtain ⟨hatB, hat⟩ := codeAt_append.mp hat
      obtain ⟨hjump, hat⟩ := codeAt_cons.mp hat
      obtain ⟨hstop, hatO⟩ := codeAt_cons.mp hat
      have hrest := hothers ho hatO (by simp only [List.length_append, List.length_cons]; omega)
      simp only [Program.exec, Except.bind_pure_eq_map]
      have henter : step D instrs b = .next { b with pc := b.pc + 1 } := step_of_getElem? D hfirst
      refine Answers.of_next ?_ henter rfl
      refine answers_of_tests hn hc hatC hstop hstored fun holds temps => ⟨?_, hstored, hout⟩
      cases holds with
      | true => exact .block hb hatB (.jump hjump hfirst hagain)
      | false => exact .label hstop hrest
  | block hb ho =>
      obtain ⟨hatB, hatO⟩ := codeAt_append.mp hat
      have hrest := hothers ho hatO (by simp only [List.length_append]; omega)
      -- nothing is executed: the statements of the block are to do instead of it
      exact ⟨b, ⟨.block hb hatB hrest, hstored, hout⟩, .inr ⟨rfl, sizeOf_append_lt _ _⟩⟩

/-- The code gets to the first statement that is to do, and answers it. -/
theorem Matches.exists_answers {first : Stmt} {others : Block} {store : String → V}
    {output : List V} (hn : (labels instrs).Nodup)
    (h : Matches table instrs initial ⟨first :: others, store, output⟩ b) :
    ∃ pc, (system D instrs).Reaches b { b with pc } ∧
      Answers D table instrs initial { b with pc } (sizeOf (first :: others))
        (Program.exec D ⟨others, store, output⟩ first) := by
  obtain ⟨pc, p, rest, t, l, code, t', l', hr, rfl, hcode, hat, hf⟩ :=
    h.follows.reaches_first (D := D) hn rfl rfl
  exact ⟨pc, hr, hcode.answers (a := ⟨p ++ rest, store, output⟩) (b := { b with pc }) hn hat hf rfl
    h.stored h.output⟩

/-- A program and its code, step by step. The rank is the size of the statements to do: only a
block has no code of its own. -/
theorem program_simulation (D : Domain V ε) (hn : (labels instrs).Nodup) (initial : Nat → V) :
    Simulation (Program.system D) (system D instrs) (Matches table instrs initial) Eq
      fun a => sizeOf a.todo where
  output h := h.output
  next {a a' b} h hstep := by
    obtain ⟨todo, store, output⟩ := a
    cases todo with
    | nil => cases hstep
    | cons first others =>
        have hexec := Move.ofExcept_eq_next.mp hstep
        obtain ⟨pc, ⟨m, hm⟩, hanswer⟩ := h.exists_answers (D := D) hn
        rw [hexec] at hanswer
        obtain ⟨b', hmatch, ⟨n, hn⟩ | ⟨rfl, hlt⟩⟩ := hanswer
        · refine ⟨m + (n + 1), b', ?_, hmatch, fun h0 => nomatch h0⟩
          rw [System.after_add hm, hn]
        · exact ⟨m, _, hm, hmatch, fun _ => hlt⟩
  stop {a b} h hstep := by
    have htodo : a.todo = [] := by
      cases hs : a.todo with
      | nil => rfl
      | cons first others => simp [Program.system, Program.step, hs] at hstep
    refine ⟨{ b with pc := instrs.length }, ⟨h.follows.reaches_stop hn htodo rfl, ?_⟩, ?_⟩
    · exact (step_eq_stop_iff D).mpr (Nat.le_refl _)
    · exact ⟨htodo ▸ .stop, h.stored, h.output⟩
  fail {a b f} h hstep := by
    obtain ⟨todo, store, output⟩ := a
    cases todo with
    | nil => cases hstep
    | cons first others =>
        have hexec := Move.ofExcept_eq_fail.mp hstep
        obtain ⟨pc, hr, hanswer⟩ := h.exists_answers (D := D) hn
        rw [hexec] at hanswer
        obtain ⟨b', hfails, hout⟩ := hanswer.of_reaches hr rfl
        exact ⟨b', f, hfails, h.output.trans hout.symm, rfl⟩

/-- The start of a program is matched by the start of its code. -/
theorem Program.matches_start {source : Source} {program : Program} {code : Code}
    (h : program.build source table = .ok code) {store : String → V} {slots : Nat → V}
    (temps : Temp → V) (hstore : Stored table store slots slots) :
    Matches table code.instrs slots (program.start store) (.start temps slots) := by
  obtain ⟨t, l, hcode⟩ := Program.build_shape h
  refine ⟨?_, hstore, rfl⟩
  have hfollows := hcode.follows codeAt_self .stop (Nat.zero_add _).symm
  rwa [List.append_nil] at hfollows

theorem Program.labels_nodup {source : Source} {program : Program} {code : Code}
    (h : program.build source table = .ok code) : (labels code.instrs).Nodup := by
  obtain ⟨t, l, hcode⟩ := Program.build_shape h
  exact hcode.labels_nodup

/-- **Building preserves meaning.** Over every domain of values, and from every store and slots that
hold it, a program and its code print the same values, halt together with the same variables, fail
together in the same way after the same output, and run forever together. -/
theorem build_preserves_meaning (D : Domain V ε) {source : Source} {program : Program} {code : Code}
    (h : program.build source table = .ok code) {store : String → V} {slots : Nat → V}
    (temps : Temp → V) (hstore : Stored table store slots slots) :
    Alike (Program.system D) (system D code.instrs)
      (fun a b => Stored table a.store slots b.slots) Eq
      (program.start store) (.start temps slots) :=
  ((program_simulation D (Program.labels_nodup h) slots).alike
    (Program.matches_start h temps hstore)).imp (fun hm => hm.stored) id

/-- A loop that prints the outcome of a comparison, which no machine program can do: built code
does it all the same. -/
theorem build_preserves_meaning_countdown :
    let a : Expr := .var "a" ⟨0, 1⟩
    let program : Program :=
      [.declare "a" ⟨0, 1⟩ (.number 2),
        .loop (.binary (.compare .gt) a (.number 0))
          [.print (.binary (.compare .eq) a (.number 1)),
            .declare "a" ⟨0, 1⟩ (.binary (.arith .sub) a (.number 1))]]
    ∃ code s, program.build [] ⟨#["a"]⟩ = .ok code ∧
      (system words code.instrs).Halts (.start (fun _ => 0) fun _ => 0) s ∧ s.output = [0, 1] := by
  intro a program
  obtain ⟨code, hcode⟩ := Except.exists_of_isOk
    (show (program.build [] ⟨#["a"]⟩).isOk = true by decide +kernel)
  have hrun : (((Program.system words).after 8 (program.start fun _ => 0)).map
      fun s => (s.output, s.todo.isEmpty)) = some ([0, 1], true) := by decide +kernel
  obtain ⟨s, hs, hend⟩ := Option.map_eq_some_iff.mp hrun
  obtain ⟨hout, htodo⟩ := Prod.mk.inj hend
  have hstop : (Program.system words).step s = .stop := by
    simp [Program.system, Program.step, List.isEmpty_iff.mp htodo]
  have hstore : Stored ⟨#["a"]⟩ (fun _ => (0 : Word)) (fun _ => 0) (fun _ => 0) :=
    ⟨fun _ => rfl, fun _ => rfl⟩
  have halike := build_preserves_meaning words hcode (fun _ => 0) hstore
  obtain ⟨s', hs', ho, -⟩ := halike.halts s ⟨⟨8, hs⟩, hstop⟩
  exact ⟨code, s', hcode, hs', ho.symm.trans hout⟩

end SixReg
