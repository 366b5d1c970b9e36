import SixReg.Proofs.Assembly.Lowerable
import SixReg.Proofs.Syntax.Demand
import SixReg.Proofs.Tac.Shape

/-!
# Registers for built code

The temporaries of built code are given out one after the other, and each of them is read once. So
the registers that are in use at some point of the code of an expression are those that its
surroundings keep in use, and those of the operands that wait for their operation
(`ExprCode.adds`). A statement leaves nothing behind in registers (`Segment`), which gives
the pressure of the code from the tree alone (`BlockCode.pressure_eq`).
-/

namespace SixReg

open Tac

/-! ## Temporaries of built code -/

/-- The temporaries from number `t` up to number `u`. -/
def Tac.temps (t u : Nat) : List Temp := (List.range' t (u - t)).map Temp.mk

namespace Tac

@[simp]
theorem mem_temps {x : Temp} {t u : Nat} : x ∈ temps t u ↔ t ≤ x.id ∧ x.id < u := by
  simp only [temps, List.mem_map, List.mem_range'_1]
  constructor
  · rintro ⟨n, hn, rfl⟩
    exact ⟨hn.1, by show n < u; omega⟩
  · intro hx
    exact ⟨x.id, ⟨hx.1, by omega⟩, rfl⟩

theorem temps_self (t : Nat) : temps t t = [] := by simp [temps]

theorem temps_succ {t u : Nat} (h : t ≤ u) : temps t (u + 1) = temps t u ++ [⟨u⟩] := by
  rw [temps, temps, Nat.succ_sub h, List.range'_concat, List.map_append]
  simp [Nat.add_sub_cancel' h]

theorem temps_append {t u v : Nat} (h : t ≤ u) (h' : u ≤ v) :
    temps t u ++ temps u v = temps t v := by
  induction h' with
  | refl => rw [temps_self, List.append_nil]
  | step h' ih => rw [temps_succ h', temps_succ (Nat.le_trans h h'), ← List.append_assoc, ih]

theorem nodup_temps (t u : Nat) : (temps t u).Nodup :=
  List.Nodup.map (fun _ _ h => congrArg Temp.id h) List.nodup_range'

@[simp]
theorem written_nil : written [] = [] := rfl

@[simp]
theorem readTemps_nil : readTemps [] = [] := rfl

@[simp]
theorem written_append (first second : List Instr) :
    written (first ++ second) = written first ++ written second := by
  simp [written]

@[simp]
theorem written_cons (instr : Instr) (instrs : List Instr) :
    written (instr :: instrs) = instr.result?.toList ++ written instrs := by
  cases h : instr.result? <;> simp [written, h]

@[simp]
theorem readTemps_append (first second : List Instr) :
    readTemps (first ++ second) = readTemps first ++ readTemps second := by
  simp [readTemps]

@[simp]
theorem readTemps_cons (instr : Instr) (instrs : List Instr) :
    readTemps (instr :: instrs) = instr.reads ++ readTemps instrs := rfl

end Tac

variable {table : SymbolTable}

theorem ExprCode.written_eq {e : Expr} {t a : Nat} {code : List Instr}
    (h : ExprCode table e t code a) : written code = temps t (a + 1) := by
  induction h with
  | number | var | notConst =>
      rw [temps_succ (Nat.le_refl _), temps_self]
      rfl
  | binaryConst hl ih | not _ hl ih =>
      rw [written_append, ih, temps_succ (Nat.le_succ_of_le hl.le)]
      rfl
  | binary _ hl hr ihl ihr =>
      have hle := hl.le
      have hle' := hr.le
      rw [written_append, written_append, ihl, ihr, ← List.append_assoc,
        temps_append (by omega) (by omega), temps_succ (u := _ + 1) (by omega)]
      rfl

theorem append_pair_perm (first second : List Temp) (x y : Temp) :
    (first ++ (second ++ [x, y])).Perm ((first ++ [x]) ++ (second ++ [y])) := by
  rw [List.append_assoc]
  exact List.perm_middle.append_left _

/-- The code of an expression reads all of its temporaries once, except for the last one. -/
theorem ExprCode.reads_perm {e : Expr} {t a : Nat} {code : List Instr}
    (h : ExprCode table e t code a) : (readTemps code ++ [Temp.mk a]).Perm (written code) := by
  induction h with
  | number | var | notConst => exact .refl _
  | binaryConst _ ih | not _ _ ih =>
      simp only [written_append, readTemps_append]
      exact ih.append (.refl _)
  | binary _ _ _ ihl ihr =>
      rw [written_append, written_append, readTemps_append, readTemps_append,
        ← List.append_assoc (written _)]
      exact ((append_pair_perm _ _ _ _).trans (ihl.append ihr)).append (.refl _)

theorem ExprCode.range_of_read {e : Expr} {t a : Nat} {code : List Instr}
    (h : ExprCode table e t code a) {x : Temp} (hx : x ∈ readTemps code) :
    t ≤ x.id ∧ x.id < a + 1 := by
  have hmem := h.reads_perm.subset (List.mem_append_left _ hx)
  rw [h.written_eq] at hmem
  exact mem_temps.mp hmem

/-! ## Pressure in a context -/

namespace Tac

/-- The most registers that code demands if the temporaries in `before` were written before it and
those in `after` are read after it. -/
def pressureIn (before after : Finset Temp) : List Instr → Nat
  | [] => 0
  | instr :: rest =>
    max
      (if instr.allocates then
        (before ∩ ((readTemps (instr :: rest)).toFinset ∪ after)).card + 1 else 0)
      (pressureIn (before ∪ (written [instr]).toFinset) after rest)

theorem pressureIn_le_iff {first rest : List Instr} {m : Nat} :
    pressureIn (written first).toFinset ∅ rest ≤ m ↔
      ∀ k < rest.length, demand (first ++ rest) (first.length + k) ≤ m := by
  -- the instructions that the induction is past collect in `first`
  induction rest generalizing first with
  | nil => simp [pressureIn]
  | cons instr rest ih =>
      have hfirst : demand (first ++ instr :: rest) (first.length + 0) =
          if instr.allocates then
            ((written first).toFinset ∩ (readTemps (instr :: rest)).toFinset).card + 1
          else 0 := by
        simp [demand, live]
      have hrest : ∀ k, demand (first ++ instr :: rest) (first.length + (k + 1)) =
          demand ((first ++ [instr]) ++ rest) ((first ++ [instr]).length + k) := by
        intro k
        rw [List.append_assoc, List.singleton_append, List.length_append, List.length_singleton,
          Nat.add_assoc, Nat.add_comm 1 k]
      rw [pressureIn, Nat.max_le, List.length_cons, Nat.forall_lt_succ_left, hfirst,
        Finset.union_empty, ← List.toFinset_append, ← written_append, ih]
      simp only [hrest]

theorem pressure_eq (instrs : List Instr) : pressure instrs = pressureIn ∅ ∅ instrs := by
  apply eq_of_forall_ge_iff
  intro m
  have hle := @pressureIn_le_iff [] instrs m
  simp only [List.nil_append, List.length_nil, Nat.zero_add, written_nil, List.toFinset_nil] at hle
  rw [pressure, Finset.sup_le_iff, hle]
  simp only [Finset.mem_range]

theorem pressureIn_append (before after : Finset Temp) (first second : List Instr) :
    pressureIn before after (first ++ second) =
      max (pressureIn before ((readTemps second).toFinset ∪ after) first)
        (pressureIn (before ∪ (written first).toFinset) after second) := by
  induction first generalizing before with
  | nil => simp [pressureIn]
  | cons instr first ih =>
      rw [List.cons_append, pressureIn, pressureIn, ih, Nat.max_assoc, ← List.cons_append,
        readTemps_append, List.toFinset_append, Finset.union_assoc, Finset.union_assoc,
        ← List.toFinset_append, ← written_append, List.singleton_append]

/-- An instruction that takes no register adds nothing. -/
theorem pressureIn_cons_of_not {before after : Finset Temp} {instr : Instr} {rest : List Instr}
    (h : instr.allocates = false) (hr : instr.result? = none) :
    pressureIn before after (instr :: rest) = pressureIn before after rest := by
  simp [pressureIn, h, hr]

theorem pressureIn_singleton {before after : Finset Temp} {instr : Instr}
    (h : instr.allocates = true) :
    pressureIn before after [instr] = (before ∩ (instr.reads.toFinset ∪ after)).card + 1 := by
  simp [pressureIn, h]

end Tac

section Sets

variable {before after later waiting : Finset Temp} {t u : Nat}

theorem inter_union_of_later (hbefore : ∀ x ∈ before, x.id < t) (hlater : ∀ x ∈ later, t ≤ x.id) :
    before ∩ (later ∪ after) = before ∩ after := by
  ext x
  simp only [Finset.mem_inter, Finset.mem_union]
  grind

theorem inter_eq_empty (hbefore : ∀ x ∈ before, x.id < t) (hlater : ∀ x ∈ later, t ≤ x.id) :
    before ∩ later = ∅ := by
  rw [← Finset.union_empty later, inter_union_of_later hbefore hlater, Finset.inter_empty]

/-- In use are the temporaries that the surroundings keep and those that wait to be read. -/
theorem card_inter_of_waiting (hbefore : ∀ x ∈ before, x.id < t)
    (hafter : ∀ x ∈ after, x.id < t ∨ u ≤ x.id) (hwaiting : ∀ x ∈ waiting, t ≤ x.id ∧ x.id < u) :
    ((before ∪ (temps t u).toFinset) ∩ (waiting ∪ after)).card =
      (before ∩ after).card + waiting.card := by
  have hsplit : (before ∪ (temps t u).toFinset) ∩ (waiting ∪ after) = before ∩ after ∪ waiting := by
    ext x
    simp only [Finset.mem_inter, Finset.mem_union, List.mem_toFinset, mem_temps]
    grind
  rw [hsplit, Finset.card_union_of_disjoint]
  rw [Finset.disjoint_left]
  intro x hx hx'
  have hlt := hbefore x (Finset.mem_inter.mp hx).1
  have hle := (hwaiting x hx').1
  omega

/-- Of a pair, the first one waits while the second one is still to be written. -/
theorem card_inter_of_pair {a b : Nat} (hbefore : ∀ x ∈ before, x.id < t)
    (hafter : ∀ x ∈ after, x.id < t ∨ b + 1 ≤ x.id) (hta : t ≤ a) (hab : a + 1 ≤ b) :
    ((before ∪ (temps t (a + 1)).toFinset) ∩ ({⟨a⟩, ⟨b⟩} ∪ after)).card =
      (before ∩ after).card + 1 := by
  rw [Finset.insert_eq, Finset.union_assoc, card_inter_of_waiting hbefore,
    inter_union_of_later hbefore, Finset.card_singleton]
  · simp only [Finset.mem_singleton]
    grind
  · simp only [Finset.mem_union, Finset.mem_singleton]
    grind
  · simp only [Finset.mem_singleton]
    grind

end Sets

/-- To the registers that its surroundings keep in use, code that starts with temporary `t` and
ends with temporary `a` adds `m`. -/
def Tac.Adds (code : List Instr) (t a m : Nat) : Prop :=
  ∀ {before after : Finset Temp}, (∀ x ∈ before, x.id < t) →
    (∀ x ∈ after, x.id < t ∨ a ≤ x.id) → pressureIn before after code = (before ∩ after).card + m

/-- One operand waits for an operation, and its result gets a register besides. -/
theorem ExprCode.adds_concat {e : Expr} {t a : Nat} {code : List Instr} {instr : Instr}
    (h : ExprCode table e t code a) (hi : instr.allocates = true)
    (hreads : instr.reads = [Temp.mk a]) (hcode : Adds code t a e.need) :
    Adds (code ++ [instr]) t (a + 1) (max e.need 2) := by
  intro before after hbefore hafter
  have hle := h.le
  have hlast : pressureIn (before ∪ (written code).toFinset) after [instr] =
      (before ∩ after).card + 2 := by
    rw [pressureIn_singleton hi, h.written_eq, card_inter_of_waiting hbefore hafter]
    · simp [hreads]
    · simp [hreads, hle]
  have hreads' : (readTemps [instr]).toFinset = {⟨a⟩} := by simp [hreads]
  rw [pressureIn_append, hlast, hreads', hcode hbefore,
    inter_union_of_later hbefore (by simpa using hle)]
  · omega
  · simp only [Finset.mem_union, Finset.mem_singleton]
    grind

/-- Of two operands for one instruction, the left one waits while the right one is evaluated. -/
theorem ExprCode.pressureIn_pair {left right : Expr} {t a b : Nat} {code code' : List Instr}
    {instr : Instr} {before after : Finset Temp} (hl : ExprCode table left t code a)
    (hr : ExprCode table right (a + 1) code' b) (hreads : instr.reads = [Temp.mk a, Temp.mk b])
    (hbefore : ∀ x ∈ before, x.id < t) (hafter : ∀ x ∈ after, x.id < t ∨ b + 1 ≤ x.id)
    (hleft : Adds code t a left.need) (hright : Adds code' (a + 1) b right.need) :
    pressureIn before after (code ++ (code' ++ [instr])) =
      max ((before ∩ after).card + max left.need (1 + right.need))
        (pressureIn (before ∪ (temps t (b + 1)).toFinset) after [instr]) := by
  have hle := hl.le
  have hle' := hr.le
  have hreads' : (readTemps [instr]).toFinset = {⟨a⟩, ⟨b⟩} := by simp [hreads]
  -- nothing of what the rest reads was there before the left operand
  have hlater : ∀ x ∈ (readTemps code').toFinset ∪ {⟨a⟩, ⟨b⟩}, a ≤ x.id := by
    intro x hx
    simp only [Finset.mem_union, List.mem_toFinset, Finset.mem_insert, Finset.mem_singleton] at hx
    rcases hx with hx | rfl | rfl
    · have hrange := hr.range_of_read hx
      omega
    · exact Nat.le_refl _
    · exact Nat.le_of_succ_le hle'
  have hfirst : pressureIn before ((readTemps code').toFinset ∪ {⟨a⟩, ⟨b⟩} ∪ after) code =
      (before ∩ after).card + left.need := by
    rw [hleft hbefore, inter_union_of_later hbefore fun x hx => hle.trans (hlater x hx)]
    intro x hx
    rcases Finset.mem_union.mp hx with hx | hx
    · exact .inr (hlater x hx)
    · have hx' := hafter x hx
      omega
  have hsecond : pressureIn (before ∪ (written code).toFinset) ({⟨a⟩, ⟨b⟩} ∪ after) code' =
      (before ∩ after).card + (1 + right.need) := by
    have hbefore' : ∀ x ∈ before ∪ (written code).toFinset, x.id < a + 1 := by
      simp only [hl.written_eq, Finset.mem_union, List.mem_toFinset, mem_temps]
      grind
    have hafter' : ∀ x ∈ {⟨a⟩, ⟨b⟩} ∪ after, x.id < a + 1 ∨ b ≤ x.id := by
      simp only [Finset.mem_union, Finset.mem_insert, Finset.mem_singleton]
      grind
    rw [hright hbefore' hafter', hl.written_eq, card_inter_of_pair hbefore hafter hle hle',
      Nat.add_assoc]
  have hwritten : before ∪ (written code).toFinset ∪ (written code').toFinset =
      before ∪ (temps t (b + 1)).toFinset := by
    rw [Finset.union_assoc, ← List.toFinset_append, hl.written_eq, hr.written_eq,
      temps_append (by omega) (by omega)]
  rw [pressureIn_append, pressureIn_append, readTemps_append, List.toFinset_append, hreads',
    hfirst, hsecond, hwritten]
  omega

/-- **The pressure of an expression.** To what its surroundings keep in use comes what the
expression needs. -/
theorem ExprCode.adds {e : Expr} {t a : Nat} {code : List Instr}
    (h : ExprCode table e t code a) : Adds code t a e.need := by
  induction h with
  | number | var | notConst =>
      intro before after _ _
      rw [pressureIn_singleton rfl]
      simp [Instr.reads, Operand.reads, Expr.need]
  | binaryConst hl ih => exact hl.adds_concat rfl rfl ih
  | not hne hl ih =>
      rw [Expr.need]
      · exact hl.adds_concat rfl rfl ih
      · exact hne
  | @binary op left right t code code' a b hne hl hr ihl ihr =>
      intro before after hbefore hafter
      have hle := hl.le
      have hle' := hr.le
      -- in the end both operands wait, and the result has a register besides
      have hlast : pressureIn (before ∪ (temps t (b + 1)).toFinset) after
          [.binary ⟨b + 1⟩ ⟨a⟩ op (.temp ⟨b⟩)] = (before ∩ after).card + 3 := by
        rw [pressureIn_singleton rfl, card_inter_of_waiting hbefore hafter]
        · have hne : (⟨a⟩ : Temp) ≠ ⟨b⟩ := by
            intro hab
            cases hab
            omega
          simp [Instr.reads, Operand.reads, hne]
        · simp only [Instr.reads, Operand.reads, List.toFinset_cons, List.toFinset_nil]
          grind
      rw [hl.pressureIn_pair hr rfl hbefore hafter ihl ihr, hlast, Expr.need]
      · omega
      · exact hne

/-! ## Statements -/

/-- Code on its own. It writes the temporaries from number `t` up to number `t'` and reads each of
them once, and whatever came before it and comes after it, it takes `m` registers. -/
structure Tac.Segment (code : List Instr) (t t' m : Nat) : Prop where
  le : t ≤ t'
  written_eq : written code = temps t t'
  reads_perm : (readTemps code).Perm (temps t t')
  pressureIn_eq : ∀ {before after : Finset Temp}, (∀ x ∈ before, x.id < t) →
    (∀ x ∈ after, t' ≤ x.id) → pressureIn before after code = m

namespace Tac.Segment

variable {first second : List Instr} {instr : Instr} {t t₁ t' m m' : Nat}

theorem nil (t : Nat) : Segment [] t t 0 where
  le := Nat.le_refl _
  written_eq := (temps_self t).symm
  reads_perm := by rw [temps_self]; rfl
  pressureIn_eq _ _ := rfl

theorem append (h : Segment first t t₁ m) (h' : Segment second t₁ t' m') :
    Segment (first ++ second) t t' (max m m') where
  le := h.le.trans h'.le
  written_eq := by rw [written_append, h.written_eq, h'.written_eq, temps_append h.le h'.le]
  reads_perm := by
    rw [readTemps_append, ← temps_append h.le h'.le]
    exact h.reads_perm.append h'.reads_perm
  pressureIn_eq := by
    intro before after hbefore hafter
    have hle := h.le
    have hle' := h'.le
    rw [pressureIn_append, h.pressureIn_eq hbefore, h'.pressureIn_eq _ hafter]
    · simp only [h.written_eq, Finset.mem_union, List.mem_toFinset, mem_temps]
      grind
    · simp only [Finset.mem_union, List.mem_toFinset, h'.reads_perm.mem_iff, mem_temps]
      grind

/-- An instruction that has nothing to do with temporaries. -/
theorem cons (h : Segment first t t' m) (ha : instr.allocates = false) (hr : instr.result? = none)
    (hreads : instr.reads = []) : Segment (instr :: first) t t' m where
  le := h.le
  written_eq := by simp [hr, h.written_eq]
  reads_perm := by simpa [hreads] using h.reads_perm
  pressureIn_eq hbefore hafter := by
    rw [pressureIn_cons_of_not ha hr, h.pressureIn_eq hbefore hafter]

end Tac.Segment

/-- An expression whose value is taken by the next instruction. -/
theorem ExprCode.segment {e : Expr} {t a : Nat} {code : List Instr} {instr : Instr}
    (h : ExprCode table e t code a) (ha : instr.allocates = false) (hr : instr.result? = none)
    (hreads : instr.reads = [Temp.mk a]) : Segment (code ++ [instr]) t (a + 1) e.need where
  le := Nat.le_succ_of_le h.le
  written_eq := by simp [hr, h.written_eq]
  reads_perm := by
    have hperm := h.reads_perm
    rw [h.written_eq] at hperm
    simpa [hreads] using hperm
  pressureIn_eq := by
    intro before after hbefore hafter
    have hle := h.le
    have hlater : ∀ x ∈ {⟨a⟩} ∪ after, a ≤ x.id := by
      simp only [Finset.mem_union, Finset.mem_singleton]
      grind
    have hreads' : (readTemps [instr]).toFinset = {⟨a⟩} := by simp [hreads]
    rw [pressureIn_append, pressureIn_cons_of_not ha hr, hreads',
      h.adds hbefore fun x hx => .inr (hlater x hx),
      inter_eq_empty hbefore fun x hx => hle.trans (hlater x hx)]
    simp [pressureIn]

theorem ConditionCode.segment {e : Expr} {target : Label} {t t' : Nat} {code : List Instr}
    (h : ConditionCode table e target t code t') :
    Segment code t t' (Site.condition e).need := by
  obtain ⟨hl, hr⟩ := h
  rename_i rel left right code code' a b
  have hle := hl.le
  have hle' := hr.le
  have hwritten : temps t (a + 1) ++ temps (a + 1) (b + 1) = temps t (b + 1) :=
    temps_append (by omega) (by omega)
  refine ⟨by omega, ?_, ?_, ?_⟩
  · simp [hl.written_eq, hr.written_eq, hwritten, Instr.result?]
  · have hperm := hl.reads_perm.append hr.reads_perm
    rw [hl.written_eq, hr.written_eq, hwritten] at hperm
    rw [readTemps_append, readTemps_append]
    exact (append_pair_perm _ _ _ _).trans hperm
  · intro before after hbefore hafter
    rw [hl.pressureIn_pair hr rfl hbefore (fun x hx => .inr (hafter x hx)) hl.adds hr.adds,
      inter_eq_empty hbefore fun x hx => le_trans (by omega) (hafter x hx),
      pressureIn_cons_of_not rfl rfl]
    simp [pressureIn, Site.need]

/-- The most registers that any of the sites needs. -/
def maxNeed (sites : List Site) : Nat := (sites.map Site.need).foldr max 0

theorem maxNeed_cons (site : Site) (sites : List Site) :
    maxNeed (site :: sites) = max site.need (maxNeed sites) := rfl

theorem maxNeed_append (first second : List Site) :
    maxNeed (first ++ second) = max (maxNeed first) (maxNeed second) := by
  induction first with
  | nil => exact (Nat.zero_max _).symm
  | cons site first ih => rw [List.cons_append, maxNeed_cons, ih, maxNeed_cons, Nat.max_assoc]

theorem maxNeed_le_iff {sites : List Site} {m : Nat} :
    maxNeed sites ≤ m ↔ ∀ site ∈ sites, site.need ≤ m := by
  induction sites with
  | nil => simp [maxNeed]
  | cons site sites ih => rw [maxNeed_cons, Nat.max_le, ih, List.forall_mem_cons]

/-- **The pressure of statements** is the greatest need among their sites. -/
theorem BlockCode.segment {p : Block} {t l t' l' : Nat} {code : List Instr}
    (h : BlockCode table p t l code t' l') : Segment code t t' (maxNeed (Block.sites p)) := by
  induction h with
  | nil => exact .nil _
  | @declareConst _ _ value dst _ t _ _ _ _ _ _ ih =>
      have hstore : Segment [.store dst (.const value)] t t 1 := by
        refine ⟨Nat.le_refl t, (temps_self t).symm, by rw [temps_self]; rfl, ?_⟩
        intro before after hbefore hafter
        rw [pressureIn_singleton rfl]
        simp [Instr.reads, Operand.reads, inter_eq_empty hbefore hafter]
      exact hstore.append ih
  | declare _ hv _ _ ih =>
      rw [List.append_cons]
      exact (hv.segment rfl rfl rfl).append ih
  | print hv _ ih =>
      rw [List.append_cons]
      exact (hv.segment rfl rfl rfl).append ih
  | ifThen hc _ _ ihb iho =>
      rw [Block.sites, Stmt.sites, List.cons_append, maxNeed_cons, maxNeed_append]
      exact hc.segment.append
        (ihb.append (((iho.cons rfl rfl rfl).cons rfl rfl rfl).cons rfl rfl rfl))
  | loop hc _ _ ihb iho =>
      rw [Block.sites, Stmt.sites, List.cons_append, maxNeed_cons, maxNeed_append]
      exact (hc.segment.append
        (ihb.append ((iho.cons rfl rfl rfl).cons rfl rfl rfl))).cons rfl rfl rfl
  | ifElse hc _ _ _ ihb ihe iho =>
      rw [Block.sites, Stmt.sites, List.cons_append, maxNeed_cons, List.append_assoc,
        maxNeed_append, maxNeed_append]
      exact hc.segment.append
        (ihb.append (((ihe.append (iho.cons rfl rfl rfl)).cons rfl rfl rfl).cons rfl rfl rfl))
  | block _ _ ihb iho =>
      rw [Block.sites, Stmt.sites, maxNeed_append]
      exact ihb.append iho

/-- **The pressure of built code** is the greatest need among the sites of the program. -/
theorem BlockCode.pressure_eq {p : Block} {l t' l' : Nat} {code : List Instr}
    (h : BlockCode table p 0 l code t' l') : pressure code = maxNeed (Block.sites p) := by
  rw [Tac.pressure_eq]
  exact h.segment.pressureIn_eq (by simp) (by simp)

end SixReg
