import SixReg.Proofs.Assembly.Encodable
import SixReg.Proofs.Symbol
import SixReg.Proofs.Tac.Placement
import SixReg.Proofs.Tac.Pressure

/-!
# When built code can be assembled

Code can be assembled if it is lowerable and encodable. For built code both come down to the sites
of the program:

* `BlockCode.lowerable_iff`: no comparison is used as a value and no site needs more than six
  registers. Everything else that lowering asks for, the builder grants.
* `BlockCode.encodable_iff`: the literals of the sites, the slots of the variables and the places of
  the labels are small.
-/

namespace SixReg

open Tac

variable {table : SymbolTable}

/-! ## Comparisons -/

theorem ExprCode.compares_iff {e : Expr} {t a : Nat} {code : List Instr}
    (h : ExprCode table e t code a) :
    (∀ instr ∈ code, instr.compares = false) ↔ e.compares = false := by
  induction h with
  | number | var | notConst => simp [Instr.compares, Expr.compares]
  | binaryConst _ ih | not _ _ ih =>
      rw [List.forall_mem_append, ih]
      simp [Instr.compares, Expr.compares, and_comm]
  | binary _ _ _ ihl ihr =>
      rw [List.forall_mem_append, List.forall_mem_append, ihl, ihr, List.forall_mem_singleton]
      simp only [Instr.compares, Expr.compares, Bool.or_eq_false_iff]
      tauto

theorem ConditionCode.compares_iff {e : Expr} {target : Label} {t t' : Nat} {code : List Instr}
    (h : ConditionCode table e target t code t') :
    (∀ instr ∈ code, instr.compares = false) ↔ (Site.condition e).isSupported = true := by
  obtain ⟨hl, hr⟩ := h
  rw [List.forall_mem_append, List.forall_mem_append, hl.compares_iff, hr.compares_iff]
  simp [Instr.compares, Site.isSupported, BinOp.isComparison]

/-- **No instruction compares values** just in case comparisons stand in conditions only. -/
theorem BlockCode.compares_iff {p : Block} {t l t' l' : Nat} {code : List Instr}
    (h : BlockCode table p t l code t' l') :
    (∀ instr ∈ code, instr.compares = false) ↔
      ∀ site ∈ Block.sites p, site.isSupported = true := by
  induction h with
  | nil => simp [Block.sites]
  | declareConst _ _ ih =>
      rw [List.forall_mem_cons, ih, Block.sites, Stmt.sites, List.singleton_append,
        List.forall_mem_cons]
      simp [Instr.compares, Site.isSupported, Expr.compares]
  | declare _ hv _ _ ih | print hv _ ih =>
      rw [List.forall_mem_append, List.forall_mem_cons, hv.compares_iff, ih, Block.sites,
        Stmt.sites, List.singleton_append, List.forall_mem_cons]
      simp [Instr.compares, Site.isSupported]
  | ifThen hc _ _ ihb iho | loop hc _ _ ihb iho =>
      simp only [List.forall_mem_append, List.forall_mem_cons, hc.compares_iff, ihb, iho,
        Block.sites, Stmt.sites, List.cons_append]
      simp [Instr.compares]
  | ifElse hc _ _ _ ihb ihe iho =>
      simp only [List.forall_mem_append, List.forall_mem_cons, hc.compares_iff, ihb, ihe, iho,
        Block.sites, Stmt.sites, List.cons_append]
      simp [Instr.compares, and_assoc]
  | block _ _ ihb iho =>
      rw [List.forall_mem_append, ihb, iho, Block.sites, Stmt.sites, List.forall_mem_append]

/-! ## Lowering -/

theorem Tac.Pending.mem_written {instrs : List Instr} {t : Temp} (h : Pending t instrs) :
    t ∈ written instrs := by
  obtain ⟨earlier, definition, between, rfl, hdef, -⟩ := h
  simp [hdef]

theorem Tac.pressure_le_iff {instrs : List Instr} {m : Nat} :
    pressure instrs ≤ m + 1 ↔
      ∀ n instr, instrs[n]? = some instr → instr.allocates = true → (live instrs n).card ≤ m := by
  rw [pressure, Finset.sup_le_iff]
  constructor
  · intro h n instr hi ha
    have hdemand := h n (Finset.mem_range.mpr (List.getElem?_eq_some_iff.mp hi).1)
    simp only [demand, hi, ha, if_true] at hdemand
    omega
  · intro h n hn
    have hi := List.getElem?_eq_getElem (Finset.mem_range.mp hn)
    simp only [demand, hi]
    split
    · next ha => exact Nat.succ_le_succ (h n _ hi ha)
    · exact Nat.zero_le _

section Order

variable {p : Block} {t t' l l' n : Nat} {code : List Instr} {instr : Instr}

theorem BlockCode.mem_written_of_read (h : BlockCode table p t l code t' l')
    (hi : code[n]? = some instr) : ∀ x ∈ instr.reads, x ∈ written (code.take n) := by
  intro x hx
  obtain ⟨hn, rfl⟩ := List.getElem?_eq_some_iff.mp hi
  have hsplit : code = code.take n ++ code[n] :: code.drop (n + 1) := by
    rw [List.getElem_cons_drop, List.take_append_drop]
  exact (h.straight _ _ _ hsplit x hx).mem_written

/-- Each temporary is written once, so the result cannot be live already. -/
theorem BlockCode.result_not_mem_live (h : BlockCode table p t l code t' l')
    (hi : code[n]? = some instr) : ∀ x, instr.result? = some x → x ∉ live code n := by
  intro x hx hlive
  have hall : (written code).Nodup := h.segment.written_eq ▸ nodup_temps t t'
  have hnodup : (written (code.take (n + 1))).Nodup :=
    hall.sublist ((List.take_sublist _ _).filterMap _)
  rw [take_succ hi, written_append, written_cons, hx, List.nodup_append] at hnodup
  exact hnodup.2.2 x (mem_live.mp hlive).1 x (List.mem_cons_self ..) rfl

theorem BlockCode.admits_iff (h : BlockCode table p t l code t' l') (hi : code[n]? = some instr) :
    Admits code n instr ↔
      instr.compares = false ∧ (instr.allocates = true → (live code n).card ≤ 5) := by
  constructor
  · intro hadmits
    exact ⟨hadmits.value, hadmits.room⟩
  · rintro ⟨hvalue, hroom⟩
    exact ⟨hvalue, h.mem_written_of_read hi, h.result_not_mem_live hi, hroom⟩

/-- The labels of built code are in order, whatever the program. -/
theorem BlockCode.mem_labels_of_target (h : BlockCode table p t l code t' l')
    (hl : l' ≤ 0x8000000000000000) :
    ∀ target ∈ code.filterMap Instr.target?,
      target ∈ labels code ∧ target.id < 0x8000000000000000 := by
  intro target htarget
  have hmem := h.targets_perm.mem_iff.mp htarget
  exact ⟨hmem, Nat.lt_of_lt_of_le (h.label_range target hmem).2 hl⟩

end Order

/-- **Built code is lowered** unless it compares values or runs out of registers. -/
theorem BlockCode.lowerable_iff {p : Block} {t' l' : Nat} {code : List Instr}
    (h : BlockCode table p 0 0 code t' l') (hl : l' ≤ 0x8000000000000000) :
    Lowerable code ↔
      (∀ site ∈ Block.sites p, site.isSupported = true) ∧
        ∀ site ∈ Block.sites p, site.need ≤ 6 := by
  rw [← h.compares_iff, ← maxNeed_le_iff, ← h.pressure_eq, pressure_le_iff]
  constructor
  · intro hlow
    have hadmits := fun n instr hn => (h.admits_iff hn).mp (hlow.admits n instr hn)
    constructor
    · intro instr hi
      obtain ⟨n, hn⟩ := List.mem_iff_getElem?.mp hi
      exact (hadmits n instr hn).1
    · intro n instr hn
      exact (hadmits n instr hn).2
  · rintro ⟨hcompares, hroom⟩
    refine ⟨?_, h.labels_nodup, h.mem_labels_of_target hl⟩
    intro n instr hn
    exact (h.admits_iff hn).mpr ⟨hcompares instr (List.mem_of_getElem? hn), hroom n instr hn⟩

/-! ## Encoding -/

theorem ExprCode.literals_eq {e : Expr} {t a : Nat} {code : List Instr}
    (h : ExprCode table e t code a) : code.flatMap Instr.literals = e.literals := by
  induction h with
  | number | var | notConst => rfl
  | binaryConst _ ih =>
      rw [List.flatMap_append, ih]
      rfl
  | not _ _ ih =>
      rw [List.flatMap_append, ih]
      exact List.append_nil _
  | binary _ _ _ ihl ihr =>
      rw [List.flatMap_append, List.flatMap_append, ihl, ihr]
      simp [Instr.literals, Operand.literals, Expr.literals]

theorem ConditionCode.literals_eq {e : Expr} {target : Label} {t t' : Nat} {code : List Instr}
    (h : ConditionCode table e target t code t') : code.flatMap Instr.literals = e.literals := by
  obtain ⟨hl, hr⟩ := h
  rw [List.flatMap_append, List.flatMap_append, hl.literals_eq, hr.literals_eq]
  simp [Instr.literals, Expr.literals]

/-- **The literals of code are those of its tree**, in the same order. -/
theorem BlockCode.literals_eq {p : Block} {t l t' l' : Nat} {code : List Instr}
    (h : BlockCode table p t l code t' l') :
    code.flatMap Instr.literals = (Block.sites p).flatMap fun site => site.value.literals := by
  induction h with
  | nil => rfl
  | declareConst _ _ ih =>
      simp [Instr.literals, Operand.literals, Block.sites, Stmt.sites, Site.value, Expr.literals,
        ih]
  | declare _ hv _ _ ih | print hv _ ih =>
      simp [Instr.literals, Operand.literals, Block.sites, Stmt.sites, Site.value,
        hv.literals_eq, ih]
  | ifThen hc _ _ ihb iho | loop hc _ _ ihb iho =>
      simp [Instr.literals, Block.sites, Stmt.sites, Site.value, hc.literals_eq, ihb, iho]
  | ifElse hc _ _ _ ihb ihe iho =>
      simp [Instr.literals, Block.sites, Stmt.sites, Site.value, hc.literals_eq, ihb, ihe, iho]
  | block _ _ ihb iho =>
      rw [List.flatMap_append, ihb, iho, Block.sites, Stmt.sites, List.flatMap_append]

theorem ExprCode.find?_symbol {e : Expr} {t a : Nat} {code : List Instr}
    (h : ExprCode table e t code a) :
    ∀ symbol ∈ code.flatMap Instr.symbols, table.find? symbol.name = some symbol := by
  induction h with
  | number | notConst => simp [Instr.symbols]
  | var found => simpa [Instr.symbols] using SymbolTable.find?_name found
  | binaryConst _ ih | not _ _ ih => simpa [Instr.symbols] using ih
  | binary _ _ _ ihl ihr =>
      simp only [List.flatMap_append, List.forall_mem_append]
      exact ⟨ihl, ihr, by simp [Instr.symbols]⟩

theorem ConditionCode.find?_symbol {e : Expr} {target : Label} {t t' : Nat} {code : List Instr}
    (h : ConditionCode table e target t code t') :
    ∀ symbol ∈ code.flatMap Instr.symbols, table.find? symbol.name = some symbol := by
  obtain ⟨hl, hr⟩ := h
  simp only [List.flatMap_append, List.forall_mem_append]
  exact ⟨hl.find?_symbol, hr.find?_symbol, by simp [Instr.symbols]⟩

/-- **Code reaches no variable that is not in the table.** -/
theorem BlockCode.find?_symbol {p : Block} {t l t' l' : Nat} {code : List Instr}
    (h : BlockCode table p t l code t' l') :
    ∀ symbol ∈ code.flatMap Instr.symbols, table.find? symbol.name = some symbol := by
  induction h with
  | nil => simp
  | declareConst found _ ih =>
      simp only [List.flatMap_cons, List.forall_mem_append]
      exact ⟨by simpa [Instr.symbols] using SymbolTable.find?_name found, ih⟩
  | declare _ hv found _ ih =>
      simp only [List.flatMap_cons, List.flatMap_append, List.forall_mem_append]
      exact ⟨hv.find?_symbol, by simpa [Instr.symbols] using SymbolTable.find?_name found, ih⟩
  | print hv _ ih =>
      simp only [List.flatMap_cons, List.flatMap_append, List.forall_mem_append]
      exact ⟨hv.find?_symbol, List.forall_mem_nil _, ih⟩
  | ifThen hc _ _ ihb iho | loop hc _ _ ihb iho =>
      simp only [List.flatMap_cons, List.flatMap_append, List.forall_mem_append, Instr.symbols,
        List.nil_append]
      exact ⟨hc.find?_symbol, ihb, iho⟩
  | ifElse hc _ _ _ ihb ihe iho =>
      simp only [List.flatMap_cons, List.flatMap_append, List.forall_mem_append, Instr.symbols,
        List.nil_append]
      exact ⟨hc.find?_symbol, ihb, ihe, iho⟩
  | block _ _ ihb iho =>
      rw [List.flatMap_append, List.forall_mem_append]
      exact ⟨ihb, iho⟩

/-- All labels are gone to, and each from one place, so it is the same to ask for the places of
the targets and for those of the labels. -/
theorem BlockCode.offsets_iff {p : Block} {t l t' l' m : Nat} {code : List Instr}
    (h : BlockCode table p t l code t' l') :
    (∀ target ∈ code.filterMap Instr.target?, ∀ n ∈ position? code target,
      place code n * wordsPerInstruction ≤ m) ↔
      ∀ q ∈ Block.labelPlaces 0 p, q * wordsPerInstruction ≤ m := by
  rw [← h.labelPlaces_eq]
  constructor
  · intro hoffsets q hq
    obtain ⟨n, label, hn, rfl⟩ := mem_labelPlaces.mp hq
    have hlabel := mem_labels.mpr (List.mem_of_getElem? hn)
    rw [Nat.zero_add]
    exact hoffsets label (h.targets_perm.mem_iff.mpr hlabel) n (position?_eq_some h.labels_nodup hn)
  · intro hplaces target htarget n hn
    have hlabel := mem_labels.mp (h.targets_perm.mem_iff.mp htarget)
    obtain ⟨k, hk⟩ := List.mem_iff_getElem?.mp hlabel
    rw [position?_eq_some h.labels_nodup hk] at hn
    cases hn
    exact hplaces _ (mem_labelPlaces.mpr ⟨_, target, hk, (Nat.zero_add _).symm⟩)

/-- **Built code is encoded** if its literals, slots and offsets fit. -/
theorem BlockCode.encodable_iff {p : Block} {t l t' l' : Nat} {code : List Instr}
    (h : BlockCode table p t l code t' l') :
    Encodable code ↔
      (∀ site ∈ Block.sites p, ∀ value ∈ site.value.literals, FitsImmediate value) ∧
        (∀ symbol ∈ code.flatMap Instr.symbols, symbol.slot ≤ 8191) ∧
        ∀ q ∈ Block.labelPlaces 0 p, q * wordsPerInstruction ≤ 8191 := by
  rw [← h.offsets_iff, ← List.forall_mem_flatMap, ← h.literals_eq]
  constructor
  · rintro ⟨hliterals, hslots, hoffsets⟩
    exact ⟨hliterals, hslots, hoffsets⟩
  · rintro ⟨hliterals, hslots, hoffsets⟩
    exact ⟨hliterals, hslots, hoffsets⟩

end SixReg
