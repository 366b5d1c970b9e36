import SixReg.Proofs.Rejected

/-!
# How many registers a program takes

The peak of the pool is the result of a run of requests over the whole of the code. For built code
it can be computed from the tree: it is the greatest `need` of a site. Up to six, this many
registers are in use at once while the code is lowered; above six, lowering gives up for want of a
register, at the first instruction that has none left (`built_code_registers`).
-/

namespace SixReg

open Tac

/-- The expressions at a site whose values are computed. Of a condition, that is its two sides. -/
def Site.values : Site → List Expr
  | .initializer value | .printed value => [value]
  | .condition (.binary _ left right) => [left, right]
  | .condition value => [value]

theorem Site.isSupported_of_values {site : Site}
    (hvalues : ∀ value ∈ site.values, value.compares = false)
    (hcondition : ∀ c, site = .condition c → c.isComparison = true) : site.isSupported = true := by
  cases site with
  | initializer value | printed value => simpa [isSupported, values] using hvalues
  | condition c =>
      cases c with
      | binary op left right =>
          have hop : op.isComparison = true := hcondition _ rfl
          simpa [isSupported, values, hop] using hvalues
      | number | var | not => cases hcondition _ rfl

variable {source : Source} {symbols : SymbolTable} {program : Program} {code : Code} {p : Block}
  {t' l' : Nat}

/-- Code that needs a seventh register is not lowered. -/
theorem BlockCode.exists_lowerAll_error (h : BlockCode symbols p 0 0 code.instrs t' l')
    (hneed : 6 < maxNeed (Block.sites p)) :
    ∃ e l, Lowerer.lowerAll code.instrs (Lowerer.empty.restart code) = .error e l := by
  cases hall : Lowerer.lowerAll code.instrs (Lowerer.empty.restart code) with
  | error e l => exact ⟨e, l, rfl⟩
  | ok _ l =>
      -- all instructions would have found a register
      have hadmits := ((Lowerer.exists_lowerAll_iff (Nat.le_refl _)).mp
        ⟨l, by rw [List.take_length]; exact hall⟩).1
      have hpressure : pressure code.instrs ≤ 6 := by
        apply pressure_le_iff.mpr
        intro n instr hi ha
        exact (hadmits n instr (List.getElem?_eq_some_iff.mp hi).1 hi).room ha
      rw [h.pressure_eq] at hpressure
      omega

/-- **The registers that a program takes.** Take code that was built from a program in which no
comparison is used as a value. If no site of the program needs more than six registers, the code is
lowered, and the most registers in use at once are the greatest need of a site; labels are numbered
in 64 bits, and half of these are as many as fit the immediate field. If some site needs more,
lowering fails for want of a register. -/
theorem built_code_registers (hbuild : program.build source symbols = .ok code)
    (hvalues : ∀ site ∈ Block.sites program, ∀ value ∈ site.values, value.compares = false) :
    (maxNeed (Block.sites program) ≤ 6 → (labels code.instrs).length ≤ 0x8000000000000000 →
      ∃ lowered, code.lower = .ok lowered ∧ lowered.peak = maxNeed (Block.sites program)) ∧
    (6 < maxNeed (Block.sites program) → code.lower = .error (.tooManyLive 6) ∧
      (CompileError.tooManyLive 6).message =
        "Too many live temporaries: all 6 registers are in use") := by
  obtain ⟨t', l', hcode⟩ := Program.build_shape hbuild
  have hsupported : ∀ site ∈ Block.sites program, site.isSupported = true := by
    intro site hsite
    apply Site.isSupported_of_values (hvalues site hsite)
    rintro c rfl
    exact hcode.isComparison hsite
  constructor
  · intro hneed hlabels
    have hl : l' ≤ 0x8000000000000000 := by
      have hlength := hcode.length_labels
      omega
    have hlow := (hcode.lowerable_iff hl).mpr ⟨hsupported, maxNeed_le_iff.mp hneed⟩
    obtain ⟨l, resolved, hall, hresolve⟩ := exists_lowerAll_iff_lowerable.mpr hlow
    have hupto : l.Upto code.instrs code.instrs.length :=
      Lowerer.upto_of_lowerAll (Nat.le_refl _) (by rwa [List.take_length])
    refine ⟨⟨resolved, l.labels, l.pool.peak⟩,
      Code.lower_eq_ok.mpr ⟨l, hall, hresolve, rfl, rfl⟩, ?_⟩
    rw [← hcode.pressure_eq]
    exact hupto.peak
  · intro hneed
    refine ⟨?_, rfl⟩
    obtain ⟨e, l, hall⟩ := hcode.exists_lowerAll_error hneed
    have hlower : code.lower = .error e := by
      rw [Code.lower, Lowerer.lowerProgram_apply, hall]
    rw [hlower]
    rcases Lowerer.refused_of_lowerAll_eq_error hall with
      ⟨hdouble, -⟩ | ⟨n, instr, pool, hi, htracks, hrefused⟩
    · exact absurd hcode.labels_nodup hdouble
    · rcases hcode.reason_of_refused hi htracks hrefused with
        ⟨rfl, -⟩ | ⟨dst, left, rel, right, -, hmem⟩
      · rfl
      · -- the code of a supported program has no such instruction
        cases hcode.compares_iff.mpr hsupported _ hmem

/-- Inside a loop, a sum of four waiting operands takes six registers, and a sum of five takes one
too many. -/
theorem built_code_registers_nested :
    let a : Expr := .var "a" ⟨0, 0⟩
    let plus (e : Expr) : Expr := .binary (.arith .add) (.number 1) e
    let program (e : Expr) : Program := [.declare "a" ⟨0, 0⟩ (.number 3),
      .loop (.binary (.compare .gt) a (.number 0)) [.print e]]
    ∃ code code', (program (plus (plus (plus (plus a))))).build [] ⟨#["a"]⟩ = .ok code ∧
      (∃ lowered, code.lower = .ok lowered ∧ lowered.peak = 6) ∧
      (program (plus (plus (plus (plus (plus a)))))).build [] ⟨#["a"]⟩ = .ok code' ∧
      code'.lower = .error (.tooManyLive 6) := by
  intro a plus program
  have hlabels : ((program (plus (plus (plus (plus a))))).build [] ⟨#["a"]⟩).toOption.map
      (fun code => (labels code.instrs).length) = some 2 := by decide +kernel
  obtain ⟨code, hcode⟩ := Except.exists_of_isOk
    (show ((program (plus (plus (plus (plus a))))).build [] ⟨#["a"]⟩).isOk = true by
      decide +kernel)
  obtain ⟨code', hcode'⟩ := Except.exists_of_isOk
    (show ((program (plus (plus (plus (plus (plus a)))))).build [] ⟨#["a"]⟩).isOk = true by
      decide +kernel)
  rw [hcode] at hlabels
  have hcount : (labels code.instrs).length = 2 := Option.some.inj hlabels
  have hneed : maxNeed (Block.sites (program (plus (plus (plus (plus a)))))) = 6 := by decide
  obtain ⟨lowered, hlower, hpeak⟩ := (built_code_registers hcode (by decide)).1
    (Nat.le_of_eq hneed) (by omega)
  exact ⟨code, code', hcode, ⟨lowered, hlower, hpeak.trans hneed⟩, hcode',
    ((built_code_registers hcode' (by decide)).2 (by decide)).1⟩

end SixReg
