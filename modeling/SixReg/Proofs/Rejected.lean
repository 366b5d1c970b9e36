import SixReg.Proofs.Accepted
import SixReg.Proofs.Assembly.Failure
import SixReg.Proofs.Machine.Decoding

/-!
# What a text can be rejected for

Each pass checks again what the passes before it should have seen to: the builder looks names up
that were checked, lowering asks for operands with registers and labels with a place. A failure of
such a check would be a fault of the compiler (`CompileError.isInternal`), and there is none. Once
its names are checked, a text is rejected for a condition that is no comparison, for a comparison
that is wanted as a value, for want of registers or for a number that does not fit
(`compile_blames_source`).
-/

namespace SixReg

open Tac

/-- Whether an error says that something is wrong with the compiler and not with the text. -/
def CompileError.isInternal : CompileError → Bool
  | .builderSpent | .pool _ | .unresolvedLabel _ | .invalidEncoding _ _
  | .unsupported (.duplicateLabel _) => true
  | .lexical _ | .parse _ | .scope _ | .tooManyLive _ | .immediateOutOfRange _
  | .unsupported (.condition _) | .unsupported (.comparisonValue _) => false

variable {options : Options} {source : Source} {program : Program} {symbols : SymbolTable}
  {code : Code} {e : CompileError}

/-! ## Lowering built code -/

/-- **Why an instruction of built code is refused.** Its operands have registers and its result has
none. -/
theorem BlockCode.reason_of_refused {p : Block} {l t' l' n : Nat} {instrs : List Instr}
    {instr : Instr} {pool : Pool} (h : BlockCode symbols p 0 l instrs t' l')
    (hi : instrs[n]? = some instr) (htracks : Tracks instrs n pool)
    (hrefused : instr.Refused pool e) :
    (e = .tooManyLive 6 ∧ ∃ site ∈ Block.sites p, 6 < site.need) ∨
      ∃ dst left rel right, e = .unsupported (.comparisonValue rel) ∧
        .binary dst left (.compare rel) right ∈ instrs := by
  cases hrefused with
  | comparison hinstr =>
      subst hinstr
      exact .inr ⟨_, _, _, _, rfl, List.mem_of_getElem? hi⟩
  | operand ht hnone =>
      have hsome := (htracks.bound_of_read hi ht).mpr (h.mem_written_of_read hi _ ht)
      rw [hnone] at hsome
      cases hsome
  | result ht hsome => exact absurd ((htracks.bound _).mp hsome) (h.result_not_mem_live hi _ ht)
  | room ha hfree =>
      refine .inl ⟨rfl, ?_⟩
      by_contra hneeds
      -- with small needs no more than five temporaries are live, which leaves a register
      have hpressure : pressure instrs ≤ 6 := by
        rw [h.pressure_eq, maxNeed_le_iff]
        intro site hsite
        exact Nat.le_of_not_lt fun hneed => hneeds ⟨site, hsite, hneed⟩
      exact htracks.free_ne_nil_iff.mpr (pressure_le_iff.mp hpressure n instr hi ha) hfree

/-- **What lowering refuses to do for built code.** -/
theorem BlockCode.refused {p : Block} {t' l' : Nat}
    (h : BlockCode symbols p 0 0 code.instrs t' l') (hl : l' ≤ 0x8000000000000000)
    (hlower : code.lower = .error e) :
    (e = .tooManyLive 6 ∧ ∃ site ∈ Block.sites p, 6 < site.need) ∨
      ∃ dst left rel right, e = .unsupported (.comparisonValue rel) ∧
        .binary dst left (.compare rel) right ∈ code.instrs := by
  obtain ⟨n, instr, pool, hi, htracks, hrefused⟩ :=
    Code.refused_of_lower_eq_error h.labels_nodup (h.mem_labels_of_target hl) hlower
  exact h.reason_of_refused hi htracks hrefused

/-! ## The passes of the compiler -/

theorem Program.isInternal_of_parse (h : Program.parse source = .error e) :
    e.isInternal = false := by
  unfold Program.parse at h
  split at h
  · cases h
    rfl
  · obtain ⟨_, -, rfl⟩ := Except.mapError_eq_error.mp h
    rfl

/-- An error comes from the first pass that fails. -/
theorem compile_eq_error (h : compile options source = .error e) :
    Program.parse source = .error e ∨
    (∃ err, e = .scope err) ∨
    (∃ (program : Program) (symbols : SymbolTable),
      program.analyze source options.redeclaration = .ok symbols ∧
      program.build source symbols = .error e) ∨
    ∃ code, compileToCode options source = .ok code ∧ code.assemble = .error e := by
  rcases Except.bind_eq_error.mp h with h | hassemble
  · simp only [compileToCode, Except.bind_eq_error, Except.mapError_eq_error,
      Except.mapError_eq_ok] at h
    rcases h with hparse | ⟨program, -, ⟨err, -, rfl⟩ | ⟨symbols, hanalyze, hbuild⟩⟩
    · exact .inl hparse
    · exact .inr (.inl ⟨err, rfl⟩)
    · exact .inr (.inr (.inl ⟨program, symbols, hanalyze, hbuild⟩))
  · exact .inr (.inr (.inr hassemble))

theorem Program.condition_of_build
    (hanalyze : program.analyze source options.redeclaration = .ok symbols)
    (h : program.build source symbols = .error e) :
    ∃ c, .condition c ∈ Block.sites program ∧ c.isComparison = false ∧
      e = .unsupported (.condition c) := by
  obtain ⟨code, hcode⟩ | ⟨c, hsite, hc, herror⟩ := Program.build_cases hanalyze
  · rw [hcode] at h
    cases h
  · rw [herror] at h
    cases h
    exact ⟨c, hsite, hc, rfl⟩

/-- Building fails just in case some condition is no comparison. -/
theorem Program.exists_build_error_iff
    (hanalyze : program.analyze source options.redeclaration = .ok symbols) :
    (∃ e, program.build source symbols = .error e) ↔
      ∃ c, .condition c ∈ Block.sites program ∧ c.isComparison = false := by
  constructor
  · rintro ⟨e, he⟩
    obtain ⟨c, hsite, hc, -⟩ := Program.condition_of_build hanalyze he
    exact ⟨c, hsite, hc⟩
  · rintro ⟨c, hsite, hc⟩
    obtain ⟨code, hcode⟩ | ⟨_, -, -, herror⟩ := Program.build_cases hanalyze
    · rw [(Program.exists_build_iff hanalyze).mp ⟨code, hcode⟩ c hsite] at hc
      cases hc
    · exact ⟨_, herror⟩

/-- The number of labels is the only thing about a built program that has to be assumed. -/
theorem Program.refused_of_lower (hbuild : program.build source symbols = .ok code)
    (hlabels : (labels code.instrs).length < 0x8000000000000000) (h : code.lower = .error e) :
    (e = .tooManyLive 6 ∧ ∃ site ∈ Block.sites program, 6 < site.need) ∨
      ∃ dst left rel right, e = .unsupported (.comparisonValue rel) ∧
        .binary dst left (.compare rel) right ∈ code.instrs := by
  obtain ⟨t', l', hcode⟩ := Program.build_shape hbuild
  apply hcode.refused _ h
  have hlength := hcode.length_labels
  omega

theorem Instruction.immediate_of_encodeAll {instrs : List Instruction}
    (h : encodeAll instrs = .error e) :
    ∃ value ∈ instrs.filterMap immediate?, e = .immediateOutOfRange value ∧
      ¬ FitsImmediate value := by
  obtain ⟨value, hfind, rfl⟩ := encodeAll_eq_error.mp h
  exact ⟨value, List.mem_of_find?_eq_some hfind, rfl, by simpa using List.find?_some hfind⟩

theorem isInternal_of_compile
    (hlabels : ∀ code, compileToCode options source = .ok code →
      (labels code.instrs).length < 0x8000000000000000)
    (h : compile options source = .error e) : e.isInternal = false := by
  rcases compile_eq_error h with
    hparse | ⟨err, rfl⟩ | ⟨program, symbols, hanalyze, hbuild⟩ | ⟨code, hcode, hassemble⟩
  · exact Program.isInternal_of_parse hparse
  · rfl
  · obtain ⟨c, -, -, rfl⟩ := Program.condition_of_build hanalyze hbuild
    rfl
  · obtain ⟨program, symbols, -, -, hbuild⟩ := compileToCode_eq_ok.mp hcode
    simp only [Code.assemble, Except.bind_eq_error, Except.pure_ne_error, and_false, exists_false,
      or_false] at hassemble
    rcases hassemble with hlower | ⟨lowered, -, hencode⟩
    · rcases Program.refused_of_lower hbuild (hlabels code hcode) hlower with
        ⟨rfl, -⟩ | ⟨_, _, _, _, rfl, -⟩
      · rfl
      · rfl
    · obtain ⟨value, -, rfl, -⟩ := Instruction.immediate_of_encodeAll hencode
      rfl

/-- **A text that is rejected is to blame.** Once the text is parsed and its names are checked,
building fails just in case some condition is no comparison, and says so. Lowering what was built
fails for want of a seventh register or for a comparison that is used as a value, and encoding what
was lowered for an immediate that does not fit. So a check that a pass makes of the passes before it
never fails. -/
theorem compile_blames_source (options : Options) (source : Source)
    (hlabels : ∀ code, compileToCode options source = .ok code →
      (labels code.instrs).length < 0x8000000000000000) :
    (∀ program symbols, Program.parse source = .ok program →
      program.analyze source options.redeclaration = .ok symbols →
      ((∃ e, program.build source symbols = .error e) ↔
        ∃ c, .condition c ∈ Block.sites program ∧ c.isComparison = false) ∧
      (∀ e, program.build source symbols = .error e →
        ∃ c, .condition c ∈ Block.sites program ∧ c.isComparison = false ∧
          e = .unsupported (.condition c) ∧
          ∃ detail, e.message = "Unsupported construct in IR builder: " ++ detail) ∧
      ∀ code, program.build source symbols = .ok code →
        (∀ e, code.lower = .error e →
          (e = .tooManyLive 6 ∧ (∃ site ∈ Block.sites program, 6 < site.need) ∧
            e.message = "Too many live temporaries: all 6 registers are in use") ∨
          ∃ dst left rel right, e = .unsupported (.comparisonValue rel) ∧
            .binary dst left (.compare rel) right ∈ code.instrs) ∧
        ∀ lowered e, code.lower = .ok lowered → Instruction.encodeAll lowered.instrs = .error e →
          ∃ value ∈ lowered.instrs.filterMap Instruction.immediate?,
            e = .immediateOutOfRange value ∧ ¬ FitsImmediate value) ∧
    ∀ e, compile options source = .error e → e.isInternal = false := by
  refine ⟨?_, fun e => isInternal_of_compile hlabels⟩
  intro program symbols hparse hanalyze
  refine ⟨Program.exists_build_error_iff hanalyze, ?_, ?_⟩
  · intro e he
    obtain ⟨c, hsite, hc, rfl⟩ := Program.condition_of_build hanalyze he
    exact ⟨c, hsite, hc, rfl, _, rfl⟩
  · intro code hbuild
    have hcode := compileToCode_eq_ok.mpr ⟨program, symbols, hparse, hanalyze, hbuild⟩
    constructor
    · intro e he
      rcases Program.refused_of_lower hbuild (hlabels code hcode) he with ⟨rfl, hneed⟩ | hvalue
      · exact .inl ⟨rfl, hneed, rfl⟩
      · exact .inr hvalue
    · intro lowered e _ he
      exact Instruction.immediate_of_encodeAll he

/-- In the body of a loop, five operands wait for a sum that takes two more registers. -/
theorem compile_blames_source_nested :
    let source : Source := "var a = 3;
      while a > 0: { print 1 + (1 + (1 + (1 + (1 + a)))); var a = a - 1; }".toList
    compile {} source = .error (.tooManyLive 6) ∧ (CompileError.tooManyLive 6).isInternal = false ∧
      ∃ program, Program.parse source = .ok program ∧
        ∃ site ∈ Block.sites program, 6 < site.need := by
  intro source
  have hrun : (compileToCode {} source).toOption.map (fun code => ((labels code.instrs).length,
      match code.lower with
      | .ok _ => none
      | .error e => some e)) = some (2, some (.tooManyLive 6)) := by decide +kernel
  obtain ⟨code, hcode⟩ :=
    Except.exists_of_isOk (show (compileToCode {} source).isOk = true by decide +kernel)
  rw [hcode] at hrun
  obtain ⟨hcount, hend⟩ := Prod.mk.inj (Option.some.inj hrun)
  have hlower : code.lower = .error (.tooManyLive 6) := by
    cases h : code.lower with
    | ok lowered => simp [h] at hend
    | error e =>
        simp only [h, Option.some.injEq] at hend
        rw [hend]
  have hcompile : compile {} source = .error (.tooManyLive 6) := by
    rw [compile, hcode]
    show code.assemble = _
    rw [Code.assemble, hlower]
    rfl
  have hlabels : ∀ code', compileToCode {} source = .ok code' →
      (labels code'.instrs).length < 0x8000000000000000 := by
    intro code' hcode'
    obtain rfl : code = code' := Except.ok.inj (hcode.symm.trans hcode')
    rw [hcount]
    decide
  obtain ⟨hstages, hblame⟩ := compile_blames_source {} source hlabels
  obtain ⟨program, symbols, hparse, hanalyze, hbuild⟩ := compileToCode_eq_ok.mp hcode
  obtain ⟨-, -, hbuilt⟩ := hstages program symbols hparse hanalyze
  rcases (hbuilt code hbuild).1 _ hlower with ⟨-, hneed, -⟩ | ⟨_, _, _, _, hvalue, -⟩
  · exact ⟨hcompile, hblame _ hcompile, program, hparse, hneed⟩
  · cases hvalue

end SixReg
