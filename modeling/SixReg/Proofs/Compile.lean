import SixReg.Proofs.Assembly.Simulation
import SixReg.Proofs.Scope
import SixReg.Proofs.Tac.Translation

/-!
# Compiled programs do what programs do

The two halves of the compiler put together: what is built from a program is block-local code that
behaves like the program, and what is assembled from block-local code behaves like that code. What
is left to show is about memory: every variable of the table is stored to somewhere, so its slot
was encoded and is an address of the machine.
-/

namespace SixReg

open Tac

variable {options : Options} {source : Source} {symbols : SymbolTable} {code : Code} {c : Compiled}

/-! ## The passes of the compiler -/

theorem compileToCode_eq_ok :
    compileToCode options source = .ok code ↔ ∃ program symbols,
      Program.parse source = .ok program ∧
      program.analyze source options.redeclaration = .ok symbols ∧
      program.build source symbols = .ok code := by
  simp only [compileToCode, Except.bind_eq_ok, Except.mapError_eq_ok, exists_and_left]

theorem compile_eq_ok :
    compile options source = .ok c ↔ ∃ program symbols code,
      Program.parse source = .ok program ∧
      program.analyze source options.redeclaration = .ok symbols ∧
      program.build source symbols = .ok code ∧ code.assemble = .ok c := by
  simp only [compile, Except.bind_eq_ok, compileToCode_eq_ok]
  constructor
  · rintro ⟨code, ⟨program, symbols, hparse, hanalyze, hbuild⟩, hassemble⟩
    exact ⟨program, symbols, code, hparse, hanalyze, hbuild, hassemble⟩
  · rintro ⟨program, symbols, code, hparse, hanalyze, hbuild, hassemble⟩
    exact ⟨code, ⟨program, symbols, hparse, hanalyze, hbuild⟩, hassemble⟩

theorem analyze_eq_ok :
    analyze options source = .ok symbols ↔ ∃ program, Program.parse source = .ok program ∧
      program.analyze source options.redeclaration = .ok symbols := by
  simp only [analyze, Except.bind_eq_ok, Except.mapError_eq_ok]

/-! ## Slots of variables -/

/-- Some instruction stores to the variable. -/
def StoresTo (symbols : SymbolTable) (name : String) (code : List Instr) : Prop :=
  ∃ symbol src, symbols.find? name = some symbol ∧ .store symbol src ∈ code

theorem StoresTo.mono {name : String} {code code' : List Instr} (h : StoresTo symbols name code)
    (hsub : ∀ {instr}, instr ∈ code → instr ∈ code') : StoresTo symbols name code' := by
  obtain ⟨symbol, src, hfound, hmem⟩ := h
  exact ⟨symbol, src, hfound, hsub hmem⟩

/-- A variable that is declared is stored to. -/
theorem BlockCode.storesTo {name : String} {p : Block} {t l t' l' : Nat} {code : List Instr}
    (h : BlockCode symbols p t l code t' l') (hd : Declares name p) :
    StoresTo symbols name code := by
  induction h with
  | nil => cases hd
  | @declareConst _ _ value dst _ _ _ _ _ _ found _ ih =>
      cases hd with
      | declare => exact ⟨dst, .const value, found, .head _⟩
      | later hd => exact (ih hd).mono (.tail _)
  | @declare _ _ _ dst _ _ _ _ a _ _ _ _ _ found _ ih =>
      cases hd with
      | declare => exact ⟨dst, .temp ⟨a⟩, found, by simp⟩
      | later hd => exact (ih hd).mono fun h => by simp [h]
  | print _ _ ih =>
      cases hd with
      | later hd => exact (ih hd).mono fun h => by simp [h]
  | ifThen _ _ _ ihb iho =>
      cases hd with
      | ifThen hd => exact (ihb hd).mono fun h => by simp [h]
      | later hd => exact (iho hd).mono fun h => by simp [h]
  | ifElse _ _ _ _ ihb ihe iho =>
      cases hd with
      | ifElseBody hd => exact (ihb hd).mono fun h => by simp [h]
      | ifElseOther hd => exact (ihe hd).mono fun h => by simp [h]
      | later hd => exact (iho hd).mono fun h => by simp [h]
  | loop _ _ _ ihb iho =>
      cases hd with
      | loop hd => exact (ihb hd).mono fun h => by simp [h]
      | later hd => exact (iho hd).mono fun h => by simp [h]
  | block _ _ ihb iho =>
      cases hd with
      | block hd => exact (ihb hd).mono fun h => by simp [h]
      | later hd => exact (iho hd).mono fun h => by simp [h]

/-- A slot that assembled code stores to is an address of the machine. -/
theorem Assembled.slot_lt_of_store {code : Code} {image : Image} {l : Lowerer}
    (ha : Assembled code image l) {x : Symbol} {src : Operand}
    (h : Instr.store x src ∈ code.instrs) : x.slot < memorySize := by
  obtain ⟨n, hn⟩ := List.getElem?_of_mem h
  obtain ⟨chunk, before, after, hc⟩ := ha.exists_chunk hn
  cases hc.selected with
  | store => exact ha.slot_lt (codeAt_cons.mp hc.codeAt).1
  | storeConst => exact ha.slot_lt (codeAt_cons.mp (codeAt_cons.mp hc.codeAt).2).1

/-! ## The compiler -/

/-- The memory of a machine holds the variables, and is zero everywhere else. -/
structure HoldsVariables (symbols : SymbolTable) (store : String → Word) (m : Machine) : Prop where
  vars : ∀ {name symbol}, symbols.find? name = some symbol →
    m.memory[symbol.slot]? = some (store name)
  others : ∀ {i : Fin memorySize},
    (∀ name symbol, symbols.find? name = some symbol → symbol.slot ≠ i) → m.memory.get i = 0

/-- Runs of a compiled program do what the program does. -/
theorem runsLike_of_compile (h : compile options source = .ok c) :
    ∃ program symbols, Program.parse source = .ok program ∧
      analyze options source = .ok symbols ∧
      (∀ name, (∃ symbol, symbols.find? name = some symbol) ↔ Declares name program) ∧
      RunsLike (Program.system words) (program.start fun _ => 0) (.operator .divisionByZero)
        c.image fun s m => HoldsVariables symbols s.store m := by
  obtain ⟨program, symbols, code, hparse, hanalyze, hbuild, hassemble⟩ := compile_eq_ok.mp h
  have hdeclared : ∀ name, (∃ symbol, symbols.find? name = some symbol) ↔ Declares name program :=
    fun _ => SymbolTable.exists_find?_iff.trans (mem_names_iff_of_analyze hanalyze)
  refine ⟨program, symbols, hparse, analyze_eq_ok.mpr ⟨program, hparse, hanalyze⟩, hdeclared, ?_⟩
  obtain ⟨t, l, hcode⟩ := Program.build_shape hbuild
  obtain ⟨lowerer, ha⟩ := Code.exists_assembled hassemble
  -- every variable has an address, since it is stored to
  have hslot : ∀ {name symbol}, symbols.find? name = some symbol → symbol.slot < memorySize := by
    intro name symbol hfound
    have hdeclares := (hdeclared name).mp ⟨symbol, hfound⟩
    obtain ⟨symbol', src, hfound', hmem⟩ := hcode.storesTo hdeclares
    obtain rfl : symbol = symbol' := Option.some.inj (hfound.symm.trans hfound')
    exact ha.slot_lt_of_store hmem
  have hstart : Stored symbols (fun _ => (0 : Word)) (fun _ => 0) fun _ => 0 :=
    ⟨fun _ => rfl, fun _ => rfl⟩
  have hfront := (program_simulation words (Program.labels_nodup hbuild) fun _ => 0).alike
    (Program.matches_start hbuild (fun _ => 0) hstart)
  have hback := (code_simulation hcode.straight.blockLocal ha).alike (mirrors_start code fun _ => 0)
  refine .of_alike ((hfront.trans hback).imp ?_ ?_)
  · rintro s m ⟨s', hmatches, hmirrors⟩
    constructor
    · intro name symbol hfound
      rw [Vector.getElem?_eq_getElem (hslot hfound), ← hmatches.stored.vars hfound]
      exact congrArg some (hmirrors.memory ⟨symbol.slot, hslot hfound⟩)
    · intro i hi
      exact (hmirrors.memory i).trans (hmatches.stored.others hi)
  · rintro e fault ⟨_, rfl, hzero⟩
    exact hzero

/-- **The compiler is correct.** If a text compiles, it spells a program, with a table of just the
variables that the program declares, such that runs of the compiled one, started from rest:

* return a machine, from some limit on, if the program halts from a store of zeros: one that has
  printed what the program printed and whose memory holds its variables and zero elsewhere;
* divide by zero, from some limit on, if the program fails, which it does in no other way;
* use up every limit if the program runs forever. -/
theorem compile_correct (h : compile options source = .ok c) :
    ∃ program symbols, Program.parse source = .ok program ∧
      analyze options source = .ok symbols ∧
      (∀ name, (∃ symbol, symbols.find? name = some symbol) ↔ Declares name program) ∧
      (∀ s, (Program.system words).Halts (program.start fun _ => 0) s →
        ∃ k m, (∀ n, k ≤ n → c.image.run n = .ok m) ∧ m.output.toList = s.output ∧
          HoldsVariables symbols s.store m) ∧
      (∀ s e, (Program.system words).Fails (program.start fun _ => 0) s e →
        e = .operator .divisionByZero ∧
          ∃ k pc, ∀ n, k ≤ n → c.image.run n = .error (.divisionByZero pc)) ∧
      ((Program.system words).Diverges (program.start fun _ => 0) →
        ∀ n, c.image.run n = .error (.stepLimitExceeded n)) := by
  obtain ⟨program, symbols, hparse, hanalyze, hdeclared, hruns⟩ := runsLike_of_compile h
  refine ⟨program, symbols, hparse, hanalyze, hdeclared, ?_, ?_, ?_⟩
  · intro s hs
    obtain ⟨k, m, hk, hout, hholds⟩ := hruns.halts s hs
    exact ⟨k, m, fun n hn => by rw [Image.run, hk n hn], hout, hholds⟩
  · intro s e hs
    obtain ⟨he, k, pc, m, hk, -⟩ := hruns.fails s e hs
    exact ⟨he, k, pc, fun n hn => by rw [Image.run, hk n hn]⟩
  · intro hd n
    obtain ⟨m, hm⟩ := hruns.diverges.mp hd n
    rw [Image.run, hm]

/-- A text with a loop and a condition: compiled, it prints 3 and 1. -/
theorem compile_correct_loop :
    let source : Source :=
      "var a = 3; while a > 0: { if a != 2: { print a; } var a = a - 1; }".toList
    ∃ c k m, compile {} source = .ok c ∧ (∀ n, k ≤ n → c.image.run n = .ok m) ∧
      m.output.toList = [3, 1] := by
  intro source
  obtain ⟨c, hc⟩ := Except.exists_of_isOk (show (compile {} source).isOk = true by decide +kernel)
  obtain ⟨program, symbols, hparse, -, -, hhalts, -⟩ := compile_correct hc
  have hrun : ((Program.parse source).toOption.bind fun program =>
      ((Program.system words).after 13 (program.start fun _ => 0)).map fun s =>
        (s.output, s.todo.isEmpty)) = some ([3, 1], true) := by decide +kernel
  rw [hparse] at hrun
  obtain ⟨s, hs, hend⟩ := Option.map_eq_some_iff.mp hrun
  obtain ⟨hout, htodo⟩ := Prod.mk.inj hend
  have hstop : (Program.system words).step s = .stop := by
    simp [Program.system, Program.step, List.isEmpty_iff.mp htodo]
  obtain ⟨k, m, hk, hm, -⟩ := hhalts s ⟨⟨13, hs⟩, hstop⟩
  exact ⟨c, k, m, hc, hk, hm.trans hout⟩

end SixReg
