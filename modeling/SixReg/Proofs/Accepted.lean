import SixReg.Proofs.Compile
import SixReg.Proofs.Tac.Buildable
import SixReg.Proofs.Tac.Capacity
import SixReg.Proofs.Token.Cover

/-!
# The language that compiles

Five passes can reject a text. The first two are about its tokens and its names. What the other
three ask for is a property of the tree alone (`Accepted`): comparisons stand where they may, six
registers are enough, and literals, slots and offsets fit their thirteen bits. Nothing else is ever
rejected (`compile_succeeds_iff`).
-/

namespace SixReg

open Tac

/-- What the compiler asks of a program besides its names. -/
@[mk_iff]
structure Accepted (p : Program) : Prop where
  /-- Every condition is a comparison, and there are no others. -/
  supported : ∀ site ∈ Block.sites p, site.isSupported = true
  /-- Six registers are enough. -/
  registers : ∀ site ∈ Block.sites p, site.need ≤ 6
  /-- Literals fit the immediate field. -/
  literals : ∀ site ∈ Block.sites p, ∀ value ∈ site.value.literals, value ≤ 8191
  /-- So do the slots of all variables. -/
  slots : (Block.declared p).toFinset.card ≤ 8192
  /-- So do the offsets of all labels. -/
  offsets : ∀ place ∈ Block.labelPlaces 0 p, place * wordsPerInstruction ≤ 8191

instance (p : Program) : Decidable (Accepted p) := decidable_of_iff' _ (accepted_iff p)

/-! ## Slots -/

section Slots

variable {source : Source} {policy : Redeclaration} {program : Program} {table : SymbolTable}

/-- Every variable is stored to, so the slots that code reaches are all slots of the table. -/
theorem slots_le_iff {t l t' l' m : Nat} {code : List Instr}
    (h : program.analyze source policy = .ok table)
    (hcode : BlockCode table program t l code t' l') :
    (∀ symbol ∈ code.flatMap Instr.symbols, symbol.slot ≤ m) ↔ table.size ≤ m + 1 := by
  constructor
  · intro hslots
    by_contra hsize
    -- there would be a variable in slot `m + 1`, and some instruction stores to it
    have hlast : m + 1 < table.names.size := Nat.lt_of_not_le hsize
    have hdeclares := (mem_names_iff_of_analyze h).mp (Array.getElem_mem hlast)
    obtain ⟨symbol, src, hfound, hstore⟩ := hcode.storesTo hdeclares
    obtain ⟨hlt, hname⟩ := Array.getElem?_eq_some_iff.mp (SymbolTable.getElem?_slot hfound)
    rw [← Array.getElem_toList, ← Array.getElem_toList hlast,
      (names_nodup_of_analyze h).getElem_inj_iff] at hname
    have hle := hslots symbol (List.mem_flatMap.mpr ⟨_, hstore, List.mem_singleton_self _⟩)
    omega
  · intro hsize symbol hsymbol
    have hslot := SymbolTable.getElem?_slot (hcode.find?_symbol symbol hsymbol)
    obtain ⟨hlt, -⟩ := Array.getElem?_eq_some_iff.mp hslot
    exact Nat.le_of_lt_succ (Nat.lt_of_lt_of_le hlt hsize)

end Slots

/-! ## Acceptance -/

variable {options : Options} {source : Source} {program : Program} {symbols : SymbolTable}

theorem Program.literals_nonneg (h : Program.parse source = .ok program) :
    ∀ site ∈ Block.sites program, ∀ value ∈ site.value.literals, 0 ≤ value := by
  intro site hsite value hvalue
  unfold Program.parse at h
  split at h
  · cases h
  · next tokens htokens =>
      rw [Except.mapError_eq_ok, Cursor.program_eq_ok] at h
      obtain ⟨l, hl, hnumber⟩ := Parse.exists_number h site hsite value hvalue
      exact nonneg_of_mem_tokens htokens hl hnumber

/-- The labels of code with small offsets have small numbers. -/
theorem BlockCode.label_bound {p : Block} {t t' l' : Nat} {code : List Instr}
    (h : BlockCode symbols p t 0 code t' l')
    (hoffsets : ∀ place ∈ Block.labelPlaces 0 p, place * wordsPerInstruction ≤ 8191) :
    l' ≤ 0x8000000000000000 := by
  -- all labels stand in front of machine instruction 4096, and there are two of them for each
  have hfew := Block.length_labelPlaces_le (m := 4095) fun place hplace => by
    have hoffset := hoffsets place hplace
    unfold wordsPerInstruction at hoffset
    omega
  have hlabels := h.length_labels
  rw [← length_labelPlaces 0, h.labelPlaces_eq] at hlabels
  omega

theorem exists_assemble_iff_accepted {code : Code} (hparse : Program.parse source = .ok program)
    (hanalyze : program.analyze source options.redeclaration = .ok symbols)
    (hbuild : program.build source symbols = .ok code) :
    (∃ c, code.assemble = .ok c) ↔ Accepted program := by
  obtain ⟨t', l', hcode⟩ := Program.build_shape hbuild
  rw [exists_assemble_iff, hcode.encodable_iff, slots_le_iff hanalyze hcode,
    size_eq_of_analyze hanalyze]
  have hnonneg := Program.literals_nonneg hparse
  constructor
  · rintro ⟨hlow, hliterals, hslots, hoffsets⟩
    obtain ⟨hsupported, hregisters⟩ := (hcode.lowerable_iff (hcode.label_bound hoffsets)).mp hlow
    exact ⟨hsupported, hregisters, fun site hsite value hvalue =>
      (hliterals site hsite value hvalue).2, hslots, hoffsets⟩
  · intro h
    -- a literal that is too small is none of the parser's
    refine ⟨(hcode.lowerable_iff (hcode.label_bound h.offsets)).mpr ⟨h.supported, h.registers⟩, ?_,
      h.slots, h.offsets⟩
    intro site hsite value hvalue
    exact ⟨hnonneg site hsite value hvalue, h.literals site hsite value hvalue⟩

theorem Site.isComparison_of_isSupported {e : Expr}
    (h : (Site.condition e).isSupported = true) : e.isComparison = true := by
  cases e with
  | binary op left right =>
      simp only [Site.isSupported, Bool.and_eq_true] at h
      exact h.1.1
  | number | var | not => cases h

/-- **The compiler accepts exactly the programs that fit the machine.** A text compiles if it
parses, its names are in order and its program is accepted, and no other text does. -/
theorem compile_succeeds_iff (options : Options) (source : Source) :
    (∃ c, compile options source = .ok c) ↔
      ∃ program symbols, Program.parse source = .ok program ∧
        program.analyze source options.redeclaration = .ok symbols ∧ Accepted program := by
  constructor
  · rintro ⟨c, hc⟩
    obtain ⟨program, symbols, code, hparse, hanalyze, hbuild, hassemble⟩ := compile_eq_ok.mp hc
    exact ⟨program, symbols, hparse, hanalyze,
      (exists_assemble_iff_accepted hparse hanalyze hbuild).mp ⟨c, hassemble⟩⟩
  · rintro ⟨program, symbols, hparse, hanalyze, haccepted⟩
    obtain ⟨code, hbuild⟩ := (Program.exists_build_iff hanalyze).mpr fun e he =>
      Site.isComparison_of_isSupported (haccepted.supported _ he)
    obtain ⟨c, hassemble⟩ := (exists_assemble_iff_accepted hparse hanalyze hbuild).mpr haccepted
    exact ⟨c, compile_eq_ok.mpr ⟨program, symbols, code, hparse, hanalyze, hbuild, hassemble⟩⟩

/-- Operations that are grouped from the right wait for each other: four of them compile, with the
largest literal that there is, and five are too many. -/
theorem compile_succeeds_iff_nested :
    let four : Source := "var x = 1; print 8191 + (8191 + (8191 + (8191 + x)));".toList
    let five : Source := "var x = 1; print 8191 + (8191 + (8191 + (8191 + (8191 + x))));".toList
    (∃ c, compile {} four = .ok c) ∧ ¬ ∃ c, compile {} five = .ok c := by
  intro four five
  rw [compile_succeeds_iff, compile_succeeds_iff]
  constructor
  · obtain ⟨symbols, hsymbols⟩ := Except.exists_of_isOk
      (show (analyze {} four).isOk = true by decide +kernel)
    obtain ⟨program, hparse, hanalyze⟩ := analyze_eq_ok.mp hsymbols
    have haccepted : (Program.parse four).toOption.map (fun p => decide (Accepted p)) =
        some true := by decide +kernel
    rw [hparse] at haccepted
    exact ⟨program, symbols, hparse, hanalyze, of_decide_eq_true (Option.some.inj haccepted)⟩
  · rintro ⟨program, symbols, hparse, -, haccepted⟩
    have hrejected : (Program.parse five).toOption.map (fun p => decide (Accepted p)) =
        some false := by decide +kernel
    rw [hparse] at hrejected
    exact of_decide_eq_false (Option.some.inj hrejected) haccepted

end SixReg
