import SixReg.Proofs.Machine.Encoding

/-!
# The instruction format, read from both ends

Encoding refuses a program for its first immediate that does not fit, and for nothing else
(`encodeAll_eq_error`). Decoding refuses a pair of words for a reserved code, and for nothing else
(`decode_eq_error`); what it accepts is encoded to the same pair again, with zero in the fields that
the instruction has no use for (`encode_of_decode`).
-/

namespace SixReg

/-! ## Reserved codes -/

theorem Group.ofCode?_eq_none {n : Nat} (hn : n < 8) : ofCode? n = none ↔ n = 3 ∨ n = 6 := by
  revert n
  decide

theorem AluOp.ofCode?_eq_none {n : Nat} (hn : n < 16) : ofCode? n = none ↔ n = 12 := by
  revert n
  decide

theorem MemOp.ofCode?_eq_none {n : Nat} (hn : n < 16) : ofCode? n = none ↔ 4 ≤ n := by
  revert n
  decide

theorem CallOp.ofCode?_eq_none {n : Nat} (hn : n < 16) : ofCode? n = none ↔ 2 ≤ n := by
  revert n
  decide

theorem BranchOp.ofCode?_eq_none {n : Nat} (hn : n < 16) :
    ofCode? n = none ↔ 10 ≤ n ∧ n ≤ 14 := by
  revert n
  decide

theorem Reserved.exists_iff {P : Reserved → Prop} :
    (∃ reason, P reason) ↔ P .group ∨ P .alu ∨ P .memory ∨ P .call ∨ P .branch := by
  constructor
  · rintro ⟨reason, h⟩
    cases reason <;> simp [h]
  · rintro (h | h | h | h | h) <;> exact ⟨_, h⟩

namespace Encoded

variable {e : Encoded}

/-- A code in the pair is reserved: the one of the group, or the one of the operation in its
group. -/
def Reserves (e : Encoded) : Reserved → Prop
  | .group => e.field .group = 3 ∨ e.field .group = 6
  | .alu => (e.field .group = 0 ∨ e.field .group = 1) ∧ e.field .operation = 12
  | .memory => (e.field .group = 2 ∨ e.field .group = 7) ∧ 4 ≤ e.field .operation
  | .call => e.field .group = 4 ∧ 2 ≤ e.field .operation
  | .branch => e.field .group = 5 ∧ 10 ≤ e.field .operation ∧ e.field .operation ≤ 14

theorem operation_eq_error {α : Type} {word : Word} {field : Reserved} {found : Option α}
    {err : CompileError} :
    operation word field found = .error err ↔ found = none ∧ err = .invalidEncoding word field := by
  cases found <;> simp [operation, eq_comm]

/-- **Decoding fails on reserved codes** and on nothing else. -/
theorem decode_eq_error {err : CompileError} :
    e.decode = .error err ↔
      ∃ reason, e.Reserves reason ∧ err = .invalidEncoding e.opcode reason := by
  have hgroup : e.opcode.toNat / 8192 < 8 := by omega
  have hop : e.opcode.toNat / 512 % 16 < 16 := Nat.mod_lt _ (by decide)
  simp only [decode, Except.bind_eq_error, operation_eq_error, operation_eq_ok,
    Reserved.exists_iff, Reserves, field]
  cases hg : Group.ofCode? (e.opcode.toNat / 8192) with
  | none => rcases (Group.ofCode?_eq_none hgroup).mp hg with hcode | hcode <;> simp [hcode]
  | some group =>
      have hcode := Group.ofCode?_eq_some.mp hg
      -- the group decides which table has the operation
      cases group <;>
        simp [← hcode, Group.code, Except.bind_eq_error, operation_eq_error, Except.pure_ne_error,
          AluOp.ofCode?_eq_none hop, MemOp.ofCode?_eq_none hop, CallOp.ofCode?_eq_none hop,
          BranchOp.ofCode?_eq_none hop, and_assoc, -bind_pure_comp]

/-! ## Unused fields -/

/-- The fields are all that there is in a pair. -/
theorem ext_field {e e' : Encoded} (h : ∀ f, e.field f = e'.field f) : e = e' := by
  obtain ⟨opcode, immediate⟩ := e
  obtain ⟨opcode', immediate'⟩ := e'
  have hgroup : opcode.toNat / 8192 = opcode'.toNat / 8192 := h .group
  have hoperation : opcode.toNat / 512 % 16 = opcode'.toNat / 512 % 16 := h .operation
  have hrs1 : opcode.toNat / 64 % 8 = opcode'.toNat / 64 % 8 := h .rs1
  have hrs2 : opcode.toNat / 8 % 8 = opcode'.toNat / 8 % 8 := h .rs2
  have hrd : opcode.toNat % 8 = opcode'.toNat % 8 := h .rd
  obtain rfl : opcode = opcode' := BitVec.eq_of_toNat_eq (by omega)
  obtain rfl : immediate = immediate' := BitVec.eq_of_toNat_eq (h .immediate)
  rfl

theorem field_and (e e' : Encoded) (f : Field) :
    field ⟨e.opcode &&& e'.opcode, e.immediate &&& e'.immediate⟩ f = e.field f &&& e'.field f := by
  have hpart : ∀ a b i k : Nat,
      (a &&& b) / 2 ^ i % 2 ^ k = a / 2 ^ i % 2 ^ k &&& b / 2 ^ i % 2 ^ k := by
    intro a b i k
    rw [Nat.and_div_two_pow, Nat.and_mod_two_pow]
  cases f with
  | group => exact Nat.and_div_two_pow (n := 13)
  | operation => exact hpart _ _ 9 4
  | rs1 => exact hpart _ _ 6 3
  | rs2 => exact hpart _ _ 3 3
  | rd => exact Nat.and_mod_two_pow (n := 3)
  | immediate => rfl

end Encoded

/-- The number that a field holds if all of its bits are set. -/
def Field.ones : Field → Nat
  | .operation => 15
  | .immediate => 65535
  | .group | .rs1 | .rs2 | .rd => 7

theorem Encoded.field_and_ones (e : Encoded) (f : Field) : e.field f &&& f.ones = e.field f := by
  have hgroup : e.opcode.toNat / 8192 < 8 := by omega
  cases f with
  | group => exact Nat.and_two_pow_sub_one_of_lt_two_pow (n := 3) hgroup
  | operation => exact Nat.and_two_pow_sub_one_of_lt_two_pow (n := 4) (Nat.mod_lt _ (by decide))
  | rs1 | rs2 | rd =>
      exact Nat.and_two_pow_sub_one_of_lt_two_pow (n := 3) (Nat.mod_lt _ (by decide))
  | immediate => exact Nat.and_two_pow_sub_one_of_lt_two_pow e.immediate.isLt

/-- The bits of the fields that the instructions of a group use. -/
def Group.mask : Group → Encoded
  | .alu => ⟨0b111_1111_111_111_111, 0⟩
  | .aluImm => ⟨0b111_1111_111_000_111, 0xffff⟩
  | .memRead => ⟨0b111_1111_000_000_111, 0⟩
  | .memWrite => ⟨0b111_1111_111_000_000, 0⟩
  | .call => ⟨0b111_1111_000_000_000, 0xffff⟩
  | .branch => ⟨0b111_1111_111_111_000, 0xffff⟩

/-- The same pair with zero in the fields that a group does not use. -/
def Encoded.clearUnused (e : Encoded) (group : Group) : Encoded :=
  ⟨e.opcode &&& group.mask.opcode, e.immediate &&& group.mask.immediate⟩

namespace Instruction

variable {instr : Instruction} {e : Encoded}

theorem field_mask (instr : Instruction) (f : Field) :
    instr.group.mask.field f = if (instr.field? f).isSome then f.ones else 0 := by
  cases instr <;> cases f <;>
    simp [group, Group.mask, Encoded.field, Field.ones, field?, immediate?]

theorem field_clearUnused (instr : Instruction) (e : Encoded) (f : Field) :
    (e.clearUnused instr.group).field f = if (instr.field? f).isSome then e.field f else 0 := by
  rw [Encoded.clearUnused, Encoded.field_and, field_mask]
  split
  · exact e.field_and_ones f
  · exact Nat.and_zero _

/-- A word is no negative number, so what was decoded can only be too large. -/
theorem fitsImmediate_of_decode (h : e.decode = .ok instr) (himm : instr.immediate ≤ 8191) :
    FitsImmediate instr.immediate := by
  refine ⟨?_, himm⟩
  rw [immediate_eq_getD]
  cases hi : instr.immediate? with
  | none => exact Int.le_refl 0
  | some imm =>
      rw [Option.getD_some, ← decode_eq_ok.mp h .immediate imm hi]
      exact Int.natCast_nonneg _

/-- **Encoding undoes decoding**, except that the fields come out clear that the instruction has no
use for. -/
theorem encode_of_decode (h : e.decode = .ok instr) (himm : instr.immediate ≤ 8191) :
    instr.encode = .ok (e.clearUnused instr.group) := by
  obtain ⟨e', he'⟩ : ∃ e', instr.encode = .ok e' :=
    ⟨_, encode_eq_ok.mpr ⟨fitsImmediate_of_decode h himm, rfl⟩⟩
  have heq : e' = e.clearUnused instr.group := by
    apply Encoded.ext_field
    intro f
    have hfield := field_of_encode he' f
    rw [field_clearUnused]
    cases hf : instr.field? f with
    | none => simpa [hf] using hfield
    | some n =>
        rw [hf, Option.getD_some, ← decode_eq_ok.mp h f n hf] at hfield
        simpa using Int.ofNat.inj hfield
  rw [he', heq]

/-! ## Programs that are refused -/

theorem encode_eq_error {err : CompileError} :
    instr.encode = .error err ↔
      ∃ imm, instr.immediate? = some imm ∧ ¬ FitsImmediate imm ∧
        err = .immediateOutOfRange imm := by
  have hencode : instr.encode = .error err ↔
      ¬ FitsImmediate instr.immediate ∧ err = .immediateOutOfRange instr.immediate := by
    unfold encode encodeImmediate FitsImmediate
    split
    · next h => simp [Except.map, h]
    · next h => simp [Except.map, h, eq_comm]
  rw [hencode, fitsImmediate_iff, immediate_eq_getD]
  cases instr.immediate? <;> simp

/-- **Encoding fails on the first immediate that does not fit** and on nothing else. -/
theorem encodeAll_eq_error {program : List Instruction} {err : CompileError} :
    encodeAll program = .error err ↔
      ∃ imm, (program.filterMap immediate?).find? (fun imm => ¬ FitsImmediate imm) = some imm ∧
        err = .immediateOutOfRange imm := by
  unfold encodeAll
  induction program with
  | nil => simp [Except.pure_ne_error]
  | cons instr program ih =>
      have hok : (∃ e, instr.encode = .ok e) ↔ ∀ err, instr.encode ≠ .error err := by
        cases instr.encode <;> simp
      simp only [List.mapM_cons, Except.bind_eq_error, ih, Except.pure_ne_error, and_false,
        exists_false, or_false, exists_and_right, hok, ne_eq, encode_eq_error]
      cases hi : instr.immediate? with
      | none => simp [hi]
      | some imm => by_cases hfits : FitsImmediate imm <;> simp [hi, hfits]

end Instruction

/-! ## Words -/

/-- The encoded instructions that words spell, two words each. -/
def Encoded.ofWords : List Word → List Encoded
  | opcode :: immediate :: words => ⟨opcode, immediate⟩ :: ofWords words
  | _ => []

theorem Encoded.ofWords_flatMap_words (encoded : List Encoded) :
    ofWords (encoded.flatMap words) = encoded := by
  induction encoded with
  | nil => rfl
  | cons e encoded ih =>
      show e :: ofWords (encoded.flatMap words) = e :: encoded
      rw [ih]

theorem Instruction.decode_words_of_encodeAll {program : List Instruction} {encoded : List Encoded}
    (h : encodeAll program = .ok encoded) :
    (Encoded.ofWords (encoded.flatMap Encoded.words)).mapM Encoded.decode = .ok program := by
  rw [Encoded.ofWords_flatMap_words, Except.mapM_eq_ok]
  exact ((encodeAll_eq_ok.mp h).imp fun _ _ => decode_of_encode).flip

open Instruction in
/-- **Encoding and decoding are inverse to each other.** A program is encoded just in case its
immediates fit thirteen bits, else the first that does not is reported; and the words of an encoded
program, two by two, decode to that program. In the other direction, a pair of words is decoded just
in case it has no reserved code; and what it decodes to, if the immediate fits, is encoded to the
pair with its unused fields cleared, which decodes to the same instruction. -/
theorem encode_decode_inverse :
    (∀ program : List Instruction,
      ((∃ encoded, encodeAll program = .ok encoded) ↔
        ∀ imm ∈ program.filterMap immediate?, 0 ≤ imm ∧ imm ≤ 8191) ∧
      (∀ err, encodeAll program = .error err ↔
        ∃ imm,
          (program.filterMap immediate?).find? (fun imm => ¬(0 ≤ imm ∧ imm ≤ 8191)) = some imm ∧
          err = .immediateOutOfRange imm) ∧
      ∀ encoded, encodeAll program = .ok encoded →
        (Encoded.ofWords (encoded.flatMap Encoded.words)).mapM Encoded.decode = .ok program) ∧
    ∀ e : Encoded,
      (∀ err, e.decode = .error err ↔
        ∃ reason, e.Reserves reason ∧ err = .invalidEncoding e.opcode reason) ∧
      ∀ instr, e.decode = .ok instr → instr.immediate ≤ 8191 →
        instr.encode = .ok (e.clearUnused instr.group) ∧
          (e.clearUnused instr.group).decode = .ok instr := by
  constructor
  · intro program
    refine ⟨?_, fun err => encodeAll_eq_error, fun encoded => decode_words_of_encodeAll⟩
    rw [exists_encodeAll_iff, List.forall_mem_filterMap]
    exact forall₂_congr fun instr _ => fitsImmediate_iff
  · intro e
    refine ⟨fun err => Encoded.decode_eq_error, fun instr h himm => ?_⟩
    have hencode := encode_of_decode h himm
    exact ⟨hencode, decode_of_encode hencode⟩

open Instruction in
/-- An instruction of each form with the largest immediate, and a pair of words with leftovers in
all fields that a push has no use for. -/
theorem encode_decode_inverse_push :
    let program : List Instruction := [.alu .mov .r0 .r3 .io, .aluImm .mov .r0 .mar 8191,
      .memRead .load .r4, .memWrite .push .r1, .call .call 8191, .branch .bgtu .r2 .r5 8191]
    let e : Encoded := ⟨0b111_0000_001_101_110, 0xbeef⟩
    (∃ encoded, encodeAll program = .ok encoded ∧
      (Encoded.ofWords (encoded.flatMap Encoded.words)).mapM Encoded.decode = .ok program) ∧
    e.decode = .ok (.memWrite .push .r1) ∧
      encode (.memWrite .push .r1) = .ok ⟨0b111_0000_001_000_000, 0⟩ := by
  intro program e
  obtain ⟨hprograms, hpairs⟩ := encode_decode_inverse
  constructor
  · obtain ⟨hiff, -, hwords⟩ := hprograms program
    obtain ⟨encoded, hencoded⟩ := hiff.mpr (by decide)
    exact ⟨encoded, hencoded, hwords encoded hencoded⟩
  · have hdecode : e.decode = .ok (.memWrite .push .r1) := by decide
    have hclear : e.clearUnused .memWrite = ⟨0b111_0000_001_000_000, 0⟩ := by decide
    obtain ⟨hencode, -⟩ := (hpairs e).2 _ hdecode (by decide)
    rw [← hclear]
    exact ⟨hdecode, hencode⟩

end SixReg
