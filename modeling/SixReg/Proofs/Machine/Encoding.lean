import Mathlib.Data.List.Forall2
import SixReg.Machine.Encoding
import SixReg.Proofs.Computation

/-!
# Encoded instructions are read back

An encoded instruction is a pair of words that is cut into fields, and an instruction says something
in some of them (`Instruction.field?`). Encoding writes what the instruction says and zero in the
other fields (`field_of_encode`); decoding gives the instruction that says what stands in its
fields, whatever stands in the others (`decode_eq_ok`). Together: decoding undoes encoding
(`decode_of_encode`).
-/

namespace SixReg

/-! ## Codes -/

/-- In a table whose entries are found by their codes, no entry is found by any other code. -/
theorem find?_code_eq_some {α : Type} {code : α → Nat} {all : List α}
    (h : ∀ a, all.find? (code · == code a) = some a) {n : Nat} {a : α} :
    all.find? (code · == n) = some a ↔ code a = n := by
  constructor
  · intro hfind
    simpa using List.find?_some hfind
  · rintro rfl
    exact h a

theorem Group.ofCode?_eq_some {n : Nat} {g : Group} : ofCode? n = some g ↔ g.code = n :=
  find?_code_eq_some ofCode?_code

theorem AluOp.ofCode?_eq_some {n : Nat} {op : AluOp} : ofCode? n = some op ↔ op.code = n :=
  find?_code_eq_some ofCode?_code

theorem MemOp.ofCode?_eq_some {n : Nat} {op : MemOp} : ofCode? n = some op ↔ op.code = n :=
  find?_code_eq_some ofCode?_code

theorem CallOp.ofCode?_eq_some {n : Nat} {op : CallOp} : ofCode? n = some op ↔ op.code = n :=
  find?_code_eq_some ofCode?_code

theorem BranchOp.ofCode?_eq_some {n : Nat} {op : BranchOp} : ofCode? n = some op ↔ op.code = n :=
  find?_code_eq_some ofCode?_code

theorem registerField_eq {n : Nat} {r : Register} (h : n % 8 = r.code) :
    Encoded.registerField n = r := by
  rw [Encoded.registerField, h, Register.ofCode?_code, Option.getD_some]

/-- Three bits are the code of some register. -/
theorem code_registerField (n : Nat) : (Encoded.registerField n).code = n % 8 := by
  have hcodes : ∀ m < 8, ((Register.ofCode? m).getD .r0).code = m := by decide
  exact hcodes _ (Nat.mod_lt n (by decide))

theorem Encoded.operation_eq_ok {α : Type} {word : Word} {field : Reserved} {found : Option α}
    {op : α} : operation word field found = .ok op ↔ found = some op := by
  cases found <;> simp [operation]

/-! ## Fields -/

/-- The fields of an encoded instruction. -/
inductive Field where
  | group
  | operation
  | rs1
  | rs2
  | rd
  | immediate
deriving DecidableEq, Repr

/-- What stands in a field. -/
def Encoded.field (e : Encoded) : Field → Nat
  | .group => e.opcode.toNat / 8192
  | .operation => e.opcode.toNat / 512 % 16
  | .rs1 => e.opcode.toNat / 64 % 8
  | .rs2 => e.opcode.toNat / 8 % 8
  | .rd => e.opcode.toNat % 8
  | .immediate => e.immediate.toNat

namespace Instruction

/-- The code of the operation, in the table for the group. -/
def operation : Instruction → Nat
  | .alu op _ _ _ | .aluImm op _ _ _ => op.code
  | .memRead op _ | .memWrite op _ => op.code
  | .call op _ => op.code
  | .branch op _ _ _ => op.code

/-- The immediate of an instruction that has one. -/
def immediate? : Instruction → Option Int
  | .aluImm _ _ _ imm | .call _ imm | .branch _ _ _ imm => some imm
  | .alu _ _ _ _ | .memRead _ _ | .memWrite _ _ => none

/-- What an instruction says in a field, unless it has no use for the field. -/
def field? (instr : Instruction) : Field → Option Int
  | .group => some instr.group.code
  | .operation => some instr.operation
  | .rs1 =>
    match instr with
    | .alu _ rs1 _ _ | .aluImm _ rs1 _ _ | .memWrite _ rs1 | .branch _ rs1 _ _ => some rs1.code
    | .memRead _ _ | .call _ _ => none
  | .rs2 =>
    match instr with
    | .alu _ _ rs2 _ | .branch _ _ rs2 _ => some rs2.code
    | .aluImm _ _ _ _ | .memRead _ _ | .memWrite _ _ | .call _ _ => none
  | .rd =>
    match instr with
    | .alu _ _ _ rd | .aluImm _ _ rd _ | .memRead _ rd => some rd.code
    | .memWrite _ _ | .call _ _ | .branch _ _ _ _ => none
  | .immediate => instr.immediate?

theorem operation_lt (instr : Instruction) : instr.operation < 16 := by
  cases instr with
  | alu op | aluImm op => exact op.code_lt
  | memRead op | memWrite op => exact op.code_lt
  | call op => exact op.code_lt
  | branch op => exact op.code_lt

theorem immediate_eq_getD (instr : Instruction) : instr.immediate = instr.immediate?.getD 0 := by
  cases instr <;> rfl

end Instruction

theorem toNat_packFields {group : Group} {op : Nat} {rs1 rs2 rd : Register} (hop : op < 16) :
    (packFields group op rs1 rs2 rd).toNat =
      group.code * 8192 + op * 512 + rs1.code * 64 + rs2.code * 8 + rd.code := by
  have hgroup := group.code_lt
  have hrs1 := rs1.code_lt
  have hrs2 := rs2.code_lt
  have hrd := rd.code_lt
  rw [packFields, BitVec.toNat_ofNat]
  omega

/-- The fields do not overlap, so each of them can be read back. -/
theorem field_packFields {group : Group} {op : Nat} {rs1 rs2 rd : Register} {imm : Word}
    (hop : op < 16) (f : Field) :
    Encoded.field ⟨packFields group op rs1 rs2 rd, imm⟩ f =
      match f with
      | .group => group.code
      | .operation => op
      | .rs1 => rs1.code
      | .rs2 => rs2.code
      | .rd => rd.code
      | .immediate => imm.toNat := by
  have hrs1 := rs1.code_lt
  have hrs2 := rs2.code_lt
  have hrd := rd.code_lt
  cases f <;> simp only [Encoded.field, toNat_packFields hop] <;> omega

/-! ## Immediates -/

/-- The number fits the immediate field of an encoded instruction. -/
def FitsImmediate (value : Int) : Prop := 0 ≤ value ∧ value ≤ maxImmediate

instance (value : Int) : Decidable (FitsImmediate value) := inferInstanceAs (Decidable (_ ∧ _))

theorem Instruction.fitsImmediate_iff {instr : Instruction} :
    FitsImmediate instr.immediate ↔ ∀ imm, instr.immediate? = some imm → FitsImmediate imm := by
  have hzero : FitsImmediate 0 := by decide
  rw [immediate_eq_getD]
  cases instr.immediate? <;> simp [hzero]

theorem encodeImmediate_eq_ok {value : Int} {word : Word} :
    encodeImmediate value = .ok word ↔ FitsImmediate value ∧ word = .ofInt 16 value := by
  unfold encodeImmediate FitsImmediate
  split
  · next h => simp [h, eq_comm]
  · next h => simp [h]

/-- An immediate that can be encoded is the number of its word. -/
theorem toNat_ofInt_immediate {value : Int} (h : 0 ≤ value) (h' : value ≤ maxImmediate) :
    ((BitVec.ofInt 16 value).toNat : Int) = value := by
  unfold maxImmediate at h'
  rw [BitVec.toNat_ofInt]
  omega

/-! ## Instructions -/

namespace Instruction

variable {instr : Instruction} {e : Encoded}

theorem encode_eq_ok :
    instr.encode = .ok e ↔
      FitsImmediate instr.immediate ∧ e = ⟨instr.opcode, .ofInt 16 instr.immediate⟩ := by
  simp only [encode, Except.map_eq_ok, encodeImmediate_eq_ok]
  constructor
  · rintro ⟨_, ⟨h, rfl⟩, rfl⟩
    exact ⟨h, rfl⟩
  · rintro ⟨h, rfl⟩
    exact ⟨_, ⟨h, rfl⟩, rfl⟩

/-- **What encoding writes**: in each field what the instruction says there, and zero in the fields
that it has no use for. -/
theorem field_of_encode (h : instr.encode = .ok e) (f : Field) :
    (e.field f : Int) = (instr.field? f).getD 0 := by
  obtain ⟨⟨hmin, hmax⟩, rfl⟩ := encode_eq_ok.mp h
  have himm := toNat_ofInt_immediate hmin hmax
  have hop := instr.operation_lt
  cases instr <;> simp only [opcode, operation] at hop ⊢ <;> rw [field_packFields hop] <;>
    cases f <;> first | rfl | exact himm

/-- **What decoding reads**: the instruction that says in its fields what stands there. -/
theorem decode_eq_ok :
    e.decode = .ok instr ↔ ∀ f n, instr.field? f = some n → (e.field f : Int) = n := by
  simp only [Encoded.decode, Except.bind_eq_ok, Encoded.operation_eq_ok, Group.ofCode?_eq_some]
  constructor
  · rintro ⟨group, hgroup, h⟩ f n hf
    -- whatever the group, its operation comes from the table and the registers from their fields
    cases group <;>
      simp only [Except.bind_eq_ok, Except.pure_eq_ok, Encoded.operation_eq_ok,
        AluOp.ofCode?_eq_some, MemOp.ofCode?_eq_some, CallOp.ofCode?_eq_some,
        BranchOp.ofCode?_eq_some] at h <;>
      obtain ⟨op, hop, rfl⟩ := h <;> cases f <;> cases hf <;>
      simp [Encoded.field, code_registerField, Instruction.group, operation, *]
  · intro h
    have hgroup : e.opcode.toNat / 8192 = instr.group.code := Int.ofNat.inj (h .group _ rfl)
    have hop : e.opcode.toNat / 512 % 16 = instr.operation := Int.ofNat.inj (h .operation _ rfl)
    have hrs1 : ∀ r : Register, instr.field? .rs1 = some (r.code : Int) →
        Encoded.registerField (e.opcode.toNat / 64) = r :=
      fun r hr => registerField_eq (Int.ofNat.inj (h .rs1 _ hr))
    have hrs2 : ∀ r : Register, instr.field? .rs2 = some (r.code : Int) →
        Encoded.registerField (e.opcode.toNat / 8) = r :=
      fun r hr => registerField_eq (Int.ofNat.inj (h .rs2 _ hr))
    have hrd : ∀ r : Register, instr.field? .rd = some (r.code : Int) →
        Encoded.registerField e.opcode.toNat = r :=
      fun r hr => registerField_eq (Int.ofNat.inj (h .rd _ hr))
    have himm : ∀ imm, instr.immediate? = some imm → (e.immediate.toNat : Int) = imm :=
      h .immediate
    refine ⟨instr.group, hgroup.symm, ?_⟩
    rw [hop]
    cases instr with
    | alu op rs1 rs2 rd =>
        simp [group, operation, Encoded.operation_eq_ok, hrs1 rs1 rfl, hrs2 rs2 rfl, hrd rd rfl]
    | aluImm op rs1 rd imm =>
        simp [group, operation, Encoded.operation_eq_ok, hrs1 rs1 rfl, hrd rd rfl, himm imm rfl]
    | memRead op rd => simp [group, operation, Encoded.operation_eq_ok, hrd rd rfl]
    | memWrite op rs1 => simp [group, operation, Encoded.operation_eq_ok, hrs1 rs1 rfl]
    | call op imm => simp [group, operation, Encoded.operation_eq_ok, himm imm rfl]
    | branch op rs1 rs2 imm =>
        simp [group, operation, Encoded.operation_eq_ok, hrs1 rs1 rfl, hrs2 rs2 rfl, himm imm rfl]

/-- **Decoding undoes encoding.** -/
theorem decode_of_encode (h : instr.encode = .ok e) : e.decode = .ok instr := by
  rw [decode_eq_ok]
  intro f n hf
  rw [field_of_encode h, hf, Option.getD_some]

end Instruction

/-! ## Programs -/

/-- A computation goes through a list one element after the other. -/
theorem Except.mapM_eq_ok {ε α β : Type} {f : α → Except ε β} {xs : List α} {ys : List β} :
    xs.mapM f = .ok ys ↔ List.Forall₂ (fun x y => f x = .ok y) xs ys := by
  induction xs generalizing ys with
  | nil =>
      rw [List.mapM_nil, Except.pure_eq_ok, List.forall₂_nil_left_iff]
      exact eq_comm
  | cons x xs ih =>
      simp only [List.mapM_cons, Except.bind_eq_ok, Except.pure_eq_ok, ih,
        List.forall₂_cons_left_iff]
      constructor
      · rintro ⟨y, hy, rest, hrest, rfl⟩
        exact ⟨y, rest, hy, hrest, rfl⟩
      · rintro ⟨y, rest, hy, hrest, rfl⟩
        exact ⟨y, hy, rest, hrest, rfl⟩

namespace Instruction

theorem encodeAll_eq_ok {program : List Instruction} {encoded : List Encoded} :
    encodeAll program = .ok encoded ↔
      List.Forall₂ (fun instr e => instr.encode = .ok e) program encoded :=
  Except.mapM_eq_ok

theorem exists_encodeAll_iff {program : List Instruction} :
    (∃ encoded, encodeAll program = .ok encoded) ↔
      ∀ instr ∈ program, FitsImmediate instr.immediate := by
  simp only [encodeAll_eq_ok]
  induction program with
  | nil => simp
  | cons instr program ih =>
      rw [List.forall_mem_cons, ← ih]
      simp only [List.forall₂_cons_left_iff, encode_eq_ok]
      constructor
      · rintro ⟨_, _, rest, ⟨hfits, -⟩, hrest, rfl⟩
        exact ⟨hfits, rest, hrest⟩
      · rintro ⟨hfits, rest, hrest⟩
        exact ⟨_, _, rest, ⟨hfits, rfl⟩, hrest, rfl⟩

end Instruction

end SixReg
