import Mathlib.Data.List.Nodup
import SixReg.Proofs.Tac.Placement
import SixReg.Proofs.Tac.Pressure

/-!
# The discipline of built code

Lowering gives a temporary its register where it is written and takes it back after the last read,
as the code comes. That this is right for built code rests on how a builder hands out temporaries
and labels: in the order of the definitions, with one read for each temporary on the straight way
from its definition, and one place and one way there for each label (`built_code_discipline`).
-/

namespace SixReg

open Tac

/-! ## Names that are handed out in order -/

/-- Where the first `n` of a sequence of names stand in some order, each of them stands once. -/
theorem count_of_perm_range {α : Type} [DecidableEq α] {name : Nat → α}
    (hname : Function.Injective name) {names : List α} {n : Nat}
    (h : names.Perm ((List.range n).map name)) (k : Nat) :
    names.count (name k) = if k < n then 1 else 0 := by
  have hnodup : ((List.range n).map name).Nodup := List.nodup_range.map hname
  rw [h.count_eq, hnodup.count]
  apply if_congr _ rfl rfl
  rw [List.mem_map_of_injective hname, List.mem_range]

theorem temps_zero (n : Nat) : temps 0 n = (List.range n).map Temp.mk := by
  rw [temps, Nat.sub_zero, List.range_eq_range']

/-- Temporaries that are written in order are as many as their numbers say. -/
theorem Tac.Code.tempBound_eq {code : Code} {n : Nat}
    (h : written code.instrs = (List.range n).map Temp.mk) : code.tempBound = n := by
  have hfold : ∀ n, ((List.range n).map Temp.mk).foldl (fun m t => max m (t.id + 1)) 0 = n := by
    intro n
    induction n with
    | zero => rfl
    | succ n ih =>
        rw [List.range_succ, List.map_append, List.foldl_append, ih]
        exact Nat.max_eq_right (Nat.le_succ n)
  rw [Code.tempBound, ← hfold n, ← h]
  rfl

variable {table : SymbolTable} {p : Block} {t' l' : Nat} {code : List Instr}

/-- **Every label that is given out is placed**, and no other one. -/
theorem BlockCode.labels_perm (h : BlockCode table p 0 0 code t' l') :
    (labels code).Perm ((List.range l').map Label.mk) := by
  have hsub : labels code ⊆ (List.range l').map Label.mk := by
    intro x hx
    exact List.mem_map.mpr ⟨x.id, List.mem_range.mpr (h.label_range x hx).2, rfl⟩
  apply (List.subperm_of_subset h.labels_nodup hsub).perm_of_length_le
  rw [List.length_map, List.length_range, ← h.length_labels, Nat.zero_add]

/-! ## Programs -/

/-- **The discipline of built code.** The temporaries are written in the order of their numbers,
which go from zero to the number of definitions. Each of them is read once, behind its definition
and with no label, branch or jump between the two. The labels that were given out, from zero on, are
placed once each, and each is the target of one branch or jump. -/
theorem built_code_discipline {p : Program} {table : SymbolTable} {source : Source} {code : Code}
    {b : Builder} (h : Builder.program p (.start table source) = .ok code b) :
    written code.instrs = (List.range b.temps).map Temp.mk ∧
    code.tempBound = (written code.instrs).length ∧
    (∀ t : Temp, code.reads.count t = if t.id < b.temps then 1 else 0) ∧
    (∀ before instr after, code.instrs = before ++ instr :: after → ∀ t ∈ instr.reads,
      ∃ earlier definition between, before = earlier ++ definition :: between ∧
        definition.result? = some t ∧ ∀ i ∈ between, i.isControl = false) ∧
    (∀ x : Label, (labels code.instrs).count x = if x.id < b.labels then 1 else 0) ∧
    ∀ x : Label,
      (code.instrs.filterMap Instr.target?).count x = if x.id < b.labels then 1 else 0 := by
  have hshape := Builder.program_shape h
  have hsegment := hshape.segment
  have hwritten : written code.instrs = (List.range b.temps).map Temp.mk :=
    hsegment.written_eq.trans (temps_zero _)
  have hreads : code.reads.Perm ((List.range b.temps).map Temp.mk) :=
    temps_zero b.temps ▸ hsegment.reads_perm
  have htemp : Function.Injective Temp.mk := fun _ _ => Temp.mk.inj
  have hlabel : Function.Injective Label.mk := fun _ _ => Label.mk.inj
  refine ⟨hwritten, ?_, ?_, hshape.straight, ?_, ?_⟩
  · rw [Code.tempBound_eq hwritten, hwritten, List.length_map, List.length_range]
  · intro t
    exact count_of_perm_range htemp hreads t.id
  · intro x
    exact count_of_perm_range hlabel hshape.labels_perm x.id
  · intro x
    exact count_of_perm_range hlabel (hshape.targets_perm.trans hshape.labels_perm) x.id

theorem built_code_discipline_loop :
    let program : Program := [.declare "n" ⟨0, 0⟩ (.number 3),
      .loop (.binary (.compare .gt) (.var "n" ⟨0, 0⟩) (.number 0))
        [.declare "n" ⟨0, 0⟩ (.binary (.arith .sub) (.var "n" ⟨0, 0⟩) (.number 1))]]
    let code : Code := ⟨[.store ⟨"n", 0⟩ (.const 3), .label ⟨0⟩, .load ⟨0⟩ ⟨"n", 0⟩, .const ⟨1⟩ 0,
      .branch ⟨0⟩ ⟨1⟩ .le ⟨1⟩, .load ⟨2⟩ ⟨"n", 0⟩, .binary ⟨3⟩ ⟨2⟩ (.arith .sub) (.const 1),
      .store ⟨"n", 0⟩ (.temp ⟨3⟩), .jump ⟨0⟩, .label ⟨1⟩], [⟨"n", 0⟩]⟩
    ∃ b, Builder.program program (.start ⟨#["n"]⟩ []) = .ok code b ∧ b.temps = 4 ∧ b.labels = 2 ∧
      code.reads.count ⟨2⟩ = 1 := by
  intro program code
  have hbuild : program.build [] ⟨#["n"]⟩ = .ok code := by decide +kernel
  obtain ⟨b, hb⟩ := Program.build_eq_ok.mp hbuild
  obtain ⟨hwritten, -, hreads, -, hlabels, -⟩ := built_code_discipline hb
  have htemps : b.temps = 4 := by
    have hlength := congrArg List.length hwritten
    rw [List.length_map, List.length_range] at hlength
    exact hlength.symm
  have hplaced : b.labels = 2 := by
    have hlast : 1 = if 1 < b.labels then 1 else 0 := hlabels ⟨1⟩
    have hnone : 0 = if 2 < b.labels then 1 else 0 := hlabels ⟨2⟩
    split at hlast <;> split at hnone <;> omega
  rw [htemps] at hreads
  exact ⟨b, hb, htemps, hplaced, hreads ⟨2⟩⟩

end SixReg
