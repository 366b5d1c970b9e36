import SixReg.Proofs.Assembly.Layout
import SixReg.Proofs.Syntax.Demand
import SixReg.Proofs.Tac.Shape

/-!
# Where the labels of built code stand

Every statement becomes a fixed number of machine instructions, so the tree of a program says where
its labels come to stand (`BlockCode.labelPlaces_eq`). Each label that was given out is placed, and
is the target of one branch or jump (`BlockCode.targets_perm`). If the places of labels are small
then so are their numbers, since each machine instruction goes with at most two labels
(`Block.length_labelPlaces_le`).
-/

namespace SixReg

open Tac

/-! ## Widths and places of code -/

namespace Tac

/-- The number of machine instructions for code. -/
def width (instrs : List Instr) : Nat := (instrs.map Instr.width).sum

/-- The places of the labels of code that begins at `start`. -/
def labelPlaces (start : Nat) : List Instr → List Nat
  | [] => []
  | instr :: rest =>
    (instr.label?.toList.map fun _ => start) ++ labelPlaces (start + instr.width) rest

@[simp]
theorem width_nil : width [] = 0 := rfl

@[simp]
theorem width_cons (instr : Instr) (instrs : List Instr) :
    width (instr :: instrs) = instr.width + width instrs := by
  simp [width]

@[simp]
theorem width_append (first second : List Instr) :
    width (first ++ second) = width first + width second := by
  simp [width]

@[simp]
theorem labelPlaces_append (start : Nat) (first second : List Instr) :
    labelPlaces start (first ++ second) =
      labelPlaces start first ++ labelPlaces (start + width first) second := by
  induction first generalizing start with
  | nil => rfl
  | cons instr first ih =>
      rw [List.cons_append, labelPlaces, ih, labelPlaces, List.append_assoc, width_cons,
        Nat.add_assoc]

@[simp]
theorem length_labelPlaces (start : Nat) (instrs : List Instr) :
    (labelPlaces start instrs).length = (labels instrs).length := by
  induction instrs generalizing start with
  | nil => rfl
  | cons instr instrs ih => simp [labelPlaces, ih]

theorem labelPlaces_of_labels {instrs : List Instr} (h : labels instrs = []) (start : Nat) :
    labelPlaces start instrs = [] := by
  rw [← List.length_eq_zero_iff, length_labelPlaces, h, List.length_nil]

theorem mem_labelPlaces {start q : Nat} {instrs : List Instr} :
    q ∈ labelPlaces start instrs ↔
      ∃ n label, instrs[n]? = some (.label label) ∧ q = start + place instrs n := by
  induction instrs generalizing start with
  | nil => simp [labelPlaces]
  | cons instr instrs ih =>
      -- places in the rest count from behind the first instruction
      have hplace : ∀ n, place (instr :: instrs) (n + 1) = instr.width + place instrs n := by
        intro n
        simp [place]
      have hhead : (q ∈ instr.label?.toList.map fun _ => start) ↔
          ∃ label, instr = .label label ∧ q = start := by
        cases instr <;> simp [Instr.label?, eq_comm]
      rw [labelPlaces, List.mem_append, ih, hhead]
      constructor
      · rintro (⟨label, rfl, rfl⟩ | ⟨n, label, hn, rfl⟩)
        · exact ⟨0, label, rfl, rfl⟩
        · exact ⟨n + 1, label, hn, by rw [hplace, Nat.add_assoc]⟩
      · rintro ⟨n | n, label, hn, rfl⟩
        · exact .inl ⟨label, Option.some.inj hn, rfl⟩
        · exact .inr ⟨n, label, hn, by rw [hplace, Nat.add_assoc]⟩

end Tac

/-! ## Widths of built code -/

variable {table : SymbolTable}

theorem ExprCode.width_eq {e : Expr} {t a : Nat} {code : List Instr}
    (h : ExprCode table e t code a) : width code = e.size := by
  induction h with
  | number | var | notConst => rfl
  | binaryConst _ ih =>
      rw [width_append, ih]
      rfl
  | not hne _ ih =>
      rw [width_append, ih, Expr.size]
      · rfl
      · exact hne
  | binary hne _ _ ihl ihr =>
      rw [width_append, width_append, ihl, ihr, Expr.size, Nat.add_assoc]
      · rfl
      · exact hne

theorem ConditionCode.width_eq {e : Expr} {target : Label} {t t' : Nat} {code : List Instr}
    (h : ConditionCode table e target t code t') : width code = (Site.condition e).size := by
  obtain ⟨hl, hr⟩ := h
  rw [width_append, width_append, hl.width_eq, hr.width_eq, Site.size, Nat.add_assoc]
  rfl

/-- **Statements have the width that their tree says.** -/
theorem BlockCode.width_eq {p : Block} {t l t' l' : Nat} {code : List Instr}
    (h : BlockCode table p t l code t' l') : width code = Block.size p := by
  induction h with
  | nil => rfl
  | declareConst _ _ ih =>
      rw [width_cons, ih]
      rfl
  | declare hne hv _ _ ih =>
      rw [width_append, width_cons, ih, hv.width_eq, Block.size, Stmt.size, Site.size,
        ← Nat.add_assoc]
      · rfl
      · exact hne
  | print hv _ ih =>
      rw [width_append, width_cons, ih, hv.width_eq, Block.size, Stmt.size, Site.size,
        ← Nat.add_assoc]
      rfl
  | ifThen hc _ _ ihb iho | loop hc _ _ ihb iho =>
      simp only [width_append, width_cons, hc.width_eq, ihb, iho, Instr.width, Block.size,
        Stmt.size]
      omega
  | ifElse hc _ _ _ ihb ihe iho =>
      simp only [width_append, width_cons, hc.width_eq, ihb, ihe, iho, Instr.width, Block.size,
        Stmt.size]
      omega
  | block _ _ ihb iho =>
      rw [width_append, ihb, iho]
      rfl

/-! ## Labels of built code -/

/-- **Labels stand where the tree says.** -/
theorem BlockCode.labelPlaces_eq {p : Block} {t l t' l' : Nat} {code : List Instr}
    (h : BlockCode table p t l code t' l') (start : Nat) :
    Tac.labelPlaces start code = Block.labelPlaces start p := by
  induction h generalizing start with
  | nil => rfl
  | declareConst _ _ ih => exact ih _
  | declare hne hv _ _ ih =>
      rw [labelPlaces_append, labelPlaces_of_labels hv.labels_eq, hv.width_eq, Block.labelPlaces,
        Stmt.labelPlaces, Stmt.size, Site.size, ← Nat.add_assoc, ← ih]
      · rfl
      · exact hne
  | print hv _ ih =>
      rw [labelPlaces_append, labelPlaces_of_labels hv.labels_eq, hv.width_eq, Block.labelPlaces,
        Stmt.labelPlaces, Stmt.size, Site.size, ← Nat.add_assoc, ← ih]
      rfl
  | ifThen hc hb _ ihb iho =>
      simp [Tac.labelPlaces, labelPlaces_of_labels hc.labels_eq, Instr.label?, Instr.width, ihb,
        iho, hc.width_eq, hb.width_eq, Block.labelPlaces, Stmt.labelPlaces, Stmt.size,
        Nat.add_assoc]
  | loop hc hb _ ihb iho =>
      simp [Tac.labelPlaces, labelPlaces_of_labels hc.labels_eq, Instr.label?, Instr.width, ihb,
        iho, hc.width_eq, hb.width_eq, Block.labelPlaces, Stmt.labelPlaces, Stmt.size,
        Nat.add_assoc]
  | ifElse hc hb he _ ihb ihe iho =>
      simp [Tac.labelPlaces, labelPlaces_of_labels hc.labels_eq, Instr.label?, Instr.width, ihb,
        ihe, iho, hc.width_eq, hb.width_eq, he.width_eq, Block.labelPlaces, Stmt.labelPlaces,
        Stmt.size, Nat.add_assoc]
  | block hb _ ihb iho =>
      rw [labelPlaces_append, ihb, iho, hb.width_eq]
      rfl

/-- Every label that was given out is placed. -/
theorem BlockCode.length_labels {p : Block} {t l t' l' : Nat} {code : List Instr}
    (h : BlockCode table p t l code t' l') : l + (labels code).length = l' := by
  induction h with
  | nil => rfl
  | declareConst _ _ ih => exact ih
  | declare _ hv _ _ ih | print hv _ ih =>
      rw [labels_append, hv.labels_eq]
      exact ih
  | ifThen hc _ _ ihb iho | loop hc _ _ ihb iho =>
      simp only [labels_append, labels_cons, hc.labels_eq, Instr.label?, Option.toList_none,
        Option.toList_some, List.length_append, List.length_cons, List.length_nil]
      omega
  | ifElse hc _ _ _ ihb ihe iho =>
      simp only [labels_append, labels_cons, hc.labels_eq, Instr.label?, Option.toList_none,
        Option.toList_some, List.length_append, List.length_cons, List.length_nil]
      omega
  | block _ _ ihb iho =>
      rw [labels_append, List.length_append]
      omega

theorem ExprCode.targets_eq {e : Expr} {t a : Nat} {code : List Instr}
    (h : ExprCode table e t code a) : code.filterMap Instr.target? = [] := by
  apply List.filterMap_eq_nil_iff.mpr
  intro instr hi
  have hcontrol := h.isControl_eq instr hi
  cases instr with
  | branch | jump => cases hcontrol
  | const | load | store | binary | not | label | print => rfl

theorem ConditionCode.targets_eq {e : Expr} {target : Label} {t t' : Nat} {code : List Instr}
    (h : ConditionCode table e target t code t') : code.filterMap Instr.target? = [target] := by
  obtain ⟨hl, hr⟩ := h
  rw [List.filterMap_append, List.filterMap_append, hl.targets_eq, hr.targets_eq]
  rfl

/-- **Every label is the target of one branch or jump**, and these go to no other labels. -/
theorem BlockCode.targets_perm {p : Block} {t l t' l' : Nat} {code : List Instr}
    (h : BlockCode table p t l code t' l') :
    (code.filterMap Instr.target?).Perm (labels code) := by
  induction h with
  | nil => exact .refl _
  | declareConst _ _ ih => exact ih
  | declare _ hv _ _ ih | print hv _ ih =>
      rw [List.filterMap_append, labels_append, hv.targets_eq, hv.labels_eq]
      exact ih
  -- a condition and a loop go to each of their two labels once
  | ifThen hc _ _ ihb iho | loop hc _ _ ihb iho =>
      apply List.perm_iff_count.mpr
      intro x
      have hbody := ihb.count_eq x
      have hothers := iho.count_eq x
      simp only [List.filterMap_append, List.filterMap_cons, labels_append, labels_cons,
        Instr.target?, Instr.label?, hc.targets_eq, hc.labels_eq, Option.toList_none,
        Option.toList_some, List.count_append, List.count_cons, List.count_nil]
      omega
  | ifElse hc _ _ _ ihb ihe iho =>
      apply List.perm_iff_count.mpr
      intro x
      have hbody := ihb.count_eq x
      have hother := ihe.count_eq x
      have hothers := iho.count_eq x
      simp only [List.filterMap_append, List.filterMap_cons, labels_append, labels_cons,
        Instr.target?, Instr.label?, hc.targets_eq, hc.labels_eq, Option.toList_none,
        Option.toList_some, List.count_append, List.count_cons, List.count_nil]
      omega
  | block _ _ ihb iho =>
      rw [List.filterMap_append, labels_append]
      exact ihb.append iho

/-! ## Few labels -/

mutual

theorem Stmt.length_labelPlaces_le_size (start : Nat) (stmt : Stmt) :
    (stmt.labelPlaces start).length ≤ 2 * stmt.size := by
  match stmt with
  | .declare _ _ _ | .print _ => exact Nat.zero_le _
  | .ifThen _ body | .loop _ body =>
      have hle := fun i => Block.length_labelPlaces_le_size i body
      simp only [Stmt.labelPlaces, Stmt.size, List.length_append, List.length_cons,
        List.length_nil]
      grind
  | .ifElse _ body other =>
      have hle := fun i => Block.length_labelPlaces_le_size i body
      have hle' := fun i => Block.length_labelPlaces_le_size i other
      simp only [Stmt.labelPlaces, Stmt.size, List.length_append, List.length_cons,
        List.length_nil]
      grind
  | .block body => exact Block.length_labelPlaces_le_size start body

theorem Block.length_labelPlaces_le_size (start : Nat) (p : Block) :
    (Block.labelPlaces start p).length ≤ 2 * Block.size p := by
  match p with
  | [] => exact Nat.zero_le _
  | first :: others =>
      have hle := first.length_labelPlaces_le_size start
      have hle' := Block.length_labelPlaces_le_size (start + first.size) others
      rw [Block.labelPlaces, Block.size, List.length_append]
      omega

end

mutual

theorem Stmt.length_labelPlaces_le {start m : Nat} {stmt : Stmt}
    (h : ∀ q ∈ stmt.labelPlaces start, q ≤ m) :
    (stmt.labelPlaces start).length ≤ 2 * (m - start) := by
  match stmt with
  | .declare _ _ _ | .print _ => exact Nat.zero_le _
  | .ifThen condition body | .loop condition body =>
      -- the label behind the body comes after the jump, so it is far enough for all of them
      have hle := Block.length_labelPlaces_le_size (start + (Site.condition condition).size) body
      have hstop := h (start + (Site.condition condition).size + Block.size body + 1)
        (by simp [Stmt.labelPlaces])
      simp only [Stmt.labelPlaces, List.length_append, List.length_cons, List.length_nil]
      omega
  | .ifElse condition body other =>
      have hle := Block.length_labelPlaces_le_size (start + (Site.condition condition).size) body
      have hle' := Block.length_labelPlaces_le_size
        (start + (Site.condition condition).size + Block.size body + 1) other
      have hstop := h
        (start + (Site.condition condition).size + Block.size body + 1 + Block.size other)
        (by simp [Stmt.labelPlaces])
      simp only [Stmt.labelPlaces, List.length_append, List.length_cons, List.length_nil]
      omega
  | .block body => exact Block.length_labelPlaces_le h

/-- **There are few labels** up to any place: at most two for each machine instruction. -/
theorem Block.length_labelPlaces_le {start m : Nat} {p : Block}
    (h : ∀ q ∈ Block.labelPlaces start p, q ≤ m) :
    (Block.labelPlaces start p).length ≤ 2 * (m - start) := by
  match p with
  | [] => exact Nat.zero_le _
  | first :: others =>
      rw [Block.labelPlaces, List.forall_mem_append] at h
      have hfirst := Stmt.length_labelPlaces_le h.1
      have hothers := Block.length_labelPlaces_le h.2
      have hsize := first.length_labelPlaces_le_size start
      rw [Block.labelPlaces, List.length_append]
      omega

end

end SixReg
