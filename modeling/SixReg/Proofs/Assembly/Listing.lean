import Mathlib.Data.List.Pairwise
import SixReg.Assembly.Listing
import SixReg.Compile
import SixReg.Proofs.Assembly.Addresses

/-!
# Where the labels of a listing stand

A listing is put together from the instructions, in the order of their addresses, and the labels, in
the order of their numbers, by a single pass over both (`Listing.items`). Each instruction and each
label has one line, and no two lines are alike (`nodup_lines`).

A label that is reached in the pass before its address gets its line there. One that is reached too
late stops all labels after it, and they end up behind the last instruction. So a label never stands
too early, and it stands where it points to just in case the labels up to it have increasing
addresses, or if it points behind the last instruction (`exists_split`). Code with nested loops has
labels whose numbers and addresses are ordered differently, and `lines_of_nested_loop` shows such a
listing.
-/

namespace SixReg

namespace Listing

/-! ## The lines before they are written out -/

/-- What a line of a listing shows. -/
inductive Line where
  | instruction (offset : Nat) (instr : Instruction)
  | label (entry : Label × Nat)
deriving DecidableEq

namespace Line

/-- The line as text. -/
def text : Line → String
  | .instruction offset instr => instructionLine offset instr
  | .label entry => labelLine entry

/-- The address and the instruction of a line. -/
def instruction? : Line → Option (Nat × Instruction)
  | .instruction offset instr => some (offset, instr)
  | .label _ => none

/-- The label of a line, and its address. -/
def label? : Line → Option (Label × Nat)
  | .instruction _ _ => none
  | .label entry => some entry

end Line

/-- The lines from an address on: a label goes in front of the instruction if it has its address. -/
def items (offset : Nat) : List Instruction → List (Label × Nat) → List Line
  | [], labels => labels.map .label
  | instr :: instrs, [] => .instruction offset instr :: items (offset + 2) instrs []
  | instr :: instrs, entry :: labels =>
    if entry.2 = offset then .label entry :: items offset (instr :: instrs) labels
    else .instruction offset instr :: items (offset + 2) instrs (entry :: labels)
termination_by instrs labels => instrs.length + labels.length

variable {offset : Nat} {instrs : List Instruction} {labels : List (Label × Nat)}

theorem lines_eq (offset : Nat) (instrs : List Instruction) (labels : List (Label × Nat)) :
    lines offset instrs labels = (items offset instrs labels).map Line.text := by
  fun_induction items offset instrs labels with
  | case1 => simp [lines, Line.text]
  | case2 offset instr instrs ih => simp [lines, ← ih, Line.text, wordsPerInstruction]
  | case3 instr instrs entry labels ih => simp [lines, ← ih, Line.text]
  | case4 offset instr instrs entry labels h ih =>
      simp [lines, h, ← ih, Line.text, wordsPerInstruction]

theorem filterMap_instruction? (offset : Nat) (instrs : List Instruction)
    (labels : List (Label × Nat)) :
    (items offset instrs labels).filterMap Line.instruction? =
      instrs.mapIdx fun i instr => (offset + 2 * i, instr) := by
  have hnext : ∀ i, offset + 2 * (i + 1) = offset + 2 + 2 * i := by omega
  fun_induction items offset instrs labels with
  | case1 labels =>
      rw [List.filterMap_map]
      exact List.filterMap_eq_nil_iff.mpr fun _ _ => rfl
  | case2 offset instr instrs ih | case4 offset instr instrs _ _ _ ih =>
      simp only [List.filterMap_cons, Line.instruction?, ih (by omega), List.mapIdx_cons, hnext,
        Nat.mul_zero, Nat.add_zero]
  | case3 instr instrs entry labels ih =>
      simp only [List.filterMap_cons, Line.instruction?]
      exact ih hnext

theorem filterMap_label? (offset : Nat) (instrs : List Instruction) (labels : List (Label × Nat)) :
    (items offset instrs labels).filterMap Line.label? = labels := by
  fun_induction items offset instrs labels with
  | case1 labels =>
      rw [List.filterMap_map]
      exact List.filterMap_some
  | case2 _ _ _ ih | case3 _ _ _ _ ih | case4 _ _ _ _ _ _ ih =>
      simp only [List.filterMap_cons, Line.label?, ih]

/-- No instruction comes before the address that the lines start at. -/
theorem le_of_mem_items {o : Nat} {i : Instruction}
    (h : .instruction o i ∈ items offset instrs labels) : offset ≤ o := by
  have hmem : (o, i) ∈ (items offset instrs labels).filterMap Line.instruction? :=
    List.mem_filterMap.mpr ⟨_, h, rfl⟩
  rw [filterMap_instruction?, List.mem_mapIdx] at hmem
  obtain ⟨n, _, heq⟩ := hmem
  cases heq
  exact Nat.le_add_right _ _

/-! ## No two lines are alike -/

/-- The number in front of something else can be read off. -/
theorem eq_of_toDigits_append {m n : Nat} {c d : Char} {xs ys : List Char}
    (hc : c.isDigit = false) (hd : d.isDigit = false)
    (h : Nat.toDigits 10 m ++ c :: xs = Nat.toDigits 10 n ++ d :: ys) : m = n := by
  have hdigits : ∀ k, ∀ d ∈ Nat.toDigits 10 k, d.isDigit = true :=
    fun k d => Nat.isDigit_of_mem_toDigits (by decide) (by decide)
  have htake := congrArg (List.takeWhile Char.isDigit) h
  rw [List.takeWhile_append_of_pos (hdigits m), List.takeWhile_append_of_pos (hdigits n),
    List.takeWhile_cons_of_neg (by simp [hc]), List.takeWhile_cons_of_neg (by simp [hd]),
    List.append_nil, List.append_nil] at htake
  calc
    m = Nat.ofDigitChars 10 (Nat.toDigits 10 m) 0 := Nat.ofDigitChars_ten_toDigits.symm
    _ = n := by rw [htake, Nat.ofDigitChars_ten_toDigits]

theorem toList_instructionLine (offset : Nat) (instr : Instruction) :
    ∃ k, (instructionLine offset instr).toList =
      List.replicate (k + 1) ' ' ++
        (Nat.toDigits 10 offset ++ ' ' :: ' ' :: instr.text.toList) := by
  refine ⟨1 + (4 - offset.repr.length), ?_⟩
  show ("  " ++ (String.ofList (List.replicate (4 - offset.repr.length) ' ') ++ offset.repr) ++
    "  " ++ instr.text).toList = _
  simp [List.replicate_succ, Nat.add_comm 1]

theorem toList_labelLine (entry : Label × Nat) :
    (labelLine entry).toList = 'L' :: (Nat.toDigits 10 entry.1.id ++ [':']) := by
  show ("L" ++ entry.1.id.repr ++ ":").toList = _
  simp

/-- The address of an instruction can be read off its line. -/
theorem offset_eq_of_instructionLine {o o' : Nat} {instr instr' : Instruction}
    (h : instructionLine o instr = instructionLine o' instr') : o = o' := by
  obtain ⟨k, hk⟩ := toList_instructionLine o instr
  obtain ⟨k', hk'⟩ := toList_instructionLine o' instr'
  -- the blanks end in front of a digit
  have hdrop : ∀ (k n : Nat) (rest : List Char),
      (List.replicate k ' ' ++ (Nat.toDigits 10 n ++ rest)).dropWhile (· == ' ') =
        Nat.toDigits 10 n ++ rest := by
    intro k n rest
    rw [List.dropWhile_append_of_pos (by simp)]
    cases hn : Nat.toDigits 10 n with
    | nil => exact absurd hn Nat.toDigits_ne_nil
    | cons d ds =>
        have hd : d.isDigit = true :=
          Nat.isDigit_of_mem_toDigits (by decide) (by decide) (hn ▸ List.mem_cons_self)
        rw [List.cons_append, List.dropWhile_cons_of_neg]
        rw [beq_iff_eq]
        rintro rfl
        cases hd
  have hlist := congrArg (List.dropWhile (· == ' ')) (hk.symm.trans ((congrArg _ h).trans hk'))
  rw [hdrop, hdrop] at hlist
  exact eq_of_toDigits_append rfl rfl hlist

theorem label_eq_of_labelLine {entry entry' : Label × Nat}
    (h : labelLine entry = labelLine entry') : entry.1 = entry'.1 := by
  have hlist := congrArg String.toList h
  rw [toList_labelLine, toList_labelLine, List.cons.injEq] at hlist
  have hid := eq_of_toDigits_append rfl rfl hlist.2
  cases hentry : entry.1
  cases hentry' : entry'.1
  simpa [hentry, hentry'] using hid

theorem instructionLine_ne_labelLine (offset : Nat) (instr : Instruction) (entry : Label × Nat) :
    instructionLine offset instr ≠ labelLine entry := by
  intro h
  obtain ⟨k, hk⟩ := toList_instructionLine offset instr
  rw [h, toList_labelLine, List.replicate_succ, List.cons_append, List.cons.injEq] at hk
  exact absurd hk.1 (by decide)

/-- The lines are those of the instructions and those of the labels. -/
theorem perm_text (ls : List Line) :
    (ls.map Line.text).Perm
      ((ls.filterMap Line.instruction?).map (fun p => instructionLine p.1 p.2) ++
        (ls.filterMap Line.label?).map labelLine) := by
  induction ls with
  | nil => exact .nil
  | cons line ls ih =>
      cases line with
      | instruction offset instr => exact ih.cons _
      | label entry => exact (ih.cons _).trans List.perm_middle.symm

theorem nodup_text {ls : List Line}
    (hinstrs : (ls.filterMap Line.instruction?).Pairwise (·.1 ≠ ·.1))
    (hlabels : (ls.filterMap Line.label?).Pairwise (·.1 ≠ ·.1)) : (ls.map Line.text).Nodup := by
  rw [(perm_text ls).nodup_iff, List.nodup_append]
  refine ⟨?_, ?_, ?_⟩
  · rw [List.Nodup, List.pairwise_map]
    exact hinstrs.imp fun hne h => hne (offset_eq_of_instructionLine h)
  · rw [List.Nodup, List.pairwise_map]
    exact hlabels.imp fun hne h => hne (label_eq_of_labelLine h)
  · intro line hline line' hline'
    obtain ⟨p, -, rfl⟩ := List.mem_map.mp hline
    obtain ⟨entry, -, rfl⟩ := List.mem_map.mp hline'
    exact instructionLine_ne_labelLine _ _ _

/-! ## Where labels stand -/

/-- A label stands where it points to: behind the instructions with smaller addresses, and in front
of all others. -/
def InPlace (ls : List Line) (entry : Label × Nat) : Prop :=
  ∃ front back, ls = front ++ .label entry :: back ∧
    (∀ o i, .instruction o i ∈ front → o < entry.2) ∧ ∀ o i, .instruction o i ∈ back → entry.2 ≤ o

/-- **A label is listed in time** just in case the labels up to it have increasing addresses, or it
points behind the last instruction. It is never listed too early. -/
theorem exists_split (instrs : List Instruction) {before after : List (Label × Nat)}
    {entry : Label × Nat} (hoffset : 2 ∣ offset) (heven : ∀ e ∈ labels, 2 ∣ e.2)
    (h : labels = before ++ entry :: after) :
    ∃ front back, items offset instrs labels = front ++ .label entry :: back ∧
      (∀ o i, .instruction o i ∈ back → entry.2 ≤ o) ∧
      ((∀ o i, .instruction o i ∈ front → o < entry.2) ↔
        instrs = [] ∨ offset + 2 * instrs.length ≤ entry.2 ∨
          (offset :: (before ++ [entry]).map Prod.snd).Pairwise (· ≤ ·)) := by
  fun_induction items offset instrs labels generalizing before with
  | case1 offset labels =>
      refine ⟨before.map .label, after.map .label, by simp [h], by simp, ?_⟩
      simp
  | case2 => simp at h
  | case3 instr instrs first labels ih =>
      cases before with
      | nil =>
          cases h
          refine ⟨[], _, rfl, fun _ _ => le_of_mem_items, ?_⟩
          simp
      | cons _ before =>
          cases h
          obtain ⟨front, back, heq, hback, hiff⟩ :=
            ih hoffset (fun e he => heven e (.tail _ he)) rfl
          refine ⟨.label first :: front, back, by rw [heq, List.cons_append], hback, ?_⟩
          simp only [List.mem_cons, reduceCtorEq, false_or, hiff, List.cons_append, List.map_cons,
            List.pairwise_cons_cons_iff_of_trans, Nat.le_refl, true_and]
  | case4 offset instr instrs first labels hne ih =>
      obtain ⟨front, back, heq, hback, hiff⟩ := ih (by omega) heven h
      refine ⟨.instruction offset instr :: front, back, by rw [heq, List.cons_append], hback, ?_⟩
      have hentry : 2 ∣ entry.2 := heven entry (h ▸ by simp)
      have hfirst : 2 ∣ first.2 := heven first (.head _)
      obtain ⟨tail, htail⟩ : ∃ tail, (before ++ [entry]).map Prod.snd = first.2 :: tail := by
        cases before <;> cases h <;> exact ⟨_, rfl⟩
      have hmem : entry.2 ∈ first.2 :: tail := htail ▸ by simp
      have hfront :
          (∀ o i, .instruction o i ∈ Line.instruction offset instr :: front → o < entry.2) ↔
          offset < entry.2 ∧ ∀ o i, .instruction o i ∈ front → o < entry.2 := by
        constructor
        · intro h
          exact ⟨h offset instr (.head _), fun o i hmem => h o i (.tail _ hmem)⟩
        · rintro ⟨hlt, hfront⟩ o i (_ | ⟨_, hmem⟩)
          · exact hlt
          · exact hfront o i hmem
      have hle : (first.2 :: tail).Pairwise (· ≤ ·) → first.2 ≤ entry.2 := by
        intro hpairwise
        rcases List.mem_cons.mp hmem with heq | hmem
        · exact heq.ge
        · exact (List.pairwise_cons.mp hpairwise).1 _ hmem
      rw [htail, List.pairwise_cons_cons_iff_of_trans] at hiff ⊢
      rw [hfront, hiff, List.length_cons]
      constructor
      · rintro ⟨hlt, rfl | hend | ⟨hfirst, hpairwise⟩⟩
        · exact .inr (.inl (by simp; omega))
        · exact .inr (.inl (by omega))
        · exact .inr (.inr ⟨by omega, hpairwise⟩)
      · rintro (hnil | hend | ⟨hfirst, hpairwise⟩)
        · cases hnil
        · exact ⟨by omega, .inr (.inl (by omega))⟩
        · have hbound := hle hpairwise
          exact ⟨by omega, .inr (.inr ⟨by omega, hpairwise⟩)⟩

/-- The line of a label cuts the lines in one way only. -/
theorem inPlace_iff {ls front back : List Line} {entry : Label × Nat} (hnodup : ls.Nodup)
    (hsplit : ls = front ++ .label entry :: back)
    (hback : ∀ o i, .instruction o i ∈ back → entry.2 ≤ o) :
    InPlace ls entry ↔ ∀ o i, .instruction o i ∈ front → o < entry.2 := by
  constructor
  · rintro ⟨front', back', hsplit', hfront', -⟩
    rw [hsplit] at hnodup hsplit'
    have hnotin := (List.nodup_cons.mp (List.nodup_middle.mp hnodup)).1
    rw [List.mem_append, not_or] at hnotin
    obtain ⟨rfl, -⟩ := (List.append_cons_inj_of_notMem hnotin.1 hnotin.2).mp hsplit'
    exact hfront'
  · intro hfront
    exact ⟨front, back, hsplit, hfront, hback⟩

/-- The addresses of labels: those of instructions, and the one behind the last. -/
def Addresses (instrs : List Instruction) (labels : List (Label × Nat)) : Prop :=
  ∀ entry ∈ labels, 2 ∣ entry.2 ∧ entry.2 ≤ 2 * instrs.length

/-- **A label stands in its place** just in case the labels up to it are ordered by their addresses,
or it points behind the last instruction. -/
theorem inPlace_items_iff (haddresses : Addresses instrs labels)
    (hnodup : (items 0 instrs labels).Nodup) {before after : List (Label × Nat)}
    {entry : Label × Nat} (hsplit : labels = before ++ entry :: after) :
    InPlace (items 0 instrs labels) entry ↔
      entry.2 = 2 * instrs.length ∨ (before ++ [entry]).Pairwise (·.2 ≤ ·.2) := by
  have hbound := (haddresses entry (hsplit ▸ by simp)).2
  obtain ⟨front, back, heq, hback, hiff⟩ := exists_split instrs (Nat.dvd_zero 2)
    (fun e he => (haddresses e he).1) hsplit
  rw [inPlace_iff hnodup heq hback, hiff, List.pairwise_cons, List.pairwise_map]
  constructor
  · rintro (hnil | hend | ⟨-, hpairwise⟩)
    · rw [hnil] at hbound ⊢
      exact .inl (Nat.le_zero.mp hbound)
    · exact .inl (by omega)
    · exact .inr hpairwise
  · rintro (hend | hpairwise)
    · exact .inr (.inl (by omega))
    · exact .inr (.inr ⟨fun _ _ => Nat.zero_le _, hpairwise⟩)

theorem forall_inPlace_iff (haddresses : Addresses instrs labels)
    (hnodup : (items 0 instrs labels).Nodup) :
    (∀ entry ∈ labels, InPlace (items 0 instrs labels) entry) ↔ labels.Pairwise (·.2 ≤ ·.2) := by
  constructor
  · intro hall
    -- from the left, one label after the other
    have hpairwise : ∀ before after, labels = before ++ after → before.Pairwise (·.2 ≤ ·.2) := by
      intro before
      induction before using List.reverseRecOn with
      | nil => exact fun _ _ => .nil
      | append_singleton before entry ih =>
          intro after hsplit
          rw [List.append_assoc, List.singleton_append] at hsplit
          have hentry := hall entry (hsplit ▸ by simp)
          rcases (inPlace_items_iff haddresses hnodup hsplit).mp hentry with hend | hpairwise
          · rw [List.pairwise_append]
            refine ⟨ih _ hsplit, List.pairwise_singleton _ _, ?_⟩
            intro e he e' he'
            rw [List.mem_singleton.mp he', hend]
            exact (haddresses e (hsplit ▸ List.mem_append_left _ he)).2
          · exact hpairwise
    exact hpairwise _ [] (List.append_nil _).symm
  · intro hpairwise entry hentry
    obtain ⟨before, after, hsplit⟩ := List.append_of_mem hentry
    apply (inPlace_items_iff haddresses hnodup hsplit).mpr
    rw [hsplit, List.append_cons] at hpairwise
    exact .inr (List.pairwise_append.mp hpairwise).1

end Listing

open Listing

theorem LabelTable.pairwise_toList (table : LabelTable) : table.toList.Pairwise (·.1 ≠ ·.1) := by
  apply Std.TreeMap.distinct_keys_toList.imp
  intro a b hne heq
  exact hne (Std.LawfulEqOrd.compare_eq_iff_eq.mpr heq)

theorem Tac.Code.addresses_of_lower {code : Tac.Code} {lowered : Lowered}
    (h : code.lower = .ok lowered) : Addresses lowered.instrs lowered.labels.toList := by
  intro entry hentry
  obtain ⟨heven, hbound⟩ := Tac.Code.offset_of_lower h hentry
  exact ⟨heven.two_dvd, hbound⟩

/-- No two lines of a listing are alike. -/
theorem Lowered.nodup_lines (lowered : Lowered) : lowered.lines.Nodup := by
  rw [Lowered.lines, lines_eq]
  apply nodup_text
  · rw [filterMap_instruction?, List.pairwise_iff_getElem]
    intro i j _ _ hlt heq
    simp only [List.getElem_mapIdx] at heq
    omega
  · rw [filterMap_label?]
    exact lowered.labels.pairwise_toList

/-- **What a listing shows.** There is one line for each instruction, in their order, and one for
each label. No label stands in front of an instruction with a smaller address, and it stands in
front of all others just in case the labels up to it are ordered by their addresses, or it points
behind the last instruction. So all labels stand where they point to just in case their numbers are
ordered as their addresses are. -/
theorem lines_in_place_iff {code : Tac.Code} {lowered : Lowered} (h : code.lower = .ok lowered) :
    lowered.lines.Nodup ∧ ∃ ls : List Line, lowered.lines = ls.map Line.text ∧
      ls.filterMap Line.instruction? = lowered.instrs.mapIdx (fun i instr => (2 * i, instr)) ∧
      ls.filterMap Line.label? = lowered.labels.toList ∧
      (∀ before entry after, lowered.labels.toList = before ++ entry :: after →
        (∃ front back, ls = front ++ .label entry :: back ∧
          ∀ o i, .instruction o i ∈ back → entry.2 ≤ o) ∧
        (InPlace ls entry ↔ entry.2 = 2 * lowered.instrs.length ∨
          (before ++ [entry]).Pairwise (·.2 ≤ ·.2))) ∧
      ((∀ entry ∈ lowered.labels.toList, InPlace ls entry) ↔
        lowered.labels.toList.Pairwise (·.2 ≤ ·.2)) := by
  have haddresses := Tac.Code.addresses_of_lower h
  have hlines : lowered.lines = (items 0 lowered.instrs lowered.labels.toList).map Line.text :=
    lines_eq 0 lowered.instrs lowered.labels.toList
  have hnodup : (items 0 lowered.instrs lowered.labels.toList).Nodup :=
    .of_map _ (hlines ▸ lowered.nodup_lines)
  refine ⟨lowered.nodup_lines, _, hlines, ?_, filterMap_label? _ _ _, ?_,
    forall_inPlace_iff haddresses hnodup⟩
  · simpa using filterMap_instruction? 0 lowered.instrs lowered.labels.toList
  · intro before entry after hsplit
    obtain ⟨front, back, heq, hback, -⟩ := exists_split lowered.instrs (Nat.dvd_zero 2)
      (fun e he => (haddresses e he).1) hsplit
    exact ⟨⟨front, back, heq, hback⟩, inPlace_items_iff haddresses hnodup hsplit⟩

/-- The second label by number points to the first instruction, and is listed behind the last. -/
theorem lines_in_place_iff_crossed :
    let code : Tac.Code := ⟨[.label ⟨1⟩, .const ⟨0⟩ 7, .print ⟨0⟩, .label ⟨0⟩], []⟩
    ∃ lowered, code.lower = .ok lowered ∧
      lowered.lines = ["     0  movi R5,R0,#7", "     2  mov IO,R0,R5", "L0:", "L1:"] ∧
      ∃ ls : List Line, lowered.lines = ls.map Line.text ∧ InPlace ls (⟨0⟩, 4) ∧
        ¬InPlace ls (⟨1⟩, 0) := by
  intro code
  obtain ⟨lowered, hl⟩ := Except.exists_of_isOk (show code.lower.isOk = true by decide +kernel)
  have hlowered : code.lower.toOption.map (fun l => (l.lines, l.labels.toList, l.instrs.length)) =
      some (["     0  movi R5,R0,#7", "     2  mov IO,R0,R5", "L0:", "L1:"],
        [(⟨0⟩, 4), (⟨1⟩, 0)], 2) := by decide +kernel
  rw [hl] at hlowered
  obtain ⟨hlines, hrest⟩ := Prod.mk.inj (Option.some.inj hlowered)
  obtain ⟨hlabels, hlength⟩ := Prod.mk.inj hrest
  obtain ⟨-, ls, htext, -, -, hplaced, -⟩ := lines_in_place_iff hl
  refine ⟨lowered, hl, hlines, ls, htext, ?_, ?_⟩
  · rw [(hplaced [] (⟨0⟩, 4) [(⟨1⟩, 0)] hlabels).2]
    exact .inr (by decide)
  · rw [(hplaced [(⟨0⟩, 4)] (⟨1⟩, 0) [] hlabels).2, hlength]
    decide

/-- In the code for a loop within a loop, the label with address 6 is listed behind the instruction
with address 6, and behind all others too. -/
theorem lines_of_nested_loop :
    let source : Source := "while 0 > 1: { while 0 > 1: { } }".toList
    ∃ code lowered, compileToCode {} source = .ok code ∧ code.lower = .ok lowered ∧
      lowered.lines = ["L0:", "     0  movi R5,R0,#0", "     2  movi R4,R0,#1",
        "     4  ble R5,R4,@16", "     6  movi R4,R0,#0", "     8  movi R5,R0,#1",
        "    10  ble R4,R5,@14", "    12  jump @6", "    14  jump @0", "L1:", "L2:", "L3:"] ∧
      (⟨2⟩, 6) ∈ lowered.labels.toList ∧ lowered.instrs[3]? = some (.movImm .r4 0) ∧
      lowered.lines.idxOf (instructionLine 6 (.movImm .r4 0)) <
        lowered.lines.idxOf (labelLine (⟨2⟩, 6)) := by
  intro source
  obtain ⟨code, hcode⟩ :=
    Except.exists_of_isOk (show (compileToCode {} source).isOk = true by decide +kernel)
  have hrun : (compileToCode {} source).toOption.bind (fun code => code.lower.toOption.map
      fun l => (l.lines, l.labels.toList, l.instrs[3]?)) =
      some (["L0:", "     0  movi R5,R0,#0", "     2  movi R4,R0,#1",
        "     4  ble R5,R4,@16", "     6  movi R4,R0,#0", "     8  movi R5,R0,#1",
        "    10  ble R4,R5,@14", "    12  jump @6", "    14  jump @0", "L1:", "L2:", "L3:"],
        [(⟨0⟩, 0), (⟨1⟩, 16), (⟨2⟩, 6), (⟨3⟩, 14)], some (.movImm .r4 0)) := by decide +kernel
  rw [hcode] at hrun
  cases hlower : code.lower with
  | error e => simp [hlower, Except.toOption] at hrun
  | ok lowered =>
      simp only [hlower, Except.toOption, Option.bind_some, Option.map_some, Option.some.injEq,
        Prod.mk.injEq] at hrun
      obtain ⟨hlines, hlabels, hinstr⟩ := hrun
      refine ⟨code, lowered, hcode, hlower, hlines, ?_, hinstr, ?_⟩
      · rw [hlabels]
        decide
      · rw [hlines]
        decide +kernel

end SixReg
