import SixReg.Proofs.Scope.Events
import SixReg.Proofs.Syntax.Demand

/-!
# Declared variables

A table that comes out of the scope check has the names that some statement of the program
declares, however deep that statement is nested, and no others (`mem_names_iff_of_analyze`). They
are in the order of their first declarations (`names_eq_of_analyze`), so there are as many slots as
different names (`size_eq_of_analyze`), and the names that the expressions of the program mention
are among them (`mem_names_of_analyze`).
-/

namespace SixReg

/-- Some statement, nested or not, declares the name. -/
inductive Declares (name : String) : Block → Prop where
  | declare {span value others} : Declares name (.declare name span value :: others)
  | ifThen {condition body others} (h : Declares name body) :
      Declares name (.ifThen condition body :: others)
  | ifElseBody {condition body other others} (h : Declares name body) :
      Declares name (.ifElse condition body other :: others)
  | ifElseOther {condition body other others} (h : Declares name other) :
      Declares name (.ifElse condition body other :: others)
  | loop {condition body others} (h : Declares name body) :
      Declares name (.loop condition body :: others)
  | block {body others} (h : Declares name body) : Declares name (.block body :: others)
  | later {first others} (h : Declares name others) : Declares name (first :: others)

namespace Declares

variable {name : String}

theorem cons_iff {first : Stmt} {others : Block} :
    Declares name (first :: others) ↔ Declares name [first] ∨ Declares name others := by
  constructor
  · intro h
    cases h with
    | declare => exact .inl .declare
    | ifThen h => exact .inl (.ifThen h)
    | ifElseBody h => exact .inl (.ifElseBody h)
    | ifElseOther h => exact .inl (.ifElseOther h)
    | loop h => exact .inl (.loop h)
    | block h => exact .inl (.block h)
    | later h => exact .inr h
  · rintro (h | h)
    · cases h with
      | declare => exact .declare
      | ifThen h => exact .ifThen h
      | ifElseBody h => exact .ifElseBody h
      | ifElseOther h => exact .ifElseOther h
      | loop h => exact .loop h
      | block h => exact .block h
      | later h => cases h
    · exact .later h

/-- What one statement declares. -/
theorem singleton_iff {stmt : Stmt} :
    Declares name [stmt] ↔
      match stmt with
      | .declare declared _ _ => name = declared
      | .print _ => False
      | .ifThen _ body | .loop _ body | .block body => Declares name body
      | .ifElse _ body other => Declares name body ∨ Declares name other := by
  constructor
  · intro h
    cases h with
    | declare => rfl
    | ifThen h | loop h | block h => exact h
    | ifElseBody h => exact .inl h
    | ifElseOther h => exact .inr h
    | later h => cases h
  · intro h
    cases stmt with
    | declare declared span value =>
        cases h
        exact .declare
    | print value => cases h
    | ifThen condition body => exact .ifThen h
    | ifElse condition body other => exact h.elim .ifElseBody .ifElseOther
    | loop condition body => exact .loop h
    | block body => exact .block h

end Declares

mutual

theorem Stmt.mem_declared_iff {name : String} {s : Stmt} :
    name ∈ s.declared ↔ Declares name [s] := by
  rw [Declares.singleton_iff]
  match s with
  | .declare declared _ _ => simp [Stmt.declared]
  | .print _ => simp [Stmt.declared]
  | .ifThen _ body | .loop _ body | .block body =>
      simp only [Stmt.declared]
      exact Block.mem_declared_iff
  | .ifElse _ body other =>
      simp only [Stmt.declared, List.mem_append]
      exact or_congr Block.mem_declared_iff Block.mem_declared_iff

theorem Block.mem_declared_iff {name : String} {p : Block} :
    name ∈ Block.declared p ↔ Declares name p := by
  match p with
  | [] =>
      simp only [Block.declared, List.not_mem_nil, false_iff]
      exact nofun
  | first :: others =>
      rw [Block.declared, List.mem_append, Declares.cons_iff, Stmt.mem_declared_iff,
        Block.mem_declared_iff]

end

/-! ## Events and names -/

@[simp]
theorem Expr.declaredIn_events (e : Expr) : declaredIn e.events = [] := by
  induction e with
  | number value => rfl
  | var name span => rfl
  | binary op left right ihl ihr => rw [Expr.events, declaredIn_append, ihl, ihr, List.append_nil]
  | not operand ih => exact ih

mutual

theorem Stmt.declaredIn_events (s : Stmt) : declaredIn s.events = s.declared := by
  match s with
  | .declare name span value => simp [Stmt.events, Stmt.declared]
  | .print value => simp [Stmt.events, Stmt.declared]
  | .ifThen condition body | .loop condition body | .block body =>
      simp [Stmt.events, Stmt.declared, Block.declaredIn_events body]
  | .ifElse condition body other =>
      simp [Stmt.events, Stmt.declared, Block.declaredIn_events body,
        Block.declaredIn_events other]

theorem Block.declaredIn_events (p : Block) : declaredIn (Block.events p) = Block.declared p := by
  match p with
  | [] => rfl
  | first :: others =>
      rw [Block.events, declaredIn_append, Stmt.declaredIn_events first,
        Block.declaredIn_events others, Block.declared]

end

theorem Expr.mem_names_iff {name : String} {e : Expr} :
    name ∈ e.names ↔ ∃ span, .use name span ∈ e.events := by
  induction e with
  | number value => simp [Expr.names, Expr.events]
  | var name' span => simp [Expr.names, Expr.events]
  | binary op left right ihl ihr =>
      simp only [Expr.names, Expr.events, List.mem_append, ihl, ihr, exists_or]
  | not operand ih => exact ih

mutual

theorem Stmt.events_subset_of_mem_sites {s : Stmt} {site : Site} (h : site ∈ s.sites) :
    site.value.events ⊆ s.events := by
  match s with
  | .declare name span value =>
      obtain rfl := List.mem_singleton.mp h
      exact List.subset_append_left _ _
  | .print value =>
      obtain rfl := List.mem_singleton.mp h
      exact List.Subset.refl _
  | .ifThen condition body | .loop condition body =>
      rcases List.mem_cons.mp h with rfl | h
      · exact List.subset_append_left _ _
      · exact List.subset_append_of_subset_right _ (Block.events_subset_of_mem_sites h)
  | .ifElse condition body other =>
      simp only [Stmt.sites, List.mem_cons, List.mem_append] at h
      rcases h with rfl | h | h
      · exact List.subset_append_left _ _
      · apply List.subset_append_of_subset_right
        exact List.subset_append_of_subset_left _ (Block.events_subset_of_mem_sites h)
      · apply List.subset_append_of_subset_right
        exact List.subset_append_of_subset_right _ (Block.events_subset_of_mem_sites h)
  | .block body => exact Block.events_subset_of_mem_sites (p := body) h

theorem Block.events_subset_of_mem_sites {p : Block} {site : Site} (h : site ∈ Block.sites p) :
    site.value.events ⊆ Block.events p := by
  match p with
  | [] => cases h
  | first :: others =>
      rcases List.mem_append.mp h with h | h
      · exact List.subset_append_of_subset_left _ (Stmt.events_subset_of_mem_sites h)
      · exact List.subset_append_of_subset_right _ (Block.events_subset_of_mem_sites h)

end

/-! ## Checked programs -/

section Analyze

variable {source : Source} {policy : Redeclaration} {program : Program} {table : SymbolTable}
  {name : String}

/-- **Slots are numbered in the order of first declarations**; a name that is declared again keeps
its slot. -/
theorem names_eq_of_analyze (h : program.analyze source policy = .ok table) :
    table.names.toList = (Block.declared program).eraseDups := by
  obtain ⟨-, rfl⟩ := analyze_eq_ok_iff.mp h
  rw [SymbolTable.after, Block.declaredIn_events]

theorem names_nodup_of_analyze (h : program.analyze source policy = .ok table) :
    table.names.toList.Nodup :=
  names_eq_of_analyze h ▸ nodup_eraseDups _

/-- There are as many slots as different names. -/
theorem size_eq_of_analyze (h : program.analyze source policy = .ok table) :
    table.size = (Block.declared program).toFinset.card := by
  have hset : (Block.declared program).toFinset = table.names.toList.toFinset := by
    rw [names_eq_of_analyze h]
    ext name
    rw [List.mem_toFinset, List.mem_toFinset, List.mem_eraseDups]
  rw [hset, List.toFinset_card_of_nodup (names_nodup_of_analyze h), Array.length_toList,
    SymbolTable.size]

/-- The variables of a program are those that its statements declare. -/
theorem mem_names_iff_of_analyze (h : program.analyze source policy = .ok table) :
    name ∈ table.names ↔ Declares name program := by
  rw [← Array.mem_toList_iff, names_eq_of_analyze h, List.mem_eraseDups, Block.mem_declared_iff]

/-- The variables that a program mentions are among them. -/
theorem mem_names_of_analyze {site : Site} (h : program.analyze source policy = .ok table)
    (hsite : site ∈ Block.sites program) (hname : name ∈ site.value.names) :
    name ∈ table.names := by
  obtain ⟨hfaultless, -⟩ := analyze_eq_ok_iff.mp h
  obtain ⟨span, huse⟩ := Expr.mem_names_iff.mp hname
  have hdeclared := hfaultless.mem_declaredIn (Block.events_subset_of_mem_sites hsite huse)
  rw [Block.declaredIn_events, Block.mem_declared_iff] at hdeclared
  exact (mem_names_iff_of_analyze h).mpr hdeclared

end Analyze

end SixReg
