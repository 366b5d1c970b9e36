import Mathlib.Data.List.Induction
import SixReg.Proofs.Computation
import SixReg.Proofs.Symbol
import SixReg.Scope

/-!
# The scope check as a walk over events

A program is checked in the order in which it is evaluated, as if every block was entered once. On
this walk a name is used or declared, and nothing else matters: checking a program is checking its
events one after the other (`Scope.checkBlock_eq`). What one event does depends on the names that
were declared before it (`Event.check_after`), and from there on the induction is on lists of events
and no longer on trees. A check succeeds just in case no event is at fault, and otherwise reports
the first one that is (`Scope.foldlM_check_eq_ok`, `Scope.foldlM_check_eq_error`).
-/

namespace SixReg

/-! ## Events of a program -/

/-- What a walk through a program meets. -/
inductive Event where
  /-- A variable is used. -/
  | use (name : String) (span : Span)
  /-- A variable is declared. -/
  | declare (name : String) (span : Span)
deriving DecidableEq, Repr

/-- The events of an expression, from left to right. -/
def Expr.events : Expr → List Event
  | .number _ => []
  | .var name span => [.use name span]
  | .binary _ left right => left.events ++ right.events
  | .not operand => operand.events

mutual

/-- The events of a statement, in the order of evaluation. -/
def Stmt.events : Stmt → List Event
  | .declare name span value => value.events ++ [.declare name span]
  | .print value => value.events
  | .ifThen condition body | .loop condition body => condition.events ++ Block.events body
  | .ifElse condition body other =>
    condition.events ++ (Block.events body ++ Block.events other)
  | .block body => Block.events body

@[inherit_doc Stmt.events]
def Block.events : Block → List Event
  | [] => []
  | first :: others => first.events ++ Block.events others

end

namespace Event

/-- The name that is used or declared. -/
@[simp]
def name : Event → String
  | .use name _ | .declare name _ => name

/-- Where the name is written. -/
def span : Event → Span
  | .use _ span | .declare _ span => span

/-- The name that the event declares. -/
def declared? : Event → Option String
  | .use _ _ => none
  | .declare name _ => some name

/-- Checks one event. -/
def check (source : Source) (policy : Redeclaration) (table : SymbolTable) :
    Event → Except ScopeError SymbolTable
  | .use name span => (Scope.use source table name span).map fun _ => table
  | .declare name span => Scope.declare source policy table name span

end Event

/-- The names that events declare, each as often as it is declared. -/
def declaredIn (events : List Event) : List String := events.filterMap Event.declared?

@[simp]
theorem declaredIn_append (first second : List Event) :
    declaredIn (first ++ second) = declaredIn first ++ declaredIn second :=
  List.filterMap_append

@[simp]
theorem declaredIn_use (name : String) (span : Span) : declaredIn [.use name span] = [] := rfl

@[simp]
theorem declaredIn_declare (name : String) (span : Span) :
    declaredIn [.declare name span] = [name] := rfl

/-! ## From event to event -/

namespace Scope

variable {source : Source} {policy : Redeclaration} {table : SymbolTable}

theorem checkExpr_eq (policy : Redeclaration) (table : SymbolTable) (e : Expr) :
    e.events.foldlM (Event.check source policy) table =
      (checkExpr source table e).map fun _ => table := by
  induction e with
  | number value => rfl
  | var name span =>
      simp only [Expr.events, List.foldlM_cons, List.foldlM_nil, Event.check, checkExpr]
      cases use source table name span <;> rfl
  | binary op left right ihl ihr =>
      rw [Expr.events, List.foldlM_append, ihl, checkExpr]
      cases checkExpr source table left with
      | error e => rfl
      | ok _ => exact ihr
  | not operand ih => exact ih

theorem bind_checkExpr {β : Type} (policy : Redeclaration) (table : SymbolTable) (e : Expr)
    (f : SymbolTable → Except ScopeError β) :
    (e.events.foldlM (Event.check source policy) table >>= f) =
      (checkExpr source table e >>= fun _ => f table) := by
  rw [checkExpr_eq]
  cases checkExpr source table e <;> rfl

mutual

theorem checkStmt_eq (table : SymbolTable) (s : Stmt) :
    checkStmt source policy table s = s.events.foldlM (Event.check source policy) table := by
  match s with
  | .declare name span value =>
      rw [checkStmt, Stmt.events, List.foldlM_append, bind_checkExpr]
      simp only [List.foldlM_cons, List.foldlM_nil, Event.check, bind_pure]
  | .print value => rw [checkStmt, Stmt.events, checkExpr_eq, ← Except.bind_pure_eq_map]
  | .ifThen condition body | .loop condition body =>
      simp only [checkStmt, Stmt.events, List.foldlM_append, bind_checkExpr, checkBlock_eq]
  | .ifElse condition body other =>
      simp only [checkStmt, Stmt.events, List.foldlM_append, bind_checkExpr, checkBlock_eq]
  | .block body => exact checkBlock_eq table body

/-- **Checking a program is checking its events.** -/
theorem checkBlock_eq (table : SymbolTable) (p : Block) :
    checkBlock source policy table p =
      (Block.events p).foldlM (Event.check source policy) table := by
  match p with
  | [] => rfl
  | first :: others =>
      simp only [checkBlock, Block.events, List.foldlM_append, checkStmt_eq, checkBlock_eq]

end

end Scope

/-! ## Lists without repetition -/

theorem eraseDups_concat (names : List String) (name : String) :
    (names ++ [name]).eraseDups =
      if name ∈ names then names.eraseDups else names.eraseDups ++ [name] := by
  rw [List.eraseDups_append]
  split
  · next h => simp [List.removeAll, h]
  · next h => simp [List.removeAll, h, List.eraseDups_cons]

theorem nodup_eraseDups (names : List String) : names.eraseDups.Nodup := by
  induction names using List.reverseRecOn with
  | nil => simp
  | append_singleton names name ih =>
      rw [eraseDups_concat]
      split
      · exact ih
      · next h =>
          refine List.nodup_append.mpr ⟨ih, List.nodup_singleton _, ?_⟩
          intro x hx y hy hxy
          rw [List.mem_singleton] at hy
          exact h (hy ▸ hxy ▸ List.mem_eraseDups.mp hx)

/-! ## Tables after events -/

namespace SymbolTable

/-- The table of the names that events declare, in the order of their first declarations. -/
def after (events : List Event) : SymbolTable := ⟨(declaredIn events).eraseDups.toArray⟩

theorem nodup_after (events : List Event) : (after events).names.toList.Nodup :=
  nodup_eraseDups _

theorem find?_after (events : List Event) (name : String) :
    (after events).find? name =
      if name ∈ declaredIn events then some ⟨name, (declaredIn events).eraseDups.idxOf name⟩
      else none := by
  rw [find?_eq]
  simp [after]

theorem declare_after (events : List Event) (name : String) (span : Span) :
    (after events).declare name =
      (if name ∈ declaredIn events then
        .existing ⟨name, (declaredIn events).eraseDups.idxOf name⟩
      else .new ⟨name, (after events).size⟩,
      after (events ++ [.declare name span])) := by
  have hafter : after (events ++ [.declare name span]) =
      ⟨(if name ∈ declaredIn events then (declaredIn events).eraseDups
        else (declaredIn events).eraseDups ++ [name]).toArray⟩ := by
    rw [after, declaredIn_append, ← eraseDups_concat]
    rfl
  rw [declare, find?_after, hafter]
  by_cases h : name ∈ declaredIn events <;> simp [h, after]

end SymbolTable

namespace Event

/-- What is wrong with an event that comes after the given ones, if anything is. -/
def fault? (policy : Redeclaration) (before : List Event) : Event → Option ScopeFault
  | .use name _ => if name ∈ declaredIn before then none else some (.undeclared name)
  | .declare name _ =>
    if policy = .reject ∧ name ∈ declaredIn before then
      some (.redeclared ⟨name, (declaredIn before).eraseDups.idxOf name⟩)
    else none

/-- **What the check of one event does.** -/
theorem check_after (source : Source) (policy : Redeclaration) (before : List Event)
    (event : Event) :
    event.check source policy (.after before) =
      match event.fault? policy before with
      | some fault => .error (Scope.fail source event.span fault)
      | none => .ok (.after (before ++ [event])) := by
  cases event with
  | use name span =>
      have hafter : SymbolTable.after (before ++ [.use name span]) = .after before := by
        rw [SymbolTable.after, declaredIn_append, declaredIn_use, List.append_nil]
        rfl
      simp only [check, Scope.use, SymbolTable.find?_after, fault?, hafter]
      by_cases h : name ∈ declaredIn before <;> simp [h, Except.map, Event.span]
  | declare name span =>
      simp only [check, Scope.declare, fault?, SymbolTable.declare_after before name span]
      by_cases h : name ∈ declaredIn before <;> cases policy <;> simp [h, Event.span]

end Event

/-! ## The first fault -/

/-- No event is at fault. -/
def Faultless (policy : Redeclaration) (events : List Event) : Prop :=
  ∀ before event, before ++ [event] <+: events → event.fault? policy before = none

theorem faultless_nil (policy : Redeclaration) : Faultless policy [] := by
  intro before event h
  simp at h

theorem faultless_concat {policy : Redeclaration} {events : List Event} {event : Event} :
    Faultless policy (events ++ [event]) ↔
      Faultless policy events ∧ event.fault? policy events = none := by
  simp only [Faultless, List.prefix_concat_iff]
  constructor
  · intro h
    exact ⟨fun before e he => h before e (.inr he), h events event (.inl rfl)⟩
  · rintro ⟨hevents, hevent⟩ before e (he | he)
    · obtain ⟨rfl, hlast⟩ := List.append_inj' he rfl
      cases hlast
      exact hevent
    · exact hevents before e he

/-- Without a fault, what is used is declared somewhere. -/
theorem Faultless.mem_declaredIn {policy : Redeclaration} {events : List Event} {name : String}
    {span : Span} (h : Faultless policy events) (huse : .use name span ∈ events) :
    name ∈ declaredIn events := by
  obtain ⟨before, later, rfl⟩ := List.append_of_mem huse
  have hnone := h before (.use name span) ⟨later, by rw [List.append_assoc]; rfl⟩
  rw [declaredIn_append, List.mem_append]
  by_contra hname
  rw [not_or] at hname
  simp [Event.fault?, hname.1] at hnone

namespace Scope

variable {source : Source} {policy : Redeclaration} {table : SymbolTable}

/-- **A check that succeeds** has met no fault, and the table has what was declared. -/
theorem foldlM_check_eq_ok {events : List Event} :
    events.foldlM (Event.check source policy) .empty = .ok table ↔
      Faultless policy events ∧ table = .after events := by
  induction events using List.reverseRecOn generalizing table with
  | nil =>
      simp only [List.foldlM_nil, Except.pure_eq_ok, faultless_nil, true_and]
      exact eq_comm
  | append_singleton events event ih =>
      have hlast : ∀ table', event.check source policy (.after events) = .ok table' ↔
          event.fault? policy events = none ∧ table' = .after (events ++ [event]) := by
        intro table'
        rw [Event.check_after]
        cases event.fault? policy events <;> simp [eq_comm]
      simp only [List.foldlM_append, Except.bind_eq_ok, ih, List.foldlM_cons, List.foldlM_nil,
        faultless_concat, Except.pure_eq_ok]
      constructor
      · rintro ⟨_, ⟨hevents, rfl⟩, _, hcheck, rfl⟩
        obtain ⟨hnone, rfl⟩ := (hlast _).mp hcheck
        exact ⟨⟨hevents, hnone⟩, rfl⟩
      · rintro ⟨⟨hevents, hnone⟩, rfl⟩
        exact ⟨_, ⟨hevents, rfl⟩, _, (hlast _).mpr ⟨hnone, rfl⟩, rfl⟩

/-- **A check that fails** reports the first event at fault. -/
theorem foldlM_check_eq_error {events : List Event} {err : ScopeError} :
    events.foldlM (Event.check source policy) .empty = .error err ↔
      ∃ before event fault, before ++ [event] <+: events ∧ Faultless policy before ∧
        event.fault? policy before = some fault ∧ err = fail source event.span fault := by
  induction events using List.reverseRecOn with
  | nil => simp [Except.pure_ne_error]
  | append_singleton events event ih =>
      have hlast : event.check source policy (.after events) = .error err ↔
          ∃ fault, event.fault? policy events = some fault ∧
            err = fail source event.span fault := by
        rw [Event.check_after]
        cases event.fault? policy events <;> simp [eq_comm]
      simp only [List.foldlM_append, Except.bind_eq_error, ih, foldlM_check_eq_ok,
        List.foldlM_cons, List.foldlM_nil, Except.pure_ne_error, List.prefix_concat_iff, and_false,
        exists_false, or_false]
      constructor
      · rintro (⟨before, e, fault, he, hbefore, hfault⟩ | ⟨_, ⟨hevents, rfl⟩, hcheck⟩)
        · exact ⟨before, e, fault, .inr he, hbefore, hfault⟩
        · obtain ⟨fault, hfault⟩ := hlast.mp hcheck
          exact ⟨events, event, fault, .inl rfl, hevents, hfault⟩
      · rintro ⟨before, e, fault, he | he, hbefore, hfault⟩
        · obtain ⟨rfl, hsame⟩ := List.append_inj' he rfl
          cases hsame
          exact .inr ⟨_, ⟨hbefore, rfl⟩, hlast.mpr ⟨fault, hfault⟩⟩
        · exact .inl ⟨before, e, fault, he, hbefore, hfault⟩

end Scope

/-! ## Programs -/

section Analyze

variable {source : Source} {policy : Redeclaration} {program : Program} {table : SymbolTable}

theorem analyze_eq_ok_iff :
    program.analyze source policy = .ok table ↔
      Faultless policy (Block.events program) ∧ table = .after (Block.events program) := by
  rw [Program.analyze, Scope.checkBlock_eq, Scope.foldlM_check_eq_ok]

theorem exists_analyze_iff :
    (∃ table, program.analyze source policy = .ok table) ↔
      Faultless policy (Block.events program) := by
  simp only [analyze_eq_ok_iff, exists_and_left, exists_eq, and_true]

end Analyze

/-- A name that is declared again is no fault unless this is to be rejected. -/
theorem faultless_reuse_iff {events : List Event} :
    Faultless .reuse events ↔
      ∀ before name span, before ++ [.use name span] <+: events → name ∈ declaredIn before := by
  constructor
  · intro h before name span hp
    have hnone := h before (.use name span) hp
    by_contra hname
    simp [Event.fault?, hname] at hnone
  · intro h before event hp
    cases event with
    | use name span => simp [Event.fault?, h before name span hp]
    | declare name span => simp [Event.fault?]

theorem faultless_reject_iff {events : List Event} :
    Faultless .reject events ↔ Faultless .reuse events ∧ (declaredIn events).Nodup := by
  induction events using List.reverseRecOn with
  | nil => simp [faultless_nil, declaredIn]
  | append_singleton events event ih =>
      rw [faultless_concat, faultless_concat, ih, declaredIn_append]
      cases event with
      | use name span => simp [Event.fault?, and_right_comm]
      | declare name span =>
          rw [declaredIn_declare, ← List.concat_eq_append, List.nodup_concat]
          simp [Event.fault?, and_assoc, and_comm]

/-- **The scope check is exact.** With names used again for new values, a program passes just in
case each use of a name comes after a declaration of it; with these rejected, just in case no name
is declared twice besides. The variables are then the declared names in the order of their first
declarations, numbered from zero, and no others are found; the two policies never disagree about
them. A program that does not pass is reported for its first event at fault, at the place where the
name is written. -/
theorem analyze_exact (source : Source) (program : Program) :
    let events := Block.events program
    ((∃ table, program.analyze source .reuse = .ok table) ↔
      ∀ before name span, before ++ [.use name span] <+: events → name ∈ declaredIn before) ∧
    ((∃ table, program.analyze source .reject = .ok table) ↔
      (∀ before name span, before ++ [.use name span] <+: events → name ∈ declaredIn before) ∧
        (declaredIn events).Nodup) ∧
    (∀ policy table, program.analyze source policy = .ok table →
      table.toList = (declaredIn events).eraseDups.zipIdx.map (fun (name, slot) => ⟨name, slot⟩) ∧
      ∀ name symbol, table.find? name = some symbol ↔ symbol ∈ table.toList ∧ symbol.name = name) ∧
    (∀ table, program.analyze source .reject = .ok table →
      program.analyze source .reuse = .ok table) ∧
    ∀ policy err, program.analyze source policy = .error err ↔
      ∃ before event fault, before ++ [event] <+: events ∧ Faultless policy before ∧
        event.fault? policy before = some fault ∧ err = ⟨source.place event.span.start, fault⟩ := by
  intro events
  refine ⟨?_, ?_, ?_, ?_, ?_⟩
  · rw [exists_analyze_iff, faultless_reuse_iff]
  · rw [exists_analyze_iff, faultless_reject_iff, faultless_reuse_iff]
  · intro policy table h
    obtain ⟨-, rfl⟩ := analyze_eq_ok_iff.mp h
    exact ⟨rfl, fun name symbol => SymbolTable.find?_eq_some_iff (SymbolTable.nodup_after events)⟩
  · intro table h
    obtain ⟨hfaultless, rfl⟩ := analyze_eq_ok_iff.mp h
    exact analyze_eq_ok_iff.mpr ⟨(faultless_reject_iff.mp hfaultless).1, rfl⟩
  · intro policy err
    rw [Program.analyze, Scope.checkBlock_eq]
    exact Scope.foldlM_check_eq_error

theorem analyze_exact_redeclared :
    let source : Source := "var a = 1;\nvar b = a;\nvar a = b;".toList
    let declared : Program :=
      [.declare "a" ⟨4, 5⟩ (.number 1), .declare "b" ⟨15, 16⟩ (.var "a" ⟨19, 20⟩)]
    let program := declared ++ [.declare "a" ⟨26, 27⟩ (.var "b" ⟨30, 31⟩)]
    (∃ table, program.analyze source .reuse = .ok table ∧
      table.toList = [⟨"a", 0⟩, ⟨"b", 1⟩] ∧ table.find? "b" = some ⟨"b", 1⟩) ∧
    program.analyze source .reject = .error ⟨⟨3, 5⟩, .redeclared ⟨"a", 0⟩⟩ := by
  intro source declared program
  obtain ⟨-, -, htable, -, herror⟩ := analyze_exact source program
  constructor
  · have hreuse : program.analyze source .reuse = .ok ⟨#["a", "b"]⟩ := by decide +kernel
    obtain ⟨hlist, hfind⟩ := htable _ _ hreuse
    exact ⟨_, hreuse, hlist, (hfind _ _).mpr ⟨by decide, rfl⟩⟩
  · -- up to the second declaration nothing is wrong
    have hbefore : Faultless .reject (Block.events (declared ++ [.print (.var "b" ⟨30, 31⟩)])) :=
      exists_analyze_iff.mp
        ⟨⟨#["a", "b"]⟩, show Program.analyze source .reject _ = _ by decide +kernel⟩
    exact (herror _ _).mpr ⟨_, .declare "a" ⟨26, 27⟩, _, by decide, hbefore, rfl, by decide⟩

end SixReg
