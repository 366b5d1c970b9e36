import SixReg.Proofs.Scope.Events
import SixReg.Proofs.Syntax.Renaming

/-!
# The scope check under other names

The scope check looks at names for one thing only, whether they are equal. So if a relation pairs
the names of two programs one to one (`Relator.BiUnique`), the check treats both alike: it finds a
fault in both or in neither (`faultless_renamed_iff`), and paired names get the same slots
(`SymbolTable.Renamed.slot_eq`).
-/

namespace SixReg

variable {R : String → String → Prop}

/-! ## Lists of names -/

theorem forall₂_concat_left {α β : Type} {R : α → β → Prop} {first : List α} {last : α}
    {whole : List β} (h : List.Forall₂ R (first ++ [last]) whole) :
    ∃ first' last', List.Forall₂ R first first' ∧ R last last' ∧ whole = first' ++ [last'] := by
  obtain ⟨first', _, hfirst, hrest, rfl⟩ := forall₂_append_left h
  obtain ⟨last', _, hlast, hnil, rfl⟩ := List.forall₂_cons_left_iff.mp hrest
  obtain rfl := List.forall₂_nil_left_iff.mp hnil
  exact ⟨first', last', hfirst, hlast, rfl⟩

theorem idxOf_renamed (hR : Relator.BiUnique R) {names names' : List String} {name name' : String}
    (h : List.Forall₂ R names names') (hname : R name name') :
    names.idxOf name = names'.idxOf name' := by
  induction h with
  | nil => rfl
  | @cons first first' _ _ hfirst _ ih =>
      have heq : first = name ↔ first' = name' := Relator.rel_eq hR hfirst hname
      by_cases hf : first = name
      · rw [List.idxOf_cons_eq _ hf, List.idxOf_cons_eq _ (heq.mp hf)]
      · rw [List.idxOf_cons_ne _ hf, List.idxOf_cons_ne _ (mt heq.mpr hf), ih]

theorem eraseDups_renamed (hR : Relator.BiUnique R) {names names' : List String}
    (h : List.Forall₂ R names names') : List.Forall₂ R names.eraseDups names'.eraseDups := by
  induction names using List.reverseRecOn generalizing names' with
  | nil =>
      rw [List.forall₂_nil_left_iff.mp h]
      exact .nil
  | append_singleton names name ih =>
      obtain ⟨names', name', hnames, hname, rfl⟩ := forall₂_concat_left h
      have hmem : name ∈ names ↔ name' ∈ names' := List.rel_mem hR hname hnames
      rw [eraseDups_concat, eraseDups_concat]
      by_cases hold : name ∈ names
      · rw [if_pos hold, if_pos (hmem.mp hold)]
        exact ih hnames
      · rw [if_neg hold, if_neg (mt hmem.mpr hold)]
        exact List.rel_append (ih hnames) (.cons hname .nil)

/-! ## Tables -/

/-- Tables with paired names in the same slots. -/
def SymbolTable.Renamed (R : String → String → Prop) (table table' : SymbolTable) : Prop :=
  List.Forall₂ R table.names.toList table'.names.toList

/-- **Paired names have the same slot.** -/
theorem SymbolTable.Renamed.slot_eq (hR : Relator.BiUnique R) {table table' : SymbolTable}
    {name name' : String} {symbol symbol' : Symbol} (h : Renamed R table table')
    (hname : R name name') (hfind : table.find? name = some symbol)
    (hfind' : table'.find? name' = some symbol') : symbol.slot = symbol'.slot := by
  simp only [find?_eq, Option.ite_none_right_eq_some, Option.some.injEq] at hfind hfind'
  obtain ⟨-, rfl⟩ := hfind
  obtain ⟨-, rfl⟩ := hfind'
  exact idxOf_renamed hR h hname

/-! ## Events -/

/-- Events of the same kind with paired names. -/
inductive Event.Renamed (R : String → String → Prop) : Event → Event → Prop where
  | use {name name' span span'} (h : R name name') : Renamed R (.use name span) (.use name' span')
  | declare {name name' span span'} (h : R name name') :
      Renamed R (.declare name span) (.declare name' span')

theorem Expr.Renamed.events {e e' : Expr} (h : Expr.Renamed R e e') :
    List.Forall₂ (Event.Renamed R) e.events e'.events := by
  induction h with
  | number => exact .nil
  | var hname => exact .cons (.use hname) .nil
  | binary _ _ ihl ihr => exact List.rel_append ihl ihr
  | not _ ih => exact ih

theorem Block.Renamed.events {p p' : Block} (h : Block.Renamed R p p') :
    List.Forall₂ (Event.Renamed R) (Block.events p) (Block.events p') := by
  induction h with
  | nil => exact .nil
  | declare hname hv _ iho =>
      exact List.rel_append (List.rel_append hv.events (.cons (.declare hname) .nil)) iho
  | print hv _ iho => exact List.rel_append hv.events iho
  | ifThen hc _ _ ihb iho | loop hc _ _ ihb iho =>
      exact List.rel_append (List.rel_append hc.events ihb) iho
  | ifElse hc _ _ _ ihb ihe iho =>
      exact List.rel_append (List.rel_append hc.events (List.rel_append ihb ihe)) iho
  | block _ _ ihb iho => exact List.rel_append ihb iho

variable {events events' : List Event}

theorem declaredIn_renamed (h : List.Forall₂ (Event.Renamed R) events events') :
    List.Forall₂ R (declaredIn events) (declaredIn events') := by
  induction h with
  | nil => exact .nil
  | cons hfirst _ ih =>
      cases hfirst with
      | use => exact ih
      | declare hname => exact .cons hname ih

theorem SymbolTable.after_renamed (hR : Relator.BiUnique R)
    (h : List.Forall₂ (Event.Renamed R) events events') :
    Renamed R (.after events) (.after events') :=
  eraseDups_renamed hR (declaredIn_renamed h)

/-- **One event.** It is at fault under both names or under neither. -/
theorem Event.Renamed.fault?_eq_none (hR : Relator.BiUnique R) {policy : Redeclaration}
    {event event' : Event} (h : List.Forall₂ (Event.Renamed R) events events')
    (hevent : Event.Renamed R event event') :
    event.fault? policy events = none ↔ event'.fault? policy events' = none := by
  cases hevent with
  | use hname | declare hname =>
      have hmem := List.rel_mem hR hname (declaredIn_renamed h)
      simp [fault?, hmem]

/-- **All events.** -/
theorem faultless_renamed_iff (hR : Relator.BiUnique R) {policy : Redeclaration}
    (h : List.Forall₂ (Event.Renamed R) events events') :
    Faultless policy events ↔ Faultless policy events' := by
  induction events using List.reverseRecOn generalizing events' with
  | nil => rw [List.forall₂_nil_left_iff.mp h]
  | append_singleton events event ih =>
      obtain ⟨events', event', hevents, hevent, rfl⟩ := forall₂_concat_left h
      rw [faultless_concat, faultless_concat, ih hevents, hevent.fault?_eq_none hR hevents]

/-! ## Programs -/

/-- **The scope check does not depend on what names are.** Of two programs with paired names, either
both pass, with paired names in the same slots, or neither does. -/
theorem Program.analyze_renamed (hR : Relator.BiUnique R) {p p' : Program}
    (h : Block.Renamed R p p') (policy : Redeclaration) (source source' : Source) :
    (∃ table table', p.analyze source policy = .ok table ∧ p'.analyze source' policy = .ok table' ∧
      SymbolTable.Renamed R table table') ∨
    ∃ e e', p.analyze source policy = .error e ∧ p'.analyze source' policy = .error e' := by
  have hfaultless : Faultless policy (Block.events p) ↔ Faultless policy (Block.events p') :=
    faultless_renamed_iff hR h.events
  by_cases hf : Faultless policy (Block.events p)
  · refine .inl ⟨_, _, analyze_eq_ok_iff.mpr ⟨hf, rfl⟩,
      analyze_eq_ok_iff.mpr ⟨hfaultless.mp hf, rfl⟩, ?_⟩
    exact SymbolTable.after_renamed hR h.events
  · have hfail : ∀ {p : Program} (source : Source), ¬Faultless policy (Block.events p) →
        ∃ e, p.analyze source policy = .error e := by
      intro p source hf
      cases ha : p.analyze source policy with
      | ok table => exact absurd (analyze_eq_ok_iff.mp ha).1 hf
      | error e => exact ⟨e, rfl⟩
    obtain ⟨e, he⟩ := hfail source hf
    obtain ⟨e', he'⟩ := hfail source' (mt hfaultless.mpr hf)
    exact .inr ⟨e, e', he, he'⟩

end SixReg
