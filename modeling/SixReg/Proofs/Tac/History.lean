import Mathlib.Data.List.Nodup
import SixReg.Proofs.Assembly.Encodable
import SixReg.Proofs.Symbol
import SixReg.Proofs.Tac.Pressure

/-!
# A builder over any history of requests

A builder can be asked for more than one program: for single statements and expressions, for
temporaries and labels, for the code so far. A request that fails leaves behind what it appended
before, with temporaries that nothing reads and labels that nothing places.

What keeps the names apart is that each of them is given out once and used up step by step.
`Rights` lists what may still be done with the names that were given out: an instruction takes its
result, its reads and its place from there (`append_spends`). Every computation of the builder goes
from rights to rights, and where it fails the rights are lost (`Spends`); so the rules for the
statements are put together from those for the single steps.

* one request, granted or refused, keeps the builder sound (`Session.sound_next`), and all code that
  was appended before it (`Session.emitted_prefix_next`);
* by induction, so does every history of requests (`Session.sound_after`), and the names in all of
  the code that was ever appended are fresh (`names_fresh_over_history`).
-/

namespace SixReg

open Tac

/-! ## Names that are used once -/

/-- No name stands twice, and their numbers are below `n`. -/
structure Once {α : Type} (number : α → Nat) (n : Nat) (names : List α) : Prop where
  nodup : names.Nodup
  lt : ∀ x ∈ names, number x < n

namespace Once

variable {α : Type} {number : α → Nat} {n : Nat} {names names' : List α}

theorem of_subperm (h : Once number n names) (hsub : names'.Subperm names) :
    Once number n names' where
  nodup := by
    obtain ⟨between, hperm, hsublist⟩ := hsub
    exact hperm.nodup_iff.mp (h.nodup.sublist hsublist)
  lt x hx := h.lt x (hsub.subset hx)

/-- The next number is that of a new name. -/
theorem cons (h : Once number n names) {x : α} (hx : number x = n) :
    Once number (n + 1) (x :: names) where
  nodup := List.nodup_cons.mpr ⟨fun hmem => absurd (h.lt x hmem) (hx ▸ Nat.lt_irrefl _), h.nodup⟩
  lt := by
    rw [List.forall_mem_cons]
    exact ⟨hx ▸ Nat.lt_succ_self _, fun y hy => Nat.lt_succ_of_lt (h.lt y hy)⟩

end Once

theorem perm_rotate {α : Type} (first second third : List α) :
    (first ++ (second ++ third)).Perm (third ++ first ++ second) := by
  rw [← List.append_assoc, List.append_assoc third]
  exact List.perm_append_comm

namespace Tac

/-- Every temporary that an instruction reads is written before it. -/
def Defined (instrs : List Instr) : Prop :=
  ∀ before instr after, instrs = before ++ instr :: after → ∀ t ∈ instr.reads, t ∈ written before

theorem Defined.concat {instrs : List Instr} {instr : Instr} (h : Defined instrs)
    (hreads : ∀ t ∈ instr.reads, t ∈ written instrs) : Defined (instrs ++ [instr]) := by
  intro before other after heq t ht
  obtain ⟨rest, rfl, hs⟩ | ⟨rest, hf⟩ := split_append heq
  · cases rest with
    | nil =>
        obtain ⟨rfl, -⟩ := List.cons.inj hs
        rw [List.append_nil]
        exact hreads t ht
    | cons => simp at hs
  · exact h before other rest hf t ht

end Tac

namespace Builder

/-! ## Rights -/

/-- What may still be done with the names that a builder gave out. -/
structure Rights where
  /-- The temporaries that may be written. -/
  blank : List Temp := []
  /-- The temporaries that are written and may be read. -/
  full : List Temp := []
  /-- The labels that may be placed. -/
  loose : List Label := []
  /-- The labels that may be gone to. -/
  known : List Label := []
  /-- The variables that may be loaded and stored. -/
  reached : List Symbol := []

namespace Rights

/-- The second rights are enough where the first ones are. -/
structure Le (r s : Rights) : Prop where
  blank : r.blank.Subperm s.blank := by exact List.Subperm.refl _
  full : r.full.Subperm s.full := by exact List.Subperm.refl _
  loose : r.loose.Subperm s.loose := by exact List.Subperm.refl _
  known : r.known ⊆ s.known := by exact List.Subset.refl _
  reached : r.reached ⊆ s.reached := by exact List.Subset.refl _

instance : LE Rights := ⟨Le⟩

theorem le_refl (r : Rights) : r ≤ r := {}

theorem empty_le (r : Rights) : {} ≤ r where
  blank := List.nil_subperm
  full := List.nil_subperm
  loose := List.nil_subperm
  known := List.nil_subset _
  reached := List.nil_subset _

/-- The rights that an instruction takes, besides those that stay. -/
def before (r : Rights) (instr : Instr) : Rights :=
  { r with
    blank := instr.result?.toList ++ r.blank
    full := instr.reads ++ r.full
    loose := instr.label?.toList ++ r.loose }

/-- The rights behind an instruction: what it writes may be read. -/
def after (r : Rights) (instr : Instr) : Rights :=
  { r with full := instr.result?.toList ++ r.full }

end Rights

/-- The names in code are fresh, and so are those that may still be used: each temporary was given
out, is written once, and is read once at most and behind that; each label was given out and is
placed once. -/
structure Fresh (r : Rights) (temps labels : Nat) (code : List Instr) : Prop where
  writes : Once Temp.id temps (r.blank ++ written code)
  reads : (r.full ++ readTemps code).Subperm (written code)
  defined : Defined code
  places : Once Label.id labels (r.loose ++ Tac.labels code)
  known : ∀ l ∈ r.known, l.id < labels
  targets : ∀ l ∈ code.filterMap Instr.target?, l.id < labels

namespace Fresh

variable {r s : Rights} {temps labels : Nat} {code : List Instr}

theorem weaken (h : Fresh s temps labels code) (hle : r ≤ s) : Fresh r temps labels code where
  writes := h.writes.of_subperm ((List.subperm_append_right _).mpr hle.blank)
  reads := ((List.subperm_append_right _).mpr hle.full).trans h.reads
  defined := h.defined
  places := h.places.of_subperm ((List.subperm_append_right _).mpr hle.loose)
  known l hl := h.known l (hle.known hl)
  targets := h.targets

theorem freshTemp (h : Fresh r temps labels code) :
    Fresh { r with blank := ⟨temps⟩ :: r.blank } (temps + 1) labels code :=
  { h with writes := h.writes.cons rfl }

theorem freshLabel (h : Fresh r temps labels code) :
    Fresh { r with loose := ⟨labels⟩ :: r.loose, known := ⟨labels⟩ :: r.known } temps (labels + 1)
      code :=
  { h with
    places := h.places.cons rfl
    known := List.forall_mem_cons.mpr
      ⟨Nat.lt_succ_self _, fun l hl => Nat.lt_succ_of_lt (h.known l hl)⟩
    targets := fun l hl => Nat.lt_succ_of_lt (h.targets l hl) }

/-- What an instruction takes from the rights, it uses up. -/
theorem concat {instr : Instr} (h : Fresh (r.before instr) temps labels code)
    (htarget : instr.target?.toList ⊆ r.known) :
    Fresh (r.after instr) temps labels (code ++ [instr]) where
  writes := by
    rw [written_append, written_cons, written_nil, List.append_nil]
    exact h.writes.of_subperm (perm_rotate _ _ _).subperm
  reads := by
    rw [written_append, written_cons, written_nil, List.append_nil, readTemps_append,
      readTemps_cons, readTemps_nil, List.append_nil]
    have hperm : (instr.result?.toList ++ r.full ++ (readTemps code ++ instr.reads)).Perm
        (instr.reads ++ r.full ++ readTemps code ++ instr.result?.toList) := by
      rw [List.append_assoc]
      exact List.perm_append_comm.trans ((perm_rotate _ _ _).append_right _)
    exact hperm.subperm.trans ((List.subperm_append_right _).mpr h.reads)
  defined := h.defined.concat fun t ht =>
    h.reads.subset (List.mem_append_left _ (List.mem_append_left _ ht))
  places := by
    rw [labels_append, labels_cons, labels_nil, List.append_nil]
    exact h.places.of_subperm (perm_rotate _ _ _).subperm
  known := h.known
  targets := by
    rw [List.filterMap_append, List.forall_mem_append]
    refine ⟨h.targets, ?_⟩
    intro l hl
    obtain ⟨_, hmem, hl⟩ := List.mem_filterMap.mp hl
    rw [List.mem_singleton.mp hmem] at hl
    exact h.known l (htarget (Option.mem_toList.mpr hl))

end Fresh

/-- All code that was appended: what was taken away before, and what the builder has. -/
def log (front : List Instr) (b : Builder) : List Instr := front ++ b.instrs.toList

/-- The names in all code that was appended are fresh, and the variables in the code that the
builder has are listed, no two with one slot. -/
structure Sound (front : List Instr) (used : Bool) (r : Rights) (b : Builder) : Prop where
  fresh : Fresh r b.temps b.labels (b.log front)
  slots : (b.slots.toList.map Symbol.slot).Nodup
  found : ∀ s ∈ b.slots.toList, b.symbols.find? s.name = some s
  reached : ∀ s ∈ r.reached, s ∈ b.slots.toList
  covered : ∀ s ∈ b.instrs.toList.flatMap Instr.symbols, s ∈ b.slots.toList
  used_eq : b.used = used

variable {front : List Instr} {used : Bool} {r s : Rights} {b : Builder}

theorem Sound.weaken (h : Sound front used s b) (hle : r ≤ s) : Sound front used r b :=
  { h with
    fresh := h.fresh.weaken hle
    reached := fun x hx => h.reached x (hle.reached hx) }

theorem sound_start (symbols : SymbolTable) (source : Source) :
    Sound [] false {} (start symbols source) where
  fresh := ⟨⟨.nil, nofun⟩, .refl _, fun _ _ _ h => by simp [log, start] at h, ⟨.nil, nofun⟩, nofun,
    nofun⟩
  slots := .nil
  found := nofun
  reached := nofun
  covered := nofun
  used_eq := rfl

/-! ## Computations that spend rights -/

/-- The computation only appends to the code, also where it fails. -/
def Appends {α : Type} (x : Build α) : Prop :=
  ∀ b, match x b with
    | .ok _ b' | .error _ b' => b.instrs.toList <+: b'.instrs.toList

/-- From a sound builder with the rights `r` the computation comes to a sound builder with the
rights that its result says. Where it fails, the builder is sound still. From any builder, it takes
away nothing of the code. -/
structure Spends {α : Type} (front : List Instr) (used : Bool) (r : Rights) (x : Build α)
    (r' : α → Rights) : Prop where
  sound : ∀ b, Sound front used r b →
    match x b with
    | .ok a b' => Sound front used (r' a) b'
    | .error e b' => e ≠ .builderSpent ∧ Sound front used {} b'
  appends : Appends x

section

variable {α β : Type} {x : Build α} {f : α → Build β} {r' s' : α → Rights} {r'' : β → Rights}

theorem Appends.bind (hx : Appends x) (hf : ∀ a, Appends (f a)) : Appends (x >>= f) := by
  intro b
  have hxb := hx b
  cases h : x b with
  | ok a b₁ =>
      rw [h] at hxb
      rw [EStateM.bind_of_ok h]
      have hfb := hf a b₁
      cases h' : f a b₁ <;> rw [h'] at hfb <;> exact hxb.trans hfb
  | error e b₁ =>
      rw [h] at hxb
      rw [EStateM.bind_of_error h]
      exact hxb

namespace Spends

theorem pure {a : α} (hle : r' a ≤ r) : Spends front used r (pure a) r' where
  sound _ hb := hb.weaken hle
  appends _ := List.prefix_refl _

theorem bind (hx : Spends front used r x r') (hf : ∀ a, Spends front used (r' a) (f a) r'') :
    Spends front used r (x >>= f) r'' where
  sound b hb := by
    have hxb := hx.sound b hb
    cases h : x b with
    | ok a b₁ =>
        rw [h] at hxb
        rw [EStateM.bind_of_ok h]
        exact (hf a).sound b₁ hxb
    | error e b₁ =>
        rw [h] at hxb
        rw [EStateM.bind_of_error h]
        exact hxb
  appends := hx.appends.bind fun a => (hf a).appends

theorem map {g : α → β} (hx : Spends front used r x fun a => r'' (g a)) :
    Spends front used r (g <$> x) r'' := by
  rw [map_eq_pure_bind]
  exact hx.bind fun a => .pure (Rights.le_refl _)

theorem conseq (hx : Spends front used r x r') (hr : r ≤ s) (hr' : ∀ a, s' a ≤ r' a) :
    Spends front used s x s' where
  sound b hb := by
    have hxb := hx.sound b (hb.weaken hr)
    cases h : x b with
    | ok a b₁ =>
        rw [h] at hxb
        exact hxb.weaken (hr' a)
    | error e b₁ =>
        rw [h] at hxb
        exact hxb
  appends := hx.appends

theorem throw {e : CompileError} (he : e ≠ .builderSpent) :
    Spends front used r (throw e) r' where
  sound _ hb := ⟨he, hb.weaken r.empty_le⟩
  appends _ := List.prefix_refl _

end Spends

end

/-! ## Single steps -/

theorem freshTemp_spends (r : Rights) :
    Spends front used r freshTemp fun t => { r with blank := t :: r.blank } where
  sound _ hb := { hb with fresh := hb.fresh.freshTemp }
  appends _ := List.prefix_refl _

theorem freshLabel_spends (r : Rights) : Spends front used r freshLabel fun l =>
    { r with loose := l :: r.loose, known := l :: r.known } where
  sound _ hb := { hb with fresh := hb.fresh.freshLabel }
  appends _ := List.prefix_refl _

/-- **An instruction is appended where there are the rights for it.** -/
theorem append_spends (instr : Instr) (r : Rights)
    (htarget : instr.target?.toList ⊆ r.known) (hsymbols : instr.symbols ⊆ r.reached) :
    Spends front used (r.before instr) (append instr) fun _ => r.after instr where
  sound b hb := by
    have hlog : ({ b with instrs := b.instrs.push instr } : Builder).log front =
        b.log front ++ [instr] := by
      simp [log]
    exact { hb with
      fresh := hlog ▸ hb.fresh.concat htarget
      covered := by
        rw [Array.toList_push, List.flatMap_append, List.forall_mem_append, List.flatMap_singleton]
        exact ⟨hb.covered, fun s hs => hb.reached s (hsymbols hs)⟩ }
  appends b := by
    show b.instrs.toList <+: (b.instrs.push instr).toList
    rw [Array.toList_push]
    exact List.prefix_append _ _

/-- An instruction that goes nowhere and reaches no variable. -/
theorem plain_spends (instr : Instr) (r : Rights) (htarget : instr.target? = none)
    (hsymbols : instr.symbols = []) :
    Spends front used (r.before instr) (append instr) fun _ => r.after instr := by
  apply append_spends
  · rw [htarget]
    exact List.nil_subset _
  · rw [hsymbols]
    exact List.nil_subset _

/-- A variable is listed once it is reached, and once only. -/
theorem Sound.reach {name : String} {symbol : Symbol} (hb : Sound front used r b)
    (hfind : b.symbols.find? name = some symbol) :
    Sound front used { r with reached := symbol :: r.reached } (b.reach symbol) := by
  have hname := SymbolTable.find?_name hfind
  unfold Builder.reach
  split
  · next hany =>
      -- the entry with the same slot is that of the same variable
      obtain ⟨other, hmem, hslot⟩ := Array.any_eq_true'.mp hany
      have hother := hb.found other (Array.mem_toList_iff.mpr hmem)
      have hsame : other.name = symbol.name :=
        SymbolTable.slot_injective hother hname (beq_iff_eq.mp hslot)
      have heq : other = symbol := Option.some.inj (hother.symm.trans (hsame ▸ hname))
      exact { hb with
        fresh := { hb.fresh with }
        reached := List.forall_mem_cons.mpr ⟨heq ▸ Array.mem_toList_iff.mpr hmem, hb.reached⟩ }
  · next hany =>
      have hnew : symbol.slot ∉ b.slots.toList.map Symbol.slot := by
        intro hmem
        obtain ⟨other, hother, hslot⟩ := List.mem_map.mp hmem
        exact hany (Array.any_eq_true'.mpr
          ⟨other, Array.mem_toList_iff.mp hother, beq_iff_eq.mpr hslot⟩)
      have hkept : ∀ s ∈ b.slots.toList, s ∈ (b.slots.push symbol).toList := by
        intro s hs
        rw [Array.toList_push]
        exact List.mem_append_left _ hs
      exact { hb with
        fresh := { hb.fresh with }
        slots := by
          rw [Array.toList_push, List.map_append]
          exact hb.slots.append (List.nodup_singleton _) (by simpa using hnew)
        found := by
          rw [Array.toList_push, List.forall_mem_append, List.forall_mem_singleton]
          exact ⟨hb.found, hname⟩
        reached := List.forall_mem_cons.mpr
          ⟨by simp, fun s hs => hkept s (hb.reached s hs)⟩
        covered := fun s hs => hkept s (hb.covered s hs) }

theorem reference_eq_error {name : String} {span : Span} {b' : Builder} {e : CompileError}
    (h : reference name span b = .error e b') : b' = b ∧ ∃ fault, e = .scope fault := by
  unfold reference at h
  rw [EStateM.get_bind] at h
  cases huse : Scope.use b.source b.symbols name span with
  | error fault =>
      rw [huse] at h
      cases h
      exact ⟨rfl, fault, rfl⟩
  | ok symbol =>
      rw [huse] at h
      cases h

theorem reference_spends (name : String) (span : Span) (r : Rights) :
    Spends front used r (reference name span) fun symbol =>
      { r with reached := symbol :: r.reached } where
  sound b hb := by
    cases h : reference name span b with
    | ok symbol b' =>
        obtain ⟨hfind, rfl⟩ := reference_eq_ok h
        exact hb.reach hfind
    | error e b' =>
        obtain ⟨rfl, fault, rfl⟩ := reference_eq_error h
        exact ⟨nofun, hb.weaken r.empty_le⟩
  appends b := by
    cases h : reference name span b with
    | ok symbol b' =>
        obtain ⟨-, rfl⟩ := reference_eq_ok h
        show b.instrs.toList <+: (b.reach symbol).instrs.toList
        rw [(reach_fields b symbol).1]
    | error e b' =>
        obtain ⟨rfl, -⟩ := reference_eq_error h
        exact List.prefix_refl _

/-! ## Expressions -/

theorem operand_spends_of_expr {e : Expr}
    (he : ∀ r, Spends front used r (expr e) fun t => { r with full := t :: r.full }) (r : Rights) :
    Spends front used r (operand e) fun o => { r with full := o.reads ++ r.full } := by
  unfold operand
  split
  · exact .pure r.le_refl
  · exact (he r).map

theorem expr_spends (e : Expr) (r : Rights) :
    Spends front used r (expr e) fun t => { r with full := t :: r.full } := by
  induction e generalizing r with
  | number value =>
      exact (freshTemp_spends r).bind fun t =>
        (plain_spends (.const t value) r rfl rfl).bind fun _ => .pure (Rights.le_refl _)
  | var name span =>
      refine (reference_spends name span r).bind fun src => (freshTemp_spends _).bind fun t =>
        (append_spends (.load t src) { r with reached := src :: r.reached } (List.nil_subset _)
          ?_).bind fun _ => .pure { reached := List.subset_cons_self _ _ }
      simp [Instr.symbols]
  | binary op left right ihl ihr =>
      rw [expr_binary]
      refine (ihl r).bind fun l => (operand_spends_of_expr ihr _).bind fun o =>
        (freshTemp_spends _).bind fun t => ?_
      refine ((plain_spends (.binary t l op o) r rfl rfl).conseq ?_
        fun _ => Rights.le_refl _).bind fun _ => .pure (Rights.le_refl _)
      exact { full := List.perm_middle.symm.subperm }
  | not e ih =>
      rw [expr_not]
      exact (operand_spends_of_expr ih r).bind fun o => (freshTemp_spends _).bind fun t =>
        (plain_spends (.not t o) r rfl rfl).bind fun _ => .pure (Rights.le_refl _)

theorem operand_spends (e : Expr) (r : Rights) :
    Spends front used r (operand e) fun o => { r with full := o.reads ++ r.full } :=
  operand_spends_of_expr (expr_spends e) r

/-! ## Statements -/

theorem leaveUnless_spends {target : Label} (condition : Expr) (r : Rights)
    (htarget : target ∈ r.known) :
    Spends front used r (leaveUnless condition target) fun _ => r := by
  unfold leaveUnless
  split
  · next rel left right =>
      refine (expr_spends left r).bind fun a => (expr_spends right _).bind fun b => ?_
      refine (append_spends (.branch a b rel.inverse target) r
        (List.cons_subset.mpr ⟨htarget, List.nil_subset _⟩) (List.nil_subset _)).conseq ?_
          fun _ => r.le_refl
      exact { full := (List.Perm.swap b a r.full).subperm }
  · exact .throw nofun

theorem jump_spends {target : Label} (h : target ∈ r.known) :
    Spends front used r (append (.jump target)) fun _ => r :=
  append_spends (.jump target) r (List.cons_subset.mpr ⟨h, List.nil_subset _⟩) (List.nil_subset _)

theorem place_spends {place : Label} {rest : List Label} (h : (place :: rest).Perm r.loose) :
    Spends front used r (append (.label place)) fun _ => { r with loose := rest } :=
  (plain_spends (.label place) { r with loose := rest } rfl rfl).conseq
    { loose := h.subperm } fun _ => Rights.le_refl _

mutual

/-- A statement leaves the rights of its caller as they are. -/
theorem stmt_spends (s : Stmt) (r : Rights) : Spends front used r (stmt s) fun _ => r := by
  match s with
  | .declare name span value =>
      refine (operand_spends value r).bind fun src => (reference_spends name span _).bind fun dst =>
        ?_
      refine (append_spends (.store dst src) { r with reached := dst :: r.reached }
        (List.nil_subset _) ?_).conseq (Rights.le_refl _)
          fun _ => { reached := List.subset_cons_self _ _ }
      simp [Instr.symbols]
  | .print value =>
      exact (expr_spends value r).bind fun t => plain_spends (.print t) r rfl rfl
  | .ifThen condition body =>
      -- both labels are given out first, and the one that was given out first is placed first
      refine (freshLabel_spends r).bind fun other => (freshLabel_spends _).bind fun stop =>
        (leaveUnless_spends condition _ ?_).bind fun _ => (block_spends body _).bind fun _ =>
        (jump_spends ?_).bind fun _ => (place_spends (.swap stop other r.loose)).bind fun _ =>
        (place_spends (.refl _)).conseq (Rights.le_refl _) fun _ => { known := ?_ }
      all_goals simp
  | .ifElse condition body otherwise =>
      refine (freshLabel_spends r).bind fun other => (freshLabel_spends _).bind fun stop =>
        (leaveUnless_spends condition _ ?_).bind fun _ => (block_spends body _).bind fun _ =>
        (jump_spends ?_).bind fun _ => (place_spends (.swap stop other r.loose)).bind fun _ =>
        (block_spends otherwise _).bind fun _ =>
        (place_spends (.refl _)).conseq (Rights.le_refl _) fun _ => { known := ?_ }
      all_goals simp
  | .loop condition body =>
      refine (freshLabel_spends r).bind fun first => (freshLabel_spends _).bind fun stop =>
        (place_spends (.swap stop first r.loose)).bind fun _ =>
        (leaveUnless_spends condition _ ?_).bind fun _ => (block_spends body _).bind fun _ =>
        (jump_spends ?_).bind fun _ =>
        (place_spends (.refl _)).conseq (Rights.le_refl _) fun _ => { known := ?_ }
      all_goals simp
  | .block body => exact block_spends body r

theorem block_spends (p : Block) (r : Rights) : Spends front used r (block p) fun _ => r := by
  match p with
  | [] => exact .pure r.le_refl
  | first :: others => exact (stmt_spends first r).bind fun _ => block_spends others r

end

/-! ## Requests -/

/-- What can be asked of a builder. -/
inductive Request where
  | program (p : Program)
  | stmt (s : Stmt)
  | block (p : Block)
  | expr (e : Expr)
  | operand (e : Expr)
  | temp
  | label
  | reference (name : String) (span : Span)
  | take

namespace Request

/-- Performs a request, and replies with the code that it hands over. -/
def perform : Request → Build (Option Code)
  | .program p => some <$> Builder.program p
  | .stmt s => (fun _ => none) <$> Builder.stmt s
  | .block p => (fun _ => none) <$> Builder.block p
  | .expr e => (fun _ => none) <$> Builder.expr e
  | .operand e => (fun _ => none) <$> Builder.operand e
  | .temp => (fun _ => none) <$> freshTemp
  | .label => (fun _ => none) <$> freshLabel
  | .reference name span => (fun _ => none) <$> Builder.reference name span
  | .take => some <$> takeCode

/-- Whether a whole program is asked for. -/
def isProgram : Request → Bool
  | .program _ => true
  | .stmt _ | .block _ | .expr _ | .operand _ | .temp | .label | .reference _ _ | .take => false

end Request

/-- A builder in use, with the code that it has handed over. -/
structure Session where
  builder : Builder
  taken : List Code

namespace Session

/-- What a request makes of a session. A refusal hands over nothing, but it leaves the builder as
it was when the request failed. -/
def next (session : Session) (request : Request) : Session :=
  match request.perform session.builder with
  | .ok reply b => ⟨b, session.taken ++ reply.toList⟩
  | .error _ b => { session with builder := b }

/-- A session with a new builder, after some requests. -/
def after (symbols : SymbolTable) (source : Source) (requests : List Request) : Session :=
  requests.foldl next ⟨.start symbols source, []⟩

/-- All instructions that were ever appended. -/
def emitted (session : Session) : List Instr :=
  session.builder.log (session.taken.flatMap Code.instrs)

end Session

/-! ## One request -/

theorem program_of_used (h : b.used = true) (p : Program) :
    program p b = .error .builderSpent b := by
  unfold program
  rw [EStateM.get_bind, if_pos h]
  rfl

theorem program_of_unused (h : b.used = false) (p : Program) :
    program p b = (do block p; takeCode : Build Code) { b with used := true } := by
  unfold program
  rw [EStateM.get_bind, if_neg (h ▸ Bool.false_ne_true)]
  rfl

/-- A program that is not refused is built from its block, and its code is handed over. -/
theorem reply_of_unused (h : b.used = false) (p : Program) :
    (some <$> program p : Build _) b =
      match block p { b with used := true } with
      | .ok _ b₁ => (some <$> takeCode : Build _) b₁
      | .error e b₁ => .error e b₁ := by
  have hprogram := program_of_unused h p
  cases hblock : block p { b with used := true } with
  | ok _ b₁ =>
      rw [EStateM.bind_of_ok hblock, takeCode_apply] at hprogram
      exact (EStateM.map_of_ok hprogram).trans (EStateM.map_of_ok (takeCode_apply b₁)).symm
  | error e b₁ =>
      rw [EStateM.bind_of_error hblock] at hprogram
      exact EStateM.map_of_error hprogram

theorem Sound.take (h : Sound front used r b) :
    Sound (b.log front) used {} { b with instrs := #[], slots := #[] } where
  fresh := by
    have hlog : ({ b with instrs := #[], slots := #[] } : Builder).log (b.log front) =
        b.log front := by
      simp [log]
    rw [hlog]
    exact h.fresh.weaken r.empty_le
  slots := .nil
  found := nofun
  reached := nofun
  covered := nofun
  used_eq := h.used_eq

/-- What a request comes to is sound, with the code that is handed over in front. -/
def Kept (front : List Instr) (used : Bool) :
    EStateM.Result CompileError Builder (Option Code) → Prop
  | .ok reply b => Sound (front ++ reply.toList.flatMap Code.instrs) used {} b
  | .error _ b => Sound front used {} b

/-- A computation that hands over nothing. -/
theorem Spends.kept {α : Type} {x : Build α} {r' : α → Rights} (hx : Spends front used {} x r')
    (hb : Sound front used {} b) : Kept front used (((fun _ => none) <$> x : Build _) b) := by
  have hxb := hx.sound b hb
  cases h : x b with
  | ok a b' =>
      rw [h] at hxb
      rw [EStateM.map_of_ok h, Kept, Option.toList_none, List.flatMap_nil, List.append_nil]
      exact hxb.weaken (r' a).empty_le
  | error e b' =>
      rw [h] at hxb
      rw [EStateM.map_of_error h]
      exact hxb.2

theorem Sound.kept_take (h : Sound front used r b) :
    Kept front used ((some <$> takeCode : Build _) b) := by
  rw [EStateM.map_of_ok (takeCode_apply b), Kept, Option.toList_some, List.flatMap_singleton]
  exact h.take

theorem program_kept (p : Program) (hb : Sound front used {} b) :
    Kept front true ((some <$> program p : Build _) b) := by
  cases hused : b.used with
  | true =>
      rw [EStateM.map_of_error (program_of_used hused p)]
      exact { hb with used_eq := hused }
  | false =>
      have hblock := (block_spends p {}).sound { b with used := true } { hb with used_eq := rfl }
      rw [reply_of_unused hused p]
      cases h : block p { b with used := true } with
      | ok a b₁ =>
          rw [h] at hblock
          exact hblock.kept_take
      | error e b₁ =>
          rw [h] at hblock
          exact hblock.2

/-- A builder that has started no program is not refused one for that. -/
theorem program_ne_spent (p : Program) (hb : Sound front false {} b) (b' : Builder) :
    program p b ≠ .error .builderSpent b' := by
  intro hprogram
  rw [program_of_unused hb.used_eq, EStateM.bind_eq_error] at hprogram
  have hblock := (block_spends p {}).sound { b with used := true } { hb with used_eq := rfl }
  rcases hprogram with herror | ⟨_, _, _, htake⟩
  · rw [herror] at hblock
    exact hblock.1 rfl
  · cases htake

/-- **One request keeps the builder sound**, also where it fails. -/
theorem Request.kept (request : Request) (hb : Sound front used {} b) :
    Kept front (used || request.isProgram) (request.perform b) := by
  cases request with
  | program p => exact (Bool.or_true used).symm ▸ program_kept p hb
  | take => exact (Bool.or_false used).symm ▸ hb.kept_take
  | stmt s => exact (Bool.or_false used).symm ▸ (stmt_spends s {}).kept hb
  | block p => exact (Bool.or_false used).symm ▸ (block_spends p {}).kept hb
  | expr e => exact (Bool.or_false used).symm ▸ (expr_spends e {}).kept hb
  | operand e => exact (Bool.or_false used).symm ▸ (operand_spends e {}).kept hb
  | temp => exact (Bool.or_false used).symm ▸ (freshTemp_spends {}).kept hb
  | label => exact (Bool.or_false used).symm ▸ (freshLabel_spends {}).kept hb
  | reference name span =>
      exact (Bool.or_false used).symm ▸ (reference_spends name span {}).kept hb

/-- What was appended is still there after a request, with the code that is handed over in front. -/
def Continues (front : List Instr) (b : Builder) :
    EStateM.Result CompileError Builder (Option Code) → Prop
  | .ok reply b' => b.log front <+: b'.log (front ++ reply.toList.flatMap Code.instrs)
  | .error _ b' => b.log front <+: b'.log front

/-- A computation that hands over nothing. -/
theorem Spends.continues {α : Type} {x : Build α} {r' : α → Rights}
    (hx : Spends [] false {} x r') (front : List Instr) (b : Builder) :
    Continues front b (((fun _ => none) <$> x : Build _) b) := by
  have hxb := hx.appends b
  cases h : x b with
  | ok a b' =>
      rw [h] at hxb
      rw [EStateM.map_of_ok h, Continues, Option.toList_none, List.flatMap_nil, List.append_nil]
      exact (List.prefix_append_right_inj front).mpr hxb
  | error e b' =>
      rw [h] at hxb
      rw [EStateM.map_of_error h]
      exact (List.prefix_append_right_inj front).mpr hxb

theorem continues_take (front : List Instr) (b : Builder) :
    Continues front b ((some <$> takeCode : Build _) b) := by
  rw [EStateM.map_of_ok (takeCode_apply b), Continues, Option.toList_some, List.flatMap_singleton]
  exact List.prefix_append _ _

theorem continues_program (p : Program) (front : List Instr) (b : Builder) :
    Continues front b ((some <$> program p : Build _) b) := by
  cases hused : b.used with
  | true =>
      rw [EStateM.map_of_error (program_of_used hused p)]
      exact List.prefix_refl _
  | false =>
      have hspends : Spends [] false {} (block p) fun _ => {} := block_spends p {}
      have hblock := hspends.appends { b with used := true }
      rw [reply_of_unused hused p]
      cases h : block p { b with used := true } with
      | ok a b₁ =>
          rw [h] at hblock
          exact ((List.prefix_append_right_inj front).mpr hblock).trans (continues_take front b₁)
      | error e b₁ =>
          rw [h] at hblock
          exact (List.prefix_append_right_inj front).mpr hblock

theorem Request.continues (request : Request) (front : List Instr) (b : Builder) :
    Continues front b (request.perform b) := by
  cases request with
  | program p => exact continues_program p front b
  | take => exact continues_take front b
  | stmt s => exact (stmt_spends s {}).continues front b
  | block p => exact (block_spends p {}).continues front b
  | expr e => exact (expr_spends e {}).continues front b
  | operand e => exact (operand_spends e {}).continues front b
  | temp => exact (freshTemp_spends {}).continues front b
  | label => exact (freshLabel_spends {}).continues front b
  | reference name span => exact (reference_spends name span {}).continues front b

namespace Session

/-- **Nothing that was appended is lost**, whatever is asked for next and whether it is granted. -/
theorem emitted_prefix_next (session : Session) (request : Request) :
    session.emitted <+: (session.next request).emitted := by
  have hcontinues := request.continues (session.taken.flatMap Code.instrs) session.builder
  unfold next emitted
  cases hperform : request.perform session.builder with
  | ok reply b =>
      rw [hperform] at hcontinues
      rw [List.flatMap_append]
      exact hcontinues
  | error e b =>
      rw [hperform] at hcontinues
      exact hcontinues

theorem emitted_prefix_foldl (session : Session) (requests : List Request) :
    session.emitted <+: (requests.foldl next session).emitted := by
  induction requests generalizing session with
  | nil => exact List.prefix_refl _
  | cons request requests ih =>
      rw [List.foldl_cons]
      exact (session.emitted_prefix_next request).trans (ih (session.next request))

/-- The builder of a session is sound, with all that was taken in front. -/
def Sound (used : Bool) (session : Session) : Prop :=
  Builder.Sound (session.taken.flatMap Code.instrs) used {} session.builder

theorem sound_next {session : Session} (h : session.Sound used) (request : Request) :
    (session.next request).Sound (used || request.isProgram) := by
  have hkept := request.kept h
  unfold next Sound
  cases hperform : request.perform session.builder with
  | ok reply b =>
      rw [hperform] at hkept
      rw [List.flatMap_append]
      exact hkept
  | error e b =>
      rw [hperform] at hkept
      exact hkept

theorem sound_foldl {session : Session} (h : session.Sound used) (requests : List Request) :
    (requests.foldl next session).Sound (used || requests.any Request.isProgram) := by
  induction requests generalizing session used with
  | nil => simpa using h
  | cons request requests ih =>
      rw [List.foldl_cons, List.any_cons, ← Bool.or_assoc]
      exact ih (sound_next h request)

/-- **Every history keeps the builder sound.** -/
theorem sound_after (symbols : SymbolTable) (source : Source) (requests : List Request) :
    (after symbols source requests).Sound (requests.any Request.isProgram) := by
  have hstart : Sound false ⟨.start symbols source, []⟩ := sound_start symbols source
  rw [← Bool.false_or (requests.any _)]
  exact sound_foldl hstart requests

end Session

end Builder

/-- **Names stay fresh over any use of a builder**, with requests that fail on the way. In all code
that was ever appended, also in what was taken away, each temporary is written at most once, and
read at most once and behind that; each label is placed at most once; all numbers are below the
counters. The variables that the builder lists have different slots, and all that its code loads and
stores are among them. And a builder is refused a program just when it was asked for one before;
then it stays as it is. -/
theorem names_fresh_over_history (symbols : SymbolTable) (source : Source)
    (requests : List Builder.Request) :
    let session := Builder.Session.after symbols source requests
    let b := session.builder
    let emitted := session.emitted
    (written emitted).Nodup ∧ (readTemps emitted).Nodup ∧
    (∀ before instr after, emitted = before ++ instr :: after →
      ∀ t ∈ instr.reads, t ∈ written before) ∧
    (∀ t ∈ written emitted ++ readTemps emitted, t.id < b.temps) ∧
    (labels emitted).Nodup ∧
    (∀ l ∈ labels emitted ++ emitted.filterMap Instr.target?, l.id < b.labels) ∧
    (b.slots.toList.map Symbol.slot).Nodup ∧
    (∀ instr ∈ b.instrs.toList, ∀ s ∈ instr.symbols, s ∈ b.slots.toList) ∧
    (∀ p, .program p ∈ requests → ∀ q, Builder.program q b = .error .builderSpent b) ∧
    ((∀ p, .program p ∉ requests) → ∀ q b', Builder.program q b ≠ .error .builderSpent b') := by
  intro session b emitted
  have hsound := Builder.Session.sound_after symbols source requests
  have hfresh := hsound.fresh
  have hreads := hfresh.writes.of_subperm hfresh.reads
  refine ⟨hfresh.writes.nodup, hreads.nodup, hfresh.defined, ?_, hfresh.places.nodup, ?_,
    hsound.slots, ?_, ?_, ?_⟩
  · exact List.forall_mem_append.mpr ⟨hfresh.writes.lt, hreads.lt⟩
  · exact List.forall_mem_append.mpr ⟨hfresh.places.lt, hfresh.targets⟩
  · intro instr hinstr s hs
    exact hsound.covered s (List.mem_flatMap.mpr ⟨instr, hinstr, hs⟩)
  · intro p hp q
    have hany : requests.any Builder.Request.isProgram = true := List.any_eq_true.mpr ⟨_, hp, rfl⟩
    exact Builder.program_of_used (hsound.used_eq.trans hany) q
  · intro hnone q b'
    have hany : requests.any Builder.Request.isProgram = false := by
      rw [List.any_eq_false]
      intro request hrequest
      cases request with
      | program p => exact absurd hrequest (hnone p)
      | stmt | block | expr | operand | temp | label | reference | take => exact Bool.false_ne_true
    exact Builder.program_ne_spent q (hany ▸ hsound) b'

theorem names_fresh_over_history_failures :
    let x : Expr := .var "x" ⟨0, 1⟩
    let y : Expr := .var "y" ⟨4, 5⟩
    -- the condition fails at `y`, when its labels are given out and `x` is loaded
    let early : List Builder.Request :=
      [.expr (.not x), .temp, .stmt (.loop (.binary (.compare .gt) x y) []), .take]
    let late : List Builder.Request :=
      early ++ [.program [.print (.number 1)], .label, .stmt (.print x)]
    let session := Builder.Session.after ⟨#["x"]⟩ [] late
    let b := session.builder
    let code : List Instr :=
      [.load ⟨0⟩ ⟨"x", 0⟩, .not ⟨1⟩ (.temp ⟨0⟩), .label ⟨0⟩, .load ⟨3⟩ ⟨"x", 0⟩, .const ⟨4⟩ 1,
        .print ⟨4⟩, .load ⟨5⟩ ⟨"x", 0⟩]
    session.emitted = code ++ [.print ⟨5⟩] ∧ ⟨5⟩ ∈ written code ∧
    b.temps = 6 ∧ b.labels = 3 ∧ b.slots.toList = [⟨"x", 0⟩] ∧
    Builder.program [] b = .error .builderSpent b ∧
    ∀ b', Builder.program [] (Builder.Session.after ⟨#["x"]⟩ [] early).builder ≠
      .error .builderSpent b' := by
  intro x y early late session b code
  have hemitted : session.emitted = code ++ [.print ⟨5⟩] := by decide +kernel
  obtain ⟨-, -, hdefined, -, -, -, -, -, hspent, -⟩ := names_fresh_over_history ⟨#["x"]⟩ [] late
  obtain ⟨-, -, -, -, -, -, -, -, -, hunspent⟩ := names_fresh_over_history ⟨#["x"]⟩ [] early
  refine ⟨hemitted, ?_, by decide +kernel, by decide +kernel, by decide +kernel, ?_, ?_⟩
  · exact hdefined code (.print ⟨5⟩) [] hemitted ⟨5⟩ (List.mem_singleton_self _)
  · exact hspent [.print (.number 1)] (by simp [late, early]) []
  · exact hunspent (by simp [early]) []

end SixReg
