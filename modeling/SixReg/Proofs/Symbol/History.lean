import SixReg.Proofs.Computation
import SixReg.Proofs.Scope.Events

/-!
# Symbol tables over any history of requests

A table is a list of names, and a lookup goes through it. Whoever keeps one table and changes it in
place rather keeps two things side by side: the variables in the order of their slots, and for every
name its slot. `Directory` is such a pair. A slot that is found under a name is used as an index
without a further look, so if ever the two parts were out of step, the index could be out of range.
`InPlace` gives the requests in this form, write by write.

* Nothing is out of range in one request, which is answered as by the table and leaves a directory
  for the table after it (`Directory.Indexes.perform`);
* a variable that is found under a name is found from then on (`find?_serve`);
* by induction, both hold for every history of requests (`symbols_over_history`).
-/

namespace SixReg.SymbolTable

/-! ## Requests -/

/-- What can be asked of a table. -/
inductive Request where
  | declare (name : String)
  | find (name : String)

/-- What comes back. -/
inductive Answer where
  | declared (outcome : Declared)
  | found (symbol? : Option Symbol)
deriving DecidableEq

/-- The answer to a request, and the table after it. -/
def serve (table : SymbolTable) : Request → Answer × SymbolTable
  | .declare name => (.declared (table.declare name).1, (table.declare name).2)
  | .find name => (.found (table.find? name), table)

/-- The answers to requests that are made one after the other, and the table after them. -/
def serveAll (table : SymbolTable) : List Request → List Answer × SymbolTable
  | [] => ([], table)
  | request :: requests =>
    let (answer, table) := table.serve request
    let (answers, table) := table.serveAll requests
    (answer :: answers, table)

/-- The name that a request declares. -/
def Request.declared? : Request → Option String
  | .declare name => some name
  | .find _ => none

/-! ## Requests in place -/

/-- A table in two parts: the variables in the order of their slots, and the slot of each name. -/
structure Directory where
  symbols : Array Symbol
  slots : Std.HashMap String Nat

/-- The directory without variables. -/
def Directory.empty : Directory := ⟨#[], ∅⟩

/-- An index behind the last element. -/
structure OutOfRange where
  index : Nat

/-- A computation that changes a directory in place, and breaks off at an index out of range. -/
abbrev InPlace := EStateM OutOfRange Directory

namespace InPlace

/-- The variable in a slot. -/
def symbolAt (slot : Nat) : InPlace Symbol := do
  match (← get).symbols[slot]? with
  | some symbol => return symbol
  | none => throw ⟨slot⟩

/-- Declares a name. The two parts are written one after the other. -/
def declare (name : String) : InPlace Declared := do
  match (← get).slots[name]? with
  | some slot => return .existing (← symbolAt slot)
  | none =>
    let slot := (← get).symbols.size
    modify fun d => { d with symbols := d.symbols.push ⟨name, slot⟩ }
    modify fun d => { d with slots := d.slots.insert name slot }
    return .new (← symbolAt slot)

/-- The variable with the given name. -/
def find (name : String) : InPlace (Option Symbol) := do
  match (← get).slots[name]? with
  | some slot => return some (← symbolAt slot)
  | none => return none

/-- Answers a request in place. -/
def perform : Request → InPlace Answer
  | .declare name => .declared <$> declare name
  | .find name => .found <$> find name

/-- Answers requests one after the other. -/
def performAll : List Request → InPlace (List Answer)
  | [] => return []
  | request :: requests => do
    let answer ← perform request
    let answers ← performAll requests
    return answer :: answers

end InPlace

/-! ## Tables that grow -/

variable {table : SymbolTable} {name : String} {symbol : Symbol} {d d' : Directory}

theorem find?_push (h : table.find? name = none) (other : String) :
    (⟨table.names.push name⟩ : SymbolTable).find? other =
      if other = name then some ⟨name, table.size⟩ else table.find? other := by
  rw [find?_eq_none_iff, ← Array.mem_toList_iff] at h
  rw [find?_eq, find?_eq]
  by_cases hname : other = name
  · subst hname
    simp [List.idxOf_append_of_notMem h, size]
  · by_cases hother : other ∈ table.names
    · simp [hname, hother, List.idxOf_append_of_mem (Array.mem_toList_iff.mpr hother)]
    · simp [hname, hother]

theorem declare_of_find? (h : table.find? name = some symbol) :
    table.declare name = (.existing symbol, table) := by
  simp only [declare, h]

theorem declare_of_find?_none (h : table.find? name = none) :
    table.declare name = (.new ⟨name, table.size⟩, ⟨table.names.push name⟩) := by
  simp only [declare, h]

/-- **One request adds the name that it declares, unless the table has it.** -/
theorem names_serve {declared : List String} (h : table.names.toList = declared.eraseDups)
    (request : Request) : (table.serve request).2.names.toList =
      (declared ++ request.declared?.toList).eraseDups := by
  cases request with
  | find name => simpa [serve, Request.declared?] using h
  | declare name =>
      have hmem : name ∈ table.names ↔ name ∈ declared := by
        rw [← Array.mem_toList_iff, h, List.mem_eraseDups]
      simp only [serve, Request.declared?, Option.toList_some, eraseDups_concat]
      cases hfind : table.find? name with
      | none =>
          have hnew : name ∉ declared := hmem.not.mp ((find?_eq_none_iff _ _).mp hfind)
          rw [declare_of_find?_none hfind, if_neg hnew, ← h, Array.toList_push]
      | some symbol =>
          have hold : name ∈ declared := hmem.mp (exists_find?_iff.mp ⟨symbol, hfind⟩)
          rw [declare_of_find? hfind, if_pos hold, h]

theorem names_serveAll {declared : List String} (h : table.names.toList = declared.eraseDups)
    (requests : List Request) : (table.serveAll requests).2.names.toList =
      (declared ++ requests.filterMap Request.declared?).eraseDups := by
  induction requests generalizing table declared with
  | nil => simpa [serveAll] using h
  | cons request requests ih =>
      rw [serveAll, ih (names_serve h request), List.append_assoc]
      cases hd : request.declared? <;> simp [hd]

/-- What is found under a name is found there after another request. -/
theorem find?_serve (h : table.find? name = some symbol) (request : Request) :
    (table.serve request).2.find? name = some symbol := by
  cases request with
  | find other => exact h
  | declare other =>
      simp only [serve]
      cases hother : table.find? other with
      | some _ => rw [declare_of_find? hother, h]
      | none =>
          have hne : name ≠ other := by
            rintro rfl
            rw [hother] at h
            cases h
          rw [declare_of_find?_none hother, find?_push hother, if_neg hne, h]

theorem find?_serveAll (h : table.find? name = some symbol) (requests : List Request) :
    (table.serveAll requests).2.find? name = some symbol := by
  induction requests generalizing table with
  | nil => exact h
  | cons request requests ih => exact ih (find?_serve h request)

/-! ## Directories of a table -/

/-- The directory has the variables of the table, and under each name its slot. -/
structure Directory.Indexes (d : Directory) (table : SymbolTable) : Prop where
  symbols : d.symbols.toList = table.toList
  slots : ∀ name, d.slots[name]? = (table.find? name).map Symbol.slot

namespace Directory.Indexes

theorem empty : Directory.empty.Indexes .empty where
  symbols := rfl
  slots name := by simp [Directory.empty, SymbolTable.empty, find?]

theorem size_eq (h : d.Indexes table) : d.symbols.size = table.size := by
  rw [← Array.length_toList, h.symbols, length_toList]

theorem getElem?_symbols (h : d.Indexes table) {i : Nat} :
    d.symbols[i]? = some symbol ↔ symbol.slot = i ∧ table.names[i]? = some symbol.name := by
  rw [← Array.getElem?_toList, h.symbols, getElem?_toList]

theorem symbols_of_find? (h : d.Indexes table) (hfind : table.find? name = some symbol) :
    d.symbols[symbol.slot]? = some symbol := by
  rw [h.getElem?_symbols, name_of_find? hfind]
  exact ⟨rfl, getElem?_slot hfind⟩

theorem slots_of_find? (h : d.Indexes table) (hfind : table.find? name = some symbol) :
    d.slots[name]? = some symbol.slot := by
  rw [h.slots, hfind, Option.map_some]

theorem slots_eq_none (h : d.Indexes table) (hfind : table.find? name = none) :
    d.slots[name]? = none := by
  rw [h.slots, hfind, Option.map_none]

/-- The slot of a variable is in range. -/
theorem symbolAt (h : d.Indexes table) (hfind : table.find? name = some symbol) :
    InPlace.symbolAt symbol.slot d = .ok symbol d := by
  rw [InPlace.symbolAt, EStateM.get_bind, h.symbols_of_find? hfind]
  rfl

theorem find (h : d.Indexes table) (name : String) :
    InPlace.find name d = .ok (table.find? name) d := by
  rw [InPlace.find, EStateM.get_bind]
  cases hfind : table.find? name with
  | none =>
      rw [h.slots_eq_none hfind]
      rfl
  | some symbol =>
      rw [h.slots_of_find? hfind]
      exact EStateM.bind_of_ok (h.symbolAt hfind)

theorem declare_of_find? (h : d.Indexes table) (hfind : table.find? name = some symbol) :
    InPlace.declare name d = .ok (.existing symbol) d := by
  rw [InPlace.declare, EStateM.get_bind, h.slots_of_find? hfind]
  exact EStateM.bind_of_ok (h.symbolAt hfind)

/-- The directory with one more variable is one of the table with one more name. -/
theorem push (h : d.Indexes table) (hfind : table.find? name = none) :
    Indexes ⟨d.symbols.push ⟨name, d.symbols.size⟩, d.slots.insert name d.symbols.size⟩
      ⟨table.names.push name⟩ := by
  constructor
  · rw [Array.toList_push, h.symbols, toList_push, h.size_eq]
    rfl
  · intro other
    rw [Std.HashMap.getElem?_insert, find?_push hfind, h.size_eq]
    by_cases hname : other = name
    · simp [hname]
    · simp [hname, Ne.symm hname, h.slots]

theorem declare (h : d.Indexes table) (name : String) :
    ∃ d', InPlace.declare name d = .ok (table.declare name).1 d' ∧
      d'.Indexes (table.declare name).2 := by
  cases hfind : table.find? name with
  | some symbol =>
      rw [SymbolTable.declare_of_find? hfind]
      exact ⟨d, h.declare_of_find? hfind, h⟩
  | none =>
      have hpush := h.push hfind
      rw [declare_of_find?_none hfind]
      refine ⟨_, ?_, hpush⟩
      -- the variable that was pushed last is read back
      have hlast : (⟨table.names.push name⟩ : SymbolTable).find? name =
          some ⟨name, table.size⟩ := by
        rw [find?_push hfind, if_pos rfl]
      have hnew := hpush.symbolAt hlast
      rw [InPlace.declare, EStateM.get_bind, h.slots_eq_none hfind]
      rw [← h.size_eq] at hnew ⊢
      exact EStateM.bind_of_ok hnew

/-- **A request is answered as by the table**: no index is out of range, and what is left is a
directory of the table after the request. -/
theorem perform (h : d.Indexes table) (request : Request) :
    ∃ d', InPlace.perform request d = .ok (table.serve request).1 d' ∧
      d'.Indexes (table.serve request).2 := by
  cases request with
  | declare name =>
      obtain ⟨d', hd', hindexes⟩ := h.declare name
      exact ⟨d', EStateM.map_of_ok hd', hindexes⟩
  | find name => exact ⟨d, EStateM.map_of_ok (h.find name), h⟩

theorem performAll (h : d.Indexes table) (requests : List Request) :
    ∃ d', InPlace.performAll requests d = .ok (table.serveAll requests).1 d' ∧
      d'.Indexes (table.serveAll requests).2 := by
  induction requests generalizing d table with
  | nil => exact ⟨d, rfl, h⟩
  | cons request requests ih =>
      obtain ⟨d₁, hone, h₁⟩ := h.perform request
      obtain ⟨d₂, hall, h₂⟩ := ih h₁
      exact ⟨d₂, (EStateM.bind_of_ok hone).trans (EStateM.bind_of_ok hall), h₂⟩

end Directory.Indexes

/-! ## Every history -/

/-- The two parts of a directory are in step, when the given names were declared in this order. -/
structure Directory.InStep (d : Directory) (declared : List String) : Prop where
  /-- A variable stands in its slot. -/
  slot_eq : ∀ (i : Nat) (symbol : Symbol), d.symbols[i]? = some symbol → symbol.slot = i
  /-- No name is there twice. -/
  names_nodup : (d.symbols.toList.map Symbol.name).Nodup
  /-- The names come in the order of their first declarations. -/
  names_eq : d.symbols.toList.map Symbol.name = declared.eraseDups
  /-- The second part has just the declared names, and for each the index of its variable. -/
  mem_slots : ∀ name, name ∈ d.slots ↔ name ∈ declared
  slots_eq : ∀ (name : String) (slot : Nat),
    d.slots[name]? = some slot ↔ d.symbols[slot]? = some ⟨name, slot⟩

theorem Directory.Indexes.inStep {declared : List String} (h : d.Indexes table)
    (hnames : table.names.toList = declared.eraseDups) : d.InStep declared := by
  have hnodup : table.names.toList.Nodup := hnames ▸ nodup_eraseDups declared
  have hlist : d.symbols.toList.map Symbol.name = table.names.toList := by
    simp [h.symbols, toList, Function.comp_def]
  refine ⟨fun i symbol hi => (h.getElem?_symbols.mp hi).1, hlist ▸ hnodup, hlist.trans hnames,
    ?_, ?_⟩
  · intro name
    rw [Std.HashMap.mem_iff_isSome_getElem?, h.slots, Option.isSome_map, Option.isSome_iff_exists,
      exists_find?_iff, ← Array.mem_toList_iff, hnames, List.mem_eraseDups]
  · intro name slot
    rw [h.slots, h.getElem?_symbols, Option.map_eq_some_iff]
    constructor
    · rintro ⟨symbol, hfind, rfl⟩
      exact ⟨rfl, getElem?_slot hfind⟩
    · rintro ⟨-, hslot⟩
      exact ⟨⟨name, slot⟩, (find?_eq_some_iff hnodup).mpr ⟨mem_toList.mpr hslot, rfl⟩, rfl⟩

/-- **Tables are sound over any history of requests**, with any names and in any order. A directory
that is changed in place gets through all of them without an index out of range, and gives the
answers of the table. Its two parts are then in step, and list the variables of the table. A name
that has a slot keeps it through all later requests, and so does the variable in the slot. A name
that is there already is declared once more to no effect: the answer is the variable that it has. -/
theorem symbols_over_history (requests : List Request) :
    ∃ d, InPlace.performAll requests .empty = .ok (empty.serveAll requests).1 d ∧
      d.InStep (requests.filterMap Request.declared?) ∧
      d.symbols.toList = (empty.serveAll requests).2.toList ∧
      (∀ name, InPlace.find name d = .ok ((empty.serveAll requests).2.find? name) d) ∧
      (∀ (later : List Request) (name : String) (slot : Nat), d.slots[name]? = some slot →
        ∃ answers d', InPlace.performAll later d = .ok answers d' ∧
          d'.slots[name]? = some slot ∧ d'.symbols[slot]? = some ⟨name, slot⟩) ∧
      ∀ (name : String) (slot : Nat), d.slots[name]? = some slot →
        InPlace.declare name d = .ok (.existing ⟨name, slot⟩) d ∧
        (empty.serveAll requests).2.declare name =
          (.existing ⟨name, slot⟩, (empty.serveAll requests).2) := by
  obtain ⟨d, hrun, h⟩ := Directory.Indexes.empty.performAll requests
  have hstep : d.InStep (requests.filterMap Request.declared?) := by
    have hempty : empty.names.toList = ([] : List String).eraseDups := rfl
    apply h.inStep
    rw [names_serveAll hempty, List.nil_append]
  have hfound : ∀ {name slot}, d.slots[name]? = some slot →
      (empty.serveAll requests).2.find? name = some ⟨name, slot⟩ := by
    intro name slot hslot
    rw [h.slots, Option.map_eq_some_iff] at hslot
    obtain ⟨symbol, hfind, rfl⟩ := hslot
    rw [hfind, ← name_of_find? hfind]
  refine ⟨d, hrun, hstep, h.symbols, h.find, ?_, ?_⟩
  · intro later name slot hslot
    obtain ⟨d', hlater, h'⟩ := h.performAll later
    have hfind := find?_serveAll (hfound hslot) later
    exact ⟨_, d', hlater, h'.slots_of_find? hfind, h'.symbols_of_find? hfind⟩
  · intro name slot hslot
    exact ⟨h.declare_of_find? (hfound hslot), declare_of_find? (hfound hslot)⟩

/-- Two variables, one of which is declared twice, and a name that is never declared. -/
theorem symbols_over_history_redeclared :
    let requests : List Request := [.declare "b", .declare "a", .find "c", .declare "b"]
    ∃ d, InPlace.performAll requests .empty =
        .ok [.declared (.new ⟨"b", 0⟩), .declared (.new ⟨"a", 1⟩), .found none,
          .declared (.existing ⟨"b", 0⟩)] d ∧
      d.slots["a"]? = some 1 ∧ InPlace.declare "a" d = .ok (.existing ⟨"a", 1⟩) d := by
  intro requests
  obtain ⟨d, hrun, hstep, hlist, -, -, hagain⟩ := symbols_over_history requests
  have hanswers : (empty.serveAll requests).1 = [.declared (.new ⟨"b", 0⟩),
      .declared (.new ⟨"a", 1⟩), .found none, .declared (.existing ⟨"b", 0⟩)] := by decide +kernel
  have hsymbol : d.symbols[1]? = some ⟨"a", 1⟩ := by
    rw [← Array.getElem?_toList, hlist]
    decide +kernel
  have hslot := (hstep.slots_eq _ _).mpr hsymbol
  exact ⟨d, hanswers ▸ hrun, hslot, (hagain _ _ hslot).1⟩

end SixReg.SymbolTable
