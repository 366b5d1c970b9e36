import Mathlib.Data.List.Nodup
import SixReg.Symbol

/-!
# Symbol tables

The variable that is found under a name has that name, and its slot is where the name stands first
(`find?_eq`). So the slots of different names are different (`slot_injective`), and a table without
repetition finds just the variables that it lists (`find?_eq_some_iff`).
-/

namespace SixReg.SymbolTable

variable {table : SymbolTable} {name name' : String} {symbol symbol' : Symbol}

theorem find?_eq (table : SymbolTable) (name : String) :
    table.find? name =
      if name ∈ table.names then some ⟨name, table.names.toList.idxOf name⟩ else none := by
  obtain ⟨⟨names⟩⟩ := table
  by_cases h : name ∈ names
  · have hidx : names.idxOf? name = some (names.idxOf name) := by
      simp [List.idxOf?, List.idxOf, List.findIdx?_eq_some_iff_findIdx_eq, h]
    simp [find?, h, hidx]
  · simp [find?, h]

theorem exists_find?_iff : (∃ symbol, table.find? name = some symbol) ↔ name ∈ table.names := by
  rw [find?_eq]
  split <;> simp [*]

theorem name_of_find? (h : table.find? name = some symbol) : symbol.name = name := by
  rw [find?_eq] at h
  split at h
  · cases h
    rfl
  · cases h

theorem find?_name (h : table.find? name = some symbol) :
    table.find? symbol.name = some symbol := by
  rw [name_of_find? h, h]

theorem getElem?_slot (h : table.find? name = some symbol) :
    table.names[symbol.slot]? = some name := by
  rw [find?_eq] at h
  split at h
  · next hmem =>
      cases h
      rw [← Array.getElem?_toList]
      exact List.getElem?_idxOf (Array.mem_toList_iff.mpr hmem)
  · cases h

/-- Two variables have different slots. -/
theorem slot_injective (h : table.find? name = some symbol) (h' : table.find? name' = some symbol')
    (hs : symbol.slot = symbol'.slot) : name = name' := by
  have hn := getElem?_slot h
  rw [hs, getElem?_slot h'] at hn
  exact (Option.some.inj hn).symm

theorem mem_toList : symbol ∈ table.toList ↔ table.names[symbol.slot]? = some symbol.name := by
  obtain ⟨name, slot⟩ := symbol
  simp [toList, List.mem_zipIdx_iff_getElem?]

/-- In a table without repetition, just the variables of the table are found. -/
theorem find?_eq_some_iff (h : table.names.toList.Nodup) :
    table.find? name = some symbol ↔ symbol ∈ table.toList ∧ symbol.name = name := by
  constructor
  · intro hfind
    have hname := name_of_find? hfind
    rw [mem_toList, hname]
    exact ⟨getElem?_slot hfind, rfl⟩
  · rintro ⟨hmem, rfl⟩
    rw [mem_toList, ← Array.getElem?_toList] at hmem
    obtain ⟨hlt, hname⟩ := List.getElem?_eq_some_iff.mp hmem
    have hidx : table.names.toList.idxOf symbol.name = symbol.slot := by
      rw [← h.idxOf_getElem symbol.slot hlt, hname]
    rw [find?_eq, if_pos (Array.mem_toList_iff.mp (List.mem_of_getElem? hmem)), hidx]

theorem toList_push (names : Array String) (name : String) :
    (⟨names.push name⟩ : SymbolTable).toList =
      (⟨names⟩ : SymbolTable).toList ++ [⟨name, names.size⟩] := by
  simp [toList, List.zipIdx_append]

theorem slot_lt_of_mem_toList (h : symbol ∈ table.toList) :
    symbol.slot < table.size := by
  obtain ⟨hlt, -⟩ := Array.getElem?_eq_some_iff.mp (mem_toList.mp h)
  exact hlt

theorem mem_toList_of_find? (h : table.find? name = some symbol) : symbol ∈ table.toList := by
  rw [mem_toList, name_of_find? h]
  exact getElem?_slot h

theorem getElem?_toList {i : Nat} :
    table.toList[i]? = some symbol ↔ symbol.slot = i ∧ table.names[i]? = some symbol.name := by
  obtain ⟨name, slot⟩ := symbol
  simp only [toList, List.getElem?_map, List.getElem?_zipIdx, Array.getElem?_toList, Nat.zero_add]
  cases table.names[i]? <;> simp [eq_comm, and_comm]

theorem length_toList (table : SymbolTable) : table.toList.length = table.size := by
  simp [toList, size]

/-- In a table without repetition, a name has one slot and a slot has one name. -/
theorem name_eq_iff (h : table.names.toList.Nodup) {a b : Symbol}
    (ha : a ∈ table.toList) (hb : b ∈ table.toList) : a.name = b.name ↔ a.slot = b.slot := by
  have hfind := (find?_eq_some_iff h).mpr ⟨ha, rfl⟩
  have hfind' := (find?_eq_some_iff h).mpr ⟨hb, rfl⟩
  constructor
  · intro hname
    rw [hname, hfind'] at hfind
    rw [Option.some.inj hfind]
  · exact slot_injective hfind hfind'

end SixReg.SymbolTable
