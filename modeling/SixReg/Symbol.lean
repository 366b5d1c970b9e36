/-!
# Symbol tables

A table numbers variables in the order of their first declaration. The number of a variable is
its slot, the address at which the machine keeps its value.
-/

namespace SixReg

/-- A variable with its slot. -/
structure Symbol where
  name : String
  slot : Nat
deriving DecidableEq, Repr, Inhabited

/-- The variables declared so far; the slot of a variable is its index. -/
structure SymbolTable where
  names : Array String
deriving DecidableEq, Repr, Inhabited

namespace SymbolTable

/-- The table without variables. -/
def empty : SymbolTable := ⟨#[]⟩

/-- The number of variables. -/
def size (table : SymbolTable) : Nat := table.names.size

/-- The variable with the given name. -/
def find? (table : SymbolTable) (name : String) : Option Symbol :=
  (table.names.idxOf? name).map fun slot => ⟨name, slot⟩

/-- What a declaration did to a table. -/
inductive Declared where
  /-- The name was new and got the next slot. -/
  | new (symbol : Symbol)
  /-- The name was there already. -/
  | existing (symbol : Symbol)
deriving DecidableEq, Repr, Inhabited

/-- Declares a name. A name that is there already keeps its slot. -/
def declare (table : SymbolTable) (name : String) : Declared × SymbolTable :=
  match table.find? name with
  | some symbol => (.existing symbol, table)
  | none => (.new ⟨name, table.size⟩, ⟨table.names.push name⟩)

theorem find?_eq_none_iff (table : SymbolTable) (name : String) :
    table.find? name = none ↔ name ∉ table.names := by
  simp [find?, Array.idxOf?_eq_none_iff]

/-- The variables in the order of their slots. -/
def toList (table : SymbolTable) : List Symbol :=
  table.names.toList.zipIdx.map fun (name, slot) => ⟨name, slot⟩

end SymbolTable

end SixReg
