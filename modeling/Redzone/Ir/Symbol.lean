import Redzone.Ir.Function

/-!
# Symbol tables

A module names its functions and globals by number.  The table hands out numbers in the order in
which names are first seen, and no name ever gets two.
-/

namespace Redzone

/-- The names of a module, each once, in the order of their numbers. -/
structure SymbolTable where
  names : Array String
  nodup : names.toList.Nodup

instance : DecidableEq SymbolTable := fun a b =>
  match decEq a.names b.names with
  | isTrue h => isTrue (by cases a; cases b; cases h; rfl)
  | isFalse h => isFalse fun heq => h (heq ▸ rfl)

namespace SymbolTable

def empty : SymbolTable := ⟨#[], List.nodup_nil⟩

def size (table : SymbolTable) : Nat := table.names.size

def get? (table : SymbolTable) (name : String) : Option SymbolId :=
  table.names.toList.idxOf? name

def resolve (table : SymbolTable) (symbol : SymbolId) : Except Fault String :=
  match table.names[symbol]? with
  | some name => .ok name
  | none => .error (.noSymbol symbol)

/-- Whether the table has handed out a number. -/
def contains (table : SymbolTable) (symbol : SymbolId) : Bool := symbol < table.size

theorem not_mem_of_get?_eq_none {table : SymbolTable} {name : String}
    (h : table.get? name = none) : name ∉ table.names.toList := by
  simpa [get?, List.idxOf?_eq_none_iff] using h

/-- The number of `name`, which gets the next free one if it is new. -/
def intern (table : SymbolTable) (name : String) : SymbolTable × SymbolId :=
  match h : table.get? name with
  | some symbol => (table, symbol)
  | none =>
      (⟨table.names.push name, by
          rw [Array.toList_push]
          refine List.nodup_append.mpr ⟨table.nodup, by simp, ?_⟩
          intro a ha b hb
          rw [List.mem_singleton] at hb
          rintro rfl
          exact not_mem_of_get?_eq_none h (hb ▸ ha)⟩,
        table.names.size)

end SymbolTable

end Redzone
