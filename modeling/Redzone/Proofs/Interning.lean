import Redzone.Proofs.Order.Declarations

/-!
# Names and numbers

However many names are made known, the numbers of a table and its names are in bijection, a number
keeps its name, and a name that is known changes nothing (`SymbolTable.Bijective`,
`SymbolTable.Learns`).

A table that is to answer fast keeps an index of its names.  `IndexedTable` does, with two
structures that have to be kept in step: `IndexedTable.Inverse` says that they are inverse to each
other, which every new name keeps, so that the index answers like a search through the names
(`IndexedTable.Mirrors`).

What is looked up by name in a module is therefore found exactly if it is there, and a declaration
never makes a second function of its name (`SymbolTable.Finds`, `Module.DeclaredOnce`).
-/

namespace Redzone

/-! ### What interning does -/

namespace SymbolTable

variable {table : SymbolTable} {name : String}

theorem intern_of_new (h : table.get? name = none) :
    (table.intern name).2 = table.size ∧ (table.intern name).1.names = table.names.push name := by
  unfold intern
  split
  · rename_i symbol hsymbol
    rw [h] at hsymbol
    cases hsymbol
  · exact ⟨rfl, rfl⟩

theorem resolve_intern_iff {symbol : SymbolId} :
    (table.intern name).1.resolve symbol = .ok name ↔ symbol = (table.intern name).2 := by
  have hname := table.names_intern name
  rw [resolve_eq_ok_iff]
  exact ⟨fun h => eq_of_names h hname, fun h => h ▸ hname⟩

end SymbolTable

/-! ### Tables with an index -/

/-- The names of a module in the order of their numbers, and the number of every name. -/
structure IndexedTable where
  names : Array String := #[]
  index : Std.HashMap String SymbolId := ∅

namespace IndexedTable

/-- The number of `name`, which gets the next free one if it is new. -/
def intern (table : IndexedTable) (name : String) : IndexedTable × SymbolId :=
  match table.index[name]? with
  | some symbol => (table, symbol)
  | none =>
      ({ names := table.names.push name, index := table.index.insert name table.names.size },
        table.names.size)

/-- The table when some names have been made known, one after the other. -/
def internAll (table : IndexedTable) (names : List String) : IndexedTable :=
  names.foldl (fun table name => (table.intern name).1) table

/-- The names and the index are inverse to each other. -/
def Inverse (table : IndexedTable) : Prop :=
  ∀ (name : String) (symbol : SymbolId),
    table.index[name]? = some symbol ↔ table.names[symbol]? = some name

variable {indexed : IndexedTable} {table : SymbolTable} {name : String}

/-- A new name is entered into both structures. -/
theorem Inverse.intern (h : indexed.Inverse) (name : String) : (indexed.intern name).1.Inverse := by
  unfold IndexedTable.intern
  split
  · exact h
  · rename_i hnew
    intro other symbol
    simp only [Std.HashMap.getElem?_insert, Array.getElem?_push, beq_iff_eq]
    by_cases hother : name = other
    · subst hother
      -- the name had no number, so that no old number stands for it
      have hold : indexed.names[symbol]? ≠ some name := by
        rw [ne_eq, ← h, hnew]
        simp
      by_cases hsymbol : symbol = indexed.names.size
      · simp [hsymbol]
      · simp [hsymbol, hold, Ne.symm hsymbol]
    · by_cases hsymbol : symbol = indexed.names.size
      · have hnone : indexed.index[other]? ≠ some symbol := by
          rw [ne_eq, h, hsymbol]
          simp
        simp [hother, hsymbol, hsymbol ▸ hnone]
      · simp [hother, hsymbol, h other symbol]

/-- A table and an index answer alike. -/
structure Mirrors (indexed : IndexedTable) (table : SymbolTable) : Prop where
  names : indexed.names = table.names
  inverse : indexed.Inverse

namespace Mirrors

theorem get?_eq (h : indexed.Mirrors table) (name : String) :
    indexed.index[name]? = table.get? name := by
  ext symbol
  rw [h.inverse name symbol, h.names, SymbolTable.get?_eq_some_iff]

/-- They give a name the same number, and answer alike afterwards. -/
theorem intern (h : indexed.Mirrors table) (name : String) :
    (indexed.intern name).2 = (table.intern name).2 ∧
      (indexed.intern name).1.Mirrors (table.intern name).1 := by
  have hinverse := h.inverse.intern name
  cases hget : table.get? name with
  | some symbol =>
      have hknown := SymbolTable.intern_of_names (SymbolTable.get?_eq_some_iff.mp hget)
      have hindexed : indexed.intern name = (indexed, symbol) := by
        rw [IndexedTable.intern, h.get?_eq, hget]
      rw [hknown, hindexed]
      exact ⟨rfl, h⟩
  | none =>
      obtain ⟨hnumber, hnames⟩ := SymbolTable.intern_of_new hget
      have hindexed : indexed.intern name =
          (⟨indexed.names.push name, indexed.index.insert name indexed.names.size⟩,
            indexed.names.size) := by
        rw [IndexedTable.intern, h.get?_eq, hget]
      rw [hindexed] at hinverse ⊢
      exact ⟨by rw [hnumber, h.names, SymbolTable.size], ⟨by rw [hnames, h.names], hinverse⟩⟩

theorem internAll (h : indexed.Mirrors table) (names : List String) :
    (indexed.internAll names).Mirrors (table.internAll names) := by
  induction names generalizing indexed table with
  | nil => exact h
  | cons name rest ih => exact ih (h.intern name).2

end Mirrors

theorem mirrors_empty : ({} : IndexedTable).Mirrors .empty := ⟨rfl, fun name symbol => by simp⟩

end IndexedTable

/-! ### Looking up by name -/

namespace SymbolTable

/-- Of some entries that are named by symbols, one called `name` is found if there is one. -/
structure Finds {α : Type} (table : SymbolTable) (symbol : α → SymbolId) (entries : Array α)
    (name : String) (found : Option Nat) : Prop where
  isSome_iff : found.isSome = true ↔ ∃ entry ∈ entries, table.resolve (symbol entry) = .ok name
  named : ∀ id, found = some id →
    ∃ entry, entries[id]? = some entry ∧ table.resolve (symbol entry) = .ok name

/-- A name is looked up by its number. -/
theorem finds_findIdx? {α : Type} (table : SymbolTable) (symbol : α → SymbolId) (entries : Array α)
    (name : String) :
    table.Finds symbol entries name
      ((table.get? name).bind fun known => entries.findIdx? fun entry => symbol entry = known) := by
  have hnamed : ∀ id, ((table.get? name).bind fun known =>
      entries.findIdx? fun entry => symbol entry = known) = some id →
        ∃ entry, entries[id]? = some entry ∧ table.resolve (symbol entry) = .ok name := by
    intro id hid
    obtain ⟨known, hknown, hid⟩ := Option.bind_eq_some_iff.mp hid
    obtain ⟨hlt, heq, -⟩ := Array.findIdx?_eq_some_iff_getElem.mp hid
    refine ⟨entries[id], Array.getElem?_eq_getElem hlt, ?_⟩
    rw [of_decide_eq_true heq, resolve_eq_ok_iff, ← get?_eq_some_iff, hknown]
  refine ⟨⟨fun hsome => ?_, ?_⟩, hnamed⟩
  · obtain ⟨id, hid⟩ := Option.isSome_iff_exists.mp hsome
    obtain ⟨entry, hentry, hname⟩ := hnamed id hid
    exact ⟨entry, Array.mem_of_getElem? hentry, hname⟩
  · rintro ⟨entry, hentry, hname⟩
    rw [get?_eq_some_iff.mpr (resolve_eq_ok_iff.mp hname), Option.bind_some, Array.findIdx?_isSome,
      Array.any_eq_true']
    exact ⟨entry, hentry, by simp⟩

end SymbolTable

namespace Module

variable {m : Module} {name : String} {params : List Ty} {ret : Option Ty}

theorem declare_of_some {id : FuncId} (h : m.functionBySymbol (m.symbols.intern name).2 = some id) :
    m.declare name params ret = m.intern name := by
  have hfound : (m.intern name).1.functionBySymbol (m.intern name).2 = some id := h
  unfold declare
  simp only [hfound]

theorem declare_of_none (h : m.functionBySymbol (m.symbols.intern name).2 = none) :
    m.declare name params ret = (((m.intern name).1.addFunction
      { name := (m.intern name).2, params := params, ret := ret }).1, (m.intern name).2) := by
  have hnone : (m.intern name).1.functionBySymbol (m.intern name).2 = none := h
  unfold declare
  simp only [hnone]

/-- A declaration of `name`, which has the number `symbol` then, is added exactly if no function has
that name. -/
structure DeclaredOnce (m m' : Module) (name : String) (symbol : SymbolId) : Prop where
  named : m'.resolve symbol = .ok name
  functions : (m'.functions = m.functions ∧ ∃ f ∈ m.functions, m'.resolve f.name = .ok name) ∨
    (∀ f ∈ m.functions, m'.resolve f.name ≠ .ok name) ∧
      ∃ f, m'.functions = m.functions.push f ∧ f.name = symbol ∧ f.isDeclaration = true
  nodup : (m.functions.map Func.name).toList.Nodup → (m'.functions.map Func.name).toList.Nodup

theorem declaredOnce (m : Module) (name : String) (params : List Ty) (ret : Option Ty) :
    m.DeclaredOnce (m.declare name params ret).1 name (m.declare name params ret).2 := by
  have hnamed : ∀ symbol, (m.intern name).1.resolve symbol = .ok name ↔
      symbol = (m.intern name).2 := fun symbol => SymbolTable.resolve_intern_iff
  cases hfound : m.functionBySymbol (m.symbols.intern name).2 with
  | some id =>
      rw [declare_of_some hfound]
      obtain ⟨hlt, heq, -⟩ := Array.findIdx?_eq_some_iff_getElem.mp hfound
      refine ⟨(hnamed _).mpr rfl, .inl ⟨rfl, m.functions[id], Array.getElem_mem hlt, ?_⟩,
        fun h => h⟩
      exact (hnamed _).mpr (of_decide_eq_true heq)
  | none =>
      rw [declare_of_none hfound]
      have hother : ∀ f ∈ m.functions, f.name ≠ (m.intern name).2 :=
        functionBySymbol_eq_none_iff.mp hfound
      refine ⟨(hnamed _).mpr rfl, .inr ⟨fun f hf h => ?_, _, rfl, rfl, rfl⟩, fun hnodup => ?_⟩
      · exact hother f hf ((hnamed f.name).mp h)
      · have hnew : (m.intern name).2 ∉ (m.functions.map Func.name).toList := by
          simpa using hother
        change ((m.functions.push _).map Func.name).toList.Nodup
        rw [Array.map_push, Array.toList_push]
        exact List.nodup_append_comm.mp (List.nodup_cons.mpr ⟨hnew, hnodup⟩)

end Module

/-! ### Histories -/

namespace SymbolTable

variable {table : SymbolTable} {name : String}

/-- The numbers below the size of a table and its names are in bijection. -/
structure Bijective (table : SymbolTable) : Prop where
  get?_resolve : ∀ symbol < table.size,
    ∃ name, table.resolve symbol = .ok name ∧ table.get? name = some symbol
  resolve_get? : ∀ name symbol, table.get? name = some symbol →
    symbol < table.size ∧ table.resolve symbol = .ok name
  distinct : ∀ symbol other name, table.resolve symbol = .ok name → table.resolve other = .ok name →
    symbol = other

theorem bijective (table : SymbolTable) : table.Bijective where
  get?_resolve symbol hlt := by
    have hname : table.names[symbol]? = some table.names[symbol] := Array.getElem?_eq_getElem hlt
    exact ⟨_, resolve_eq_ok_iff.mpr hname, get?_eq_some_iff.mpr hname⟩
  resolve_get? name symbol h := by
    have hname := get?_eq_some_iff.mp h
    exact ⟨(Array.getElem?_eq_some_iff.mp hname).1, resolve_eq_ok_iff.mpr hname⟩
  distinct symbol other name h h' :=
    eq_of_names (resolve_eq_ok_iff.mp h) (resolve_eq_ok_iff.mp h')

/-- What a table learns when a name is made known: nothing if it knows the name, and else that the
next number stands for it. -/
structure Learns (table : SymbolTable) (name : String) : Prop where
  number : (table.intern name).1.get? name = some (table.intern name).2
  known : ∀ symbol, table.get? name = some symbol → table.intern name = (table, symbol)
  new : table.get? name = none →
    (table.intern name).2 = table.size ∧ (table.intern name).1.size = table.size + 1

theorem learns (table : SymbolTable) (name : String) : table.Learns name where
  number := get?_eq_some_iff.mpr (table.names_intern name)
  known symbol h := intern_of_names (get?_eq_some_iff.mp h)
  new h := by
    obtain ⟨hnumber, hnames⟩ := intern_of_new h
    exact ⟨hnumber, by rw [size, hnames, Array.size_push, size]⟩

theorem growsTo_internAll (table : SymbolTable) (names : List String) :
    table.GrowsTo (table.internAll names) := by
  induction names generalizing table with
  | nil => exact .refl table
  | cons name rest ih => exact (table.growsTo_intern name).trans (ih _)

theorem isSome_get?_iff : (table.get? name).isSome = true ↔ name ∈ table.names := by
  rw [get?, List.isSome_idxOf?, Array.mem_toList_iff]

/-- Whatever names are made known, numbers and names stay in bijection and a number keeps its name,
an index of the names stays inverse to them, and what is looked up or declared by name is there
once. -/
theorem internAll_bijective (names more : List String) :
    (empty.internAll names).Bijective ∧
      (∀ name, ((empty.internAll names).get? name).isSome = true ↔ name ∈ names) ∧
      (({} : IndexedTable).internAll names).Mirrors (empty.internAll names) ∧
      (∀ name, (({} : IndexedTable).internAll names).index[name]? =
        (empty.internAll names).get? name ∧
        ((({} : IndexedTable).internAll names).intern name).2 =
          ((empty.internAll names).intern name).2) ∧
      (∀ symbol name, (empty.internAll names).resolve symbol = .ok name →
        (empty.internAll (names ++ more)).resolve symbol = .ok name) ∧
      (∀ name, (empty.internAll names).Learns name) ∧
      (∀ (m : Module) (name : String),
        m.symbols.Finds Func.name m.functions name (m.functionByName name) ∧
          m.symbols.Finds Global.name m.globals name (m.globalByName name)) ∧
      ∀ (m : Module) (name : String) (params : List Ty) (ret : Option Ty),
        m.DeclaredOnce (m.declare name params ret).1 name (m.declare name params ret).2 := by
  have hmirrors := IndexedTable.mirrors_empty.internAll names
  refine ⟨bijective _, fun name => ?_, hmirrors,
    fun name => ⟨hmirrors.get?_eq name, (hmirrors.intern name).1⟩, fun symbol name h => ?_,
    fun name => learns _ name, fun m name => ⟨?_, ?_⟩, Module.declaredOnce⟩
  · rw [isSome_get?_iff, mem_names_internAll]
    simp [empty]
  · rw [internAll_append, resolve_eq_ok_iff]
    exact growsTo_internAll _ more symbol name (resolve_eq_ok_iff.mp h)
  · exact finds_findIdx? m.symbols Func.name m.functions name
  · exact finds_findIdx? m.symbols Global.name m.globals name

end SymbolTable

end Redzone
