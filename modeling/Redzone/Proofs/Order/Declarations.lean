import Redzone.Proofs.Order.Emission
import Redzone.Proofs.Pipeline.Idempotent

/-!
# Declarations of routines

`declareAll` appends the declarations of those routines that a module does not have yet, each once
and with the signature that goes with its name.  So which declarations there are in the end depends
only on the names of the routines that were called, whatever the order of the calls was
(`RuntimeUses.appends_declareAll`).
-/

namespace Redzone

/-- A function is the declaration of a routine. -/
def Func.IsDeclarationOf (symbols : SymbolTable) (f : Func) (name : String) : Prop :=
  ∃ symbol, symbols.names[symbol]? = some name ∧
    f = { name := symbol
          params := (EntryPoint.signature name).params
          ret := (EntryPoint.signature name).ret }

theorem SymbolTable.intern_of_names {table : SymbolTable} {name : String} {symbol : SymbolId}
    (h : table.names[symbol]? = some name) : table.intern name = (table, symbol) := by
  have hget := SymbolTable.get?_eq_some_iff.mpr h
  unfold intern
  split
  · rename_i found hfound
    rw [Option.some.inj (hfound.symm.trans hget)]
  · rename_i hnone
    rw [hget] at hnone
    cases hnone

namespace Module

variable {m m' m₁ m₂ : Module} {name other : String} {params : List Ty} {ret : Option Ty}
  {routines more : List String}

/-- The names of the functions, in their order. -/
def functionNames (m : Module) : List (Option String) :=
  m.functions.toList.map fun f => m.symbols.names[f.name]?

/-- The symbols of functions are known. -/
def Named (m : Module) : Prop := ∀ f ∈ m.functions, ∃ name, m.symbols.names[f.name]? = some name

theorem named_iff : m.Named ↔ none ∉ m.functionNames := by
  simp only [Named, functionNames, List.mem_map, Array.mem_toList_iff, not_exists, not_and,
    ← Option.ne_none_iff_exists', ne_eq]

theorem some_mem_functionNames : some name ∈ m.functionNames ↔ m.HasFunction name := by
  simp only [HasFunction, functionNames, List.mem_map, Array.mem_toList_iff]

theorem isNone_functionByName_iff :
    (m.functionByName name).isNone = true ↔ ¬ m.HasFunction name := by
  rw [← isSome_functionByName_iff, Bool.not_eq_true, Option.isSome_eq_false_iff]

theorem Named.map_names (hnamed : m.Named) {symbols : SymbolTable} (h : m.symbols.GrowsTo symbols) :
    m.functions.toList.map (fun f => symbols.names[f.name]?) = m.functionNames := by
  refine List.map_congr_left fun f hf => ?_
  obtain ⟨name, hname⟩ := hnamed f (Array.mem_toList_iff.mp hf)
  rw [hname, h _ _ hname]

/-- Declarations of routines have been appended to a module. -/
structure AppendsRoutines (routines : List String) (m m' : Module) : Prop where
  rest : m' = { m with symbols := m'.symbols, functions := m'.functions }
  symbols : m.symbols.GrowsTo m'.symbols
  functions : ∃ added : List Func, m'.functions.toList = m.functions.toList ++ added ∧
    List.Forall₂ (Func.IsDeclarationOf m'.symbols) added routines

theorem forall₂_isDeclarationOf_mono {first second : SymbolTable} {added : List Func}
    (hgrows : first.GrowsTo second)
    (h : List.Forall₂ (Func.IsDeclarationOf first) added routines) :
    List.Forall₂ (Func.IsDeclarationOf second) added routines := by
  refine h.imp fun f name hf => ?_
  obtain ⟨symbol, hsymbol, heq⟩ := hf
  exact ⟨symbol, hgrows _ _ hsymbol, heq⟩

theorem map_names_of_isDeclarationOf {symbols : SymbolTable} {added : List Func}
    (h : List.Forall₂ (Func.IsDeclarationOf symbols) added routines) :
    added.map (fun f => symbols.names[f.name]?) = routines.map some := by
  induction h with
  | nil => rfl
  | cons hf _ ih =>
      obtain ⟨symbol, hsymbol, rfl⟩ := hf
      rw [List.map_cons, List.map_cons, ih, hsymbol]

namespace AppendsRoutines

theorem refl (m : Module) : AppendsRoutines [] m m :=
  ⟨rfl, .refl _, [], (List.append_nil _).symm, .nil⟩

theorem trans (h : AppendsRoutines routines m m₁) (h' : AppendsRoutines more m₁ m₂) :
    AppendsRoutines (routines ++ more) m m₂ where
  rest := by rw [h'.rest, h.rest]
  symbols := h.symbols.trans h'.symbols
  functions := by
    obtain ⟨added, hadded, hroutines⟩ := h.functions
    obtain ⟨added', hadded', hmore⟩ := h'.functions
    refine ⟨added ++ added', by rw [hadded', hadded, List.append_assoc], ?_⟩
    exact List.rel_append (forall₂_isDeclarationOf_mono h'.symbols hroutines) hmore

theorem functionNames_eq (h : AppendsRoutines routines m m') (hnamed : m.Named) :
    m'.functionNames = m.functionNames ++ routines.map some := by
  obtain ⟨added, hadded, hroutines⟩ := h.functions
  rw [functionNames, hadded, List.map_append, hnamed.map_names h.symbols,
    map_names_of_isDeclarationOf hroutines]

theorem hasFunction (h : AppendsRoutines routines m m') (hnamed : m.Named) :
    m'.HasFunction other ↔ m.HasFunction other ∨ other ∈ routines := by
  rw [← some_mem_functionNames, h.functionNames_eq hnamed, List.mem_append, some_mem_functionNames,
    List.mem_map_of_injective (Option.some_injective _)]

theorem named (h : AppendsRoutines routines m m') (hnamed : m.Named) : m'.Named := by
  rw [named_iff, h.functionNames_eq hnamed, List.mem_append, not_or]
  exact ⟨named_iff.mp hnamed, by simp⟩

end AppendsRoutines

/-! ### One routine -/

theorem hasFunction_iff_symbol (hnamed : m.Named) :
    m.HasFunction name ↔ (m.functionBySymbol (m.symbols.intern name).2).isSome = true := by
  rw [functionBySymbol, Array.findIdx?_isSome, Array.any_eq_true']
  simp only [decide_eq_true_eq]
  constructor
  · rintro ⟨f, hf, hname⟩
    exact ⟨f, hf, by rw [SymbolTable.intern_of_names hname]⟩
  · rintro ⟨f, hf, hsymbol⟩
    obtain ⟨found, hfound⟩ := hnamed f hf
    have hgrown := m.symbols.growsTo_intern name _ _ hfound
    rw [hsymbol, SymbolTable.names_intern] at hgrown
    exact ⟨f, hf, hfound.trans hgrown.symm⟩

theorem symbols_declare : (m.declare name params ret).1.symbols = (m.symbols.intern name).1 := by
  rcases m.declare_cases name params ret with h | ⟨h, -⟩ <;> rw [h] <;> rfl

theorem appends_declare (hnamed : m.Named) (name : String) :
    AppendsRoutines (if (m.functionByName name).isNone then [name] else []) m
      (m.declare name (EntryPoint.signature name).params (EntryPoint.signature name).ret).1 := by
  have hfound : (m.functionByName name).isNone = true ↔
      (m.functionBySymbol (m.symbols.intern name).2) = none := by
    rw [isNone_functionByName_iff, hasFunction_iff_symbol hnamed, Bool.not_eq_true,
      Option.isSome_eq_false_iff, Option.isNone_iff_eq_none]
  unfold declare
  cases hsymbol : m.functionBySymbol (m.symbols.intern name).2 with
  | none =>
      rw [if_pos (hfound.mpr hsymbol)]
      have hnone : (m.intern name).1.functionBySymbol (m.intern name).2 = none := hsymbol
      simp only [hnone]
      refine ⟨rfl, m.symbols.growsTo_intern name, [_], Array.toList_push, ?_⟩
      exact .cons ⟨_, m.symbols.names_intern name, rfl⟩ .nil
  | some id =>
      have hsome : (m.intern name).1.functionBySymbol (m.intern name).2 = some id := hsymbol
      simp only [hsome]
      rw [if_neg (by rw [hfound, hsymbol]; nofun)]
      exact ⟨rfl, m.symbols.growsTo_intern name, [], (List.append_nil _).symm, .nil⟩

end Module

/-! ### All routines that are called -/

namespace RuntimeUses

variable {uses : RuntimeUses} {m m' : Module} {name : String}

/-- The names of the routines that are called. -/
def names (uses : RuntimeUses) : List String := uses.routines.entries.map Prod.fst

/-- The routines that a module does not have yet. -/
def missing (uses : RuntimeUses) (m : Module) : List String :=
  uses.names.filter fun name => (m.functionByName name).isNone

theorem mem_missing : name ∈ uses.missing m ↔ uses.Has name ∧ ¬ m.HasFunction name := by
  rw [missing, List.mem_filter, Module.isNone_functionByName_iff]
  rfl

theorem missing_cons {signature : Signature} {rest : List (String × Signature)} :
    missing ⟨⟨(name, signature) :: rest⟩⟩ m =
      (if (m.functionByName name).isNone then [name] else []) ++ missing ⟨⟨rest⟩⟩ m := by
  rw [missing, names, List.map_cons, List.filter_cons]
  split <;> rfl

/-- Declarations of other routines do not change what is missing. -/
theorem missing_of_appends {routines : List String} (h : Module.AppendsRoutines routines m m')
    (hnamed : m.Named) (hother : ∀ name, uses.Has name → name ∉ routines) :
    uses.missing m' = uses.missing m := by
  refine List.filter_congr fun name hname => ?_
  rw [Bool.eq_iff_iff, Module.isNone_functionByName_iff, Module.isNone_functionByName_iff,
    h.hasFunction hnamed, or_iff_left (hother name hname)]

theorem symbols_declareAll : (uses.declareAll m).symbols = m.symbols.internAll uses.names := by
  obtain ⟨⟨entries⟩⟩ := uses
  induction entries generalizing m with
  | nil => rfl
  | cons entry rest ih =>
      exact (ih (m := (m.declare entry.1 entry.2.params entry.2.ret).1)).trans
        (congrArg (SymbolTable.internAll · _) Module.symbols_declare)

/-- The routines that are missing are declared, and nothing else happens. -/
theorem appends_declareAll (hregular : uses.Regular) (hnamed : m.Named) :
    Module.AppendsRoutines (uses.missing m) m (uses.declareAll m) := by
  obtain ⟨⟨entries⟩⟩ := uses
  obtain ⟨hnodup, hsignature⟩ := hregular
  dsimp only at hnodup hsignature
  induction entries generalizing m with
  | nil => exact .refl m
  | cons entry rest ih =>
      obtain ⟨name, signature⟩ := entry
      rw [List.map_cons, List.nodup_cons] at hnodup
      rw [List.forall_mem_cons] at hsignature
      obtain ⟨hentry, hsignature⟩ := hsignature
      dsimp only at hnodup hentry
      subst hentry
      have hone := Module.appends_declare hnamed name
      have hothers := ih (hone.named hnamed) hnodup.2 hsignature
      have hother : ∀ other, Has ⟨⟨rest⟩⟩ other →
          other ∉ if (m.functionByName name).isNone then [name] else [] := by
        intro other hother
        split
        · rw [List.mem_singleton]
          exact fun heq => hnodup.1 (heq ▸ hother)
        · exact List.not_mem_nil
      rw [missing_cons, ← missing_of_appends hone hnamed hother]
      exact hone.trans hothers

end RuntimeUses

end Redzone
