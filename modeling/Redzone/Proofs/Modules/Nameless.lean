import Redzone.Proofs.Lawful

/-!
# Verifications that come to no end

The text of a finding names what it is about, so a verification looks up the names of the functions,
of the globals and of what the lists of constructors and destructors refer to.  It does so whether
or not it has something to report, and nothing keeps it from looking up a symbol that the table does
not have: at the first such symbol it stops (`Module.verify_returns_iff`).  Whatever else a module
refers to, it is looked at in a way that cannot fail.

`SymbolTable.Consults` says of a computation that it looks up some symbols in order and does nothing
else that can fail.  It is closed under sequences of computations, so it is enough to go through the
parts of a verification.
-/

namespace Redzone

namespace SymbolTable

variable {α β : Type} {table : SymbolTable} {symbol : SymbolId} {symbols others : List SymbolId}

/-- The first of some symbols that a table does not have. -/
def firstUnknown? (table : SymbolTable) (symbols : List SymbolId) : Option SymbolId :=
  symbols.find? fun symbol => !table.contains symbol

/-- A computation comes to an end if all of these symbols are in the table, and stops at the first
one that is not. -/
def Consults (table : SymbolTable) (symbols : List SymbolId) (step : Except Fault α) : Prop :=
  match table.firstUnknown? symbols with
  | none => ∃ a, step = .ok a
  | some symbol => step = .error (.noSymbol symbol)

theorem firstUnknown?_eq_none_iff :
    table.firstUnknown? symbols = none ↔ ∀ symbol ∈ symbols, table.contains symbol = true := by
  simp [firstUnknown?]

theorem consults_nil {step : Except Fault α} (h : ∃ a, step = .ok a) : table.Consults [] step := h

theorem consults_resolve (table : SymbolTable) (symbol : SymbolId) :
    table.Consults [symbol] (table.resolve symbol) := by
  unfold Consults
  cases hcontains : table.contains symbol with
  | true =>
      obtain ⟨name, hname⟩ := contains_iff.mp hcontains
      rw [firstUnknown?_eq_none_iff.mpr (by simpa using hcontains)]
      exact ⟨name, resolve_eq_ok_iff.mpr hname⟩
  | false =>
      have hnone : table.names[symbol]? = none := by
        rw [Option.eq_none_iff_forall_ne_some]
        intro name hname
        rw [contains_iff.mpr ⟨name, hname⟩] at hcontains
        cases hcontains
      have hfirst : table.firstUnknown? [symbol] = some symbol := by
        simp [firstUnknown?, hcontains]
      rw [hfirst]
      simp only [resolve, hnone]

/-- What comes behind a computation is only reached if all its symbols are in the table. -/
theorem Consults.bind {first : Except Fault α} {next : α → Except Fault β}
    (h : table.Consults symbols first)
    (hnext : (∀ symbol ∈ symbols, table.contains symbol = true) →
      ∀ a, table.Consults others (next a)) :
    table.Consults (symbols ++ others) (first >>= next) := by
  unfold Consults at h ⊢
  have happend : table.firstUnknown? (symbols ++ others) =
      (table.firstUnknown? symbols).or (table.firstUnknown? others) := List.find?_append
  cases hfirst : table.firstUnknown? symbols with
  | none =>
      rw [hfirst] at h
      obtain ⟨a, rfl⟩ := h
      rw [happend, hfirst, Option.none_or]
      exact hnext (firstUnknown?_eq_none_iff.mp hfirst) a
  | some symbol =>
      rw [hfirst] at h
      subst h
      rw [happend, hfirst, Option.some_or]
      rfl

theorem Consults.mapM {next : α → Except Fault β} {key : α → List SymbolId} {l : List α}
    (h : ∀ a ∈ l, table.Consults (key a) (next a)) :
    table.Consults (l.flatMap key) (l.mapM next) := by
  induction l with
  | nil => exact ⟨[], rfl⟩
  | cons a rest ih =>
      rw [List.forall_mem_cons] at h
      rw [List.flatMap_cons, List.mapM_cons]
      apply h.1.bind
      intro _ b
      rw [← List.append_nil (rest.flatMap key)]
      apply (ih h.2).bind
      exact fun _ bs => consults_nil ⟨_, rfl⟩

end SymbolTable

namespace Module

variable {m : Module}

/-- The symbols that a verification looks up, in order. -/
def namedSymbols (m : Module) : List SymbolId :=
  m.functions.toList.map Func.name ++
    ((m.ctors ++ m.dtors).map ListEntry.function ++ m.globals.toList.map Global.name)

/-- An entry that names a function is not looked up; a symbol that names a function is known. -/
theorem consults_verifyEntry (hnames : ∀ f ∈ m.functions, m.symbols.contains f.name = true)
    (entry : ListEntry) : m.symbols.Consults [entry.function] (m.verifyEntry entry) := by
  unfold verifyEntry
  split
  · rename_i id hid
    have hknown : m.symbols.contains entry.function = true := by
      obtain ⟨f, hf, heq⟩ : ∃ f ∈ m.functions, f.name = entry.function := by
        by_contra hnone
        rw [functionBySymbol_eq_none_iff.mpr fun f hf heq => hnone ⟨f, hf, heq⟩] at hid
        cases hid
      exact heq ▸ hnames f hf
    unfold SymbolTable.Consults
    rw [SymbolTable.firstUnknown?_eq_none_iff.mpr (by simpa using hknown)]
    exact ⟨_, rfl⟩
  · rw [← List.append_nil [entry.function]]
    apply (SymbolTable.consults_resolve m.symbols entry.function).bind
    exact fun _ name => SymbolTable.consults_nil ⟨_, rfl⟩

theorem consults_verifyGlobals (seen : List SymbolId) (globals : List Global) :
    m.symbols.Consults (globals.map Global.name) (m.verifyGlobals seen globals) := by
  induction globals generalizing seen with
  | nil => exact ⟨[], rfl⟩
  | cons g rest ih =>
      rw [List.map_cons, ← List.singleton_append, verifyGlobals]
      apply (SymbolTable.consults_resolve m.symbols g.name).bind
      intro _ name
      rw [← List.append_nil (rest.map Global.name)]
      apply (ih (g.name :: seen)).bind
      exact fun _ findings => SymbolTable.consults_nil ⟨_, rfl⟩

theorem exists_verify {f : Func} (hname : m.symbols.contains f.name = true)
    (hargs : f.ArgsInArena) : ∃ findings, f.verify m.symbols = .ok findings := by
  obtain ⟨name, hname⟩ := SymbolTable.contains_iff.mp hname
  rw [Func.verify, SymbolTable.resolve_eq_ok_iff.mpr hname, ok_bind]
  exact Func.exists_verifyBody m.symbols hargs name

theorem consults_verify (hargs : ∀ f ∈ m.functions, f.ArgsInArena) :
    m.symbols.Consults m.namedSymbols m.verify := by
  have hnames : m.symbols.Consults (m.functions.toList.map Func.name)
      (m.functions.toList.mapM fun f => m.resolve f.name) := by
    rw [List.map_eq_flatMap]
    exact SymbolTable.Consults.mapM fun f _ => SymbolTable.consults_resolve m.symbols f.name
  apply hnames.bind
  intro hknown names
  have hfunctions : ∀ f ∈ m.functions, m.symbols.contains f.name = true := fun f hf =>
    hknown _ (List.mem_map_of_mem (Array.mem_toList_iff.mpr hf))
  have hentries : m.symbols.Consults ((m.ctors ++ m.dtors).map ListEntry.function)
      ((m.ctors ++ m.dtors).mapM m.verifyEntry) := by
    rw [List.map_eq_flatMap]
    exact SymbolTable.Consults.mapM fun entry _ => consults_verifyEntry hfunctions entry
  apply hentries.bind
  intro _ entries
  rw [← List.append_nil (m.globals.toList.map Global.name)]
  apply (consults_verifyGlobals [] m.globals.toList).bind
  intro _ globals
  refine SymbolTable.consults_nil (exists_bind (exists_mapM fun f hf => ?_) fun functions =>
    ⟨_, rfl⟩)
  rw [Array.mem_toList_iff] at hf
  exact exists_verify (hfunctions f hf) (hargs f hf)

/-- If the contents of globals are not larger than memory, no sum that a verification forms of them
is, and it comes to an end exactly if the symbols that name functions, globals and entries of the
lists are known; all other references may lead nowhere.  If one of these symbols is not known, the
verification stops at the first that is not, and reports nothing. -/
theorem verify_returns_iff (m : Module) (hargs : ∀ f ∈ m.functions, f.ArgsInArena)
    (hsizes : ∀ g ∈ m.globals, ∀ init, g.init = some init → init.size < addressSpace) :
    (∀ g ∈ m.globals, ∀ front back, g.init = some (.fields (front ++ back)) →
        (Initializer.fields front).size < addressSpace) ∧
      ((∃ findings, m.verify = .ok findings) ↔
        ∀ symbol ∈ m.namedSymbols, ∃ name, m.symbols.names[symbol]? = some name) ∧
      ∀ fault, m.verify = .error fault ↔
        ∃ symbol, m.symbols.firstUnknown? m.namedSymbols = some symbol ∧
          fault = .noSymbol symbol := by
  have hconsults := consults_verify hargs
  refine ⟨fun g hg front back hinit => ?_, ?_⟩
  · have hsum := hsizes g hg _ hinit
    rw [Initializer.size_fields_append] at hsum
    exact (Nat.le_add_right _ _).trans_lt hsum
  simp only [← SymbolTable.contains_iff]
  rw [← SymbolTable.firstUnknown?_eq_none_iff]
  unfold SymbolTable.Consults at hconsults
  cases hfirst : m.symbols.firstUnknown? m.namedSymbols with
  | none =>
      rw [hfirst] at hconsults
      obtain ⟨findings, hverify⟩ := hconsults
      simp [hverify]
  | some symbol =>
      rw [hfirst] at hconsults
      have hverify : m.verify = .error (.noSymbol symbol) := hconsults
      simp [hverify, eq_comm]

/-- A module whose list of constructors has an entry that nothing names. -/
def stray : Module where
  name := "stray"
  symbols := (SymbolTable.empty.intern "boot").1
  functions := #[{ name := 0, params := [], ret := none }]
  ctors := [⟨1, 7⟩]

theorem verify_returns_stray :
    (∀ f ∈ stray.functions, f.ArgsInArena) ∧
      (∀ g ∈ stray.globals, ∀ init, g.init = some init → init.size < addressSpace) ∧
      (¬ ∃ findings, stray.verify = .ok findings) ∧
      stray.verify = .error (.noSymbol 7) := by
  have hargs : ∀ f ∈ stray.functions, f.ArgsInArena := by decide
  have hsizes : ∀ g ∈ stray.globals, ∀ init, g.init = some init → init.size < addressSpace := by
    simp [stray]
  obtain ⟨-, hreturns, hstops⟩ := verify_returns_iff stray hargs hsizes
  have hentry : 7 ∈ stray.namedSymbols := by decide
  have hunknown : ¬ ∃ name, stray.symbols.names[7]? = some name := by
    rintro ⟨name, hname⟩
    have hnone : stray.symbols.names[7]? = none := by decide
    rw [hnone] at hname
    cases hname
  refine ⟨hargs, hsizes, fun hfindings => hunknown (hreturns.mp hfindings 7 hentry), ?_⟩
  exact (hstops _).mpr ⟨7, by decide, rfl⟩

/-- Not every verification comes to an end. -/
theorem not_forall_verify_returns :
    ¬ ∀ m : Module, (∀ f ∈ m.functions, f.ArgsInArena) →
      (∀ g ∈ m.globals, ∀ init, g.init = some init → init.size < addressSpace) →
      ∃ findings, m.verify = .ok findings := by
  intro hreturns
  obtain ⟨findings, hfindings⟩ := hreturns stray (by decide) (by simp [stray])
  have hfault : stray.verify = .error (.noSymbol 7) := by cbv
  rw [hfault] at hfindings
  cases hfindings

end Module

end Redzone
