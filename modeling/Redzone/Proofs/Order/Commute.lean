import Redzone.Proofs.Order.Run

/-!
# The order of functions does not matter

Two functions of a module can be instrumented in either order.  The modules that come out differ in
the numbers of symbols and in the order of what was appended, and in nothing else: `Module.Matches`
compares them by what is seen when every number is resolved to its name.

A run is known by its effect on the module: one function is replaced, a description may be appended,
and the routines that are missing are declared.  `Yields` says that a module is what such effects
leave, and two effects, one after the other, yield both (`Effect.yields_both`).  Which routines are
missing depends on the order, but those that are declared in the end do not
(`Effect.perm_missing`).  That a run does the same to its function whether it comes first or second
is a hypothesis of `Effect.matches_of`; it holds because the drafts of the two orders stay alike
(`Draft.Alike`).
-/

namespace Redzone

/-! ### What is seen with names in place of numbers -/

/-- A function with names in place of the numbers of symbols. -/
structure FuncView where
  name : Option String
  /-- The function without numbers of symbols. -/
  code : Func
  /-- The names that the listed instructions refer to. -/
  references : List (Option String)

namespace Func

/-- The name that an instruction refers to. -/
def reference (symbols : SymbolTable) (f : Func) (i : InstId) : Option String := do
  let instruction ← f.insts[i]?
  let symbol ← instruction.op.symbol?
  symbols.names[symbol]?

def view (symbols : SymbolTable) (f : Func) : FuncView where
  name := symbols.names[f.name]?
  code := { f.erased with name := 0 }
  references := f.listed.map (f.reference symbols)

variable {f g : Func} {first second : SymbolTable}

theorem Alike.reference (h : f.Alike first second g) {i : InstId} (hi : i ∈ f.listed) :
    g.reference second i = f.reference first i := by
  unfold Func.reference
  have hget := congrArg (fun k : Func => k.insts[i]?) h.erased
  simp only [getElem?_insts_erased] at hget
  cases hinst : f.insts[i]? with
  | none =>
      rw [hinst, Option.map_none, Option.map_eq_none_iff] at hget
      rw [hget]
      rfl
  | some instruction =>
      rw [hinst, Option.map_some] at hget
      obtain ⟨instruction', hinst', -⟩ := Option.map_eq_some_iff.mp hget
      have hop := h.code i hi instruction instruction' hinst hinst'
      rw [hinst']
      simp only [Option.bind_eq_bind, Option.bind_some]
      generalize instruction.op = op, instruction'.op = op' at hop
      cases hop with
      | plain hplain => simp only [hplain, Option.bind_none]
      | symbol hsame =>
          obtain ⟨name, hname, hname'⟩ := hsame
          simp only [Op.symbol?, Option.bind_some, hname, hname']

/-- Functions that are alike look the same. -/
theorem Alike.view (h : f.Alike first second g) : g.view second = f.view first := by
  obtain ⟨name, hname, hname'⟩ := h.named
  have hlisted : g.listed = f.listed := by
    unfold Func.listed
    rw [h.blocks]
  simp only [Func.view, hname, hname', h.erased, hlisted, FuncView.mk.injEq, true_and]
  exact List.map_congr_left fun i hi => h.reference hi

end Func

/-- A global with its name in place of the number.  Its contents are compared as they are. -/
def Global.view (symbols : SymbolTable) (g : Global) : Option String × Global :=
  (symbols.names[g.name]?, { g with name := 0 })

theorem Global.Alike.view {first second : SymbolTable} {g g' : Global}
    (h : g.Alike first second g') : g'.view second = g.view first := by
  obtain ⟨name, hname, hname'⟩ := h.named
  rw [Global.view, Global.view, hname, hname', h.rest]

/-- The declaration of a routine. -/
def EntryPoint.declaration (name : String) : FuncView where
  name := some name
  code := { name := 0, params := (signature name).params, ret := (signature name).ret }
  references := []

theorem map_view_of_isDeclarationOf {symbols : SymbolTable} {added : List Func}
    {routines : List String} (h : List.Forall₂ (Func.IsDeclarationOf symbols) added routines) :
    added.map (Func.view symbols) = routines.map EntryPoint.declaration := by
  induction h with
  | nil => rfl
  | cons hf _ ih =>
      obtain ⟨symbol, hsymbol, rfl⟩ := hf
      rw [List.map_cons, List.map_cons, ih, Func.view, hsymbol]
      simp [EntryPoint.declaration, Func.erased, Func.listed]

namespace Module

/-- Two modules that have become of `m` are the same but for the numbers of symbols and the order of
what was appended. -/
structure Matches (m m₁ m₂ : Module) : Prop where
  rest : m₂ = { m₁ with symbols := m₂.symbols, functions := m₂.functions, globals := m₂.globals }
  /-- Old names keep their numbers. -/
  symbols : m.symbols.GrowsTo m₁.symbols ∧ m.symbols.GrowsTo m₂.symbols
  names : m₁.symbols.names.toList.Perm m₂.symbols.names.toList
  size : m.functions.size ≤ m₁.functions.size ∧ m.functions.size ≤ m₂.functions.size
  functions : (m₁.functions.toList.take m.functions.size).map (Func.view m₁.symbols) =
    (m₂.functions.toList.take m.functions.size).map (Func.view m₂.symbols)
  declarations : ((m₁.functions.toList.drop m.functions.size).map (Func.view m₁.symbols)).Perm
    ((m₂.functions.toList.drop m.functions.size).map (Func.view m₂.symbols))
  globals : m.globals.toList <+: m₁.globals.toList ∧ m.globals.toList <+: m₂.globals.toList
  descriptions : ((m₁.globals.toList.drop m.globals.size).map (Global.view m₁.symbols)).Perm
    ((m₂.globals.toList.drop m.globals.size).map (Global.view m₂.symbols))

variable {config : Config} {m m' m₁ m₂ : Module} {id i j : FuncId} {store : Annotations}
  {d d' e : Draft} {description : Option Global}

/-! ### What runs leave -/

/-- A module that runs over functions leave: these functions and these globals are there, and
routines are declared. -/
structure Yields (m : Module) (functions : List Func) (descriptions : List Global)
    (routines : List String) (m' : Module) : Prop where
  rest : m' = { m with symbols := m'.symbols, functions := m'.functions, globals := m'.globals }
  symbols : m.symbols.GrowsTo m'.symbols
  functions : ∃ added : List Func, m'.functions.toList = functions ++ added ∧
    List.Forall₂ (Func.IsDeclarationOf m'.symbols) added routines
  globals : m'.globals.toList = m.globals.toList ++ descriptions

namespace Effect

theorem functionNames_put (h : Effect m id d description m') (hnamed : m.Named) :
    (m.put id d description).functionNames = m.functionNames := by
  obtain ⟨f, hf, hname⟩ := h.function
  have hset : (m.functions.setIfInBounds id d.func).toList.map (fun f => d.symbols.names[f.name]?) =
      m.functions.toList.map fun f => d.symbols.names[f.name]? := by
    obtain ⟨hlt, rfl⟩ := Array.getElem?_eq_some_iff.mp hf
    have hlength : id < (m.functions.toList.map fun f => d.symbols.names[f.name]?).length := by
      rwa [List.length_map, Array.length_toList]
    have hget : d.symbols.names[d.func.name]? =
        (m.functions.toList.map fun f => d.symbols.names[f.name]?)[id] := by
      rw [hname, List.getElem_map, Array.getElem_toList]
    rw [Array.toList_setIfInBounds, List.map_set, hget, List.set_getElem_self]
  rw [← hnamed.map_names h.symbols, ← hset]
  rfl

theorem named_put (h : Effect m id d description m') (hnamed : m.Named) :
    (m.put id d description).Named := by
  rw [named_iff, h.functionNames_put hnamed]
  exact named_iff.mp hnamed

theorem appends (h : Effect m id d description m') (hnamed : m.Named) :
    AppendsRoutines (d.uses.missing (m.put id d description)) (m.put id d description) m' := by
  rw [h.result]
  exact RuntimeUses.appends_declareAll h.regular (h.named_put hnamed)

theorem named (h : Effect m id d description m') (hnamed : m.Named) : m'.Named :=
  (h.appends hnamed).named (h.named_put hnamed)

theorem mem_missing (h : Effect m id d description m') (hnamed : m.Named) {name : String} :
    name ∈ d.uses.missing (m.put id d description) ↔ d.uses.Has name ∧ ¬ m.HasFunction name := by
  rw [RuntimeUses.mem_missing, ← some_mem_functionNames, h.functionNames_put hnamed,
    some_mem_functionNames]

theorem hasFunction (h : Effect m id d description m') (hnamed : m.Named) {name : String} :
    m'.HasFunction name ↔ m.HasFunction name ∨ d.uses.Has name := by
  rw [(h.appends hnamed).hasFunction (h.named_put hnamed), h.mem_missing hnamed,
    ← some_mem_functionNames, h.functionNames_put hnamed, some_mem_functionNames]
  tauto

theorem yields (h : Effect m id d description m') (hnamed : m.Named) :
    Yields m (m.functions.toList.set id d.func) description.toList
      (d.uses.missing (m.put id d description)) m' := by
  have happends := h.appends hnamed
  obtain ⟨added, hadded, hroutines⟩ := happends.functions
  refine ⟨?_, h.symbols.trans happends.symbols, ⟨added, ?_, hroutines⟩, ?_⟩
  · rw [happends.rest]
    rfl
  · rw [hadded, put, Array.toList_setIfInBounds]
  · rw [happends.rest]
    simp [put]

/-- A run over one function leaves what the code of another one refers to. -/
theorem outgrows (h : Effect m i d description m') (hnamed : m.Named)
    (hfree : ∀ name ∈ m.symbols.names, EntryPoint.isGenerated name = false) (hne : i ≠ j)
    (hj : j < m.functions.size) : Outgrows j m m' := by
  have hyields := h.yields hnamed
  refine ⟨hyields.symbols, ?_, description.toList, hyields.globals, fun g hg => ?_⟩
  · obtain ⟨added, hadded, -⟩ := hyields.functions
    rw [← Array.getElem?_toList, hadded, List.getElem?_append_left (by simpa using hj),
      List.getElem?_set_ne hne, Array.getElem?_toList]
  · obtain ⟨name, hname, hgenerated⟩ := h.described g (Option.mem_toList.mp hg)
    -- a name that is known would not be generated
    by_contra hknown
    obtain ⟨found, hfound⟩ := SymbolTable.contains_iff.mp (Bool.eq_true_of_not_eq_false hknown)
    obtain rfl := Option.some.inj ((h.symbols _ _ hfound).symm.trans hname)
    rw [hfree found (Array.mem_of_getElem? hfound)] at hgenerated
    cases hgenerated

theorem symbols_eq (h : Effect m id d description m') {names : List String}
    (hnames : d.symbols = m.symbols.internAll names) :
    m'.symbols = m.symbols.internAll (names ++ d.uses.names) := by
  rw [h.result, RuntimeUses.symbols_declareAll, SymbolTable.internAll_append, ← hnames]
  rfl

end Effect

/-! ### Two runs in either order -/

section

variable {n₁ n₂ : Module} {e' : Draft} {first first' second second' : Option Global}

/-- Two runs, one after the other. -/
theorem Effect.yields_both (h : Effect m i d first m₁) (h' : Effect m₁ j e second m₂)
    (hnamed : m.Named) (hj : j < m.functions.size) :
    Yields m ((m.functions.toList.set i d.func).set j e.func) (first.toList ++ second.toList)
      (d.uses.missing (m.put i d first) ++ e.uses.missing (m₁.put j e second)) m₂ := by
  have hyields := h.yields hnamed
  have hyields' := h'.yields (h.named hnamed)
  obtain ⟨added, hadded, hroutines⟩ := hyields.functions
  obtain ⟨added', hadded', hroutines'⟩ := hyields'.functions
  have hlt : j < (m.functions.toList.set i d.func).length := by
    rwa [List.length_set, Array.length_toList]
  refine ⟨by rw [hyields'.rest, hyields.rest], hyields.symbols.trans hyields'.symbols,
    ⟨added ++ added', ?_, ?_⟩, ?_⟩
  · rw [hadded', hadded, List.set_append_left _ _ hlt, List.append_assoc]
  · exact List.rel_append (forall₂_isDeclarationOf_mono hyields'.symbols hroutines) hroutines'
  · rw [hyields'.globals, hyields.globals, List.append_assoc]

theorem Effect.nodup_missing (h : Effect m i d first m₁) (h' : Effect m₁ j e second m₂)
    (hnamed : m.Named) :
    (d.uses.missing (m.put i d first) ++ e.uses.missing (m₁.put j e second)).Nodup := by
  refine List.nodup_append'.mpr ⟨h.regular.nodup.filter _, h'.regular.nodup.filter _, ?_⟩
  intro name hname hname'
  rw [h.mem_missing hnamed] at hname
  rw [h'.mem_missing (h.named hnamed), h.hasFunction hnamed] at hname'
  exact hname'.2 (.inr hname.1)

theorem Effect.mem_missing_both (h : Effect m i d first m₁) (h' : Effect m₁ j e second m₂)
    (hnamed : m.Named) {name : String} :
    name ∈ d.uses.missing (m.put i d first) ++ e.uses.missing (m₁.put j e second) ↔
      (d.uses.Has name ∨ e.uses.Has name) ∧ ¬ m.HasFunction name := by
  rw [List.mem_append, h.mem_missing hnamed, h'.mem_missing (h.named hnamed), h.hasFunction hnamed]
  tauto

theorem Effect.perm_missing (h : Effect m i d first m₁) (h' : Effect m₁ j e second m₂)
    (hn : Effect m j e' second' n₁) (hn' : Effect n₁ i d' first' n₂) (hd : d'.uses = d.uses)
    (he : e'.uses = e.uses) (hnamed : m.Named) :
    (d.uses.missing (m.put i d first) ++ e.uses.missing (m₁.put j e second)).Perm
      (e'.uses.missing (m.put j e' second') ++ d'.uses.missing (n₁.put i d' first')) := by
  refine (List.perm_ext_iff_of_nodup (h.nodup_missing h' hnamed)
    (hn.nodup_missing hn' hnamed)).mpr ?_
  intro name
  rw [h.mem_missing_both h' hnamed, hn.mem_missing_both hn' hnamed, hd, he, or_comm]

theorem map_view_descriptions {table table' grown grown' : SymbolTable}
    (h : Option.Rel (Global.Alike table table') first first') (hgrows : table.GrowsTo grown)
    (hgrows' : table'.GrowsTo grown') :
    first'.toList.map (Global.view grown') = first.toList.map (Global.view grown) := by
  cases h with
  | none => rfl
  | some hg =>
      have hview := (Global.Alike.mk (hg.named.mono hgrows hgrows') hg.rest).view
      exact congrArg (fun view => [view]) hview

theorem Yields.matches_of {functions functions' : List Func}
    {descriptions descriptions' : List Global}
    {routines routines' : List String} (h : Yields m functions descriptions routines m₁)
    (h' : Yields m functions' descriptions' routines' m₂)
    (hnames : m₁.symbols.names.toList.Perm m₂.symbols.names.toList)
    (hsize : functions.length = m.functions.size)
    (hfunctions : functions.map (Func.view m₁.symbols) = functions'.map (Func.view m₂.symbols))
    (hroutines : routines.Perm routines')
    (hdescriptions : (descriptions.map (Global.view m₁.symbols)).Perm
      (descriptions'.map (Global.view m₂.symbols))) : Matches m m₁ m₂ := by
  obtain ⟨added, hadded, hdeclarations⟩ := h.functions
  obtain ⟨added', hadded', hdeclarations'⟩ := h'.functions
  have hsize' : functions'.length = m.functions.size := by
    have hlength := congrArg List.length hfunctions
    rwa [List.length_map, List.length_map, hsize, eq_comm] at hlength
  refine ⟨by rw [h'.rest, h.rest], ⟨h.symbols, h'.symbols⟩, hnames, ?_, ?_, ?_, ?_, ?_⟩
  · have hlength := congrArg List.length hadded
    have hlength' := congrArg List.length hadded'
    rw [Array.length_toList, List.length_append] at hlength hlength'
    omega
  · rw [hadded, hadded', List.take_left' hsize, List.take_left' hsize', hfunctions]
  · rw [hadded, hadded', List.drop_left' hsize, List.drop_left' hsize',
      map_view_of_isDeclarationOf hdeclarations, map_view_of_isDeclarationOf hdeclarations']
    exact hroutines.map _
  · rw [h.globals, h'.globals]
    exact ⟨List.prefix_append _ _, List.prefix_append _ _⟩
  · rwa [h.globals, h'.globals, List.drop_left' Array.length_toList,
      List.drop_left' Array.length_toList]

theorem WellFormed.functions_named (h : m.WellFormed) : m.Named := by
  intro f hf
  exact SymbolTable.contains_iff.mp (h.named f.name (.inr ⟨f, hf, rfl⟩))

/-- The functions that both orders leave look the same. -/
theorem map_view_functions (hformed : m.WellFormed) (hm : m.symbols.GrowsTo m₂.symbols)
    (hn : m.symbols.GrowsTo n₂.symbols) (hne : i ≠ j)
    (hd : d.func.Alike m₂.symbols n₂.symbols d'.func)
    (he : e'.func.Alike n₂.symbols m₂.symbols e.func) :
    ((m.functions.toList.set i d.func).set j e.func).map (Func.view m₂.symbols) =
      ((m.functions.toList.set j e'.func).set i d'.func).map (Func.view n₂.symbols) := by
  have hothers : m.functions.toList.map (Func.view m₂.symbols) =
      m.functions.toList.map (Func.view n₂.symbols) := by
    refine List.map_congr_left fun f hf => ?_
    rw [Array.mem_toList_iff] at hf
    exact ((hformed.sound f hf).1.alike (hformed.named f.name (.inr ⟨f, hf, rfl⟩)) hn hm).view
  rw [List.map_set, List.map_set, List.map_set, List.map_set, hothers, hd.view, he.view,
    List.set_comm _ _ hne]

/-- Runs that do the same to each of two functions, in either order, leave matching modules. -/
theorem Effect.matches_of (h : Effect m i d first m₁) (h' : Effect m₁ j e second m₂)
    (hn : Effect m j e' second' n₁) (hn' : Effect n₁ i d' first' n₂) (hne : i ≠ j)
    (hd : d.Alike m.symbols n₁.symbols d') (he : e'.Alike m.symbols m₁.symbols e)
    (hfirst : Option.Rel (Global.Alike d.symbols d'.symbols) first first')
    (hsecond : Option.Rel (Global.Alike e'.symbols e.symbols) second' second)
    (hformed : m.WellFormed) : Matches m m₂ n₂ := by
  have hnamed := hformed.functions_named
  have hyields := h.yields_both h' hnamed hn.lt_size
  have hyields' := hn.yields_both hn' hnamed h.lt_size
  -- every draft's table is part of the last one of its order
  have hd₁ : d.symbols.GrowsTo m₂.symbols :=
    (h.appends hnamed).symbols.trans (h'.yields (h.named hnamed)).symbols
  have he₁ : e.symbols.GrowsTo m₂.symbols := (h'.appends (h.named hnamed)).symbols
  have he₂ : e'.symbols.GrowsTo n₂.symbols :=
    (hn.appends hnamed).symbols.trans (hn'.yields (hn.named hnamed)).symbols
  have hd₂ : d'.symbols.GrowsTo n₂.symbols := (hn'.appends (hn.named hnamed)).symbols
  refine hyields.matches_of hyields' ?_ (by simp)
    (map_view_functions hformed hyields.symbols hyields'.symbols hne (hd.func.mono hd₁ hd₂)
      (he.func.mono he₂ he₁))
    (h.perm_missing h' hn hn' hd.uses he.uses.symm hnamed) ?_
  · obtain ⟨names, hnames, hnames'⟩ := hd.symbols
    obtain ⟨more, hmore, hmore'⟩ := he.symbols
    rw [h'.symbols_eq hmore', h.symbols_eq hnames, hn'.symbols_eq hnames', hn.symbols_eq hmore,
      ← SymbolTable.internAll_append, ← SymbolTable.internAll_append, hd.uses, he.uses]
    exact SymbolTable.perm_internAll List.perm_append_comm
  · rw [List.map_append, List.map_append, map_view_descriptions hfirst hd₁ hd₂,
      map_view_descriptions hsecond he₂ he₁]
    exact List.perm_append_comm

end

/-- Two functions can be instrumented in either order, if the module has no name that the
instrumentation could make up.  What comes out is the same but for the numbers of symbols and the
order of what was appended, and the same is reported of each function. -/
theorem instrumentFunction_comm {n₁ n₂ : Module} {first first' second second' : Outcome}
    (hverify : m.verify = .ok [])
    (hfree : ∀ name ∈ m.symbols.names, EntryPoint.isGenerated name = false) (hne : i ≠ j)
    (h₁ : m.instrumentFunction config i store = .ok (m₁, .ok first))
    (h₂ : m₁.instrumentFunction config j store = .ok (m₂, .ok second))
    (h₁' : m.instrumentFunction config j store = .ok (n₁, .ok second'))
    (h₂' : n₁.instrumentFunction config i store = .ok (n₂, .ok first')) :
    Matches m m₂ n₂ ∧ first' = first ∧ second' = second := by
  have hformed := verify_eq_nil_iff.mp hverify
  have hsound : ∀ f ∈ m.functions, f.Sound m.symbols := fun f hf => (hformed.sound f hf).1
  replace h₁ := instrumentFunction_run h₁
  replace h₁' := instrumentFunction_run h₁'
  obtain ⟨_, _, heffect⟩ := h₁.effect
  obtain ⟨_, _, heffect'⟩ := h₁'.effect
  have hj : Outgrows j m m₁ := heffect.outgrows hformed.functions_named hfree hne heffect'.lt_size
  have hi : Outgrows i m n₁ :=
    heffect'.outgrows hformed.functions_named hfree hne.symm heffect.lt_size
  obtain ⟨hfirst, d, d', description, description', hd₁, hd₂, hd, hdescription⟩ :=
    h₁.twin (instrumentFunction_run h₂') hi hsound
  obtain ⟨hsecond, e', e, _, _, he₂, he₁, he, hdescription'⟩ :=
    h₁'.twin (instrumentFunction_run h₂) hj hsound
  exact ⟨hd₁.matches_of he₁ he₂ hd₂ hne hd he hdescription hdescription' hformed, hfirst,
    hsecond.symm⟩

end Module

/-! ### Two functions that call the same routines -/

/-- Fills a buffer and stores to where it was filled from. -/
def stashFunction : Func where
  name := 1
  params := [.ptr 0, .int]
  ret := none
  insts := #[⟨.param 0, .ptr 0, [], false⟩, ⟨.param 1, .int, [], false⟩,
    ⟨.stackSlot 16 8, .ptr 0, [], false⟩,
    ⟨.bulk .copy (.inst 2) (.inst 0) (.inst 1), .unit, [], false⟩,
    ⟨.store (.inst 1) (.inst 0) 8 none, .unit, [], false⟩, ⟨.ret none, .unit, [], false⟩]
  blocks := #[{ argStart := 0, insts := [0, 1, 2, 3, 4, 5] }]

def relayModule : Module where
  name := "relay"
  symbols := ⟨#["chase", "stash"], by decide⟩
  functions := #[chaseFunction, stashFunction]

theorem exists_runs_relay :
    ∃ m₁ m₂ n₁ n₂ first first' second second',
      relayModule.instrumentFunction {} 0 {} = .ok (m₁, .ok first) ∧
      m₁.instrumentFunction {} 1 {} = .ok (m₂, .ok second) ∧
      relayModule.instrumentFunction {} 1 {} = .ok (n₁, .ok second') ∧
      n₁.instrumentFunction {} 0 {} = .ok (n₂, .ok first') ∧
      first.changed = true ∧ second.changed = true ∧ m₂ ≠ n₂ := by
  have hruns : (match relayModule.instrumentFunction {} 0 {},
    relayModule.instrumentFunction {} 1 {} with
      | .ok (m₁, .ok first), .ok (n₁, .ok _) =>
          match m₁.instrumentFunction {} 1 {}, n₁.instrumentFunction {} 0 {} with
          | .ok (m₂, .ok second), .ok (n₂, .ok _) =>
              decide (first.changed = true ∧ second.changed = true ∧ m₂ ≠ n₂)
          | _, _ => false
      | _, _ => false) = true := by decide +kernel
  split at hruns
  · rename_i m₁ first n₁ second' h₁ h₁'
    split at hruns
    · rename_i m₂ second n₂ first' h₂ h₂'
      exact ⟨m₁, m₂, n₁, n₂, first, first', second, second', h₁, h₂, h₁', h₂',
        of_decide_eq_true hruns⟩
    · cases hruns
  · cases hruns

theorem instrumentFunction_comm_relay :
    ∃ m₁ m₂ n₁ n₂ first second,
      relayModule.instrumentFunction {} 0 {} = .ok (m₁, .ok first) ∧
      m₁.instrumentFunction {} 1 {} = .ok (m₂, .ok second) ∧
      relayModule.instrumentFunction {} 1 {} = .ok (n₁, .ok second) ∧
      n₁.instrumentFunction {} 0 {} = .ok (n₂, .ok first) ∧
      first.changed = true ∧ second.changed = true ∧ m₂ ≠ n₂ ∧
      Module.Matches relayModule m₂ n₂ := by
  obtain ⟨m₁, m₂, n₁, n₂, first, first', second, second', h₁, h₂, h₁', h₂', hfirst, hsecond, hne⟩ :=
    exists_runs_relay
  obtain ⟨hmatches, rfl, rfl⟩ := Module.instrumentFunction_comm (by decide +kernel)
    (by decide +kernel) (by decide) h₁ h₂ h₁' h₂'
  exact ⟨m₁, m₂, n₁, n₂, _, _, h₁, h₂, h₁', h₂', hfirst, hsecond, hne, hmatches⟩

end Redzone
