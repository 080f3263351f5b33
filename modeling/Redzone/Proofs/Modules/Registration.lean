import Redzone.Proofs.Modules.Calls
import Redzone.Proofs.Modules.Redzones

/-!
# Registration describes the globals with redzones

However descriptors reach the runtime, there is one for every global that gets a redzone, in the
same order, and it tells what became of that global.  The module's constructor passes to the runtime
what leads to the descriptors, and the destructor passes the same.

All this is read off the module that is left: `Module.descriptors` finds the descriptors as a linker
would, in the table or in the section of the scheme, and `Func.calls` lists the calls of a function
with their arguments resolved to names.  So there are two things to show.

* **Nothing else is found.**  Whatever else was added is in no section and is not called like the
  table (`descriptors_module`), and a symbol whose name was not taken is that of nothing in the
  program (`AllNamed.ne_of_not_taken`).
* **What is found is right.**  A descriptor was made when its global got the redzone, and the global
  is kept from then on (`described`).  The calls are those of the scheme (`calls_of_ne_nil`), or
  there are none if nothing is registered (`calls_of_nil`).
-/

namespace Redzone

/-! ### What leads to the descriptors -/

namespace Scheme

/-- The routine that descriptors are registered with. -/
def register : Scheme → String
  | flat => EntryPoint.registerGlobals
  | elf => EntryPoint.registerElfGlobals
  | machO => EntryPoint.registerImageGlobals

/-- The routine that descriptors are unregistered with. -/
def unregister : Scheme → String
  | flat => EntryPoint.unregisterGlobals
  | elf => EntryPoint.unregisterElfGlobals
  | machO => EntryPoint.unregisterImageGlobals

/-- What both of them are passed for `count` descriptors. -/
def arguments (count : Nat) : Scheme → List Argument
  | flat => [.address (EntryPoint.generated "globals"), .number count]
  | elf => [.address EntryPoint.registeredFlag, .address EntryPoint.elfStart,
      .address EntryPoint.elfStop]
  | machO => [.address EntryPoint.registeredFlag]

end Scheme

namespace Annex

variable {a a' : Annex}

/-- A global that is added unless it is there goes by its name, in what the module's names grow
to. -/
theorem addUnlessNamed_names (a : Annex) (name : String) (make : SymbolId → Global) :
    a.module.symbols.GrowsTo (a.addUnlessNamed name make).1.module.symbols ∧
      (a.addUnlessNamed name make).1.module.symbols.names[(a.addUnlessNamed name make).2]? =
        some name := by
  unfold addUnlessNamed
  dsimp only
  split
  · exact ⟨a.module.symbols.growsTo_intern name, a.names_intern name⟩
  · exact ⟨a.module.symbols.growsTo_intern name, a.names_intern name⟩

theorem registeredFlag_names (a : Annex) :
    a.module.symbols.GrowsTo a.registeredFlag.1.module.symbols ∧
      a.registeredFlag.1.module.symbols.names[a.registeredFlag.2]? =
        some EntryPoint.registeredFlag := a.addUnlessNamed_names _ _

theorem sectionBound_names (a : Annex) (name : String) :
    a.module.symbols.GrowsTo (a.sectionBound name).1.module.symbols ∧
      (a.sectionBound name).1.module.symbols.names[(a.sectionBound name).2]? = some name :=
  a.addUnlessNamed_names _ _

/-- The calls of a registration are those of its scheme. -/
theorem addRegistration_arguments {registered : List Registered} {scheme : Scheme}
    {r : Registration} {symbols : SymbolTable}
    (h : a.addRegistration registered scheme = .ok (a', r))
    (hgrows : a'.module.symbols.GrowsTo symbols) :
    r.register = scheme.register ∧ r.unregister = scheme.unregister ∧
      r.argCode.map (Op.argument? symbols) = (scheme.arguments registered.length).map some := by
  cases scheme with
  | flat =>
      unfold addRegistration at h
      dsimp only at h
      cases h
      have htable : symbols.names[(a.addConstant (EntryPoint.generated "globals")
          (.fields (registered.flatMap Registered.descriptor)) 8).2]? =
          some (EntryPoint.generated "globals") := hgrows _ _ (a.names_intern _)
      refine ⟨rfl, rfl, ?_⟩
      simp [Registration.argCode, Op.argument?, Scheme.arguments, htable]
  | elf =>
      unfold addRegistration at h
      obtain ⟨a₁, -, h⟩ := bind_eq_ok h
      dsimp only at h
      cases h
      obtain ⟨-, hflag⟩ := a₁.registeredFlag_names
      obtain ⟨hgrows₁, hstart⟩ := a₁.registeredFlag.1.sectionBound_names EntryPoint.elfStart
      obtain ⟨hgrows₂, hstop⟩ :=
        (a₁.registeredFlag.1.sectionBound EntryPoint.elfStart).1.sectionBound_names
          EntryPoint.elfStop
      have hflag := (hgrows₁.trans (hgrows₂.trans hgrows)) _ _ hflag
      have hstart := (hgrows₂.trans hgrows) _ _ hstart
      have hstop := hgrows _ _ hstop
      refine ⟨rfl, rfl, ?_⟩
      simp [Registration.argCode, Op.argument?, Scheme.arguments, hflag, hstart, hstop]
  | machO =>
      unfold addRegistration at h
      obtain ⟨a₁, -, h⟩ := bind_eq_ok h
      dsimp only at h
      cases h
      have hflag := hgrows _ _ a₁.registeredFlag_names.2
      refine ⟨rfl, rfl, ?_⟩
      simp [Registration.argCode, Op.argument?, Scheme.arguments, hflag]

end Annex

/-! ### What is found by name -/

/-- The first of some things with a name. -/
def firstNamed {α : Type} (table : SymbolTable) (key : α → SymbolId) (xs : Array α)
    (name : String) : Option α :=
  ((table.get? name).bind fun symbol => xs.findIdx? fun x => key x = symbol).bind fun id => xs[id]?

section

variable {α : Type} {table : SymbolTable} {key : α → SymbolId} {xs ys : Array α} {x : α}
  {name : String}

theorem firstNamed_eq_some (hname : table.names[key x]? = some name)
    (hxs : ∀ y ∈ xs, key y ≠ key x)
    (hys : ∀ (i : Nat) (y : α), (xs.push x)[i]? = some y → ys[i]? = some y) :
    firstNamed table key ys name = some x := by
  have hlast := hys _ _ Array.getElem?_push_size
  obtain ⟨hlt, hget⟩ := Array.getElem?_eq_some_iff.mp hlast
  have hfound : (ys.findIdx? fun y => key y = key x) = some xs.size := by
    refine Array.findIdx?_eq_some_iff_getElem.mpr ⟨hlt, by simp [hget], fun j hj => ?_⟩
    have hold : (xs.push x)[j]? = some xs[j] := by
      rw [Array.getElem?_push_lt hj]
    obtain ⟨hlt', hget'⟩ := Array.getElem?_eq_some_iff.mp (hys _ _ hold)
    simp [hget', hxs _ (Array.getElem_mem hj)]
  rw [firstNamed, SymbolTable.get?_eq_some_iff.mpr hname, Option.bind_some, hfound,
    Option.bind_some, hlast]

theorem firstNamed_eq_none (h : ∀ x ∈ xs, table.names[key x]? ≠ some name) :
    firstNamed table key xs name = none := by
  rw [Option.eq_none_iff_forall_ne_some]
  intro x hx
  obtain ⟨id, hid, -⟩ := Option.bind_eq_some_iff.mp hx
  obtain ⟨symbol, hsymbol, hid⟩ := Option.bind_eq_some_iff.mp hid
  obtain ⟨hlt, hkey, -⟩ := Array.findIdx?_eq_some_iff_getElem.mp hid
  rw [← of_decide_eq_true hkey] at hsymbol
  exact h _ (Array.getElem_mem hlt) (SymbolTable.get?_eq_some_iff.mp hsymbol)

end

namespace Module

/-- The first function of this name. -/
def functionNamed (m : Module) (name : String) : Option Func :=
  (m.functionByName name).bind fun id => m.functions[id]?

/-- The first global of this name. -/
def globalNamed (m : Module) (name : String) : Option Global :=
  (m.globalByName name).bind fun id => m.globals[id]?

variable {m m' : Module} {name : String}

/-- A symbol whose name was not taken is not that of something named. -/
theorem AllNamed.ne_of_not_taken (h : m.AllNamed) (hfree : ¬ m.Taken name)
    (hgrows : m.symbols.GrowsTo m'.symbols) {symbol other : SymbolId}
    (hsymbol : m'.symbols.names[symbol]? = some name) (hother : m.Names other) :
    other ≠ symbol := by
  rintro rfl
  obtain ⟨text, htext⟩ := SymbolTable.contains_iff.mp (h other hother)
  obtain rfl := Option.some.inj ((hgrows _ _ htext).symm.trans hsymbol)
  exact hfree ⟨other, htext, hother⟩

theorem functionNamed_eq_some {f : Func} (hnamed : m.AllNamed) (hfree : ¬ m.Taken name)
    (hgrows : (m.addFunction f).1.GrowsTo m') (hname : m'.symbols.names[f.name]? = some name) :
    m'.functionNamed name = some f :=
  firstNamed_eq_some hname
    (fun g hg => hnamed.ne_of_not_taken hfree hgrows.symbols hname (.inr ⟨g, hg, rfl⟩))
    hgrows.functions

theorem globalNamed_eq_some {g : Global} {added : List Global} {kept : List SymbolId}
    (hnamed : m.AllNamed) (hfree : ¬ m.Taken name) (hgrows : m.symbols.GrowsTo m'.symbols)
    (happends : Appends (g :: added) kept m m') (hname : m'.symbols.names[g.name]? = some name) :
    m'.globalNamed name = some g := by
  refine firstNamed_eq_some hname
    (fun g' hg' => hnamed.ne_of_not_taken hfree hgrows hname (.inl ⟨g', hg', rfl⟩))
    fun i g' hg' => ?_
  rw [← Array.getElem?_toList, Array.toList_push] at hg'
  rw [← Array.getElem?_toList, happends.globals, ← List.singleton_append, ← List.append_assoc,
    List.getElem?_append_left (List.getElem?_eq_some_iff.mp hg').1]
  exact hg'

theorem functionNamed_eq_none (hfree : ¬ m.Taken name) : m.functionNamed name = none :=
  firstNamed_eq_none fun f hf hname => hfree ⟨f.name, hname, .inr ⟨f, hf, rfl⟩⟩

theorem globalNamed_eq_none (hfree : ¬ m.Taken name) : m.globalNamed name = none :=
  firstNamed_eq_none fun g hg hname => hfree ⟨g.name, hname, .inl ⟨g, hg, rfl⟩⟩

end Module

/-! ### Descriptors -/

/-- The fields of a global's contents. -/
def Global.fields (g : Global) : List ConstField :=
  match g.init with
  | some (.fields parts) => parts
  | _ => []

/-- Fields in groups of eight, of which the last one may have fewer. -/
def inEights (fields : List ConstField) : List (List ConstField) :=
  (List.range ((fields.length + 7) / 8)).map fun k => (fields.drop (8 * k)).take 8

theorem inEights_flatten {groups : List (List ConstField)}
    (h : ∀ group ∈ groups, group.length = 8) : inEights groups.flatten = groups := by
  induction groups with
  | nil => rfl
  | cons group rest ih =>
      rw [List.forall_mem_cons] at h
      obtain ⟨hgroup, hrest⟩ := h
      have hcount : (group.length + rest.flatten.length + 7) / 8 =
          (rest.flatten.length + 7) / 8 + 1 := by
        omega
      have hdrop : ∀ k, (group ++ rest.flatten).drop (8 * (k + 1)) = rest.flatten.drop (8 * k) := by
        intro k
        rw [Nat.mul_succ, Nat.add_comm, ← hgroup, List.drop_length_add_append]
      have ih := ih hrest
      unfold inEights at ih ⊢
      rw [List.flatten_cons, List.length_append, hcount, List.range_succ_eq_map, List.map_cons,
        List.map_map, Nat.mul_zero, List.drop_zero, ← hgroup, List.take_left, hgroup]
      simp only [Function.comp_def, hdrop, ih]

/-- What a descriptor tells about a global. -/
structure Tells (g : Global) (dynInit : Bool) (fields : List ConstField) : Prop where
  length : fields.length = 8
  beg : fields[0]? = some (.addr g.name)
  size : fields[1]? = some (.word g.objectSize)
  sizeWithRedzone : fields[2]? = some (.word g.size)
  hasDynamicInit : fields[5]? = some (.word (if dynInit then 1 else 0))

theorem Annex.Describes.tells {granularity : Nat} {store : Annotations} {m : Module} {id : GlobalId}
    {r : Registered} {g : Global} (h : Annex.Describes granularity store m id r)
    (hg : m.globals[id]? = some g) :
    Tells (g.grown granularity) (store.get id).dynInit r.descriptor := by
  obtain ⟨name, module, location, indicator, hfields⟩ := h.fields g hg
  have hobject : (g.grown granularity).objectSize = g.objectSize :=
    Nat.add_sub_add_right _ _ _
  rw [hfields]
  exact ⟨rfl, rfl, by rw [hobject]; rfl, rfl, rfl⟩

theorem forall₂_comp {α β γ : Type} {R : α → β → Prop} {S : β → γ → Prop} {as : List α}
    {bs : List β} {cs : List γ} (h : List.Forall₂ R as bs) (h' : List.Forall₂ S bs cs) :
    List.Forall₂ (fun a c => ∃ b, R a b ∧ S b c) as cs := by
  induction h generalizing cs with
  | nil =>
      cases h'
      exact .nil
  | cons hfirst _ ih =>
      cases h' with
      | cons hfirst' hrest' => exact .cons ⟨_, hfirst, hfirst'⟩ (ih hrest')

namespace Module

/-- The descriptors in a module whose program has the globals below `n`. -/
def descriptors (m : Module) (n : GlobalId) : Scheme → List (List ConstField)
  | .flat => ((m.globalNamed (EntryPoint.generated "globals")).map
      fun table => inEights table.fields).getD []
  | .elf => (m.globalsIn n EntryPoint.elfSection).map Global.fields
  | .machO => (m.globalsIn n EntryPoint.machOSection).map Global.fields

/-- Descriptors stay in the program as long as the globals numbered `ids`: they are associated with
them, or there is a pair for each of them.  All of this is kept. -/
def Ties (m : Module) (n : GlobalId) (ids : List GlobalId) : Scheme → Prop
  | .flat => True
  | .elf => List.Forall₂
      (fun id d => ∃ g, m.globals[id]? = some g ∧ d.associated = some g.name ∧ d.name ∈ m.used) ids
      (m.globalsIn n EntryPoint.elfSection)
  | .machO => ∃ pairs : List (Global × Global),
      pairs.map Prod.fst = m.globalsIn n EntryPoint.machOSection ∧
      pairs.map Prod.snd = m.globalsIn n EntryPoint.machOLiveness ∧
      List.Forall₂ (fun id pair => ∃ g, m.globals[id]? = some g ∧
        pair.2.fields = [.addr g.name, .addr pair.1.name] ∧ pair.1.name ∈ m.used ∧
        pair.2.name ∈ m.used) ids pairs

end Module

/-! ### Runs -/

theorem Annex.Makes.not_taken {granularity : Nat} {reach : Reach} {P : OwnSymbol → Prop}
    {m : Module}
    {a : Annex} (h : Annex.Makes granularity reach P { module := m } a) (hformed : m.WellFormed)
    (hnames : m.Unreserved) (own : OwnSymbol) (hfree : own.kind.isCounted = false)
    (hP : ¬ P own) : ¬ a.module.Taken own.text := by
  intro htaken
  rcases (h.taken_cases hformed.named).2 own htaken with hold | hcounted | hown
  · exact hnames.not_taken own hold
  · rw [hfree] at hcounted
    cases hcounted
  · exact hP hown

namespace GlobalsRun

variable {config : Config} {m : Module} {store : Annotations} {ids : List GlobalId}

/-- What is registered tells what became of the globals. -/
theorem described (run : GlobalsRun config m store ids) (hproper : Proper m ids) :
    List.Forall₂ (fun id r => ∃ g, run.module.globals[id]? = some g ∧ g.name = r.symbol ∧
      Tells g (store.get id).dynInit r.descriptor) ids run.globals := by
  obtain ⟨-, -, hdescribes⟩ := run.padded_spec hproper
  refine (forall₂_mem hdescribes).imp fun id r ⟨hdescribed, hid, _⟩ => ?_
  obtain ⟨g, hg, hsymbol⟩ := hdescribed.symbol
  have hmodule := run.globals_module hproper hg
  rw [if_pos hid] at hmodule
  exact ⟨_, hmodule, hsymbol.symm, hdescribed.tells hg⟩

theorem globals_eq_nil_iff (run : GlobalsRun config m store ids) (hproper : Proper m ids) :
    run.globals = [] ↔ ids = [] := by
  rw [← List.length_eq_zero_iff, ← (run.described hproper).length_eq, List.length_eq_zero_iff]

theorem symbols_registered (run : GlobalsRun config m store ids) :
    run.registered.module.symbols.GrowsTo run.module.symbols := by
  have hctor : Annex.Makes 0 {} _ _ _ :=
    run.registered.makes_makeCtor config run.registration
  exact hctor.keeps.symbols.trans (run.symbols_bracketed.trans run.growsTo_module.symbols)

/-- Without a registration there is neither a table nor a destructor. -/
theorem not_taken_module (run : GlobalsRun config m store ids) (hproper : Proper m ids)
    (hnames : m.Unreserved) (hnone : run.registration = none) (own : OwnSymbol)
    (hkind : own.kind = .table ∨ own.kind = .dtor) : ¬ run.module.Taken own.text := by
  have hstarted := run.started_spec hproper
  have hfree : own.kind.isCounted = false := by
    rcases hkind with hkind | hkind <;> rw [hkind] <;> rfl
  -- neither a redzone nor the constructor makes such a symbol, and declarations make none
  have hnot : ¬ run.started.module.Taken own.text := by
    refine hstarted.not_taken hproper.formed hnames own hfree ?_
    rintro ((hindicator | ⟨hsome, -⟩) | hctor)
    · rcases hkind with hkind | hkind <;> cases hkind.symm.trans hindicator
    · rw [hnone] at hsome
      cases hsome
    · rcases hkind with hkind | hkind <;> cases hkind.symm.trans hctor
  have hclosed : run.closed.1 = run.started.module := by
    unfold closed
    rw [hnone]
  obtain ⟨-, huses⟩ := run.closed_spec hproper
  have hdeclared : Module.Changes 0 { code := True } run.closed.1 [] run.module :=
    Module.changes_declareAll trivial huses
  rw [hclosed] at hdeclared
  intro htaken
  rcases (hdeclared.taken_cases (hstarted.taken_cases hproper.formed.named).1).2 _ htaken with
    hold | ⟨other, hother, -⟩ | hroutine
  · exact hnot hold
  · cases hother
  · exact own.not_isRoutine hroutine

/-- The table holds all descriptors. -/
theorem globalNamed_table (run : GlobalsRun config m store ids) (hproper : Proper m ids)
    (hnames : m.Unreserved) (hscheme : config.scheme = .flat) (hsome : run.globals ≠ []) :
    ∃ table, run.module.globalNamed (EntryPoint.generated "globals") = some table ∧
      table.fields = run.globals.flatMap Registered.descriptor := by
  rcases run.registers with ⟨hnil, -⟩ | ⟨r, -, hadded, -⟩
  · exact absurd hnil hsome
  · rw [hscheme] at hadded
    have hregistered : (run.padded.addConstant (EntryPoint.generated "globals")
        (.fields (run.globals.flatMap Registered.descriptor)) 8).1 = run.registered :=
      congrArg Prod.fst (Except.ok.inj hadded)
    obtain ⟨table, hname, htable, -, happends⟩ := run.padded.appends_addConstant
      (EntryPoint.generated "globals") (.fields (run.globals.flatMap Registered.descriptor)) 8
    obtain ⟨-, hpadded, -⟩ := run.padded_spec hproper
    obtain ⟨hmakes, -⟩ := run.registered_spec hproper
    obtain ⟨back, hback, -⟩ := run.plain_module
    rw [hregistered] at happends
    -- before the registration nothing goes by the table's name, so that it is the first global that
    -- does
    have hsymbol : run.registered.module.symbols.names[table.name]? =
        some (EntryPoint.generated "globals") := by
      rw [hname, ← hregistered]
      exact run.padded.names_intern _
    refine ⟨table, Module.globalNamed_eq_some (hpadded.taken_cases hproper.formed.named).1
      (hpadded.not_taken hproper.formed hnames ⟨.table, "", fun _ => rfl⟩ rfl nofun)
      (hmakes.keeps.symbols.trans run.symbols_registered) (happends.trans_nil hback)
      (run.symbols_registered _ _ hsymbol), ?_⟩
    rw [Global.fields, htable]

theorem registration_eq_none_iff (run : GlobalsRun config m store ids) :
    run.registration = none ↔ run.globals = [] := by
  rcases run.registers with ⟨hnil, -, hnone⟩ | ⟨r, hsome, -, hr⟩
  · exact iff_of_true hnone hnil
  · exact iff_of_false (hr ▸ Option.some_ne_none r) hsome

theorem map_fields_of_forall₂ {registered : List Registered} {globals : List Global}
    (h : List.Forall₂ (fun r (d : Global) => d.init = some (.fields r.descriptor))
      registered globals) :
    globals.map Global.fields = registered.map Registered.descriptor := by
  induction h with
  | nil => rfl
  | cons hfirst _ ih => rw [List.map_cons, List.map_cons, ih, Global.fields, hfirst]

theorem filter_pairs {pairs : List (Global × Global)} {place : String} {plain : List Global}
    {part : Global × Global → Global} (hplain : ∀ g ∈ plain, g.sectionName = none)
    (h : ∀ pair ∈ pairs, [pair.1, pair.2].filter (Global.isIn place) = [part pair]) :
    ((pairs.flatMap fun pair => [pair.1, pair.2]) ++ plain).filter (Global.isIn place) =
      pairs.map part := by
  rw [List.filter_append, filter_isIn_eq_nil hplain, List.append_nil, List.filter_flatMap,
    List.flatMap_congr h, ← List.map_eq_flatMap]

theorem filter_descriptors {registered : List Registered} {pairs : List (Global × Global)}
    {plain : List Global} (hpairs : List.Forall₂ Annex.IsBound registered pairs)
    (hplain : ∀ g ∈ plain, g.sectionName = none) :
    ((pairs.flatMap fun pair => [pair.1, pair.2]) ++ plain).filter
        (Global.isIn EntryPoint.machOSection) = pairs.map Prod.fst ∧
      ((pairs.flatMap fun pair => [pair.1, pair.2]) ++ plain).filter
        (Global.isIn EntryPoint.machOLiveness) = pairs.map Prod.snd := by
  have hplaces : ∀ pair ∈ pairs, pair.1.sectionName = some EntryPoint.machOSection ∧
      pair.2.sectionName = some EntryPoint.machOLiveness := by
    intro pair hpair
    obtain ⟨r, -, hbound⟩ := exists_of_forall₂_mem hpairs hpair
    exact ⟨hbound.descriptor.place, hbound.place⟩
  constructor
  · refine filter_pairs hplain fun pair hpair => ?_
    obtain ⟨hfirst, hsecond⟩ := hplaces pair hpair
    simp [Global.isIn, hfirst, hsecond, EntryPoint.machOSection, EntryPoint.machOLiveness]
  · refine filter_pairs hplain fun pair hpair => ?_
    obtain ⟨hfirst, hsecond⟩ := hplaces pair hpair
    simp [Global.isIn, hfirst, hsecond, EntryPoint.machOSection, EntryPoint.machOLiveness]

theorem filter_elf {registered : List Registered} {descriptors plain : List Global}
    (hdescriptors : List.Forall₂ (fun r d =>
      Annex.IsDescriptor EntryPoint.elfSection (some r.symbol) r d) registered descriptors)
    (hplain : ∀ g ∈ plain, g.sectionName = none) :
    (descriptors ++ plain).filter (Global.isIn EntryPoint.elfSection) = descriptors := by
  rw [List.filter_append, filter_isIn_eq_nil hplain, List.append_nil, List.filter_eq_self]
  intro d hd
  obtain ⟨r, -, hdescriptor⟩ := exists_of_forall₂_mem hdescriptors hd
  simp [Global.isIn, hdescriptor.place]

/-- The descriptors in the module are those that were to be registered. -/
theorem descriptors_module (run : GlobalsRun config m store ids) (hproper : Proper m ids)
    (hnames : m.Unreserved) :
    run.module.descriptors m.globals.size config.scheme =
      run.globals.map Registered.descriptor := by
  obtain ⟨added, kept, hin, -, ⟨hnil, rfl, -⟩ | ⟨hsome, hdistributes⟩⟩ :=
    run.globalsIn_module hproper.bound
  · rw [hnil, List.map_nil]
    cases config.scheme with
    | flat =>
        have hfree : ¬ run.module.Taken (EntryPoint.generated "globals") :=
          run.not_taken_module hproper hnames (run.registration_eq_none_iff.mpr hnil)
            ⟨.table, "", fun _ => rfl⟩ (.inl rfl)
        rw [Module.descriptors, Module.globalNamed_eq_none hfree]
        rfl
    | elf => rw [Module.descriptors, hin, List.filter_nil, List.map_nil]
    | machO => rw [Module.descriptors, hin, List.filter_nil, List.map_nil]
  · cases hscheme : config.scheme with
    | flat =>
        obtain ⟨table, htable, hfields⟩ := run.globalNamed_table hproper hnames hscheme hsome
        have heights : ∀ group ∈ run.globals.map Registered.descriptor, group.length = 8 := by
          intro group hgroup
          obtain ⟨r, hr, rfl⟩ := List.mem_map.mp hgroup
          obtain ⟨id, -, g, -, -, htells⟩ := exists_of_forall₂_mem (run.described hproper) hr
          exact htells.length
        calc run.module.descriptors m.globals.size .flat
            = inEights table.fields := by rw [Module.descriptors, htable]; rfl
          _ = inEights (run.globals.map Registered.descriptor).flatten := by
              rw [hfields, List.flatMap_def]
          _ = run.globals.map Registered.descriptor := inEights_flatten heights
    | elf =>
        rw [hscheme] at hdistributes
        cases hdistributes with
        | elf hdescriptors hplain =>
            rw [Module.descriptors, hin, filter_elf hdescriptors hplain]
            exact map_fields_of_forall₂ (hdescriptors.imp fun _ _ hd => hd.init)
    | machO =>
        rw [hscheme] at hdistributes
        cases hdistributes with
        | machO hpairs hplain =>
            rw [Module.descriptors, hin, (filter_descriptors hpairs hplain).1]
            exact map_fields_of_forall₂ (List.forall₂_map_right_iff.mpr
              (hpairs.imp fun _ _ hbound => hbound.descriptor.init))

/-- What ties descriptors to their globals. -/
theorem ties_module (run : GlobalsRun config m store ids) (hproper : Proper m ids) :
    run.module.Ties m.globals.size ids config.scheme := by
  have hdescribed := run.described hproper
  obtain ⟨added, kept, hin, hused, ⟨hnil, rfl, -⟩ | ⟨-, hdistributes⟩⟩ :=
    run.globalsIn_module hproper.bound
  · obtain rfl := (run.globals_eq_nil_iff hproper).mp hnil
    cases config.scheme with
    | flat => trivial
    | elf =>
        rw [Module.Ties, hin]
        exact .nil
    | machO =>
        rw [Module.Ties, hin, hin]
        exact ⟨[], rfl, rfl, .nil⟩
  · cases hscheme : config.scheme with
    | flat => trivial
    | elf =>
        rw [hscheme] at hdistributes
        cases hdistributes with
        | elf hdescriptors hplain =>
            rw [Module.Ties, hin, filter_elf hdescriptors hplain, hused]
            -- a descriptor is made for what is registered, and this for a global
            refine (forall₂_comp hdescribed (forall₂_mem hdescriptors)).imp ?_
            rintro id d ⟨r, ⟨g, hg, hname, -⟩, hd, -, hmem⟩
            exact ⟨g, hg, hname ▸ hd.associated,
              List.mem_append_right _ (List.mem_map_of_mem hmem)⟩
    | machO =>
        rw [hscheme] at hdistributes
        cases hdistributes with
        | @machO pairs plain hpairs hplain =>
            obtain ⟨hfirst, hsecond⟩ := filter_descriptors hpairs hplain
            rw [Module.Ties, hin, hin, hfirst, hsecond, hused]
            refine ⟨pairs, rfl, rfl, (forall₂_comp hdescribed (forall₂_mem hpairs)).imp ?_⟩
            rintro id pair ⟨r, ⟨g, hg, hname, -⟩, hbound, -, hmem⟩
            have hkept : ∀ part ∈ [pair.1, pair.2], part.name ∈ m.used ++
                (pairs.flatMap fun pair => [pair.1, pair.2]).map Global.name :=
              fun part hpart => List.mem_append_right _
                (List.mem_map_of_mem (List.mem_flatMap.mpr ⟨pair, hmem, hpart⟩))
            refine ⟨g, hg, ?_, hkept _ (by simp), hkept _ (by simp)⟩
            rw [Global.fields, hbound.init, hname]

/-! ### Constructor and destructor -/

theorem functionNamed_ctor (run : GlobalsRun config m store ids) (hproper : Proper m ids)
    (hnames : m.Unreserved) :
    run.module.functionNamed EntryPoint.moduleCtor = some run.ctor ∧
      run.ctor.calls run.module.symbols =
        (Annex.starters config).map (fun name => ⟨some (.address name), []⟩) ++
          run.registration.toList.map fun r => ⟨some (.address r.register),
            r.argCode.map (Op.argument? run.module.symbols)⟩ := by
  obtain ⟨hbracketed, -⟩ := run.bracketed_spec hproper
  -- what comes behind the constructor leaves it where it is
  have hgrows := run.growsTo_module
  refine ⟨Module.functionNamed_eq_some (hbracketed.taken_cases hproper.formed.named).1
    (hbracketed.not_taken hproper.formed hnames ⟨.ctor, "", fun _ => rfl⟩ rfl ?_)
    ⟨hgrows.symbols, hgrows.functions⟩ (hgrows.symbols _ _ run.names_ctor),
    Annex.calls_makeCtor (run.symbols_bracketed.trans hgrows.symbols)⟩
  rintro (hkind | ⟨-, hkind⟩)
  · cases hkind
  · exact absurd hkind (by decide)

theorem functionNamed_dtor (run : GlobalsRun config m store ids) (hproper : Proper m ids)
    (hnames : m.Unreserved) {r : Registration} (hr : run.registration = some r) :
    ∃ dtor, run.module.functionNamed EntryPoint.moduleDtor = some dtor ∧
      dtor.calls run.module.symbols =
        [⟨some (.address r.unregister), r.argCode.map (Op.argument? run.module.symbols)⟩] := by
  have hmakes : Annex.Makes config.mapping.granularity run.reach _ run.started _ :=
    run.started.makes_makeDtor run.uses r
  have hdtor := (run.started_spec hproper).trans_right hmakes
  have hclosed : run.closed.1 = (run.started.makeDtor run.uses r).1.module.addDtor
      (run.started.makeDtor run.uses r).2.2 := by
    unfold closed
    rw [hr]
  have hgrows : run.closed.1.GrowsTo run.module := Module.growsTo_declareAll _ _
  rw [hclosed] at hgrows
  refine ⟨(run.started.makeDtor run.uses r).2.2,
    Module.functionNamed_eq_some (hdtor.taken_cases hproper.formed.named).1
      (hdtor.not_taken hproper.formed hnames ⟨.dtor, "", fun _ => rfl⟩ rfl ?_)
      ⟨hgrows.symbols, hgrows.functions⟩
      (hgrows.symbols _ _ (run.started.names_makeDtor run.uses r)),
    Annex.calls_makeDtor hgrows.symbols⟩
  rintro ((hkind | ⟨-, hkind⟩) | hkind)
  · cases hkind
  · exact absurd hkind (by decide)
  · cases hkind

/-- Where nothing is registered, the constructor only starts the runtime. -/
theorem calls_of_nil (run : GlobalsRun config m store ids) (hproper : Proper m ids)
    (hnames : m.Unreserved) (hnil : run.globals = []) :
    run.ctor.calls run.module.symbols =
        (Annex.starters config).map (fun name => ⟨some (.address name), []⟩) ∧
      run.module.functionNamed EntryPoint.moduleDtor = none := by
  obtain ⟨-, hcalls⟩ := run.functionNamed_ctor hproper hnames
  have hnone := run.registration_eq_none_iff.mpr hnil
  rw [hnone, Option.toList_none, List.map_nil, List.append_nil] at hcalls
  exact ⟨hcalls, Module.functionNamed_eq_none
    (run.not_taken_module hproper hnames hnone ⟨.dtor, "", fun _ => rfl⟩ (.inr rfl))⟩

/-- Constructor and destructor pass on what leads to the descriptors. -/
theorem calls_of_ne_nil (run : GlobalsRun config m store ids) (hproper : Proper m ids)
    (hnames : m.Unreserved) (hsome : run.globals ≠ []) :
    let args := (config.scheme.arguments run.globals.length).map some
    run.ctor.calls run.module.symbols =
        (Annex.starters config).map (fun name => ⟨some (.address name), []⟩) ++
          [⟨some (.address config.scheme.register), args⟩] ∧
      ∃ dtor, run.module.functionNamed EntryPoint.moduleDtor = some dtor ∧
        dtor.calls run.module.symbols =
          [⟨some (.address config.scheme.unregister), args⟩] := by
  obtain ⟨-, hcalls⟩ := run.functionNamed_ctor hproper hnames
  rcases run.registers with ⟨hnil, -⟩ | ⟨r, -, hadded, hr⟩
  · exact absurd hnil hsome
  · obtain ⟨hregister, hunregister, hargs⟩ :=
      Annex.addRegistration_arguments hadded run.symbols_registered
    obtain ⟨dtor, hdtor, hdtorCalls⟩ := run.functionNamed_dtor hproper hnames hr
    rw [hr, Option.toList_some, List.map_singleton, hargs, hregister] at hcalls
    rw [hargs, hunregister] at hdtorCalls
    exact ⟨hcalls, dtor, hdtor, hdtorCalls⟩

end GlobalsRun

theorem globalRedzone_pos (size granularity : Nat) : 0 < globalRedzone size granularity := by
  have hquarter :
      0 < min (max (size / minGlobalRedzone granularity / 4 * minGlobalRedzone granularity)
        (minGlobalRedzone granularity)) maxGlobalRedzone := by
    simp [minGlobalRedzone, maxGlobalRedzone]
  unfold globalRedzone
  dsimp only
  split
  · exact hquarter
  · exact Nat.add_pos_left hquarter _

/-- Where a run over the globals of a verified module without reserved names changes it, the
descriptors tell, in order, about the globals that get a redzone.  They are tied to these globals as
the scheme asks for.  The module's constructor starts the runtime, and if there are descriptors,
constructor and destructor pass the same arguments to the routines that register and unregister
them. -/
theorem Module.instrumentGlobals_registers {config : Config} {m m' : Module} {store : Annotations}
    {outcome : Outcome} (hverify : m.verify = .ok []) (hnames : m.Unreserved)
    (h : m.instrumentGlobals config store = .ok (m', .ok outcome))
    (hchanged : outcome.changed = true) :
    ∃ ids : List GlobalId, ids.Nodup ∧
      (∀ id, id ∈ ids ↔ ∃ g g', m.globals[id]? = some g ∧ m'.globals[id]? = some g' ∧
        g.size < g'.size) ∧
      List.Forall₂ (fun id fields => ∃ g, m'.globals[id]? = some g ∧
        Tells g (store.get id).dynInit fields) ids (m'.descriptors m.globals.size config.scheme) ∧
      m'.Ties m.globals.size ids config.scheme ∧
      ∃ ctor, m'.functionNamed EntryPoint.moduleCtor = some ctor ∧
        let starts : List RoutineCall :=
          (Annex.starters config).map fun name => ⟨some (.address name), []⟩
        let args := (config.scheme.arguments
          (m'.descriptors m.globals.size config.scheme).length).map some
        if ids = [] then
          ctor.calls m'.symbols = starts ∧ m'.functionNamed EntryPoint.moduleDtor = none
        else
          ctor.calls m'.symbols = starts ++ [⟨some (.address config.scheme.register), args⟩] ∧
            ∃ dtor, m'.functionNamed EntryPoint.moduleDtor = some dtor ∧
              dtor.calls m'.symbols = [⟨some (.address config.scheme.unregister), args⟩] := by
  have hformed := verify_eq_nil_iff.mp hverify
  cases (instrumentGlobals_run h).2 with
  | present => cases hchanged
  | idle => cases hchanged
  | @changed candidates _ hcandidates run =>
      have hproper := GlobalsRun.Proper.of_candidates hformed hcandidates
      have hdescribed := run.described hproper
      obtain ⟨hctor, -⟩ := run.functionNamed_ctor hproper hnames
      refine ⟨candidates.ids, hproper.nodup, fun id => ?_, ?_, run.ties_module hproper, run.ctor,
        hctor, ?_⟩
      · -- a redzone is never empty
        constructor
        · intro hid
          have hg := Array.getElem?_eq_getElem (hproper.bound id hid)
          have hg' := run.globals_module hproper hg
          rw [if_pos hid] at hg'
          exact ⟨_, _, hg, hg', Nat.lt_add_of_pos_right (globalRedzone_pos _ _)⟩
        · rintro ⟨g, g', hg, hg', hlt⟩
          by_contra hid
          rw [run.globals_module hproper hg, if_neg hid] at hg'
          cases hg'
          exact absurd hlt (Nat.lt_irrefl _)
      · rw [run.descriptors_module hproper hnames, List.forall₂_map_right_iff]
        exact hdescribed.imp fun id r ⟨g, hg, _, htells⟩ => ⟨g, hg, htells⟩
      · dsimp only
        rw [run.descriptors_module hproper hnames, List.length_map]
        split
        · rename_i hnil
          exact run.calls_of_nil hproper hnames ((run.globals_eq_nil_iff hproper).mpr hnil)
        · rename_i hsome
          exact run.calls_of_ne_nil hproper hnames fun hnil =>
            hsome ((run.globals_eq_nil_iff hproper).mp hnil)

theorem instrumentGlobals_registers_shop :
    ∃ m' outcome id fields,
      shopModule.instrumentGlobals {} (.ofModule shopModule) = .ok (m', .ok outcome) ∧
      m'.descriptors 2 .elf = [fields] ∧
      (∃ g, m'.globals[id]? = some g ∧
        Tells g ((Annotations.ofModule shopModule).get id).dynInit fields) ∧
      ∃ ctor dtor args, m'.functionNamed EntryPoint.moduleCtor = some ctor ∧
        m'.functionNamed EntryPoint.moduleDtor = some dtor ∧
        (ctor.calls m'.symbols).getLast? =
          some ⟨some (.address EntryPoint.registerElfGlobals), args⟩ ∧
        dtor.calls m'.symbols = [⟨some (.address EntryPoint.unregisterElfGlobals), args⟩] := by
  obtain ⟨m', outcome, hrun, hsucceeds⟩ := Module.exists_of_succeeds
    (shopModule.instrumentGlobals {} (.ofModule shopModule))
    (fun m' outcome => decide (outcome.changed = true ∧ (m'.descriptors 2 .elf).length = 1))
    (by decide +kernel)
  obtain ⟨hchanged, hcount⟩ := of_decide_eq_true hsucceeds
  obtain ⟨ids, -, -, htells, -, ctor, hctor, hcalls⟩ := Module.instrumentGlobals_registers
    (by decide +kernel) (Module.unreserved_of_names (by decide +kernel)) hrun hchanged
  obtain ⟨fields, hfields⟩ := List.length_eq_one_iff.mp hcount
  have htells : List.Forall₂ _ ids (m'.descriptors 2 .elf) := htells
  rw [hfields] at htells
  cases htells with
  | @cons id _ _ _ hfirst hrest =>
      obtain rfl := List.forall₂_nil_right_iff.mp hrest
      obtain ⟨hctorCalls, dtor, hdtor, hdtorCalls⟩ := hcalls
      refine ⟨m', outcome, id, fields, hrun, hfields, hfirst, ctor, dtor, _, hctor, hdtor, ?_,
        hdtorCalls⟩
      rw [hctorCalls]
      exact List.getLast?_concat

end Redzone
