import Redzone.Proofs.Modules.GlobalsRun

/-!
# Globals that are appended to a module

A run over the globals changes those that get a redzone in place and appends all others.  What it
appends are the descriptors, in sections of their own, and globals without a section.  The lemmas
here follow both through the stages of a run.
-/

namespace Redzone

/-- Whether a global lies in a section. -/
def Global.isIn (place : String) (g : Global) : Bool := g.sectionName = some place

theorem filter_isIn_eq_nil {place : String} {globals : List Global}
    (h : ∀ g ∈ globals, g.sectionName = none) : globals.filter (Global.isIn place) = [] := by
  rw [List.filter_eq_nil_iff]
  intro g hg
  simp [Global.isIn, h g hg]

namespace Module

/-- The globals that are numbered from `n` on. -/
def globalsFrom (m : Module) (n : GlobalId) : List Global := m.globals.toList.drop n

/-- Those of them that lie in a section. -/
def globalsIn (m : Module) (n : GlobalId) (place : String) : List Global :=
  (m.globalsFrom n).filter (Global.isIn place)

/-- Globals were appended to a module, and symbols to those that are kept. -/
structure Appends (added : List Global) (kept : List SymbolId) (m m' : Module) : Prop where
  globals : m'.globals.toList = m.globals.toList ++ added
  used : m'.used = m.used ++ kept

/-- Globals without a section were appended. -/
def AppendsPlain (m m' : Module) : Prop :=
  ∃ added, Appends added [] m m' ∧ ∀ g ∈ added, g.sectionName = none

variable {added more : List Global} {kept others : List SymbolId} {m m₁ m₂ m' : Module}

namespace Appends

theorem of_eq (hglobals : m'.globals = m.globals) (hused : m'.used = m.used) :
    Appends [] [] m m' := by
  constructor
  · rw [hglobals, List.append_nil]
  · rw [hused, List.append_nil]

theorem trans (h : Appends added kept m m₁) (h' : Appends more others m₁ m₂) :
    Appends (added ++ more) (kept ++ others) m m₂ := by
  constructor
  · rw [h'.globals, h.globals, List.append_assoc]
  · rw [h'.used, h.used, List.append_assoc]

theorem trans_nil (h : Appends added kept m m₁) (h' : Appends more [] m₁ m₂) :
    Appends (added ++ more) kept m m₂ := by
  have hboth := h.trans h'
  rwa [List.append_nil] at hboth

theorem global (h : Appends added kept m m') {id : GlobalId} {g : Global}
    (hg : m.globals[id]? = some g) : m'.globals[id]? = some g := by
  rw [← Array.getElem?_toList] at hg ⊢
  rw [h.globals, List.getElem?_append_left (List.getElem?_eq_some_iff.mp hg).1]
  exact hg

theorem globalsFrom (h : Appends added kept m m') {n : GlobalId} (hn : n ≤ m.globals.size) :
    m'.globalsFrom n = m.globalsFrom n ++ added := by
  rw [Module.globalsFrom, h.globals, List.drop_append_of_le_length (by simpa using hn)]
  rfl

theorem size_le (h : Appends added kept m m') : m.globals.size ≤ m'.globals.size := by
  rw [← Array.length_toList, ← Array.length_toList, h.globals, List.length_append]
  exact Nat.le_add_right _ _

end Appends

namespace AppendsPlain

theorem of_eq (hglobals : m'.globals = m.globals) (hused : m'.used = m.used) :
    AppendsPlain m m' := ⟨[], .of_eq hglobals hused, by simp⟩

theorem trans (h : AppendsPlain m m₁) (h' : AppendsPlain m₁ m₂) : AppendsPlain m m₂ := by
  obtain ⟨added, happends, hplain⟩ := h
  obtain ⟨more, happends', hplain'⟩ := h'
  refine ⟨added ++ more, happends.trans happends', fun g hg => ?_⟩
  exact (List.mem_append.mp hg).elim (hplain g) (hplain' g)

end AppendsPlain

end Module

namespace Annex

variable {config : Config} {store : Annotations} {a a' : Annex} {r : Registered}

theorem appends_addGlobal (a : Annex) (g : Global) :
    Module.Appends [g] [] a.module (a.addGlobal g).module :=
  ⟨Array.toList_push, (List.append_nil _).symm⟩

theorem appends_keep (a : Annex) (symbol : SymbolId) :
    Module.Appends [] [symbol] a.module (a.keep symbol).module :=
  ⟨(List.append_nil _).symm, rfl⟩

theorem appends_intern (a : Annex) (name : String) :
    Module.Appends [] [] a.module (a.intern name).1.module := .of_eq rfl rfl

theorem plain_intern (a : Annex) (name : String) :
    Module.AppendsPlain a.module (a.intern name).1.module := .of_eq rfl rfl

theorem plain_addGlobal (a : Annex) {g : Global} (hplain : g.sectionName = none) :
    Module.AppendsPlain a.module (a.addGlobal g).module :=
  ⟨[g], a.appends_addGlobal g, fun _ hg => List.mem_singleton.mp hg ▸ hplain⟩

theorem appends_addConstant (a : Annex) (name : String) (init : Initializer) (align : Nat) :
    ∃ g : Global, g.name = (a.addConstant name init align).2 ∧ g.init = some init ∧
      g.sectionName = none ∧
      Module.Appends [g] [] a.module (a.addConstant name init align).1.module :=
  ⟨_, rfl, rfl, rfl, (a.appends_intern name).trans (appends_addGlobal _ _)⟩

theorem plain_addConstant (a : Annex) (name : String) (init : Initializer) (align : Nat) :
    Module.AppendsPlain a.module (a.addConstant name init align).1.module :=
  (a.plain_intern name).trans (plain_addGlobal _ rfl)

theorem plain_addString (a : Annex) (text : String) :
    Module.AppendsPlain a.module (a.addString text).1.module :=
  plain_addConstant { a with strings := a.strings + 1 } _ _ _

theorem plain_moduleName (a : Annex) : Module.AppendsPlain a.module a.moduleName.1.module := by
  unfold moduleName
  split
  · exact .of_eq rfl rfl
  · exact a.plain_addConstant _ _ _

theorem plain_locationField (a : Annex) (loc : SourceLocation) :
    Module.AppendsPlain a.module (a.locationField loc).1.module := by
  unfold locationField
  split
  · exact .of_eq rfl rfl
  · exact (a.plain_addString loc.file).trans (plain_addConstant _ _ _ _)

theorem plain_indicatorField (a : Annex) (config : Config) (name : String) (g : Global) :
    Module.AppendsPlain a.module (a.indicatorField config name g).1.module := by
  unfold indicatorField
  split
  · exact (a.plain_intern _).trans (plain_addGlobal _ rfl)
  · exact .of_eq rfl rfl

theorem plain_addUnlessNamed (a : Annex) (name : String) {make : SymbolId → Global}
    (hplain : ∀ symbol, (make symbol).sectionName = none) :
    Module.AppendsPlain a.module (a.addUnlessNamed name make).1.module := by
  unfold addUnlessNamed
  dsimp only
  split
  · exact a.plain_intern name
  · exact (a.plain_intern name).trans (plain_addGlobal _ (hplain _))

theorem plain_registeredFlag (a : Annex) :
    Module.AppendsPlain a.module a.registeredFlag.1.module := a.plain_addUnlessNamed _ fun _ => rfl

theorem plain_sectionBound (a : Annex) (name : String) :
    Module.AppendsPlain a.module (a.sectionBound name).1.module :=
  a.plain_addUnlessNamed _ fun _ => rfl

/-! ### Redzones -/

/-- Where globals numbered below `n` get redzones, what is appended behind `n` has no section. -/
theorem addRedzone_globalsFrom {id n : Nat} (h : addRedzone config store a id = .ok (a', r))
    (hid : id < n) (hn : n ≤ a.module.globals.size) :
    (∃ added, a'.module.globalsFrom n = a.module.globalsFrom n ++ added ∧
        ∀ g ∈ added, g.sectionName = none) ∧
      a'.module.used = a.module.used ∧ n ≤ a'.module.globals.size := by
  unfold addRedzone at h
  obtain ⟨g, -, h⟩ := bind_eq_ok h
  obtain ⟨name, -, h⟩ := bind_eq_ok h
  obtain ⟨size, -, h⟩ := bind_eq_ok h
  obtain ⟨grown, hwith, h⟩ := bind_eq_ok h
  obtain rfl := Global.withRedzone_eq_ok hwith
  dsimp only at h
  have hrest : ∀ (text : String) (loc : SourceLocation) (first : Annex),
      Module.AppendsPlain first.module
        (((first.addString text).1.moduleName.1.locationField loc).1.indicatorField config name
          g).1.module :=
    fun text loc first => (first.plain_addString text).trans ((plain_moduleName _).trans
      ((plain_locationField _ loc).trans (plain_indicatorField _ config name g)))
  cases h
  obtain ⟨added, happends, hplain⟩ := hrest
    (if (store.get id).name.isEmpty then name else (store.get id).name) (store.get id).location
    { a with module := a.module.setGlobal id (g.grown config.mapping.granularity) }
  -- the redzone itself is below `n` and moves nothing
  have hn' : n ≤ (a.module.setGlobal id (g.grown config.mapping.granularity)).globals.size := by
    simpa [Module.setGlobal] using hn
  refine ⟨⟨added, ?_, hplain⟩, happends.used.trans (List.append_nil _), hn'.trans happends.size_le⟩
  rw [happends.globalsFrom hn', Module.globalsFrom, Module.globalsFrom, Module.setGlobal,
    Array.toList_setIfInBounds, List.drop_set_of_lt hid]

theorem addRedzones_globalsFrom {ids : List GlobalId} {n : Nat} {registered : List Registered}
    (h : addRedzones config store a ids = .ok (a', registered)) (hids : ∀ id ∈ ids, id < n)
    (hn : n ≤ a.module.globals.size) :
    (∃ added, a'.module.globalsFrom n = a.module.globalsFrom n ++ added ∧
        ∀ g ∈ added, g.sectionName = none) ∧
      a'.module.used = a.module.used ∧ n ≤ a'.module.globals.size := by
  induction ids generalizing a registered with
  | nil =>
      cases h
      exact ⟨⟨[], (List.append_nil _).symm, by simp⟩, rfl, hn⟩
  | cons id rest ih =>
      unfold addRedzones at h
      obtain ⟨⟨a₁, first⟩, hfirst, h⟩ := bind_eq_ok h
      obtain ⟨⟨a₂, others⟩, hothers, h⟩ := bind_eq_ok h
      cases h
      rw [List.forall_mem_cons] at hids
      obtain ⟨⟨added, hadded, hplain⟩, hused, hn₁⟩ := addRedzone_globalsFrom hfirst hids.1 hn
      obtain ⟨⟨more, hmore, hplain'⟩, hused', hn₂⟩ := ih hothers hids.2 hn₁
      refine ⟨⟨added ++ more, ?_, fun g hg => ?_⟩, hused'.trans hused, hn₂⟩
      · rw [hmore, hadded, List.append_assoc]
      · exact (List.mem_append.mp hg).elim (hplain g) (hplain' g)

/-! ### Descriptors -/

/-- A global that holds a descriptor. -/
structure IsDescriptor (place : String) (associated : Option SymbolId) (r : Registered)
    (d : Global) : Prop where
  place : d.sectionName = some place
  associated : d.associated = associated
  init : d.init = some (.fields r.descriptor)

/-- A descriptor and the pair that keeps it alive. -/
structure IsBound (r : Registered) (pair : Global × Global) : Prop where
  descriptor : IsDescriptor EntryPoint.machOSection none r pair.1
  place : pair.2.sectionName = some EntryPoint.machOLiveness
  init : pair.2.init = some (.fields [.addr r.symbol, .addr pair.1.name])

theorem addDescriptor_appends {place : String} {associated : Option SymbolId} {symbol : SymbolId}
    (h : a.addDescriptor place associated r = .ok (a', symbol)) :
    ∃ d, IsDescriptor place associated r d ∧ d.name = symbol ∧
      Module.Appends [d] [d.name] a.module a'.module := by
  unfold addDescriptor at h
  obtain ⟨name, -, h⟩ := bind_eq_ok h
  dsimp only at h
  cases h
  refine ⟨
    { name := (a.intern (EntryPoint.descriptor name)).2, size := EntryPoint.descriptorSize,
      align := 8, linkage := .priv, sectionName := some place, associated := associated,
      init := some (.fields r.descriptor) }, ⟨rfl, rfl, rfl⟩, rfl, ?_⟩
  exact (a.appends_intern (EntryPoint.descriptor name)).trans
    ((appends_keep _ _).trans (appends_addGlobal _ _))

theorem addElfDescriptor_appends (h : a.addElfDescriptor r = .ok a') :
    ∃ d, IsDescriptor EntryPoint.elfSection (some r.symbol) r d ∧
      Module.Appends [d] [d.name] a.module a'.module := by
  unfold addElfDescriptor at h
  obtain ⟨⟨a₁, symbol⟩, hadded, h⟩ := bind_eq_ok h
  cases h
  obtain ⟨d, hd, -, happends⟩ := addDescriptor_appends hadded
  exact ⟨d, hd, happends⟩

theorem addMachODescriptor_appends (h : a.addMachODescriptor r = .ok a') :
    ∃ pair : Global × Global, IsBound r pair ∧
      Module.Appends [pair.1, pair.2] [pair.1.name, pair.2.name] a.module a'.module := by
  unfold addMachODescriptor at h
  obtain ⟨⟨a₁, symbol⟩, hadded, h⟩ := bind_eq_ok h
  obtain ⟨d, hd, rfl, happends⟩ := addDescriptor_appends hadded
  unfold addBinder at h
  obtain ⟨name, -, h⟩ := bind_eq_ok h
  dsimp only at h
  cases h
  refine ⟨⟨d,
    { name := (a₁.intern (EntryPoint.binder name)).2, size := 16, align := 8, linkage := .priv,
      sectionName := some EntryPoint.machOLiveness,
      init := some (.fields [.addr r.symbol, .addr d.name]) }⟩, ⟨hd, rfl, rfl⟩, ?_⟩
  exact happends.trans ((a₁.appends_intern (EntryPoint.binder name)).trans
    ((appends_addGlobal _ _).trans (appends_keep _ _)))

/-- Descriptors are appended one after the other, and all their symbols are kept. -/
theorem appends_descriptors {β : Type} {next : Annex → Registered → Except Fault Annex}
    (parts : β → List Global) {P : Registered → β → Prop} {registered : List Registered}
    (h : registered.foldlM next a = .ok a')
    (hnext : ∀ a a' r, next a r = .ok a' →
      ∃ b, P r b ∧ Module.Appends (parts b) ((parts b).map Global.name) a.module a'.module) :
    ∃ bs : List β, List.Forall₂ P registered bs ∧
      Module.Appends (bs.flatMap parts) ((bs.flatMap parts).map Global.name) a.module
        a'.module := by
  induction registered generalizing a with
  | nil =>
      cases h
      exact ⟨[], .nil, .of_eq rfl rfl⟩
  | cons first rest ih =>
      obtain ⟨a₁, ha₁, h⟩ := foldlM_cons_eq_ok h
      obtain ⟨b, hb, happends⟩ := hnext _ _ _ ha₁
      obtain ⟨bs, hbs, happends'⟩ := ih h
      refine ⟨b :: bs, .cons hb hbs, ?_⟩
      rw [List.flatMap_cons, List.map_append]
      exact happends.trans happends'

/-- How a registration distributes descriptors over the globals that it appends, and the symbols
that it keeps. -/
inductive Distributes (registered : List Registered) : Scheme → List Global → List SymbolId → Prop
  | flat {table : Global}
      (htable : table.init = some (.fields (registered.flatMap Registered.descriptor))) :
      Distributes registered .flat [table] []
  | elf {descriptors plain : List Global}
      (hdescriptors : List.Forall₂
        (fun r d => IsDescriptor EntryPoint.elfSection (some r.symbol) r d) registered descriptors)
      (hplain : ∀ g ∈ plain, g.sectionName = none) :
      Distributes registered .elf (descriptors ++ plain) (descriptors.map Global.name)
  | machO {pairs : List (Global × Global)} {plain : List Global}
      (hpairs : List.Forall₂ IsBound registered pairs)
      (hplain : ∀ g ∈ plain, g.sectionName = none) :
      Distributes registered .machO ((pairs.flatMap fun pair => [pair.1, pair.2]) ++ plain)
        ((pairs.flatMap fun pair => [pair.1, pair.2]).map Global.name)

theorem addRegistration_distributes {registered : List Registered} {scheme : Scheme}
    {r : Registration} (h : a.addRegistration registered scheme = .ok (a', r)) :
    ∃ added kept, Distributes registered scheme added kept ∧
      Module.Appends added kept a.module a'.module := by
  cases scheme with
  | flat =>
      obtain ⟨rfl, -⟩ := Prod.mk.inj (Except.ok.inj h)
      obtain ⟨table, -, htable, -, happends⟩ :=
        a.appends_addConstant (EntryPoint.generated "globals")
        (.fields (registered.flatMap Registered.descriptor)) 8
      exact ⟨_, _, .flat htable, happends⟩
  | elf =>
      unfold addRegistration at h
      obtain ⟨a₁, ha₁, h⟩ := bind_eq_ok h
      dsimp only at h
      cases h
      obtain ⟨descriptors, hdescriptors, happends⟩ :=
        appends_descriptors (fun d => [d]) ha₁ fun _ _ _ => addElfDescriptor_appends
      obtain ⟨plain, hrest, hplain⟩ := a₁.plain_registeredFlag.trans
        ((plain_sectionBound _ EntryPoint.elfStart).trans (plain_sectionBound _ EntryPoint.elfStop))
      rw [List.flatMap_singleton'] at happends
      exact ⟨_, _, .elf hdescriptors hplain, happends.trans_nil hrest⟩
  | machO =>
      unfold addRegistration at h
      obtain ⟨a₁, ha₁, h⟩ := bind_eq_ok h
      dsimp only at h
      cases h
      obtain ⟨pairs, hpairs, happends⟩ :=
        appends_descriptors (fun pair : Global × Global => [pair.1, pair.2]) ha₁
          fun _ _ _ => addMachODescriptor_appends
      obtain ⟨plain, hrest, hplain⟩ := a₁.plain_registeredFlag
      exact ⟨_, _, .machO hpairs hplain, happends.trans_nil hrest⟩

/-! ### Constructor and destructor -/

theorem plain_useAll (a : Annex) (uses : RuntimeUses) (names : List String) :
    Module.AppendsPlain a.module (a.useAll uses names).1.module := by
  induction names generalizing a uses with
  | nil => exact .of_eq rfl rfl
  | cons name rest ih => exact (a.plain_intern name).trans (ih _ _)

theorem plain_makeCtor (config : Config) (a : Annex) (registration : Option Registration) :
    Module.AppendsPlain a.module (a.makeCtor config registration).1.module := by
  have hstart : Module.AppendsPlain a.module (a.start config).1.module :=
    (a.plain_intern _).trans (plain_useAll _ _ _)
  cases registration with
  | none => exact hstart
  | some r => exact hstart.trans (plain_intern _ r.register)

theorem plain_bracketInitializers {uses uses' : RuntimeUses} {wrapped : Nat}
    (h : a.bracketInitializers uses = .ok (a', uses', wrapped)) :
    Module.AppendsPlain a.module a'.module := by
  obtain ⟨m, hm, rfl, -, -⟩ := bracketInitializers_eq_ok h
  have hnames : Module.AppendsPlain a.module a.bracketNames.module :=
    a.plain_moduleName.trans ((plain_intern _ _).trans (plain_intern _ _))
  refine hnames.trans (.of_eq ?_ ?_)
  · exact (congrArg Module.globals (Module.rest_of_brackets hm) :)
  · exact (congrArg Module.used (Module.rest_of_brackets hm) :)

end Annex

theorem Module.plain_declareAll (m : Module) (uses : RuntimeUses) :
    Module.AppendsPlain m (uses.declareAll m) := by
  unfold RuntimeUses.declareAll
  generalize uses.routines.entries = entries
  induction entries generalizing m with
  | nil => exact .of_eq rfl rfl
  | cons entry rest ih =>
      have hdeclare : Module.AppendsPlain m
          (m.declare entry.1 entry.2.params entry.2.ret).1 := by
        rcases m.declare_cases entry.1 entry.2.params entry.2.ret with heq | ⟨heq, -⟩
        · rw [heq]
          exact .of_eq rfl rfl
        · rw [heq]
          exact .of_eq rfl rfl
      exact hdeclare.trans (ih _)

namespace GlobalsRun

variable {config : Config} {m : Module} {store : Annotations} {ids : List GlobalId}

/-- Behind the descriptors, nothing is appended to a section. -/
theorem plain_module (run : GlobalsRun config m store ids) :
    Module.AppendsPlain run.registered.module run.module := by
  have hbracketed : Module.AppendsPlain (run.registered.makeCtor config run.registration).1.module
      run.bracketed.module := by
    have hbrackets := run.brackets
    split at hbrackets
    · exact Annex.plain_bracketInitializers hbrackets
    · rw [← (Prod.mk.inj (Except.ok.inj hbrackets)).1]
      exact .of_eq rfl rfl
  have hclosed : Module.AppendsPlain run.bracketed.module run.closed.1 := by
    unfold closed
    split
    · exact .of_eq rfl rfl
    · rename_i r _
      have hdtor : Module.AppendsPlain run.started.module
        (run.started.makeDtor run.uses r).1.module :=
        (run.started.plain_intern _).trans (Annex.plain_intern _ r.unregister)
      have hstarted : Module.AppendsPlain run.bracketed.module run.started.module := .of_eq rfl rfl
      exact hstarted.trans (hdtor.trans (.of_eq rfl rfl))
  exact (Annex.plain_makeCtor config run.registered run.registration).trans
    (hbracketed.trans (hclosed.trans (Module.plain_declareAll _ _)))

/-- What a run appends to sections are descriptors, and their symbols are kept. -/
theorem globalsIn_module (run : GlobalsRun config m store ids)
    (hids : ∀ id ∈ ids, id < m.globals.size) :
    ∃ added kept,
      (∀ place, run.module.globalsIn m.globals.size place = added.filter (Global.isIn place)) ∧
      run.module.used = m.used ++ kept ∧
      (run.globals = [] ∧ added = [] ∧ kept = [] ∨
        run.globals ≠ [] ∧ Annex.Distributes run.globals config.scheme added kept) := by
  obtain ⟨⟨front, hfront, hplain⟩, hused, hsize⟩ :=
    Annex.addRedzones_globalsFrom run.pads hids le_rfl
  have hstart : Module.globalsFrom m m.globals.size = [] := List.drop_eq_nil_of_le (by simp)
  obtain ⟨back, hback, hplain'⟩ := run.plain_module
  obtain ⟨added, kept, hadded, hcases⟩ : ∃ added kept,
      Module.Appends added kept run.padded.module run.registered.module ∧
        (run.globals = [] ∧ added = [] ∧ kept = [] ∨
          run.globals ≠ [] ∧ Annex.Distributes run.globals config.scheme added kept) := by
    rcases run.registers with ⟨hnil, hsame, -⟩ | ⟨r, hsome, hadded, -⟩
    · rw [hsame]
      exact ⟨[], [], .of_eq rfl rfl, .inl ⟨hnil, rfl, rfl⟩⟩
    · obtain ⟨added, kept, hdistributes, happends⟩ := Annex.addRegistration_distributes hadded
      exact ⟨added, kept, happends, .inr ⟨hsome, hdistributes⟩⟩
  refine ⟨added, kept, fun place => ?_, ?_, hcases⟩
  · have hall : run.module.globalsFrom m.globals.size = front ++ added ++ back := by
      rw [hback.globalsFrom (hsize.trans hadded.size_le), hadded.globalsFrom hsize, hfront, hstart,
        List.nil_append]
    calc run.module.globalsIn m.globals.size place
        = (front ++ added ++ back).filter (Global.isIn place) := by rw [Module.globalsIn, hall]
      _ = front.filter (Global.isIn place) ++ added.filter (Global.isIn place) ++
            back.filter (Global.isIn place) := by rw [List.filter_append, List.filter_append]
      _ = added.filter (Global.isIn place) := by
          rw [filter_isIn_eq_nil hplain, filter_isIn_eq_nil hplain', List.nil_append,
            List.append_nil]
  · rw [hback.used, hadded.used, hused, List.append_nil]

theorem global_module (run : GlobalsRun config m store ids) {id : GlobalId} {g : Global}
    (hg : run.padded.module.globals[id]? = some g) : run.module.globals[id]? = some g := by
  obtain ⟨back, hback, -⟩ := run.plain_module
  refine hback.global ?_
  rcases run.registers with ⟨-, hsame, -⟩ | ⟨r, -, hadded, -⟩
  · rw [hsame]
    exact hg
  · obtain ⟨added, kept, -, happends⟩ := Annex.addRegistration_distributes hadded
    exact happends.global hg

end GlobalsRun

end Redzone
