import Redzone.Proofs.Modules.Redzones
import Redzone.Proofs.Progress.Brackets

/-!
# The globals of a well-formed module can be instrumented

Every stage of a run over the globals of a well-formed module can be taken.

* **Redzones** (`exists_addRedzones`).  The globals and their names are there, and no contents are
  larger than their global, so that zeros can be written behind them.
* **Descriptors** (`exists_addRegistration`).  They are made for globals that were just described,
  whose names have been known ever since.
* **Brackets** (`Annex.exists_bracketInitializers`).  The constructors that are bracketed have a
  body, whose blocks end in terminators.  A constructor may be bracketed several times, so that what
  one bracketing needs has to be left by the one before (`exists_brackets`).

What such a run leaves of the functions is said by `Module.Wraps`: those that were there have at
most got brackets, and those that are new are exempt.  `Module.Prepares` collects what the runs over
functions that follow have to know of the module.
-/

namespace Redzone

namespace Annex

variable {config : Config} {store : Annotations} {a : Annex}

theorem exists_addRedzone {id : GlobalId} {g : Global} (hg : a.module.globals[id]? = some g)
    (hname : a.module.symbols.contains g.name = true) (hfits : g.Fits)
    (hbound : minGlobalRedzone config.mapping.granularity ≤ maxGlobalRedzone) :
    ∃ a' r, a.addRedzone config store id = .ok (a', r) := by
  obtain ⟨name, hname⟩ := SymbolTable.contains_iff.mp hname
  have hglobal : a.module.global id = .ok g := by
    unfold Module.global
    rw [hg]
  unfold addRedzone
  rw [hglobal, ok_bind, Module.resolve, SymbolTable.resolve_eq_ok_iff.mpr hname, ok_bind]
  dsimp only
  rw [Global.objectSize?, checkedSub_of_le hfits.padding, ok_bind,
    Global.withRedzone_of_le hbound hfits.init, ok_bind]
  exact ⟨_, _, rfl⟩

theorem exists_addRedzones {ids : List GlobalId} (hnodup : ids.Nodup)
    (hbound : minGlobalRedzone config.mapping.granularity ≤ maxGlobalRedzone)
    (hnamed : ∀ id ∈ ids, ∃ g, a.module.globals[id]? = some g ∧
      a.module.symbols.contains g.name = true ∧ g.Fits) :
    ∃ a' registered, addRedzones config store a ids = .ok (a', registered) := by
  induction ids generalizing a with
  | nil => exact ⟨a, [], rfl⟩
  | cons id rest ih =>
      rw [List.forall_mem_cons] at hnamed
      rw [List.nodup_cons] at hnodup
      obtain ⟨⟨g, hg, hname, hfits⟩, hrest⟩ := hnamed
      obtain ⟨a₁, r, hfirst⟩ : ∃ a₁ r, a.addRedzone config store id = .ok (a₁, r) :=
        exists_addRedzone hg hname hfits hbound
      obtain ⟨-, -, -, hmakes, -⟩ := addRedzone_eq_ok hfirst
      -- the other globals are as they were
      obtain ⟨a', registered, hothers⟩ := ih (a := a₁) hnodup.2 fun other hother => by
        obtain ⟨g', hg', hname', hfits'⟩ := hrest other hother
        refine ⟨g', hmakes.keeps.globals other g' ?_ hg', hmakes.keeps.symbols.contains hname',
          hfits'⟩
        exact fun heq => hnodup.1 (heq ▸ hother)
      refine ⟨a', r :: registered, ?_⟩
      rw [addRedzones, hfirst, ok_bind]
      simp only [hothers, ok_bind]

/-- Descriptors are added one after the other as long as their globals have names. -/
theorem exists_descriptors {next : Annex → Registered → Except Fault Annex}
    (hnext : ∀ {a : Annex} {r : Registered} {name : String},
      a.module.symbols.names[r.symbol]? = some name → ∃ a', next a r = .ok a')
    (hkeeps : ∀ {a a' : Annex} {r : Registered} {name : String}, next a r = .ok a' →
      a.module.symbols.names[r.symbol]? = some name →
      (Initializer.fields r.descriptor).size = EntryPoint.descriptorSize →
      Makes 0 {} (Tags name) a a')
    {registered : List Registered} (hnamed : ∀ r ∈ registered,
      a.module.symbols.contains r.symbol = true ∧
        (Initializer.fields r.descriptor).size = EntryPoint.descriptorSize) :
    ∃ a', registered.foldlM next a = .ok a' := by
  obtain ⟨a', ha', -⟩ := exists_foldlM
    (fun a rest => ∀ r ∈ rest, (Annex.module a).symbols.contains (Registered.symbol r) = true ∧
      (Initializer.fields r.descriptor).size = EntryPoint.descriptorSize)
    (fun a r rest hrest => by
      rw [List.forall_mem_cons] at hrest
      obtain ⟨name, hname⟩ := SymbolTable.contains_iff.mp hrest.1.1
      obtain ⟨a₁, ha₁⟩ := hnext hname
      have hmakes := hkeeps ha₁ hname hrest.1.2
      exact ⟨a₁, ha₁, fun other hother =>
        ⟨hmakes.keeps.symbols.contains (hrest.2 other hother).1, (hrest.2 other hother).2⟩⟩) hnamed
  exact ⟨a', ha'⟩

theorem exists_addDescriptor {place name : String} {associated : Option SymbolId} {r : Registered}
    (hname : a.module.symbols.names[r.symbol]? = some name) :
    ∃ a' symbol, a.addDescriptor place associated r = .ok (a', symbol) ∧
      a.module.symbols.GrowsTo a'.module.symbols := by
  unfold addDescriptor Module.resolve
  rw [SymbolTable.resolve_eq_ok_iff.mpr hname]
  exact ⟨_, _, rfl, SymbolTable.growsTo_intern _ _⟩

theorem exists_addRegistration {registered : List Registered} (scheme : Scheme)
    (hnamed : ∀ r ∈ registered, a.module.symbols.contains r.symbol = true ∧
      (Initializer.fields r.descriptor).size = EntryPoint.descriptorSize) :
    ∃ a' r, a.addRegistration registered scheme = .ok (a', r) := by
  cases scheme with
  | flat => exact ⟨_, _, rfl⟩
  | elf =>
      obtain ⟨a₁, ha₁⟩ : ∃ a₁, registered.foldlM addElfDescriptor a = .ok a₁ := by
        refine exists_descriptors (fun {a r name} hname => ?_) addElfDescriptor_eq_ok hnamed
        obtain ⟨a', symbol, hadded, -⟩ := exists_addDescriptor hname
        exact ⟨a', by rw [addElfDescriptor, hadded, ok_bind]⟩
      rw [addRegistration, ha₁]
      exact ⟨_, _, rfl⟩
  | machO =>
      obtain ⟨a₁, ha₁⟩ : ∃ a₁, registered.foldlM addMachODescriptor a = .ok a₁ := by
        refine exists_descriptors (fun {a r name} hname => ?_) addMachODescriptor_eq_ok hnamed
        obtain ⟨a', symbol, hadded, hgrows⟩ := exists_addDescriptor hname
        rw [addMachODescriptor, hadded, ok_bind]
        dsimp only
        unfold addBinder Module.resolve
        rw [SymbolTable.resolve_eq_ok_iff.mpr (hgrows _ _ hname)]
        exact ⟨_, rfl⟩
      rw [addRegistration, ha₁]
      exact ⟨_, _, rfl⟩

end Annex

/-! ### Brackets -/

namespace Func

theorem Aside.trans {f g k : Func} (h : f.Aside g) (h' : g.Aside k) : f.Aside k where
  shell := h'.shell.trans h.shell
  blocks := h'.blocks.trans h.blocks
  size := h.size.trans h'.size
  old i hi := (h'.old i (hi.trans_le h.size)).trans (h.old i hi)
  new i instruction hi hinst := by
    by_cases hlt : i < g.insts.size
    · exact h.new i instruction hi ((h'.old i hlt).symm.trans hinst)
    · obtain ⟨hquiet, hreads⟩ := h'.new i instruction (Nat.not_lt.mp hlt) hinst
      refine ⟨hquiet, fun v hv => ?_⟩
      obtain ⟨j, hj, heq⟩ := hreads v hv
      exact ⟨j, h.size.trans hj, heq⟩
  arena := h'.arena
  listed i hi := (h'.listed i (hi.trans_le h.size)).trans (h.listed i hi)
  entry blk hblk := by
    obtain ⟨blk₁, hblk₁, hfilter⟩ := h.entry blk hblk
    obtain ⟨blk₂, hblk₂, hfilter'⟩ := h'.entry blk₁ hblk₁
    refine ⟨blk₂, hblk₂, ?_⟩
    rw [← hfilter, ← hfilter', List.filter_filter]
    refine List.filter_congr fun i _ => ?_
    have hle := h.size
    by_cases hi : i < f.insts.size
    · simp [hi, hi.trans_le hle]
    · simp [hi]

end Func

namespace Module

variable {config : Config} {m m' m₁ m₂ : Module} {store : Annotations}

/-- What is left of the functions of a module: those that were there have got code that reads only
itself, and those that are new need not be instrumented. -/
structure Wraps (m m' : Module) : Prop where
  old : ∀ (id : FuncId) (f : Func), m.functions[id]? = some f →
    ∃ g, m'.functions[id]? = some g ∧ f.Aside g ∧ g.Sound m'.symbols
  new : ∀ (id : FuncId) (g : Func), m.functions.size ≤ id → m'.functions[id]? = some g →
    g.sanitized = true ∨ g.isDeclaration = true

namespace Wraps

theorem of_functions_eq (hsound : ∀ f ∈ m.functions, f.Sound m.symbols)
    (hfunctions : m'.functions = m.functions) (hsymbols : m.symbols.GrowsTo m'.symbols) :
    Wraps m m' where
  old _ f hf := by
    have hf' := hsound f (Array.mem_of_getElem? hf)
    exact ⟨f, hfunctions ▸ hf, .refl fun _ hi => hf'.closed.lt_size hi, hf'.mono hsymbols.size_le⟩
  new _ _ hid hg :=
    absurd (Array.getElem?_eq_some_iff.mp (hfunctions ▸ hg)).1 (Nat.not_lt.mpr hid)

/-- Functions that need not be instrumented may be added. -/
theorem grow (h : Wraps m m₁) (hsymbols : m₁.symbols.GrowsTo m₂.symbols) (added : List Func)
    (hfunctions : m₂.functions.toList = m₁.functions.toList ++ added)
    (hadded : ∀ g ∈ added, g.sanitized = true ∨ g.isDeclaration = true) : Wraps m m₂ where
  old id f hf := by
    obtain ⟨g, hg, haside, hsound⟩ := h.old id f hf
    refine ⟨g, ?_, haside, hsound.mono hsymbols.size_le⟩
    rw [← Array.getElem?_toList, hfunctions,
      List.getElem?_append_left (Array.getElem?_eq_some_iff.mp hg).1, Array.getElem?_toList, hg]
  new id g hid hg := by
    rw [← Array.getElem?_toList, hfunctions, List.getElem?_append] at hg
    split at hg
    · rw [Array.getElem?_toList] at hg
      exact h.new id g hid hg
    · exact hadded g (List.mem_of_getElem? hg)

/-- A constructor with a body can be bracketed. -/
theorem exists_bracketFunction (h : Wraps m m₁) {before after moduleName : SymbolId} {id : FuncId}
    {f : Func} (hbefore : m₁.symbols.contains before = true)
    (hafter : m₁.symbols.contains after = true)
    (hmodule : m₁.symbols.contains moduleName = true) (hf : m.functions[id]? = some f)
    (hbody : f.isDeclaration = false) :
    ∃ m₂, bracketFunction before after moduleName m₁ id = .ok m₂ ∧ m₂.symbols = m₁.symbols ∧
      Wraps m m₂ := by
  obtain ⟨g, hg, haside, hgsound⟩ := h.old id f hf
  have hpos : 0 < f.blocks.size := by
    rw [Func.isDeclaration, Array.isEmpty_eq_false_iff] at hbody
    exact Array.size_pos_iff.mpr hbody
  obtain ⟨entry, hentry, -⟩ := haside.entry _ (Array.getElem?_eq_getElem hpos)
  obtain ⟨k, hk, haside'⟩ := haside.arena.exists_bracket hentry before after moduleName
  have hksound : k.Sound m₁.symbols := by
    have hedits : Func.Edits False 0 { scale := 0, offset := 0 } m₁.symbols g k :=
      Func.bracket_edits hk hgsound hbefore hafter hmodule
    exact hedits.sound hgsound
  refine ⟨m₁.setFunction id k, ?_, rfl, fun other f' hf' => ?_, fun other g' hother hg' => ?_⟩
  · unfold bracketFunction function
    rw [hg]
    dsimp only
    rw [ok_bind, hk, ok_bind]
  · by_cases heq : id = other
    · subst heq
      obtain rfl := Option.some.inj (hf.symm.trans hf')
      refine ⟨k, ?_, haside.trans haside', hksound⟩
      exact Array.getElem?_setIfInBounds_self_of_lt (Array.getElem?_eq_some_iff.mp hg).1
    · obtain ⟨g', hg', haside, hgsound⟩ := h.old other f' hf'
      exact ⟨g', by rw [setFunction, Array.getElem?_setIfInBounds_ne heq, hg'], haside, hgsound⟩
  · have hne : id ≠ other := by
      rintro rfl
      exact absurd (Array.getElem?_eq_some_iff.mp hf).1 (Nat.not_lt.mpr hother)
    rw [setFunction, Array.getElem?_setIfInBounds_ne hne] at hg'
    exact h.new other g' hother hg'

theorem exists_brackets (h : Wraps m m₁) {before after moduleName : SymbolId} {ids : List FuncId}
    (hbefore : m₁.symbols.contains before = true) (hafter : m₁.symbols.contains after = true)
    (hmodule : m₁.symbols.contains moduleName = true)
    (hids : ∀ id ∈ ids, ∃ f, m.functions[id]? = some f ∧ f.isDeclaration = false) :
    ∃ m₂, ids.foldlM (bracketFunction before after moduleName) m₁ = .ok m₂ ∧ Wraps m m₂ := by
  induction ids generalizing m₁ with
  | nil => exact ⟨m₁, rfl, h⟩
  | cons id rest ih =>
      rw [List.forall_mem_cons] at hids
      obtain ⟨f, hf, hbody⟩ := hids.1
      obtain ⟨m₂, hm₂, hsymbols, hwraps⟩ := h.exists_bracketFunction hbefore hafter hmodule hf hbody
      rw [← hsymbols] at hbefore hafter hmodule
      obtain ⟨m₃, hm₃, hwraps⟩ := ih hwraps hbefore hafter hmodule hids.2
      exact ⟨m₃, by rw [List.foldlM_cons, hm₂]; exact hm₃, hwraps⟩

end Wraps

theorem body_of_mem_initializers {id : FuncId} (h : id ∈ m.initializers) :
    ∃ f, m.functions[id]? = some f ∧ f.isDeclaration = false := by
  obtain ⟨-, hbody⟩ := List.mem_filter.mp h
  cases hf : m.functions[id]? with
  | none =>
      rw [hf] at hbody
      cases hbody
  | some f =>
      rw [hf] at hbody
      exact ⟨f, rfl, by simpa using hbody⟩

end Module

/-- The constructors of a module can be bracketed. -/
theorem Annex.exists_bracketInitializers {m : Module} {a : Annex} (uses : RuntimeUses)
    (hsound : ∀ f ∈ m.functions, f.Sound m.symbols)
    (hfunctions : a.module.functions = m.functions)
    (hsymbols : m.symbols.GrowsTo a.module.symbols)
    (hknown : ∀ symbol, a.moduleName? = some symbol → a.module.symbols.contains symbol = true) :
    ∃ a' uses' wrapped, a.bracketInitializers uses = .ok (a', uses', wrapped) ∧
      m.Wraps a'.module := by
  have hnames : Makes 0 {} _ a a.bracketNames := a.makes_bracketNames
  obtain ⟨hsame, hctors, -⟩ := hnames.keeps.code not_false
  obtain ⟨hmakes, hname⟩ : Makes 0 {} (fun _ => False) a a.moduleName.1 ∧ _ := a.makes_moduleName
  have hgrows : a.moduleName.1.module.symbols.GrowsTo a.bracketNames.module.symbols :=
    (SymbolTable.growsTo_intern _ _).trans (SymbolTable.growsTo_intern _ _)
  have hwraps : m.Wraps a.bracketNames.module :=
    .of_functions_eq hsound (hsame.trans hfunctions) (hsymbols.trans hnames.keeps.symbols)
  have hbefore : a.bracketNames.module.symbols.contains
      (a.moduleName.1.intern EntryPoint.beforeDynamicInit).2 = true :=
    (SymbolTable.growsTo_intern _ _).contains (SymbolTable.contains_iff.mpr ⟨_, names_intern _ _⟩)
  have hafter : a.bracketNames.module.symbols.contains
      ((a.moduleName.1.intern EntryPoint.beforeDynamicInit).1.intern
        EntryPoint.afterDynamicInit).2 = true :=
    SymbolTable.contains_iff.mpr ⟨_, names_intern _ _⟩
  have hbodies : ∀ id ∈ a.bracketNames.module.initializers,
      ∃ f, m.functions[id]? = some f ∧ f.isDeclaration = false := by
    intro id hid
    obtain ⟨f, hf, hbody⟩ := Module.body_of_mem_initializers hid
    exact ⟨f, by rw [← hfunctions, ← hsame, hf], hbody⟩
  obtain ⟨m₁, hm₁, hwraps₁⟩ := hwraps.exists_brackets hbefore hafter
    (hgrows.contains (hmakes.known hknown _ hname)) hbodies
  unfold bracketInitializers
  unfold bracketNames at hm₁
  dsimp only
  rw [hm₁]
  exact ⟨_, _, _, rfl, hwraps₁⟩

/-! ### The whole run -/

theorem bind_ite_of_eq_ok {ε α β : Type} {c : Prop} [Decidable c] {first second : Except ε α}
    {next : α → Except ε β} {a : α} (h : (if c then first else second) = .ok a) :
    (if c then first >>= next else second >>= next) = next a := by
  split at h
  · rename_i hc
    rw [if_pos hc, h, ok_bind]
  · rename_i hc
    rw [if_neg hc, h, ok_bind]

namespace GlobalsRun

variable {config : Config} {m : Module} {store : Annotations} {ids : List GlobalId}

/-- Nothing keeps a run over globals of a well-formed module from its end. -/
theorem exists_run (config : Config) (store : Annotations) (hvalid : config.validate = .ok ())
    (hproper : Proper m ids) :
    ∃ run : GlobalsRun config m store ids, m.Wraps run.bracketed.module := by
  have hnamed : ∀ id ∈ ids, ∃ g, m.globals[id]? = some g ∧ m.symbols.contains g.name = true := by
    intro id hid
    have hg := Array.getElem?_eq_getElem (hproper.bound id hid)
    exact ⟨_, hg, hproper.formed.contains_global hg⟩
  obtain ⟨padded, globals, hpads⟩ :
      ∃ padded globals, Annex.addRedzones config store { module := m } ids =
        .ok (padded, globals) :=
    Annex.exists_addRedzones hproper.nodup (minGlobalRedzone_le (Module.scale_of_validate hvalid).2)
      fun id hid => by
        obtain ⟨g, hg, hname⟩ := hnamed id hid
        exact ⟨g, hg, hname, hproper.formed.fits g (Array.mem_of_getElem? hg)⟩
  obtain ⟨-, hmakes, hdescribes⟩ := Annex.addRedzones_eq_ok hpads hproper.nodup
    (fun i _ j _ g g' hg hg' hname => hproper.formed.eq_of_name hg hg' hname) hnamed
  have hdescribed : ∀ r ∈ globals, padded.module.symbols.contains r.symbol = true ∧
      (Initializer.fields r.descriptor).size = EntryPoint.descriptorSize := by
    intro r hr
    obtain ⟨id, -, hdescribed⟩ := exists_of_forall₂_mem hdescribes hr
    exact ⟨hmakes.keeps.symbols.contains hdescribed.named, hdescribed.size⟩
  obtain ⟨registered, registration, hregisters, hregistered⟩ : ∃ registered registration,
      (globals = [] ∧ registered = padded ∧ registration = none ∨
        ∃ r, globals ≠ [] ∧ padded.addRegistration globals config.scheme = .ok (registered, r) ∧
          registration = some r) ∧ Annex.Makes 0 {} (fun _ => True) padded registered := by
    by_cases hempty : globals = []
    · exact ⟨padded, none, .inl ⟨hempty, rfl, rfl⟩, .refl _⟩
    · obtain ⟨registered, r, hadded⟩ := Annex.exists_addRegistration config.scheme hdescribed
      refine ⟨registered, some r, .inr ⟨r, hempty, hadded, rfl⟩, ?_⟩
      exact (Annex.addRegistration_eq_ok hadded (hproper.nodup_symbols hdescribes)
        hdescribed).1.mono fun _ _ => trivial
  -- up to here no function has changed
  have hctor : Annex.Makes 0 {} _ registered _ :=
    Annex.makes_makeCtor config registered registration
  have hfunctions : (registered.makeCtor config registration).1.module.functions = m.functions :=
    ((hctor.keeps.code not_false).1.trans (hregistered.keeps.code not_false).1).trans
      (hmakes.keeps.code not_false).1
  have hgrows : m.symbols.GrowsTo (registered.makeCtor config registration).1.module.symbols :=
    (hmakes.keeps.symbols.trans hregistered.keeps.symbols).trans hctor.keeps.symbols
  have hsound : ∀ f ∈ m.functions, f.Sound m.symbols := fun f hf => (hproper.formed.sound f hf).1
  obtain ⟨bracketed, uses, wrapped, hbrackets, hwraps⟩ : ∃ bracketed uses wrapped,
      (if config.initOrder && !config.kernel && globals.any Registered.dynInit then
        (registered.makeCtor config registration).1.bracketInitializers
          (registered.makeCtor config registration).2.1
      else
        .ok ((registered.makeCtor config registration).1,
          (registered.makeCtor config registration).2.1, 0)) = .ok (bracketed, uses, wrapped) ∧
        m.Wraps bracketed.module := by
    split
    · exact Annex.exists_bracketInitializers _ hsound hfunctions hgrows
        (hctor.known (hregistered.known (hmakes.known nofun)))
    · exact ⟨_, _, _, rfl, .of_functions_eq hsound hfunctions hgrows⟩
  exact ⟨⟨padded, globals, hpads, registered, registration, hregisters, bracketed, uses, wrapped,
    hbrackets⟩, hwraps⟩

/-- Constructor, destructor and declarations need not be instrumented. -/
theorem wraps_module (run : GlobalsRun config m store ids) (h : m.Wraps run.bracketed.module) :
    m.Wraps run.module := by
  have hctor : run.ctor.sanitized = true := by
    unfold ctor
    cases run.registration with
    | none => rw [Annex.makeCtor_none]; rfl
    | some r => rw [Annex.makeCtor_some]; rfl
  have hstarted : m.Wraps run.started.module :=
    h.grow (.refl _) [run.ctor] Array.toList_push (by simpa using Or.inl hctor)
  have hclosed : m.Wraps run.closed.1 := by
    unfold closed
    split
    · exact hstarted
    · rename_i r hr
      have hmakes : Annex.Makes 0 {} _ _ _ := run.started.makes_makeDtor run.uses r
      refine hstarted.grow hmakes.keeps.symbols [(run.started.makeDtor run.uses r).2.2] ?_
        (by simp [Annex.makeDtor, ownFunction])
      rw [← (hmakes.keeps.code not_false).1]
      exact Array.toList_push
  have hdeclares : Module.Declares (fun _ => True) run.closed.1 run.module :=
    Module.declares_declareAll fun _ _ => trivial
  obtain ⟨added, hadded, hdeclarations⟩ := hdeclares.functions
  exact hclosed.grow hdeclares.symbols added hadded fun g hg => .inr (hdeclarations g hg).1

theorem instrumentCandidates_eq {candidates : Candidates}
    (run : GlobalsRun config m store candidates.ids) :
    ∃ outcome, m.instrumentCandidates config store candidates = .ok (run.module, outcome) := by
  have hbrackets := run.brackets
  unfold Module.instrumentCandidates
  rw [run.pads, ok_bind]
  dsimp only
  rcases run.registers with ⟨hempty, hsame, hnone⟩ | ⟨r, hsome, hadded, hregistration⟩
  · rw [hsame, hnone] at hbrackets
    rw [if_pos (List.isEmpty_iff.mpr hempty), ok_bind]
    dsimp only
    rw [bind_ite_of_eq_ok hbrackets]
    unfold module closed started ctor
    rw [hsame, hnone]
    exact ⟨_, rfl⟩
  · rw [hregistration] at hbrackets
    rw [if_neg fun hempty => hsome (List.isEmpty_iff.mp hempty), hadded, ok_bind]
    dsimp only
    rw [ok_bind, bind_ite_of_eq_ok hbrackets]
    unfold module closed started ctor
    rw [hregistration]
    exact ⟨_, rfl⟩

end GlobalsRun

namespace Module

variable {config : Config} {m m' : Module} {store : Annotations} {granularity : Nat} {reach : Reach}
  {made : List OwnSymbol}

/-- Globals fit after changes if they did before. -/
theorem Changes.fits (h : Changes granularity reach m made m')
    (hpower : isPowerOfTwo granularity = true) (hfits : ∀ g ∈ m.globals, g.Fits) :
    ∀ g ∈ m'.globals, g.Fits := by
  induction h with
  | refl => exact hfits
  | step _ hchange ih =>
      cases hchange with
      | global _ hnew =>
          intro g hg
          rcases Array.mem_push.mp hg with hg | rfl
          · exact ih g hg
          · exact hnew
      | @pad _ old _ hold =>
          intro g hg
          rcases Array.mem_or_eq_of_mem_setIfInBounds hg with hg | rfl
          · exact ih g hg
          · exact fits_grown hpower (ih old (Array.mem_of_getElem? hold))
      | @declare name params ret =>
          rename_i m₁ _ _ _ _
          rcases m₁.declare_cases name params ret with heq | ⟨heq, -⟩
          · rw [heq]
            exact ih
          · rw [heq]
            exact ih
      | grow => exact ih
      | function => exact ih
      | rewrite => exact ih
      | list => exact ih

/-- A module whose globals have been instrumented, seen from the module that it was made of. -/
structure Prepares (config : Config) (m m' : Module) : Prop where
  wraps : m.Wraps m'
  symbols : m.symbols.GrowsTo m'.symbols
  named : m'.AllNamed
  fits : ∀ g ∈ m'.globals, g.Fits
  sizes : ∀ (id : GlobalId) (g : Global), m.globals[id]? = some g → ∃ g',
    m'.globals[id]? = some g' ∧
    g'.size ≤ g.size + globalRedzone g.size config.mapping.granularity

theorem WellFormed.prepares (h : m.WellFormed) (config : Config) : Prepares config m m where
  wraps := .of_functions_eq (fun f hf => (h.sound f hf).1) rfl (.refl _)
  symbols := .refl _
  named := h.named
  fits := h.fits
  sizes _ g hg := ⟨g, hg, Nat.le_add_right _ _⟩

/-- The globals of a well-formed module can be instrumented. -/
theorem exists_instrumentGlobals (store : Annotations) (hformed : m.WellFormed)
    (hvalid : config.validate = .ok ()) :
    ∃ m' outcome, m.instrumentGlobals config store = .ok (m', .ok outcome) ∧
      Prepares config m m' := by
  unfold instrumentGlobals
  rw [hvalid]
  dsimp only
  by_cases hpresent : (m.functionByName EntryPoint.moduleCtor).isSome = true
  · rw [if_pos hpresent]
    exact ⟨m, {}, rfl, hformed.prepares config⟩
  obtain ⟨candidates, hcandidates⟩ : ∃ candidates, m.candidates config store = .ok candidates :=
    exists_candidates fun g hg => hformed.named _ (.inl ⟨g, hg, rfl⟩)
  rw [if_neg hpresent, hcandidates, ok_bind]
  by_cases hidle : (candidates.ids.isEmpty && config.kernel) = true
  · rw [if_pos hidle]
    exact ⟨m, _, rfl, hformed.prepares config⟩
  · have hproper := GlobalsRun.Proper.of_candidates hformed hcandidates
    obtain ⟨run, hwraps⟩ := GlobalsRun.exists_run config store hvalid hproper
    obtain ⟨outcome, hrun⟩ := run.instrumentCandidates_eq
    rw [if_neg hidle, hrun]
    obtain ⟨made, hchanges, -⟩ := run.changes hproper
    refine ⟨run.module, outcome, rfl, run.wraps_module hwraps, hchanges.keeps.symbols,
      (hchanges.taken_cases hformed.named).1,
      hchanges.fits (isPowerOfTwo_shiftLeft _) hformed.fits, fun id g hg => ?_⟩
    refine ⟨_, run.globals_module hproper hg, ?_⟩
    split
    · exact le_rfl
    · exact Nat.le_add_right _ _

end Module

end Redzone
