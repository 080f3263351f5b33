import Redzone.Proofs.Modules.Annex
import Redzone.Proofs.Modules.FunctionRun
import Redzone.Proofs.Modules.OwnCode

/-!
# Runs over the globals of a module

`ModuleRun` lists what the instrumentation of a module's globals can come to.  One that changes the
module goes through stages: redzones, registration, constructor, brackets, destructor, declarations.
`GlobalsRun` names the stages, and the first sections say what each of them adds.
-/

namespace Redzone

/-! ### Constructor and destructor -/

namespace Annex

variable {granularity : Nat} {reach : Reach} {P : OwnSymbol → Prop} {config : Config} {a a' : Annex}
  {uses uses' : RuntimeUses} {name : String} {r : Registration} {registration : Option Registration}

theorem makes_use (a : Annex) (uses : RuntimeUses) (name : String) (params : List Ty) :
    Makes granularity reach P a (a.use uses name params).1 := a.makes_intern name

theorem contains_use (a : Annex) (uses : RuntimeUses) (name : String) (params : List Ty) :
    (a.use uses name params).1.module.symbols.contains (a.use uses name params).2.2 = true :=
  SymbolTable.contains_iff.mpr ⟨name, a.names_intern name⟩

theorem makes_useAll (a : Annex) (uses : RuntimeUses) (names : List String) :
    Makes granularity reach (fun _ => False) a (a.useAll uses names).1 := by
  induction names generalizing a uses with
  | nil => exact .refl a
  | cons name rest ih => exact (a.makes_use uses name []).trans_left (ih _ _)

theorem contains_useAll (a : Annex) (uses : RuntimeUses) (names : List String) :
    ∀ symbol ∈ (a.useAll uses names).2.2,
      (a.useAll uses names).1.module.symbols.contains symbol = true := by
  induction names generalizing a uses with
  | nil => exact fun _ => nofun
  | cons name rest ih =>
      refine List.forall_mem_cons.mpr ⟨?_, ih _ _⟩
      have hrest : Makes 0 {} _ _ _ :=
        makes_useAll (a.use uses name []).1 (a.use uses name []).2.1 rest
      exact hrest.keeps.symbols.contains (a.contains_use uses name [])

theorem has_useAll {names : List String} (h : (a.useAll uses names).2.1.Has name) :
    uses.Has name ∨ name ∈ names := by
  induction names generalizing a uses with
  | nil => exact .inl h
  | cons first rest ih =>
      rcases ih h with h | h
      · rcases RuntimeUses.has_add.mp h with rfl | h
        · exact .inr List.mem_cons_self
        · exact .inl h
      · exact .inr (List.mem_cons_of_mem _ h)

/-- The routines that a constructor calls at its start. -/
def starters (config : Config) : List String :=
  if config.kernel then [] else [EntryPoint.init, EntryPoint.versionCheck]

theorem isRoutine_of_mem_starters (h : name ∈ starters config) : IsRoutine name := by
  have hall : ∀ name ∈ [EntryPoint.init, EntryPoint.versionCheck], IsRoutine name := by
    decide +kernel
  unfold starters at h
  split at h
  · cases h
  · exact hall name h

/-- The annex with the names of the constructor and of what it calls at its start. -/
def start (config : Config) (a : Annex) : Annex × RuntimeUses × List SymbolId :=
  (a.intern EntryPoint.moduleCtor).1.useAll {} (starters config)

theorem makeCtor_none (config : Config) (a : Annex) :
    a.makeCtor config none = ((a.start config).1, (a.start config).2.1,
      ownFunction (a.intern EntryPoint.moduleCtor).2 (plainCalls 0 (a.start config).2.2)) := rfl

theorem makeCtor_some (config : Config) (a : Annex) (r : Registration) :
    a.makeCtor config (some r) =
      let first := a.start config
      let second := first.1.use first.2.1 r.register r.params
      (second.1, second.2.1, ownFunction (a.intern EntryPoint.moduleCtor).2
        (plainCalls 0 first.2.2 ++
          r.callCode (plainCalls 0 first.2.2).length second.2.2)) := rfl

theorem makes_start (config : Config) (a : Annex) :
    Makes granularity reach (fun _ => False) a (a.start config).1 :=
  (a.makes_intern _).trans_left (makes_useAll _ _ _)

theorem makes_makeCtor (config : Config) (a : Annex) (registration : Option Registration) :
    Makes granularity reach (fun _ => False) a (a.makeCtor config registration).1 := by
  cases registration with
  | none => exact a.makes_start config
  | some r =>
      exact (a.makes_start config).trans_left
        (makes_use _ (a.start config).2.1 r.register r.params)

theorem name_makeCtor (config : Config) (a : Annex) (registration : Option Registration) :
    (a.makeCtor config registration).2.2.name = (a.intern EntryPoint.moduleCtor).2 := by
  cases registration <;> rfl

theorem names_makeCtor (config : Config) (a : Annex) (registration : Option Registration) :
    (a.makeCtor config registration).1.module.symbols.names[
      (a.makeCtor config registration).2.2.name]? = some EntryPoint.moduleCtor := by
  rw [name_makeCtor]
  have hstart : Makes 0 {} _ _ _ :=
    makes_useAll (a.intern EntryPoint.moduleCtor).1 {} (starters config)
  have hname := hstart.keeps.symbols _ _ (a.names_intern EntryPoint.moduleCtor)
  cases registration with
  | none => exact hname
  | some r =>
      have huse : Makes 0 {} (fun _ => False) _ _ :=
        makes_use (a.start config).1 (a.start config).2.1 r.register r.params
      exact huse.keeps.symbols _ _ hname

/-- The symbols and routines of a registration are fit for use. -/
structure Callable (m : Module) (r : Registration) : Prop where
  symbols : ∀ symbol ∈ r.symbols, m.symbols.contains symbol = true
  register : IsRoutine r.register
  unregister : IsRoutine r.unregister

theorem Callable.grow {m m' : Module} (h : Callable m r) (hgrows : m.symbols.GrowsTo m'.symbols) :
    Callable m' r :=
  ⟨fun symbol hsymbol => hgrows.contains (h.symbols symbol hsymbol), h.register, h.unregister⟩

theorem typed_makeCtor (h : ∀ r, registration = some r → Callable a.module r) :
    (a.makeCtor config registration).2.2.Sound
        (a.makeCtor config registration).1.module.symbols ∧
      (a.makeCtor config registration).2.2.ParamsLead := by
  have hstarters := contains_useAll (a.intern EntryPoint.moduleCtor).1 {} (starters config)
  cases registration with
  | none =>
      have htyped := typed_plainCalls hstarters (fun _ _ => False) 0
      exact ⟨sound_ownFunction htyped, paramsLead_ownFunction htyped⟩
  | some r =>
      have hcallable := h r rfl
      have huse : Makes 0 {} (fun _ => False) _ _ :=
        makes_use (a.start config).1 (a.start config).2.1 r.register r.params
      have hstart : Makes 0 {} _ _ _ := a.makes_start config
      have htyped : CodeTyped (a.makeCtor config (some r)).1.module.symbols (fun _ _ => False) 0
          (addedCode [] (plainCalls 0 (a.start config).2.2 ++
            r.callCode (plainCalls 0 (a.start config).2.2).length
              ((a.start config).1.use (a.start config).2.1 r.register r.params).2.2)) := by
        rw [Check.addedCode_append]
        refine (typed_plainCalls
          (fun symbol hsymbol => huse.keeps.symbols.contains (hstarters symbol hsymbol)) _
            0).append ?_
        rw [Check.length_addedCode, Nat.zero_add]
        exact typed_callCode
          ((hcallable.grow (hstart.keeps.symbols.trans huse.keeps.symbols)).symbols)
          (contains_use _ _ _ _) _ _
      exact ⟨sound_ownFunction htyped, paramsLead_ownFunction htyped⟩

theorem has_makeCtor (h : ∀ r, registration = some r → IsRoutine r.register)
    (hname : (a.makeCtor config registration).2.1.Has name) : IsRoutine name := by
  have hstart : (a.start config).2.1.Has name → IsRoutine name := by
    intro hhas
    rcases has_useAll hhas with hhas | hmem
    · exact absurd hhas (RuntimeUses.not_has_empty name)
    · exact isRoutine_of_mem_starters hmem
  cases registration with
  | none => exact hstart hname
  | some r =>
      rcases RuntimeUses.has_add.mp hname with rfl | hname
      · exact h r rfl
      · exact hstart hname

theorem makes_makeDtor (a : Annex) (uses : RuntimeUses) (r : Registration) :
    Makes granularity reach (fun _ => False) a (a.makeDtor uses r).1 :=
  (a.makes_intern _).trans_left (makes_use _ uses r.unregister r.params)

theorem names_makeDtor (a : Annex) (uses : RuntimeUses) (r : Registration) :
    (a.makeDtor uses r).1.module.symbols.names[(a.makeDtor uses r).2.2.name]? =
      some EntryPoint.moduleDtor := by
  have huse : Makes 0 {} (fun _ => False) _ _ :=
    makes_use (a.intern EntryPoint.moduleDtor).1 uses r.unregister r.params
  exact huse.keeps.symbols _ _ (a.names_intern EntryPoint.moduleDtor)

theorem typed_makeDtor (h : Callable a.module r) :
    (a.makeDtor uses r).2.2.Sound (a.makeDtor uses r).1.module.symbols ∧
      (a.makeDtor uses r).2.2.ParamsLead := by
  have hmakes : Makes 0 {} _ _ _ := a.makes_makeDtor uses r
  have htyped := typed_callCode (h.grow hmakes.keeps.symbols).symbols
    (contains_use (a.intern EntryPoint.moduleDtor).1 uses r.unregister r.params)
      (fun _ _ => False) 0
  exact ⟨sound_ownFunction htyped, paramsLead_ownFunction htyped⟩

theorem has_makeDtor (hname : (a.makeDtor uses r).2.1.Has name) :
    name = r.unregister ∨ uses.Has name := RuntimeUses.has_add.mp hname

end Annex

/-! ### Brackets -/

namespace Func

variable {f g : Func} {before after moduleName : SymbolId}

theorem shell_callAtExits {exits : List (BlockId × Nat)}
    (h : exits.foldlM (callAtExit after) f = .ok g) : g.shell = f.shell := by
  refine foldlM_keeps (fun g => g.shell = f.shell) (fun g g' exit _ hshell hcall => ?_) rfl h
  exact (insertCode_extends hcall).1.trans hshell

theorem shell_bracket (h : f.bracket before after moduleName = .ok g) : g.shell = f.shell := by
  unfold bracket at h
  obtain ⟨exits, -, h⟩ := bind_eq_ok h
  obtain ⟨pos, -, h⟩ := bind_eq_ok h
  obtain ⟨f₁, hf₁, h⟩ := bind_eq_ok h
  exact (insertCode_extends h).1.trans (shell_callAtExits hf₁)

end Func

namespace Module

variable {granularity : Nat} {m m' : Module} {id : FuncId} {before after moduleName : SymbolId}

theorem bracketFunction_eq_ok (h : bracketFunction before after moduleName m id = .ok m') :
    ∃ f g, m.functions[id]? = some f ∧ f.bracket before after moduleName = .ok g ∧
      m' = m.setFunction id g := by
  obtain ⟨f, hf, h⟩ := bind_eq_ok h
  obtain ⟨g, hg, h⟩ := bind_eq_ok h
  cases h
  refine ⟨f, g, ?_, hg, rfl⟩
  unfold function at hf
  split at hf <;> cases hf
  assumption

/-- Brackets change nothing but functions. -/
theorem rest_of_brackets {ids : List FuncId}
    (h : ids.foldlM (bracketFunction before after moduleName) m = .ok m') :
    m' = { m with functions := m'.functions } := by
  refine foldlM_keeps (fun m' => m' = { m with functions := m'.functions }) ?_ rfl h
  intro m₁ m₂ id _ hm₁ hbracket
  obtain ⟨f, g, -, -, rfl⟩ := bracketFunction_eq_ok hbracket
  rw [hm₁]
  rfl

theorem changes_brackets {ids : List FuncId} {reach : Reach} (hcode : reach.code)
    (hids : ∀ id ∈ ids, reach.rewritten id) (hbefore : m.symbols.contains before = true)
    (hafter : m.symbols.contains after = true) (hmodule : m.symbols.contains moduleName = true)
    (h : ids.foldlM (bracketFunction before after moduleName) m = .ok m') :
    Changes granularity reach m [] m' := by
  induction ids generalizing m with
  | nil =>
      cases h
      exact .refl _
  | cons id rest ih =>
      obtain ⟨m₁, hm₁, h⟩ := foldlM_cons_eq_ok h
      obtain ⟨f, g, hf, hg, rfl⟩ := bracketFunction_eq_ok hm₁
      rw [List.forall_mem_cons] at hids
      have hrewrite : Change granularity reach m [] (m.setFunction id g) := by
        refine .rewrite hcode hids.1 hf (Func.name_of_shell (Func.shell_bracket hg)) fun hsound
          hlead => ?_
        have hedits : Func.Edits False 0 { scale := 0, offset := 0 } m.symbols f g :=
          Func.bracket_edits hg hsound hbefore hafter hmodule
        exact ⟨hedits.sound hsound, hedits.paramsLead hlead⟩
      exact hrewrite.changes.trans (ih hids.2 hbefore hafter hmodule h)

theorem initializers_congr (hfunctions : m'.functions = m.functions) (hctors : m'.ctors = m.ctors) :
    m'.initializers = m.initializers := by
  unfold initializers functionBySymbol
  rw [hfunctions, hctors]

end Module

namespace Annex

variable {granularity : Nat} {a a' : Annex} {uses uses' : RuntimeUses} {wrapped : Nat}

/-- The annex with the names that brackets refer to. -/
def bracketNames (a : Annex) : Annex :=
  ((a.moduleName.1.intern EntryPoint.beforeDynamicInit).1.intern EntryPoint.afterDynamicInit).1

theorem makes_bracketNames (a : Annex) {reach : Reach} :
    Makes granularity reach (fun _ => False) a a.bracketNames :=
  a.makes_moduleName.1.trans_left ((makes_intern _ _).trans_left (makes_intern _ _))

/-- All that the brackets of a module's constructors come to. -/
theorem bracketInitializers_eq_ok
    (h : a.bracketInitializers uses = .ok (a', uses', wrapped)) :
    ∃ m, a.module.initializers.foldlM
        (Module.bracketFunction (a.moduleName.1.intern EntryPoint.beforeDynamicInit).2
          ((a.moduleName.1.intern EntryPoint.beforeDynamicInit).1.intern
            EntryPoint.afterDynamicInit).2 a.moduleName.2) a.bracketNames.module = .ok m ∧
      a' = { a.bracketNames with module := m } ∧
      (∀ name, uses'.Has name → uses.Has name ∨ IsRoutine name) ∧
      wrapped = a.module.initializers.length := by
  unfold bracketInitializers at h
  dsimp only at h
  obtain ⟨m, hm, h⟩ := bind_eq_ok h
  cases h
  have hnames : Makes 0 {} _ a a.bracketNames := a.makes_bracketNames
  obtain ⟨hfunctions, hctors, -⟩ := hnames.keeps.code not_false
  have hsame : a.bracketNames.module.initializers = a.module.initializers :=
    Module.initializers_congr hfunctions hctors
  refine ⟨m, hsame ▸ hm, rfl, fun name hname => ?_, congrArg List.length hsame⟩
  rcases RuntimeUses.has_add.mp hname with rfl | hname
  · exact .inr (by decide +kernel)
  · rcases RuntimeUses.has_add.mp hname with rfl | hname
    · exact .inr (by decide +kernel)
    · exact .inl hname

theorem makes_bracketInitializers
    (h : a.bracketInitializers uses = .ok (a', uses', wrapped))
    (hknown : ∀ symbol, a.moduleName? = some symbol → a.module.symbols.contains symbol = true) :
    Makes granularity { rewritten := (· ∈ a.module.initializers), code := True }
      (fun _ => False) a a' := by
  obtain ⟨m, hm, rfl, -, -⟩ := bracketInitializers_eq_ok h
  obtain ⟨hmakes, hname⟩ : Makes granularity {} (fun _ => False) a a.moduleName.1 ∧ _ :=
    a.makes_moduleName
  have hgrows : a.moduleName.1.module.symbols.GrowsTo a.bracketNames.module.symbols :=
    (SymbolTable.growsTo_intern _ _).trans (SymbolTable.growsTo_intern _ _)
  refine a.makes_bracketNames.trans_left (.of_changes
    (Module.changes_brackets trivial (fun _ hid => hid) ?_ ?_ ?_ hm) List.nodup_nil (by simp) le_rfl
      rfl)
  · exact (SymbolTable.growsTo_intern _ _).contains
      (SymbolTable.contains_iff.mpr ⟨_, names_intern _ _⟩)
  · exact SymbolTable.contains_iff.mpr ⟨_, names_intern _ _⟩
  · exact hgrows.contains (hmakes.known hknown _ hname)

end Annex

/-! ### The stages of a run -/

/-- A run that gives the globals `ids` of a module their redzones, stage by stage. -/
structure GlobalsRun (config : Config) (m : Module) (store : Annotations)
    (ids : List GlobalId) where
  /-- The annex with the redzones, and what is to be registered. -/
  padded : Annex
  globals : List Registered
  pads : Annex.addRedzones config store { module := m } ids = .ok (padded, globals)
  /-- The annex with the descriptors. -/
  registered : Annex
  registration : Option Registration
  registers : globals = [] ∧ registered = padded ∧ registration = none ∨
    ∃ r, globals ≠ [] ∧ padded.addRegistration globals config.scheme = .ok (registered, r) ∧
      registration = some r
  /-- The annex with the names of the constructor, in which other constructors are bracketed. -/
  bracketed : Annex
  uses : RuntimeUses
  wrapped : Nat
  brackets :
    (if config.initOrder && !config.kernel && globals.any Registered.dynInit then
      (registered.makeCtor config registration).1.bracketInitializers
        (registered.makeCtor config registration).2.1
    else
      .ok ((registered.makeCtor config registration).1,
        (registered.makeCtor config registration).2.1, 0)) = .ok (bracketed, uses, wrapped)

namespace GlobalsRun

variable {config : Config} {m : Module} {store : Annotations} {ids : List GlobalId}

def ctor (run : GlobalsRun config m store ids) : Func :=
  (run.registered.makeCtor config run.registration).2.2

/-- The annex with the constructor. -/
def started (run : GlobalsRun config m store ids) : Annex :=
  { run.bracketed with module := run.bracketed.module.addCtor run.ctor }

/-- The module with the destructor, if there is something to unregister, and the routines that are
called. -/
def closed (run : GlobalsRun config m store ids) : Module × RuntimeUses :=
  match run.registration with
  | none => (run.started.module, run.uses)
  | some r =>
      ((run.started.makeDtor run.uses r).1.module.addDtor (run.started.makeDtor run.uses r).2.2,
        (run.started.makeDtor run.uses r).2.1)

/-- The module that is left in the end. -/
def module (run : GlobalsRun config m store ids) : Module := run.closed.2.declareAll run.closed.1

/-- What comes behind the constructor only adds to the module. -/
theorem growsTo_module (run : GlobalsRun config m store ids) :
    run.started.module.GrowsTo run.module := by
  refine Module.GrowsTo.trans ?_ (Module.growsTo_declareAll _ _)
  unfold closed
  split
  · exact .refl _
  · rename_i r _
    have hmakes : Annex.Makes 0 {} _ _ _ := run.started.makes_makeDtor run.uses r
    refine ⟨hmakes.keeps.symbols, fun id f hf => ?_⟩
    exact Module.getElem?_push_of_some _ (hmakes.keeps.functions id f not_false hf)

theorem symbols_bracketed (run : GlobalsRun config m store ids) :
    (run.registered.makeCtor config run.registration).1.module.symbols.GrowsTo
      run.bracketed.module.symbols := by
  have hbrackets := run.brackets
  split at hbrackets
  · obtain ⟨m', hm', heq, -, -⟩ := Annex.bracketInitializers_eq_ok hbrackets
    have hnames : Annex.Makes 0 {} _ _ _ :=
      (run.registered.makeCtor config run.registration).1.makes_bracketNames
    rw [heq, Module.rest_of_brackets hm']
    exact hnames.keeps.symbols
  · rw [← (Prod.mk.inj (Except.ok.inj hbrackets)).1]
    exact .refl _

theorem names_ctor (run : GlobalsRun config m store ids) :
    run.bracketed.module.symbols.names[run.ctor.name]? = some EntryPoint.moduleCtor :=
  run.symbols_bracketed _ _ (Annex.names_makeCtor config run.registered run.registration)

end GlobalsRun

theorem bind_of_ite {ε α β : Type} {c : Prop} [Decidable c] {first second : Except ε α}
    {next : α → Except ε β} {b : β}
    (h : (if c then first >>= next else second >>= next) = .ok b) :
    ∃ a, (if c then first else second) = .ok a ∧ next a = .ok b := by
  split at h
  · rename_i hc
    rw [if_pos hc]
    exact bind_eq_ok h
  · rename_i hc
    rw [if_neg hc]
    exact bind_eq_ok h

namespace Module

variable {config : Config} {m m' : Module} {store : Annotations} {candidates : Candidates}
  {outcome : Outcome}

theorem instrumentCandidates_run
    (h : m.instrumentCandidates config store candidates = .ok (m', outcome)) :
    ∃ run : GlobalsRun config m store candidates.ids, m' = run.module ∧
      outcome =
        { changed := true
          preserved := Preserved.none.preserve .annotations
          stats :=
            { globals := run.globals.length, skippedGlobals := candidates.skipped,
              wrapped := run.wrapped }
          diagnostics := candidates.diagnostics } := by
  unfold instrumentCandidates at h
  obtain ⟨⟨padded, globals⟩, hpads, h⟩ := bind_eq_ok h
  dsimp only at h
  split at h
  · rename_i hempty
    rw [ok_bind] at h
    obtain ⟨⟨bracketed, uses, wrapped⟩, hbrackets, h⟩ := bind_of_ite h
    obtain ⟨rfl, rfl⟩ := Prod.mk.inj (Except.ok.inj h)
    exact ⟨⟨padded, globals, hpads, padded, none, .inl ⟨List.isEmpty_iff.mp hempty, rfl, rfl⟩,
      bracketed, uses, wrapped, hbrackets⟩, rfl, rfl⟩
  · rename_i hsome
    obtain ⟨⟨registered, r⟩, hregisters, h⟩ := bind_eq_ok h
    rw [ok_bind] at h
    obtain ⟨⟨bracketed, uses, wrapped⟩, hbrackets, h⟩ := bind_of_ite h
    obtain ⟨rfl, rfl⟩ := Prod.mk.inj (Except.ok.inj h)
    exact ⟨⟨padded, globals, hpads, registered, some r,
      .inr ⟨r, fun hnil => hsome (List.isEmpty_iff.mpr hnil), hregisters, rfl⟩,
      bracketed, uses, wrapped, hbrackets⟩, rfl, rfl⟩

/-- What the instrumentation of a module's globals can come to. -/
inductive ModuleRun (config : Config) (m : Module) (store : Annotations) : Module → Outcome → Prop
  | present (hctor : (m.functionByName EntryPoint.moduleCtor).isSome = true) :
      ModuleRun config m store m {}
  | idle {candidates : Candidates} (hctor : m.functionByName EntryPoint.moduleCtor = none)
      (hcandidates : m.candidates config store = .ok candidates) (hids : candidates.ids = [])
      (hkernel : config.kernel = true) :
      ModuleRun config m store m
        { stats := { skippedGlobals := candidates.skipped }
          diagnostics := candidates.diagnostics }
  | changed {candidates : Candidates} (hctor : m.functionByName EntryPoint.moduleCtor = none)
      (hcandidates : m.candidates config store = .ok candidates)
      (run : GlobalsRun config m store candidates.ids) :
      ModuleRun config m store run.module
        { changed := true
          preserved := Preserved.none.preserve .annotations
          stats :=
            { globals := run.globals.length, skippedGlobals := candidates.skipped,
              wrapped := run.wrapped }
          diagnostics := candidates.diagnostics }

theorem instrumentGlobals_run (h : m.instrumentGlobals config store = .ok (m', .ok outcome)) :
    config.validate = .ok () ∧ ModuleRun config m store m' outcome := by
  unfold instrumentGlobals at h
  cases hvalid : config.validate with
  | error cause =>
      rw [hvalid] at h
      cases h
  | ok valid =>
      rw [hvalid] at h
      refine ⟨rfl, ?_⟩
      dsimp only at h
      split at h
      · rename_i hctor
        cases h
        exact .present hctor
      · rename_i hctor
        rw [Bool.not_eq_true, Option.isSome_eq_false_iff, Option.isNone_iff_eq_none] at hctor
        obtain ⟨candidates, hcandidates, h⟩ := bind_eq_ok h
        split at h
        · rename_i hidle
          rw [Bool.and_eq_true, List.isEmpty_iff] at hidle
          cases h
          exact .idle hctor hcandidates hidle.1 hidle.2
        · obtain ⟨⟨m₁, outcome₁⟩, hrun, h⟩ := bind_eq_ok h
          cases h
          obtain ⟨run, rfl, rfl⟩ := instrumentCandidates_run hrun
          exact .changed hctor hcandidates run

end Module

end Redzone
