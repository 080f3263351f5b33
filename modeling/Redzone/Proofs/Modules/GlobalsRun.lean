import Redzone.Proofs.Modules.Eligible
import Redzone.Proofs.Modules.ModuleRun

/-!
# The changes of a run over the globals

Every stage of a run over the globals of a well-formed module consists of changes, and the symbols
that they make differ.  So the whole run consists of changes (`GlobalsRun.changes`) that reach the
globals that get a redzone and the constructors that are bracketed, and nothing else that was there.
-/

namespace Redzone

namespace Module

variable {granularity : Nat} {reach : Reach} {m : Module}

theorem changes_declareAll {uses : RuntimeUses} (hcode : reach.code)
    (h : ∀ name, uses.Has name → IsRoutine name) :
    Changes granularity reach m [] (uses.declareAll m) := by
  unfold RuntimeUses.Has at h
  unfold RuntimeUses.declareAll
  generalize uses.routines.entries = entries at h
  induction entries generalizing m with
  | nil => exact .refl m
  | cons entry rest ih =>
      exact (Change.declare hcode (h entry.1 List.mem_cons_self)).changes.trans
        (ih fun name hname => h name (List.mem_cons_of_mem _ hname))

/-- A function of the instrumentation's own is added and listed. -/
theorem changes_addListed {f : Func} {ctors dtors : List ListEntry} (own : OwnSymbol)
    (hcode : reach.code) (hname : m.symbols.names[f.name]? = some own.text)
    (htyped : f.Sound m.symbols ∧ f.ParamsLead)
    (hlists : ∀ entry ∈ ctors ++ dtors, f.name = entry.function) :
    Changes granularity reach m [own]
      { (m.addFunction f).1 with ctors := m.ctors ++ ctors, dtors := m.dtors ++ dtors } := by
  have hadded : Change granularity reach m [own] (m.addFunction f).1 :=
    .function hcode hname htyped.1 htyped.2
  exact hadded.changes.trans (Change.list hcode fun entry hentry =>
    ⟨f, Array.mem_push_self, hlists entry hentry⟩).changes

theorem changes_addCtor {f : Func} (own : OwnSymbol) (hcode : reach.code)
    (hname : m.symbols.names[f.name]? = some own.text)
    (htyped : f.Sound m.symbols ∧ f.ParamsLead) :
    Changes granularity reach m [own] (m.addCtor f) := by
  have hadded : Changes granularity reach m [own] { (m.addFunction f).1 with
      ctors := m.ctors ++ [⟨EntryPoint.ctorPriority, f.name⟩], dtors := m.dtors ++ [] } :=
    changes_addListed own hcode hname htyped (by simp)
  rwa [List.append_nil] at hadded

theorem changes_addDtor {f : Func} (own : OwnSymbol) (hcode : reach.code)
    (hname : m.symbols.names[f.name]? = some own.text)
    (htyped : f.Sound m.symbols ∧ f.ParamsLead) :
    Changes granularity reach m [own] (m.addDtor f) := by
  have hadded : Changes granularity reach m [own] { (m.addFunction f).1 with
      ctors := m.ctors ++ [], dtors := m.dtors ++ [⟨EntryPoint.ctorPriority, f.name⟩] } :=
    changes_addListed own hcode hname htyped (by simp)
  rwa [List.append_nil] at hadded

theorem WellFormed.eq_of_name (h : m.WellFormed) {i j : GlobalId} {g g' : Global}
    (hg : m.globals[i]? = some g) (hg' : m.globals[j]? = some g') (hname : g.name = g'.name) :
    i = j := by
  have hlt : i < (m.globals.toList.map Global.name).length := by
    simpa using (Array.getElem?_eq_some_iff.mp hg).1
  apply (List.getElem?_inj hlt h.globalNames).mp
  simp [hg, hg', hname]

theorem WellFormed.contains_global (h : m.WellFormed) {id : GlobalId} {g : Global}
    (hg : m.globals[id]? = some g) : m.symbols.contains g.name = true :=
  h.named _ (.inl ⟨g, Array.mem_of_getElem? hg, rfl⟩)

end Module

theorem Annex.map_symbol_of_describes {granularity : Nat} {store : Annotations} {m : Module}
    {ids : List GlobalId} {globals : List Registered}
    (h : List.Forall₂ (Annex.Describes granularity store m) ids globals) :
    globals.map Registered.symbol = ids.map fun i => ((m.globals[i]?).map Global.name).getD 0 := by
  induction h with
  | nil => rfl
  | cons hfirst _ ih =>
      obtain ⟨g, hg, hsymbol⟩ := hfirst.symbol
      rw [List.map_cons, List.map_cons, ih, hsymbol, hg]
      rfl

namespace GlobalsRun

variable {config : Config} {m : Module} {store : Annotations} {ids : List GlobalId}

/-- Whether constructors are bracketed. -/
def isBracketed (run : GlobalsRun config m store ids) : Bool :=
  config.initOrder && !config.kernel && run.globals.any Registered.dynInit

/-- What the run may change of what was there. -/
def reach (run : GlobalsRun config m store ids) : Reach where
  padded id := id ∈ ids
  rewritten id := run.isBracketed = true ∧ id ∈ m.initializers
  code := True

/-- The globals of a run are some of a well-formed module's, each once. -/
structure Proper (m : Module) (ids : List GlobalId) : Prop where
  formed : m.WellFormed
  nodup : ids.Nodup
  bound : ∀ id ∈ ids, id < m.globals.size

theorem Proper.of_candidates {candidates : Candidates} (hformed : m.WellFormed)
    (h : m.candidates config store = .ok candidates) : Proper m candidates.ids := by
  obtain ⟨hnodup, -, hids⟩ := Module.candidates_spec h
  refine ⟨hformed, hnodup, fun id hid => ?_⟩
  obtain ⟨-, g, name, hg, -⟩ := (hids id).mp hid
  exact (Array.getElem?_eq_some_iff.mp hg).1

theorem padded_spec (run : GlobalsRun config m store ids) (hproper : Proper m ids) :
    (∀ i ∈ ids, ∀ g, m.globals[i]? = some g →
        run.padded.module.globals[i]? = some (g.grown config.mapping.granularity)) ∧
      Annex.Makes config.mapping.granularity { padded := (· ∈ ids) } (·.kind = .indicator)
        { module := m } run.padded ∧
      List.Forall₂ (Annex.Describes config.mapping.granularity store m) ids run.globals := by
  obtain ⟨hpadded, hmakes, hdescribes⟩ := Annex.addRedzones_eq_ok run.pads hproper.nodup
    (fun i _ j _ g g' hg hg' hname => hproper.formed.eq_of_name hg hg' hname)
    fun i hi => by
      have hg := Array.getElem?_eq_getElem (hproper.bound i hi)
      exact ⟨_, hg, hproper.formed.contains_global hg⟩
  exact ⟨hpadded, hmakes.mono fun own ⟨i, _, hindicates⟩ => hindicates.1, hdescribes⟩

/-- What is described goes by different symbols. -/
theorem Proper.nodup_symbols (hproper : Proper m ids) {granularity : Nat}
    {globals : List Registered}
    (h : List.Forall₂ (Annex.Describes granularity store m) ids globals) :
    (globals.map Registered.symbol).Nodup := by
  rw [Annex.map_symbol_of_describes h]
  refine hproper.nodup.map_on fun i hi j hj heq => ?_
  have hi := Array.getElem?_eq_getElem (hproper.bound i hi)
  have hj := Array.getElem?_eq_getElem (hproper.bound j hj)
  refine hproper.formed.eq_of_name hi hj ?_
  rw [hi, hj] at heq
  exact heq

theorem nodup_symbols (run : GlobalsRun config m store ids) (hproper : Proper m ids) :
    (run.globals.map Registered.symbol).Nodup :=
  hproper.nodup_symbols (run.padded_spec hproper).2.2

/-- A symbol that is made for a registration, if there is one. -/
def Registers (run : GlobalsRun config m store ids) (own : OwnSymbol) : Prop :=
  run.registration.isSome = true ∧ own.kind ∈ Annex.registrationKinds

theorem registered_spec (run : GlobalsRun config m store ids) (hproper : Proper m ids) :
    Annex.Makes config.mapping.granularity {} run.Registers run.padded run.registered ∧
      ∀ r, run.registration = some r → Annex.Callable run.registered.module r := by
  obtain ⟨-, hmakes, hdescribes⟩ := run.padded_spec hproper
  rcases run.registers with ⟨-, hsame, hnone⟩ | ⟨r, -, hadded, hsome⟩
  · rw [hsame, hnone]
    exact ⟨.refl _, nofun⟩
  · have hnamed : ∀ r ∈ run.globals, run.padded.module.symbols.contains r.symbol = true ∧
        (Initializer.fields r.descriptor).size = EntryPoint.descriptorSize := by
      intro r hr
      obtain ⟨id, -, hdescribed⟩ := exists_of_forall₂_mem hdescribes hr
      exact ⟨hmakes.keeps.symbols.contains hdescribed.named, hdescribed.size⟩
    obtain ⟨hmakes', hsymbols, hregister, hunregister⟩ :=
      Annex.addRegistration_eq_ok hadded (run.nodup_symbols hproper) hnamed
    refine ⟨hmakes'.mono fun own hkind => ⟨hsome ▸ rfl, hkind⟩, ?_⟩
    rw [hsome]
    rintro r' ⟨⟩
    exact ⟨hsymbols, hregister, hunregister⟩

/-- Up to the names of the constructor, no function changes, nor the list of constructors. -/
theorem named_spec (run : GlobalsRun config m store ids) (hproper : Proper m ids) :
    Annex.Makes config.mapping.granularity { padded := (· ∈ ids) }
      (fun own => own.kind = .indicator ∨ run.Registers own) { module := m }
      (run.registered.makeCtor config run.registration).1 := by
  obtain ⟨-, hpadded, -⟩ := run.padded_spec hproper
  obtain ⟨hregistered, -⟩ := run.registered_spec hproper
  have hctor : Annex.Makes config.mapping.granularity {} _ run.registered _ :=
    Annex.makes_makeCtor config run.registered run.registration
  refine (hpadded.trans (hregistered.trans_right hctor).widen ?_).mono fun _ h => h
  rintro own hkind ⟨-, hkind'⟩
  rw [hkind] at hkind'
  exact absurd hkind' (by decide)

/-- Up to the brackets, an annex is made. -/
theorem bracketed_spec (run : GlobalsRun config m store ids) (hproper : Proper m ids) :
    Annex.Makes config.mapping.granularity run.reach
        (fun own => own.kind = .indicator ∨ run.Registers own) { module := m } run.bracketed ∧
      ∀ name, run.uses.Has name → IsRoutine name := by
  obtain ⟨-, hcallable⟩ := run.registered_spec hproper
  have huses : ∀ name, (run.registered.makeCtor config run.registration).2.1.Has name →
      IsRoutine name :=
    fun name => Annex.has_makeCtor fun r hr => (hcallable r hr).register
  have hfirst := run.named_spec hproper
  have hbrackets := run.brackets
  split at hbrackets
  · rename_i hbracketed
    obtain ⟨hfunctions, hctors, -⟩ := hfirst.keeps.code not_false
    have hlast : Annex.Makes config.mapping.granularity _ _ _ run.bracketed :=
      Annex.makes_bracketInitializers hbrackets (hfirst.known nofun)
    rw [Module.initializers_congr hfunctions hctors] at hlast
    obtain ⟨-, -, -, hroutines, -⟩ := Annex.bracketInitializers_eq_ok hbrackets
    have hbefore : Annex.Makes config.mapping.granularity run.reach _ _ _ :=
      hfirst.mono_reach (fun _ h => h) nofun nofun
    refine ⟨hbefore.trans_right (hlast.mono_reach nofun (fun id hid => ⟨hbracketed, hid⟩)
      fun _ => trivial), fun name hname => ?_⟩
    exact (hroutines name hname).elim (huses name) id
  · obtain ⟨hsame, hrest⟩ := Prod.mk.inj (Except.ok.inj hbrackets)
    rw [← hsame, ← (Prod.mk.inj hrest).1]
    exact ⟨hfirst.mono_reach (fun _ h => h) nofun nofun, huses⟩

/-- The kinds of the symbols that are made for globals and their registration, counted ones
apart. -/
def kinds : List OwnKind := .indicator :: .ctor :: .dtor :: Annex.registrationKinds

/-- With the constructor added, too. -/
theorem started_spec (run : GlobalsRun config m store ids) (hproper : Proper m ids) :
    Annex.Makes config.mapping.granularity run.reach
      (fun own => (own.kind = .indicator ∨ run.Registers own) ∨ own.kind = .ctor)
      { module := m } run.started := by
  obtain ⟨hbracketed, -⟩ := run.bracketed_spec hproper
  obtain ⟨-, hcallable⟩ := run.registered_spec hproper
  obtain ⟨hsound, hlead⟩ : run.ctor.Sound _ ∧ run.ctor.ParamsLead :=
    Annex.typed_makeCtor hcallable
  have hctor : Annex.Makes config.mapping.granularity run.reach (·.kind = .ctor) run.bracketed
      run.started := by
    refine .of_changes (Module.changes_addCtor ⟨.ctor, "", fun _ => rfl⟩ trivial run.names_ctor
      ⟨hsound.mono run.symbols_bracketed.size_le, hlead⟩) (List.nodup_singleton _)
      (fun own hown => .inr ?_) le_rfl rfl
    obtain rfl := List.mem_singleton.mp hown
    exact ⟨rfl, rfl⟩
  refine hbracketed.trans hctor ?_
  rintro own (hkind | ⟨-, hkind⟩) hctor
  · cases hkind.symm.trans hctor
  · rw [hctor] at hkind
    exact absurd hkind (by decide)

/-- All but the declarations. -/
theorem closed_spec (run : GlobalsRun config m store ids) (hproper : Proper m ids) :
    (∃ a : Annex, a.module = run.closed.1 ∧
        Annex.Makes config.mapping.granularity run.reach (·.kind ∈ kinds) { module := m } a) ∧
      ∀ name, run.closed.2.Has name → IsRoutine name := by
  have hstarted := run.started_spec hproper
  obtain ⟨-, huses⟩ := run.bracketed_spec hproper
  obtain ⟨-, hcallable⟩ := run.registered_spec hproper
  unfold closed
  cases hregistration : run.registration with
  | none =>
      refine ⟨⟨run.started, rfl, hstarted.mono ?_⟩, huses⟩
      rintro own ((hkind | ⟨-, hkind⟩) | hkind)
      · exact hkind ▸ by decide
      · exact List.mem_cons_of_mem _ (List.mem_cons_of_mem _ (List.mem_cons_of_mem _ hkind))
      · exact hkind ▸ by decide
  | some r =>
      -- what the destructor refers to was known when the constructor was made
      have hgrows : run.registered.module.symbols.GrowsTo run.started.module.symbols := by
        have hctor : Annex.Makes 0 {} _ run.registered _ :=
          Annex.makes_makeCtor config run.registered run.registration
        exact hctor.keeps.symbols.trans run.symbols_bracketed
      have hcallable' : Annex.Callable run.started.module r :=
        (hcallable r hregistration).grow hgrows
      have hmakes : Annex.Makes config.mapping.granularity run.reach _ run.started _ :=
        run.started.makes_makeDtor run.uses r
      have hdtor : Annex.Makes config.mapping.granularity run.reach (·.kind = .dtor)
          (run.started.makeDtor run.uses r).1
          { (run.started.makeDtor run.uses r).1 with
            module := (run.started.makeDtor run.uses r).1.module.addDtor
              (run.started.makeDtor run.uses r).2.2 } := by
        refine .of_changes (Module.changes_addDtor ⟨.dtor, "", fun _ => rfl⟩ trivial
          (run.started.names_makeDtor run.uses r) (Annex.typed_makeDtor hcallable'))
          (List.nodup_singleton _) (fun own hown => .inr ?_) le_rfl rfl
        obtain rfl := List.mem_singleton.mp hown
        exact ⟨rfl, rfl⟩
      refine ⟨⟨_, rfl, ((hstarted.trans_right hmakes).trans hdtor ?_).mono ?_⟩,
        fun name hname => ?_⟩
      · -- no stage before makes a destructor
        rintro own ((hkind | ⟨-, hkind⟩) | hkind) hdtor
        · cases hkind.symm.trans hdtor
        · rw [hdtor] at hkind
          exact absurd hkind (by decide)
        · cases hkind.symm.trans hdtor
      · rintro own (((hkind | ⟨-, hkind⟩) | hkind) | hkind)
        · exact hkind ▸ by decide
        · exact List.mem_cons_of_mem _ (List.mem_cons_of_mem _ (List.mem_cons_of_mem _ hkind))
        · exact hkind ▸ by decide
        · exact hkind ▸ by decide
      · rcases Annex.has_makeDtor (a := run.started) hname with rfl | hname
        · exact hcallable'.unregister
        · exact huses name hname

/-- The whole run consists of changes, and the symbols that it makes are for anything but frames. -/
theorem changes (run : GlobalsRun config m store ids) (hproper : Proper m ids) :
    ∃ made, Module.Changes config.mapping.granularity run.reach m made run.module ∧ made.Nodup ∧
      ∀ own ∈ made, own.kind ≠ .stack := by
  obtain ⟨⟨a, ha, hmakes⟩, huses⟩ := run.closed_spec hproper
  obtain ⟨made, hchanges, hnodup, hmade⟩ := hmakes.changes
  rw [ha] at hchanges
  have hdeclared : Module.Changes config.mapping.granularity run.reach run.closed.1 [] run.module :=
    Module.changes_declareAll trivial huses
  refine ⟨made, List.append_nil made ▸ hchanges.trans hdeclared, hnodup, fun own hown hstack => ?_⟩
  rcases hmade own hown with hcounts | ⟨-, hkind⟩
  · have hcounted := hcounts.isCounted
    rw [hstack] at hcounted
    cases hcounted
  · rw [hstack] at hkind
    exact absurd hkind (by decide)

end GlobalsRun

end Redzone
