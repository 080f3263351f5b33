import Redzone.Proofs.Annotations
import Redzone.Proofs.Modules.Eligible
import Redzone.Proofs.Modules.ModuleRun
import Redzone.Proofs.Pipeline.History

/-!
# A second run

After a run every function is settled: it was exempt, it is marked, or it is the declaration of a
routine.  What a run adds to a module goes by generated names, so that there is nothing left for a
second run to do.  The globals need an argument of their own: their mark is the module's
constructor, and where there is none, no global is eligible in the module that the first run leaves
either.
-/

namespace Redzone

/-! ### Functions and their names -/

namespace Module

variable {config : Config} {m m' m₁ m₂ : Module} {id : FuncId} {store : Annotations}

/-- A module has a function of this name. -/
def HasFunction (m : Module) (name : String) : Prop :=
  ∃ f ∈ m.functions, m.symbols.names[f.name]? = some name

theorem isSome_functionByName_iff {name : String} :
    (m.functionByName name).isSome = true ↔ m.HasFunction name := by
  have hfound : ∀ symbol, (m.functionBySymbol symbol).isSome = true ↔
      ∃ f ∈ m.functions, f.name = symbol := by
    intro symbol
    rw [functionBySymbol, Array.findIdx?_isSome, Array.any_eq_true']
    simp
  constructor
  · intro h
    obtain ⟨found, h⟩ := Option.isSome_iff_exists.mp h
    obtain ⟨symbol, hsymbol, h⟩ := Option.bind_eq_some_iff.mp h
    obtain ⟨f, hf, rfl⟩ := (hfound symbol).mp (Option.isSome_iff_exists.mpr ⟨found, h⟩)
    exact ⟨f, hf, SymbolTable.get?_eq_some_iff.mp hsymbol⟩
  · rintro ⟨f, hf, hname⟩
    rw [functionByName, SymbolTable.get?_eq_some_iff.mpr hname, Option.bind_some]
    exact (hfound f.name).mpr ⟨f, hf, rfl⟩

/-! ### What runs over functions leave -/

/-- A function that is left alone. -/
def Settled (m : Module) (id : FuncId) : Prop :=
  ∃ f name, m.functions[id]? = some f ∧ m.symbols.names[f.name]? = some name ∧
    f.isExempt name = true

/-- Runs over functions keep what is settled, and all that they add is settled. -/
structure Advances (m m' : Module) : Prop where
  metadata : m'.nodes = m.nodes ∧ m'.named = m.named
  symbols : m.symbols.GrowsTo m'.symbols
  names : ∀ (id : FuncId) (f : Func), m.functions[id]? = some f →
    ∃ f', m'.functions[id]? = some f' ∧ f'.name = f.name
  settled : ∀ id, m.Settled id → m'.Settled id
  added : ∀ id, m.functions.size ≤ id → id < m'.functions.size → m'.Settled id
  globals : ∃ added : List Global, m'.globals.toList = m.globals.toList ++ added ∧
    ∀ g ∈ added, ∃ name, m'.symbols.names[g.name]? = some name ∧
      EntryPoint.isGenerated name = true

namespace Advances

theorem refl (m : Module) : Advances m m where
  metadata := ⟨rfl, rfl⟩
  symbols := .refl _
  names _ f hf := ⟨f, hf, rfl⟩
  settled _ h := h
  added id hle hlt := absurd hlt (Nat.not_lt.mpr hle)
  globals := ⟨[], by simp⟩

theorem trans (h : Advances m m₁) (h' : Advances m₁ m₂) : Advances m m₂ where
  metadata := ⟨h'.metadata.1.trans h.metadata.1, h'.metadata.2.trans h.metadata.2⟩
  symbols := h.symbols.trans h'.symbols
  names id f hf := by
    obtain ⟨f₁, hf₁, hname₁⟩ := h.names id f hf
    obtain ⟨f₂, hf₂, hname₂⟩ := h'.names id f₁ hf₁
    exact ⟨f₂, hf₂, hname₂.trans hname₁⟩
  settled id hid := h'.settled id (h.settled id hid)
  added id hle hlt := by
    by_cases hid : id < m₁.functions.size
    · exact h'.settled id (h.added id hle hid)
    · exact h'.added id (Nat.le_of_not_lt hid) hlt
  globals := by
    obtain ⟨added, hadded, hnames⟩ := h.globals
    obtain ⟨more, hmore, hnames'⟩ := h'.globals
    refine ⟨added ++ more, by rw [hmore, hadded, List.append_assoc], fun g hg => ?_⟩
    rcases List.mem_append.mp hg with hg | hg
    · obtain ⟨name, hname, hgenerated⟩ := hnames g hg
      exact ⟨name, h'.symbols _ _ hname, hgenerated⟩
    · exact hnames' g hg

theorem size_le (h : Advances m m') : m.functions.size ≤ m'.functions.size := by
  by_contra hlt
  obtain ⟨f, hf, -⟩ := h.names m'.functions.size _ (Array.getElem?_eq_getElem (by omega))
  exact absurd (Array.getElem?_eq_some_iff.mp hf).1 (Nat.lt_irrefl _)

theorem hasFunction {name : String} (h : Advances m m') (hname : m.HasFunction name) :
    m'.HasFunction name := by
  obtain ⟨f, hf, hsymbol⟩ := hname
  obtain ⟨id, hid⟩ := Array.getElem?_of_mem hf
  obtain ⟨f', hf', heq⟩ := h.names id f hid
  exact ⟨f', Array.mem_of_getElem? hf', heq ▸ h.symbols _ _ hsymbol⟩

end Advances

theorem isGenerated_stackDescription (name : String) :
    EntryPoint.isGenerated (EntryPoint.stackDescription name) = true := by
  have hstem : EntryPoint.startsWith (EntryPoint.stackDescription name) "__asan_" = true :=
    EntryPoint.startsWith_append (by decide +kernel) name
  simp [EntryPoint.isGenerated, hstem]

/-- One function is finished. -/
theorem advances_finished {f : Func} {name : String} {d : Draft} {description : Option Global}
    (hf : m.functions[id]? = some f) (hname : m.symbols.names[f.name]? = some name)
    (hextends : Draft.Extends { func := f, symbols := m.symbols } d)
    (hdescription : ∀ g, description = some g → ∃ symbol text,
      d.symbols.names[symbol]? = some (EntryPoint.stackDescription name) ∧
        g = descriptionGlobal symbol text)
    (hm' : m' = d.uses.declareAll (m.placed id d description)) :
    Advances m m' ∧ m'.Settled id := by
  have hdeclares : Declares IsRoutine (m.placed id d description) m' := by
    rw [hm']
    refine declares_declareAll fun routine hroutine => ?_
    rcases hextends.uses routine hroutine with hnone | hroutine
    · exact absurd hnone (RuntimeUses.not_has_empty routine)
    · exact hroutine
  have hid := (Array.getElem?_eq_some_iff.mp hf).1
  have hsymbols : m.symbols.GrowsTo m'.symbols := hextends.symbols.trans hdeclares.symbols
  have hfunction : m'.functions[id]? = some { d.func with sanitized := true } :=
    hdeclares.function (by simp [placed, hid])
  have hfname : d.func.name = f.name := Func.name_of_shell hextends.shell
  -- the function is settled by its mark, and its name is still known
  have hsettled : m'.Settled id := by
    refine ⟨_, name, hfunction, ?_, by simp [Func.isExempt]⟩
    rw [hfname]
    exact hsymbols _ _ hname
  have hother : ∀ (other : FuncId) (g : Func), other ≠ id → m.functions[other]? = some g →
      m'.functions[other]? = some g := by
    intro other g hne hg
    refine hdeclares.function ?_
    rw [placed, Array.getElem?_setIfInBounds_ne (Ne.symm hne), hg]
  refine ⟨⟨?_, hsymbols, fun other g hg => ?_, fun other hsettled' => ?_, fun other hle hlt => ?_,
    ?_⟩, hsettled⟩
  · rw [hdeclares.rest]
    exact ⟨rfl, rfl⟩
  · by_cases heq : other = id
    · subst heq
      obtain rfl := Option.some.inj (hf.symm.trans hg)
      exact ⟨_, hfunction, hfname⟩
    · exact ⟨g, hother other g heq hg, rfl⟩
  · by_cases heq : other = id
    · exact heq ▸ hsettled
    · obtain ⟨g, gname, hg, hgname, hexempt⟩ := hsettled'
      exact ⟨g, gname, hother other g heq hg, hsymbols _ _ hgname, hexempt⟩
  · -- a function that was not there is a declaration, and these are exempt
    have hg := Array.getElem?_eq_getElem hlt
    have hsize : (m.placed id d description).functions.size ≤ other := by simpa [placed] using hle
    obtain ⟨hdeclaration, gname, -, hgname⟩ := hdeclares.function_of_size_le hsize hg
    exact ⟨_, gname, hg, hgname, by simp [Func.isExempt, hdeclaration]⟩
  · refine ⟨description.toList, ?_, fun g hg => ?_⟩
    · rw [hdeclares.rest]
      simp [placed]
    · obtain ⟨symbol, text, hsymbol, rfl⟩ := hdescription g (Option.mem_toList.mp hg)
      exact ⟨_, hdeclares.symbols _ _ hsymbol, isGenerated_stackDescription name⟩

/-- A run over a function settles it. -/
theorem instrumentFunction_advances {outcome : Outcome}
    (h : m.instrumentFunction config id store = .ok (m', .ok outcome)) :
    Advances m m' ∧ m'.Settled id := by
  obtain ⟨f, name, hf, hname, ⟨hexempt, rfl, -⟩ | ⟨d, description, hextends, hdescription, hm'⟩⟩ :=
    (instrumentFunction_run h).finished
  · exact ⟨.refl m', f, name, hf, hname, hexempt⟩
  · exact advances_finished hf hname hextends hdescription hm'

/-- Runs over functions settle all of them. -/
theorem instrumentFunctions_advances {preserved : Preserved} {ids : List FuncId}
    {result : List (String × Outcome) × Preserved}
    (h : m.instrumentFunctions config store preserved ids = .ok (m', .ok result)) :
    Advances m m' ∧ ∀ id ∈ ids, m'.Settled id := by
  induction ids generalizing m preserved result with
  | nil =>
      cases h
      exact ⟨.refl _, nofun⟩
  | cons id rest ih =>
      rw [instrumentFunctions] at h
      obtain ⟨⟨m₁, step⟩, hstep, h⟩ := bind_eq_ok h
      cases step with
      | error cause => cases h
      | ok outcome =>
          obtain ⟨f, -, h⟩ := bind_eq_ok h
          obtain ⟨name, -, h⟩ := bind_eq_ok h
          obtain ⟨⟨m₂, others⟩, hothers, h⟩ := bind_eq_ok h
          cases others with
          | error cause => cases h
          | ok others =>
              cases h
              obtain ⟨hadvances, hsettled⟩ := instrumentFunction_advances hstep
              obtain ⟨hadvances', hsettled'⟩ := ih hothers
              exact ⟨hadvances.trans hadvances',
                List.forall_mem_cons.mpr ⟨hadvances'.settled id hsettled, hsettled'⟩⟩

/-! ### Nothing left to do -/

theorem instrumentFunction_of_settled (hvalid : config.validate = .ok ()) (h : m.Settled id) :
    m.instrumentFunction config id store = .ok (m, .ok {}) := by
  obtain ⟨f, name, hf, hname, hexempt⟩ := h
  rw [instrumentFunction, hvalid, hf]
  dsimp only
  rw [resolve, SymbolTable.resolve_eq_ok_iff.mpr hname, ok_bind, if_pos hexempt]

theorem intersect_all (preserved : Preserved) : preserved.intersect .all = preserved := by
  simp [Preserved.intersect, Preserved.all]

theorem instrumentFunctions_of_settled (hvalid : config.validate = .ok ()) (store : Annotations)
    (preserved : Preserved) {ids : List FuncId} (h : ∀ id ∈ ids, m.Settled id) :
    ∃ outcomes : List (String × Outcome),
      m.instrumentFunctions config store preserved ids = .ok (m, .ok (outcomes, preserved)) ∧
        ∀ entry ∈ outcomes, entry.2.changed = false := by
  induction ids with
  | nil => exact ⟨[], rfl, nofun⟩
  | cons id rest ih =>
      rw [List.forall_mem_cons] at h
      obtain ⟨outcomes, hrest, hunchanged⟩ := ih h.2
      obtain ⟨f, name, hf, hname, -⟩ := h.1
      refine ⟨(name, {}) :: outcomes, ?_, List.forall_mem_cons.mpr ⟨rfl, hunchanged⟩⟩
      rw [instrumentFunctions, instrumentFunction_of_settled hvalid h.1, ok_bind]
      dsimp only
      rw [function, hf, ok_bind, resolve, SymbolTable.resolve_eq_ok_iff.mpr hname, ok_bind,
        intersect_all, hrest]
      rfl

end Module

/-! ### The module that is left -/

theorem GlobalsRun.hasFunction_ctor {config : Config} {m : Module} {store : Annotations}
    {ids : List GlobalId} (run : GlobalsRun config m store ids) :
    run.module.HasFunction EntryPoint.moduleCtor := by
  have hgrows := run.growsTo_module
  have hlast : run.started.module.functions[run.bracketed.module.functions.size]? =
      some run.ctor := Array.getElem?_push_size
  exact ⟨run.ctor, Array.mem_of_getElem? (hgrows.functions _ _ hlast),
    hgrows.symbols _ _ run.names_ctor⟩

namespace Module

variable {config : Config} {m m' m₁ : Module} {store : Annotations}

/-- Where no global is eligible, none is after a run over functions. -/
theorem Advances.candidates (h : Advances m m') {candidates : Candidates}
    (hcandidates : m.candidates config (Annotations.ofModule m) = .ok candidates)
    (hids : candidates.ids = []) :
    ∃ candidates', m'.candidates config (Annotations.ofModule m') = .ok candidates' ∧
      candidates'.ids = [] := by
  by_cases hglobals : config.globals = true
  · obtain ⟨-, hcount, heligible⟩ := candidates_spec hcandidates
    have hnamed := (hcount hglobals).2
    obtain ⟨added, hadded, hgenerated⟩ := h.globals
    have hsize : m.globals.size ≤ m'.globals.size := by
      have hlength := congrArg List.length hadded
      rw [List.length_append, Array.length_toList, Array.length_toList] at hlength
      exact hlength ▸ Nat.le_add_right _ _
    obtain ⟨candidates', hcandidates'⟩ : ∃ candidates',
        m'.candidates config (Annotations.ofModule m') = .ok candidates' := by
      refine exists_candidates fun g hg => ?_
      rw [← Array.mem_toList_iff, hadded, List.mem_append, Array.mem_toList_iff] at hg
      rcases hg with hg | hg
      · exact h.symbols.contains (hnamed g hg)
      · obtain ⟨name, hname, -⟩ := hgenerated g hg
        exact SymbolTable.contains_iff.mpr ⟨name, hname⟩
    refine ⟨candidates', hcandidates', List.eq_nil_iff_forall_not_mem.mpr fun id hid => ?_⟩
    obtain ⟨-, g, name, hg, hname, hreason⟩ := ((candidates_spec hcandidates').2.2 id).mp hid
    rw [← Array.getElem?_toList, hadded] at hg
    by_cases hold : id < m.globals.size
    · -- an old global was eligible before
      rw [List.getElem?_append_left hold, Array.getElem?_toList] at hg
      obtain ⟨name', hname'⟩ := SymbolTable.contains_iff.mp (hnamed g (Array.mem_of_getElem? hg))
      obtain rfl := Option.some.inj ((h.symbols _ _ hname').symm.trans hname)
      rw [Annotations.get_ofModule h.metadata hsize hold] at hreason
      have hmem := (heligible id).mpr ⟨hglobals, g, name', hg, hname', hreason⟩
      rw [hids] at hmem
      cases hmem
    · -- a new one goes by a generated name
      rw [List.getElem?_append_right (Nat.le_of_not_lt hold)] at hg
      obtain ⟨name', hname', hgen⟩ := hgenerated g (List.mem_of_getElem? hg)
      obtain rfl := Option.some.inj (hname'.symm.trans hname)
      rw [(Global.of_skipReason?_eq_none hreason).2.1] at hgen
      cases hgen
  · refine ⟨{}, ?_, rfl⟩
    rw [Module.candidates, if_neg hglobals]

/-- After a run over the globals and runs over functions, the globals are left alone. -/
theorem instrumentGlobals_again {outcome : Outcome}
    (h : m.instrumentGlobals config (Annotations.ofModule m) = .ok (m₁, .ok outcome))
    (hadvances : Advances m₁ m') :
    ∃ outcome', m'.instrumentGlobals config (Annotations.ofModule m') = .ok (m', .ok outcome') ∧
      outcome'.changed = false ∧ outcome'.preserved = .all := by
  obtain ⟨hvalid, hrun⟩ := instrumentGlobals_run h
  unfold instrumentGlobals
  rw [hvalid]
  dsimp only
  by_cases hctor : (m'.functionByName EntryPoint.moduleCtor).isSome = true
  · exact ⟨{}, by rw [if_pos hctor], rfl, rfl⟩
  · rw [if_neg hctor]
    rw [isSome_functionByName_iff] at hctor
    cases hrun with
    | present hpresent =>
        exact absurd (hadvances.hasFunction (isSome_functionByName_iff.mp hpresent)) hctor
    | changed _ _ run => exact absurd (hadvances.hasFunction run.hasFunction_ctor) hctor
    | idle _ hcandidates hids hkernel =>
        obtain ⟨candidates', hcandidates', hids'⟩ := hadvances.candidates hcandidates hids
        refine ⟨{ stats := { skippedGlobals := candidates'.skipped }
                  diagnostics := candidates'.diagnostics }, ?_, rfl, rfl⟩
        rw [hcandidates', ok_bind, hids', hkernel]
        rfl

theorem instrumentAll_eq_ok {report : Report}
    (h : m.instrumentAll config store = .ok (m', .ok report)) :
    ∃ m₁ outcome, m.instrumentGlobals config store = .ok (m₁, .ok outcome) ∧
      m₁.instrumentFunctions config store outcome.preserved (List.range m₁.functions.size) =
        .ok (m', .ok (report.functions, report.preserved)) ∧ report.module = outcome := by
  obtain ⟨⟨m₁, step⟩, hstep, h⟩ := bind_eq_ok h
  cases step with
  | error cause => cases h
  | ok outcome =>
      obtain ⟨⟨m₂, result⟩, hresult, h⟩ := bind_eq_ok h
      cases result with
      | error cause => cases h
      | ok result =>
          cases h
          exact ⟨m₁, outcome, hstep, hresult, rfl⟩

/-- A run leaves nothing to do. -/
theorem instrumentAll_again {report : Report}
    (h : m.instrumentAll config (Annotations.ofModule m) = .ok (m', .ok report)) :
    ∃ report', m'.instrumentAll config (Annotations.ofModule m') = .ok (m', .ok report') ∧
      report'.changed = false ∧ report'.preserved = .all := by
  obtain ⟨m₁, outcome, hglobals, hfunctions, -⟩ := instrumentAll_eq_ok h
  have hvalid := (instrumentGlobals_run hglobals).1
  obtain ⟨hadvances, hsettled⟩ := instrumentFunctions_advances hfunctions
  obtain ⟨outcome', hagain, hunchanged, hpreserved⟩ := instrumentGlobals_again hglobals hadvances
  have hall : ∀ id ∈ List.range m'.functions.size, m'.Settled id := by
    intro id hid
    by_cases hold : id < m₁.functions.size
    · exact hsettled id (List.mem_range.mpr hold)
    · exact hadvances.added id (Nat.le_of_not_lt hold) (List.mem_range.mp hid)
  obtain ⟨outcomes, hfunctions', hunchanged'⟩ :=
    instrumentFunctions_of_settled hvalid (Annotations.ofModule m') outcome'.preserved hall
  refine ⟨⟨outcome', outcomes, outcome'.preserved⟩, ?_, ?_, hpreserved⟩
  · rw [instrumentAll, hagain, ok_bind]
    dsimp only
    rw [hfunctions']
    rfl
  · rw [Report.changed, hunchanged, Bool.false_or, List.any_eq_false]
    intro entry hentry
    exact Bool.eq_false_iff.mp (hunchanged' entry hentry)

end Module

namespace Pipeline

theorem run_eq_ok_iff {p q : Pipeline} {m m' : Module} {result : Except InstrumentError Report} :
    p.run m = .ok (q, m', result) ↔
      m.instrumentAll p.config (Annotations.ofModule m) = .ok (m', result) ∧
        q = ⟨p.config, ⟨some (Annotations.ofModule m), p.cache.computations + 1⟩⟩ := by
  rw [run_eq]
  cases m.instrumentAll p.config (Annotations.ofModule m) with
  | error fault => simp [Except.map]
  | ok step =>
      obtain ⟨m₁, result₁⟩ := step
      simp only [Except.map, Except.ok.injEq, Prod.mk.injEq]
      exact ⟨fun ⟨hq, hm, hresult⟩ => ⟨⟨hm, hresult⟩, hq.symm⟩,
        fun ⟨⟨hm, hresult⟩, hq⟩ => ⟨hq.symm, hm, hresult⟩⟩

/-- A second run, of this pipeline or of another one with the same configuration, changes
nothing. -/
theorem run_again {p p' q : Pipeline} {m m' : Module} {report : Report}
    (h : p.run m = .ok (p', m', .ok report)) (hconfig : q.config = p.config) :
    ∃ q' report', q.run m' = .ok (q', m', .ok report') ∧ report'.changed = false ∧
      report'.preserved.areAll = true := by
  obtain ⟨hall, -⟩ := run_eq_ok_iff.mp h
  obtain ⟨report', hagain, hunchanged, hpreserved⟩ := Module.instrumentAll_again hall
  refine ⟨_, report', run_eq_ok_iff.mpr ⟨hconfig ▸ hagain, rfl⟩, hunchanged, ?_⟩
  rw [hpreserved]
  rfl

end Pipeline

theorem exists_run_chase :
    ∃ p' m' report, Pipeline.run { config := {} } chaseModule = .ok (p', m', .ok report) ∧
      report.changed = true := by
  exact Pipeline.exists_of_succeeds (Pipeline.run { config := {} } chaseModule)
    (fun _ report => report.changed) (by decide +kernel)

theorem run_again_chase :
    ∃ p' m' report q' report', Pipeline.run { config := {} } chaseModule =
      .ok (p', m', .ok report) ∧
      report.changed = true ∧ p'.run m' = .ok (q', m', .ok report') ∧ report'.changed = false ∧
      report'.preserved.areAll = true := by
  obtain ⟨p', m', report, hrun, hchanged⟩ := exists_run_chase
  have hconfig : p'.config = {} := congrArg Pipeline.config (Pipeline.run_eq_ok_iff.mp hrun).2
  obtain ⟨q', report', hagain, hrest⟩ := Pipeline.run_again hrun hconfig
  exact ⟨p', m', report, q', report', hrun, hchanged, hagain, hrest⟩

end Redzone
