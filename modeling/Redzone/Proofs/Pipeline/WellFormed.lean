import Redzone.Proofs.Modules.Redzones
import Redzone.Proofs.Pipeline.Idempotent

/-!
# The pipeline keeps modules well formed

The run over the globals and each run over a function consist of changes.  The symbols that they
make are new as long as the program has no reserved names: the symbols of the globals differ from
one another, and the description of a frame goes by the name of its function.  What is left to show
is that no other function had a description of that name before, and that is the invariant of the
runs over the functions (`Module.Unframed`).
-/

namespace Redzone

theorem Func.Sound.mark {f : Func} {symbols : SymbolTable} (h : f.Sound symbols) :
    Func.Sound { f with sanitized := true } symbols := ⟨h.entry, h.nodup, h.ends, h.flawless⟩

namespace Module

variable {config : Config} {granularity : Nat} {m m' m₁ : Module} {id : FuncId}
  {store : Annotations} {f : Func} {name : String}

/-! ### Runs over functions -/

/-- The symbol of the description of a function's frame. -/
def frameSymbol (name : String) : OwnSymbol := ⟨.stack, name, by simp [OwnKind.isFixed]⟩

theorem fits_descriptionGlobal (symbol : SymbolId) (text : String) :
    (descriptionGlobal symbol text).Fits where
  align := (by decide : isPowerOfTwo 1 = true)
  padding := Nat.zero_le _
  init init hinit := by
    cases hinit
    exact le_rfl

/-- What a run over a function may change of what was there. -/
def functionReach (id : FuncId) : Reach where
  rewritten other := other = id
  code := True

/-- A function that was edited is taken over. -/
theorem changes_placed {d : Draft} {description : Option Global} (hf : m.functions[id]? = some f)
    (hextends : Draft.Extends { func := f, symbols := m.symbols } d)
    (hsound : d.func.Sound d.symbols) (hlead : f.ParamsLead → d.func.ParamsLead)
    (hdescription : ∀ g, description = some g → ∃ symbol text,
      d.symbols.names[symbol]? = some (EntryPoint.stackDescription name) ∧
        g = descriptionGlobal symbol text) :
    Changes granularity (functionReach id) m (description.toList.map fun _ => frameSymbol name)
      (d.uses.declareAll (m.placed id d description)) := by
  -- first the names, then the function, its description and the routines
  have hgrow : Change granularity (functionReach id) m []
      { m with symbols := d.symbols, used := m.used } := .grow hextends.symbols
  have hrewrite : Change granularity (functionReach id) { m with symbols := d.symbols } []
      (m.placed id d none) := by
    have hplaced : m.placed id d none =
        setFunction { m with symbols := d.symbols } id { d.func with sanitized := true } := by
      simp [placed, setFunction]
    rw [hplaced]
    have hname : d.func.name = f.name := Func.name_of_shell hextends.shell
    exact .rewrite trivial rfl hf hname fun _ hparams => ⟨hsound.mark, hlead hparams⟩
  have hdeclare : ∀ m₁, Changes granularity (functionReach id) m₁ [] (d.uses.declareAll m₁) := by
    intro m₁
    refine changes_declareAll trivial fun routine hroutine => ?_
    rcases hextends.uses routine hroutine with hnone | hroutine
    · exact absurd hnone (RuntimeUses.not_has_empty routine)
    · exact hroutine
  have hfunction := hgrow.changes.trans hrewrite.changes
  cases hg : description with
  | none => exact hfunction.trans (hdeclare _)
  | some g =>
      obtain ⟨symbol, text, hsymbol, rfl⟩ := hdescription g hg
      have hglobal : Change granularity (functionReach id) (m.placed id d none) [frameSymbol name]
          (m.placed id d (some (descriptionGlobal symbol text))) := by
        have hplaced : m.placed id d (some (descriptionGlobal symbol text)) =
            ((m.placed id d none).addGlobal (descriptionGlobal symbol text)).1 := by
          simp [placed, addGlobal]
        rw [hplaced]
        exact .global hsymbol (fits_descriptionGlobal symbol text)
      exact (hfunction.trans hglobal.changes).trans (hdeclare _)

/-- A run over a function of a module in which it is well formed consists of changes. -/
theorem FunctionRun.changes {outcome : Outcome} (h : FunctionRun config m id store m' (.ok outcome))
    (hformed : m.WellFormed) :
    ∃ f name, ∃ description : Option Global, m.functions[id]? = some f ∧
      m.symbols.names[f.name]? = some name ∧
      Changes granularity (functionReach id) m
        (description.toList.map fun _ => frameSymbol name) m' := by
  have hverify : ∀ {f : Func}, m.functions[id]? = some f → f.verify m.symbols = .ok [] :=
    fun hf => verify_func_eq_nil_iff.mpr
      ⟨hformed.named _ (.inr ⟨_, Array.mem_of_getElem? hf, rfl⟩),
        hformed.sound _ (Array.mem_of_getElem? hf)⟩
  generalize hresult : Except.ok outcome = result at h
  cases h with
  | refused => cases hresult
  | tooLarge => cases hresult
  | @exempt f name _ hf hname => exact ⟨f, name, none, hf, hname, .refl _⟩
  | @plain f name _ d hsurveyed =>
      obtain ⟨marked, -, hsurvey⟩ := hsurveyed.judged
      obtain ⟨-, hedited⟩ : _ ∧ d.Edited False config.mapping f :=
        visits_edited (hverify hsurveyed.function) hsurvey hsurveyed.visits False.elim
      rw [finish_eq]
      refine ⟨f, name, none, hsurveyed.function, hsurveyed.named, changes_placed hsurveyed.function
        hsurveyed.extends hedited.sound hedited.edits.paramsLead ?_⟩
      rintro g ⟨⟩
  | @framed f name _ _ d d' _ description hsurveyed _ hframe _ hd' =>
      obtain ⟨marked, -, hsurvey⟩ := hsurveyed.judged
      obtain ⟨hvisits, hvisited⟩ : _ ∧ d.Edited False config.mapping f :=
        visits_edited (hverify hsurveyed.function) hsurvey hsurveyed.visits False.elim
      have hedited := frame_edited (hverify hsurveyed.function) hvisits hvisited hvisited le_rfl
        hsurveyed.named hsurveyed.slots hframe hd'
      obtain ⟨hextends, symbol, hsymbol, hdescription⟩ := Draft.addFrame_extends hd'
      rw [finish_eq]
      refine ⟨f, name, _, hsurveyed.function, hsurveyed.named, changes_placed hsurveyed.function
        (hsurveyed.extends.trans hextends) hedited.sound hedited.edits.paramsLead ?_⟩
      rintro g ⟨⟩
      exact ⟨symbol, _, hsymbol, hdescription⟩

/-- The frames of some functions have no descriptions yet. -/
def Unframed (m : Module) (ids : List FuncId) : Prop :=
  ∀ id ∈ ids, ∃ f name, m.functions[id]? = some f ∧ m.symbols.names[f.name]? = some name ∧
    ¬ m.Taken (EntryPoint.stackDescription name)

/-- Functions of a well-formed module have different symbols. -/
theorem WellFormed.eq_of_functionName (h : m.WellFormed) {i j : FuncId} {f g : Func}
    (hf : m.functions[i]? = some f) (hg : m.functions[j]? = some g) (hname : f.name = g.name) :
    i = j := by
  have hlt : i < (m.functions.toList.map Func.name).length := by
    simpa using (Array.getElem?_eq_some_iff.mp hf).1
  apply (List.getElem?_inj hlt h.functionNames).mp
  simp [hf, hg, hname]

/-- A run over a function keeps the module tidy, and it describes the frame of that function
only. -/
theorem FunctionRun.tidy {outcome : Outcome} (h : FunctionRun config m id store m' (.ok outcome))
    (htidy : m.Tidy) {rest : List FuncId} (hids : m.Unframed (id :: rest)) (hid : id ∉ rest) :
    m'.Tidy ∧ m'.Unframed rest := by
  obtain ⟨f, name, description, hf, hname, hchanges⟩ : ∃ f name, ∃ description : Option Global, _ ∧
      _ ∧ Changes config.mapping.granularity (functionReach id) m
        (description.toList.map fun _ => frameSymbol name) m' := h.changes htidy.toWellFormed
  obtain ⟨f', name', hf', hname', hfree⟩ := hids id List.mem_cons_self
  obtain rfl := Option.some.inj (hf.symm.trans hf')
  obtain rfl := Option.some.inj (hname.symm.trans hname')
  have hmade : ∀ own ∈ description.toList.map fun _ => frameSymbol name,
      own = frameSymbol name := by
    intro own hown
    obtain ⟨-, -, rfl⟩ := List.mem_map.mp hown
    rfl
  have hnodup : (description.toList.map fun _ => frameSymbol name).Nodup := by
    cases description with
    | none => exact List.nodup_nil
    | some => exact List.nodup_singleton _
  have htidy' := hchanges.tidy (isPowerOfTwo_shiftLeft _) htidy hnodup
    fun own hown => (hmade own hown) ▸ hfree
  refine ⟨htidy', fun other hother => ?_⟩
  obtain ⟨g, gname, hg, hgname, hgfree⟩ := hids other (List.mem_cons_of_mem _ hother)
  have hne : other ≠ id := fun heq => hid (heq ▸ hother)
  refine ⟨g, gname, hchanges.keeps.functions other g hne hg, hchanges.keeps.symbols _ _ hgname, ?_⟩
  intro hgtaken
  rcases (hchanges.taken_cases htidy.named).2 _ hgtaken with hold | ⟨own, hown, htext⟩ | hroutine
  · exact hgfree hold
  · -- the description of another frame goes by another name
    rw [hmade own hown] at htext
    have hsame := OwnSymbol.text_injective (htext.trans
      (show _ = (frameSymbol gname).text from rfl))
    have hsuffix : name = gname := congrArg OwnSymbol.suffix hsame
    subst hsuffix
    exact hne (htidy.toWellFormed.eq_of_functionName hg hf (SymbolTable.eq_of_names hgname hname))
  · exact (frameSymbol gname).not_isRoutine hroutine

theorem instrumentFunctions_tidy {preserved : Preserved} {ids : List FuncId}
    {result : List (String × Outcome) × Preserved}
    (h : m.instrumentFunctions config store preserved ids = .ok (m', .ok result))
    (htidy : m.Tidy) (hids : m.Unframed ids) (hnodup : ids.Nodup) : m'.Tidy := by
  induction ids generalizing m preserved result with
  | nil =>
      cases h
      exact htidy
  | cons id rest ih =>
      rw [instrumentFunctions] at h
      obtain ⟨⟨m₁, step⟩, hstep, h⟩ := bind_eq_ok h
      cases step with
      | error cause => cases h
      | ok outcome =>
          obtain ⟨f, -, h⟩ := bind_eq_ok h
          obtain ⟨name, -, h⟩ := bind_eq_ok h
          obtain ⟨⟨m₂, others⟩, hothers, h⟩ := bind_eq_ok h
          cases others with
          | error cause => cases h
          | ok others =>
              cases h
              rw [List.nodup_cons] at hnodup
              obtain ⟨htidy₁, hrest⟩ := (instrumentFunction_run hstep).tidy htidy hids hnodup.1
              exact ih hothers htidy₁ hrest hnodup.2

/-! ### The run over the globals -/

/-- A run over the globals keeps the module tidy, and it describes no frames. -/
theorem instrumentGlobals_tidy {outcome : Outcome}
    (h : m.instrumentGlobals config store = .ok (m', .ok outcome)) (htidy : m.Tidy)
    (hnames : m.Unreserved) :
    m'.Tidy ∧ ∀ name, ¬ m'.Taken (EntryPoint.stackDescription name) := by
  have hframes : ∀ name, ¬ m.Taken (EntryPoint.stackDescription name) :=
    fun name => hnames.not_taken (frameSymbol name)
  cases (instrumentGlobals_run h).2 with
  | present => exact ⟨htidy, hframes⟩
  | idle => exact ⟨htidy, hframes⟩
  | changed _ hcandidates run =>
      obtain ⟨made, hchanges, hnodup, hkinds⟩ :=
        run.changes (.of_candidates htidy.toWellFormed hcandidates)
      refine ⟨hchanges.tidy (isPowerOfTwo_shiftLeft _) htidy hnodup fun own _ => hnames.not_taken
        own, fun name hname => ?_⟩
      rcases (hchanges.taken_cases htidy.named).2 _ hname with hold | ⟨own, hown, htext⟩ | hroutine
      · exact hframes name hold
      · have hsame := OwnSymbol.text_injective
          (htext.trans (show _ = (frameSymbol name).text from rfl))
        exact hkinds own hown (congrArg OwnSymbol.kind hsame)
      · exact (frameSymbol name).not_isRoutine hroutine

theorem instrumentAll_tidy {report : Report}
    (h : m.instrumentAll config store = .ok (m', .ok report)) (htidy : m.Tidy)
    (hnames : m.Unreserved) : m'.Tidy := by
  obtain ⟨m₁, outcome, hglobals, hfunctions, -⟩ := instrumentAll_eq_ok h
  obtain ⟨htidy₁, hframes⟩ := instrumentGlobals_tidy hglobals htidy hnames
  refine instrumentFunctions_tidy hfunctions htidy₁ (fun id hid => ?_) List.nodup_range
  have hf := Array.getElem?_eq_getElem (List.mem_range.mp hid)
  obtain ⟨name, hname⟩ := SymbolTable.contains_iff.mp
    (htidy₁.named _ (.inr ⟨_, Array.mem_of_getElem? hf, rfl⟩))
  exact ⟨_, name, hf, hname, hframes name⟩

end Module

/-- If nothing is wrong with a module, no name of it is reserved and its parameters lead, then
nothing is wrong with what a run of the pipeline leaves. -/
theorem Pipeline.run_verifies {p p' : Pipeline} {m m' : Module} {report : Report}
    (hverify : m.verify = .ok []) (hnames : m.Unreserved)
    (hlead : ∀ f ∈ m.functions, f.ParamsLead) (h : p.run m = .ok (p', m', .ok report)) :
    m'.verify = .ok [] := by
  obtain ⟨hall, -⟩ := run_eq_ok_iff.mp h
  have htidy := Module.instrumentAll_tidy hall (Module.tidy_of_verify hverify hnames hlead) hnames
  exact Module.verify_eq_nil_iff.mpr htidy.toWellFormed

theorem exists_run_shop :
    ∃ p' m' report, Pipeline.run { config := {} } shopModule = .ok (p', m', .ok report) ∧
      report.module.stats.globals = 1 ∧ report.module.stats.wrapped = 1 := by
  obtain ⟨p', m', report, hrun, h⟩ := Pipeline.exists_of_succeeds
    (Pipeline.run { config := {} } shopModule)
    (fun _ report => decide (report.module.stats.globals = 1 ∧ report.module.stats.wrapped = 1))
    (by decide +kernel)
  exact ⟨p', m', report, hrun, of_decide_eq_true h⟩

theorem run_verifies_shop :
    ∃ p' m' report, Pipeline.run { config := {} } shopModule = .ok (p', m', .ok report) ∧
      report.module.stats.globals = 1 ∧ report.module.stats.wrapped = 1 ∧ m'.verify = .ok [] := by
  obtain ⟨p', m', report, hrun, hglobals, hwrapped⟩ := exists_run_shop
  have hlead : ∀ f ∈ shopModule.functions, f.leads = true := by decide +kernel
  exact ⟨p', m', report, hrun, hglobals, hwrapped, Pipeline.run_verifies (by decide +kernel)
    (Module.unreserved_of_names (by decide +kernel))
    (fun f hf => Func.paramsLead_of_leads (hlead f hf)) hrun⟩

end Redzone
