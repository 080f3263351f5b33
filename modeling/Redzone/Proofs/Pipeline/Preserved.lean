import Redzone.Proofs.Modules.Flow
import Redzone.Proofs.Pipeline.WellFormed

/-!
# What a run reports as preserved

A run over a function reports what it did by comparing sizes: it has changed the function if the
arena has grown, and it has kept the flow of control if there are no more blocks.  Here the reports
are compared with the function itself.  An arena that has not grown belongs to a function without
sites and without a frame, and as long as no block is added every block ends as it did
(`Func.GrowsInto`).  The run over the globals only reports that the flow of control is kept if it
has done nothing, and so the report of the pipeline is about all functions that were there before.
-/

namespace Redzone

theorem Func.inArena_of_scopedSlots {f : Func} {marked : List InstId}
    (h : f.scopedSlots = .ok marked) : f.InArena := by
  obtain ⟨slots, hslots, -⟩ := bind_eq_ok h
  intro i hi
  obtain ⟨slot, -, hslot⟩ := mapM_eq_ok hslots i hi
  obtain ⟨instruction, hinst, -⟩ := bind_eq_ok hslot
  exact (Array.getElem?_eq_some_iff.mp (inst_eq_ok hinst)).1

theorem Func.SameFlow.mark {f g : Func} (h : f.SameFlow g) :
    f.SameFlow { g with sanitized := true } := ⟨h.size, h.terminator, h.op⟩

namespace Module

variable {config : Config} {m m' m₁ : Module} {id : FuncId} {store : Annotations} {f : Func}
  {name : String} {survey : Survey} {slots : List Slot} {d : Draft} {outcome : Outcome}

/-! ### Runs over functions -/

/-- The checks of a surveyed function keep the ends of its blocks, and they add to its arena if
there are any. -/
theorem Surveyed.growsInto (h : Surveyed config m id store f name survey slots d) :
    f.GrowsInto d.func ∧
      (d.func.insts.size = f.insts.size → d = { func := f, symbols := m.symbols }) := by
  obtain ⟨marked, hmarked, hsurvey⟩ := h.judged
  have hsuits := Judge.survey_suits hsurvey
  refine ⟨Draft.visitAll_growsInto (d := { func := f, symbols := m.symbols })
    (.refl (Func.inArena_of_scopedSlots hmarked)) (fun site hsite => (hsuits site hsite).1)
      h.visits, fun hsize => ?_⟩
  by_cases hsites : survey.sites = []
  · have hvisits := h.visits
    rw [hsites] at hvisits
    exact (Except.ok.inj hvisits).symm
  · have hlt := Draft.size_lt_of_visitAll h.visits hsites fun site hsite => (hsuits site hsite).2
    exact absurd hsize hlt.ne'

/-- What is left of the functions of a module when one of them is finished. -/
theorem functions_placed {description : Option Global} (hf : m.functions[id]? = some f)
    (hextends : Draft.Extends { func := f, symbols := m.symbols } d)
    (hm' : m' = d.uses.declareAll (m.placed id d description)) :
    m'.functions[id]? = some { d.func with sanitized := true } ∧
      ∀ (other : FuncId) (g : Func), other ≠ id → m.functions[other]? = some g →
        m'.functions[other]? = some g := by
  have hdeclares : Declares IsRoutine (m.placed id d description) m' := by
    rw [hm']
    refine declares_declareAll fun routine hroutine => ?_
    rcases hextends.uses routine hroutine with hnone | hroutine
    · exact absurd hnone (RuntimeUses.not_has_empty routine)
    · exact hroutine
  have hid := (Array.getElem?_eq_some_iff.mp hf).1
  refine ⟨hdeclares.function (by simp [placed, hid]), fun other g hne hg => hdeclares.function ?_⟩
  rw [placed, Array.getElem?_setIfInBounds_ne (Ne.symm hne), hg]

/-- Where the flow of control is reported as kept, nothing was added at all or no block was. -/
theorem size_of_preservedBy {before after : Func}
    (h : (preservedBy before after).cfg = true ∨ (preservedBy before after).dominators = true) :
    after.insts.size = before.insts.size ∨ after.blocks.size = before.blocks.size := by
  unfold preservedBy at h
  by_cases hinsts : after.insts.size = before.insts.size
  · exact .inl hinsts
  · rw [if_neg hinsts] at h
    by_cases hblocks : after.blocks.size = before.blocks.size
    · exact .inr hblocks
    · rw [if_neg hblocks] at h
      simp [Preserved.none, Preserved.preserve] at h

/-- What a run over a function reports holds. -/
structure Honest (m : Module) (id : FuncId) (m' : Module) (outcome : Outcome) (f f' : Func) :
    Prop where
  before : m.functions[id]? = some f
  after : m'.functions[id]? = some f'
  others : ∀ (other : FuncId) (g : Func), other ≠ id → m.functions[other]? = some g →
    m'.functions[other]? = some g
  unchanged : outcome.changed = false → m' = m ∨ m' = m.setFunction id { f with sanitized := true }
  flow : outcome.preserved.cfg = true ∨ outcome.preserved.dominators = true → f.SameFlow f'

theorem FunctionRun.honest (h : FunctionRun config m id store m' (.ok outcome)) :
    ∃ f f', Honest m id m' outcome f f' := by
  generalize hresult : Except.ok outcome = result at h
  cases h with
  | refused => cases hresult
  | tooLarge => cases hresult
  | @exempt f _ _ hf =>
      cases hresult
      exact ⟨f, f, hf, hf, fun _ _ _ hg => hg, fun _ => .inl rfl, fun _ => .refl f⟩
  | @plain f name survey d hsurveyed =>
      rw [finish_eq] at hresult ⊢
      cases hresult
      obtain ⟨hgrown, hidle⟩ := hsurveyed.growsInto
      obtain ⟨hafter, hothers⟩ := functions_placed hsurveyed.function hsurveyed.extends rfl
      refine ⟨f, _, hsurveyed.function, hafter, hothers, fun hunchanged => .inr ?_, fun hkept => ?_⟩
      · have hsize : d.func.insts.size = f.insts.size := by simpa using hunchanged
        rw [hidle hsize]
        simp [placed, setFunction, RuntimeUses.declareAll, Dict.empty]
      · rcases size_of_preservedBy hkept with hinsts | hblocks
        · rw [hidle hinsts]
          exact (Func.SameFlow.refl f).mark
        · exact (hgrown.sameFlow hblocks).mark
  | @framed f name survey slots d d' frame description hsurveyed hslots hframe hsmall hd' =>
      rw [finish_eq] at hresult ⊢
      cases hresult
      obtain ⟨hextends, -⟩ := Draft.addFrame_extends hd'
      obtain ⟨hgrown, hlt⟩ := Draft.addFrame_growsInto hsurveyed.growsInto.1
        (Func.isSlot_of_slots hsurveyed.slots) hd'
      -- a frame adds to the arena, so that the run never counts as one without changes
      have hgrows : d'.func.insts.size ≠ f.insts.size := (hsurveyed.extends.size.trans_lt hlt).ne'
      obtain ⟨hafter, hothers⟩ :=
        functions_placed hsurveyed.function (hsurveyed.extends.trans hextends) rfl
      refine ⟨f, _, hsurveyed.function, hafter, hothers, fun hunchanged => ?_, fun hkept => ?_⟩
      · exact absurd (by simpa using hunchanged) hgrows
      · rcases size_of_preservedBy hkept with hinsts | hblocks
        · exact absurd hinsts hgrows
        · exact (hgrown.sameFlow hblocks).mark

/-! ### Runs over all functions -/

/-- Every function of a module is there in another one, with the same flow of control. -/
def KeepsFlow (m m' : Module) : Prop :=
  ∀ (id : FuncId) (f : Func), m.functions[id]? = some f →
    ∃ f', m'.functions[id]? = some f' ∧ f.SameFlow f'

theorem KeepsFlow.refl (m : Module) : KeepsFlow m m := fun _ f hf => ⟨f, hf, .refl f⟩

theorem KeepsFlow.trans {m₂ : Module} (h : KeepsFlow m m₁) (h' : KeepsFlow m₁ m₂) :
    KeepsFlow m m₂ := by
  intro id f hf
  obtain ⟨f₁, hf₁, hflow⟩ := h id f hf
  obtain ⟨f₂, hf₂, hflow'⟩ := h' id f₁ hf₁
  exact ⟨f₂, hf₂, hflow.trans hflow'⟩

theorem Honest.keepsFlow {f' : Func} (h : Honest m id m' outcome f f')
    (hkept : outcome.preserved.cfg = true) : KeepsFlow m m' := by
  intro other g hg
  by_cases heq : other = id
  · subst heq
    obtain rfl := Option.some.inj (h.before.symm.trans hg)
    exact ⟨f', h.after, h.flow (.inl hkept)⟩
  · exact ⟨g, h.others other g heq hg, .refl g⟩

theorem instrumentFunctions_keepsFlow {preserved kept : Preserved} {ids : List FuncId}
    {outcomes : List (String × Outcome)}
    (h : m.instrumentFunctions config store preserved ids = .ok (m', .ok (outcomes, kept)))
    (hkept : kept.cfg = true) : preserved.cfg = true ∧ KeepsFlow m m' := by
  induction ids generalizing m preserved outcomes with
  | nil =>
      cases h
      exact ⟨hkept, .refl _⟩
  | cons id rest ih =>
      rw [instrumentFunctions] at h
      obtain ⟨⟨m₁, step⟩, hstep, h⟩ := bind_eq_ok h
      cases step with
      | error cause => cases h
      | ok outcome =>
          obtain ⟨f, -, h⟩ := bind_eq_ok h
          obtain ⟨name, -, h⟩ := bind_eq_ok h
          obtain ⟨⟨m₂, others⟩, hothers, h⟩ := bind_eq_ok h
          cases others with
          | error cause => cases h
          | ok others =>
              cases h
              obtain ⟨hboth, hrest⟩ := ih hothers
              -- what is kept in the end was kept by every step
              rw [Preserved.intersect, Bool.and_eq_true] at hboth
              obtain ⟨f, f', hhonest⟩ := (instrumentFunction_run hstep).honest
              exact ⟨hboth.1, (hhonest.keepsFlow hboth.2).trans hrest⟩

/-- The run over the globals reports that the flow of control is kept only if it does nothing. -/
theorem eq_of_instrumentGlobals (h : m.instrumentGlobals config store = .ok (m', .ok outcome))
    (hkept : outcome.preserved.cfg = true) : m' = m := by
  cases (instrumentGlobals_run h).2 with
  | present => rfl
  | idle => rfl
  | changed => cases hkept

end Module

/-- What is reported as kept is kept.  If a run over a function reports no change, the module is the
same but for the mark of that function; if it reports that the flow of control or what dominates
what is kept, the blocks of the function are as many and end as before.  If the report of the
pipeline has the flow of control, this holds of every function that was there before the run. -/
theorem Pipeline.run_preserves_flow :
    (∀ config (m : Module) id store m' outcome,
      m.instrumentFunction config id store = .ok (m', .ok outcome) →
        ∃ f f', m.functions[id]? = some f ∧ m'.functions[id]? = some f' ∧
          (outcome.changed = false → m' = m ∨ m' = m.setFunction id { f with sanitized := true }) ∧
          (outcome.preserved.holds .cfg = true ∨ outcome.preserved.holds .dominators = true →
            f.SameFlow f')) ∧
      ∀ (p q : Pipeline) m m' report, p.run m = .ok (q, m', .ok report) →
        report.preserved.holds .cfg = true → ∀ (id : FuncId) (f : Func), m.functions[id]? = some f →
          ∃ f', m'.functions[id]? = some f' ∧ f.SameFlow f' := by
  constructor
  · intro config m id store m' outcome h
    obtain ⟨f, f', hhonest⟩ := (Module.instrumentFunction_run h).honest
    exact ⟨f, f', hhonest.before, hhonest.after, hhonest.unchanged, hhonest.flow⟩
  · intro p q m m' report h hkept
    obtain ⟨hall, -⟩ := run_eq_ok_iff.mp h
    obtain ⟨m₁, outcome, hglobals, hfunctions, -⟩ := Module.instrumentAll_eq_ok hall
    obtain ⟨hkept', hflow⟩ := Module.instrumentFunctions_keepsFlow hfunctions hkept
    obtain rfl := Module.eq_of_instrumentGlobals hglobals hkept'
    exact hflow

/-- Checks are calls, and no constructor is made. -/
def callingConfig : Config := { kernel := true, callsThreshold := 0 }

theorem exists_run_calling :
    ∃ p' m' report, Pipeline.run { config := callingConfig } chaseModule =
      .ok (p', m', .ok report) ∧
      report.changed = true ∧ report.preserved.holds .cfg = true := by
  obtain ⟨p', m', report, hrun, h⟩ := Pipeline.exists_of_succeeds
    (Pipeline.run { config := callingConfig } chaseModule)
    (fun _ report => report.changed && report.preserved.holds .cfg) (by decide +kernel)
  exact ⟨p', m', report, hrun, (Bool.and_eq_true _ _).mp h⟩

/-- A call of a checking routine, a call in place of a bulk operation and a frame leave the blocks
alone. -/
theorem run_preserves_flow_chase :
    ∃ p' m' report f', Pipeline.run { config := callingConfig } chaseModule =
        .ok (p', m', .ok report) ∧
      report.changed = true ∧ report.preserved.holds .cfg = true ∧ m'.functions[0]? = some f' ∧
      chaseFunction.SameFlow f' := by
  obtain ⟨p', m', report, hrun, hchanged, hkept⟩ := exists_run_calling
  obtain ⟨f', hf', hflow⟩ :=
    Pipeline.run_preserves_flow.2 _ _ _ _ _ hrun hkept 0 chaseFunction rfl
  exact ⟨p', m', report, f', hrun, hchanged, hkept, hf', hflow⟩

end Redzone
