import Redzone.Proofs.Progress.Pipeline
import Redzone.Proofs.Shielded

/-!
# What an instrumentation takes for granted

The code that adds checks and frames relies on facts about what it is given, and tests them.  A site
is still at its place when it is visited.  A frame is laid out for at least one variable, with
granules of a size that is supported.  No lifetime is longer than its variable.  Shadow bytes are
written within a mask that has one byte for each of them.  A test that fails ends the
instrumentation in a fault, so that one which ends in a result has passed all of them.

## Strategy

`Module.Granted` spells out what the tests of one function ask for.  There are three kinds of facts.

* **Sites.** Sites are visited from the last one to the first, and a visit moves nothing that stands
  in front of its site.  So the sites that are still to come stay where they were found; this is why
  the visits of a sound function succeed (`Draft.Ready.visits`), and a visit that succeeds has found
  its site at its place (`Surveyed.inPlace`).  In the order of the code it would not: the last part
  of `Pipeline.instrumentFunction_asserting_chase` has two sites of which the second has moved.
* **Frames.** There is a variable for each slot, and a scale that is valid gives granules of 8 to 64
  bytes.  A lifetime is as long as its variable, or there is none.
* **Shadows.** All shadows of one frame have a byte for each of its granules, and the granules that
  a marker changes are granules of the frame (`Frame.Holds.markedGranules_le`), since the marker's
  range was cut off at the end of its variable.

`Pipeline.instrumentFunction_asserting` puts this together for every module that a run makes out of
one in which nothing is wrong.
-/

namespace Redzone

namespace Module

variable {config : Config} {m stage : Module} {id : FuncId} {store : Annotations} {f : Func}
  {name : String} {survey : Survey} {slots : List Slot} {d : Draft}

/-- What the instrumentation of a function with these sites and slots takes for granted. -/
structure Granted (config : Config) (m : Module) (f : Func) (survey : Survey) (slots : List Slot) :
    Prop where
  /-- The sites that were visited before have left this one at its place. -/
  place : ∀ (visited rest : List Site) (site : Site) (d : Draft),
    survey.sites.reverse = visited ++ site :: rest →
    visited.foldlM (Draft.visit config (outlines config survey.sites))
      { func := f, symbols := m.symbols } = .ok d → site.InPlace d.func
  nonempty : slots ≠ [] → slotVariables slots ≠ []
  granularity : isPowerOfTwo config.mapping.granularity = true ∧ 8 ≤ config.mapping.granularity ∧
    config.mapping.granularity ≤ 64
  lifetime : ∀ frame, Frame.layOut (slotVariables slots) config.mapping.granularity = .ok frame →
    ∀ var ∈ frame.vars, var.lifetime ≤ var.size
  shadow : ∀ frame atEntry,
    Frame.layOut (slotVariables slots) config.mapping.granularity = .ok frame →
    frame.entryShadow = .ok atEntry → atEntry.length = frame.shadow.length ∧
      ∀ var ∈ frame.vars, ∀ marker start stop,
        FrameCode.markedGranules frame.granularity var marker = .ok (some (start, stop)) →
        stop ≤ atEntry.length

theorem Surveyed.inPlace (h : Surveyed config m id store f name survey slots d)
    {visited rest : List Site} {site : Site} {d₁ : Draft}
    (hsplit : survey.sites.reverse = visited ++ site :: rest)
    (hvisited : visited.foldlM (Draft.visit config (outlines config survey.sites))
      { func := f, symbols := m.symbols } = .ok d₁) : site.InPlace d₁.func := by
  have hvisits := h.visits
  unfold Draft.visitAll at hvisits
  rw [hsplit, List.foldlM_append, hvisited, ok_bind] at hvisits
  obtain ⟨d₂, hvisit, -⟩ := foldlM_cons_eq_ok hvisits
  exact Site.isInPlace_iff.mp (require_bind_eq_ok hvisit).1

/-- All that is taken for granted of a sound function is true. -/
theorem Surveyed.granted (h : Surveyed config m id store f name survey slots d)
    (hsound : f.Sound m.symbols) : Granted config m f survey slots where
  place _ _ _ _ hsplit hvisited := h.inPlace hsplit hvisited
  nonempty hslots := by simpa [slotVariables] using hslots
  granularity := by
    obtain ⟨hleast, hmost⟩ := scale_of_validate h.valid
    exact ⟨isPowerOfTwo_shiftLeft _, ShadowMapping.le_granularity hleast,
      ShadowMapping.granularity_le hmost⟩
  lifetime frame hframe := (h.holds hsound hframe).lifetime
  shadow frame atEntry hframe hentry := by
    have hlength := (Frame.entryShadow_eq_ok hentry).1
    refine ⟨hlength, fun var hvar marker start stop hgranules => ?_⟩
    rw [hlength, frame.length_shadow]
    exact (h.holds hsound hframe).markedGranules_le hvar hgranules

namespace Underway

theorem sound (h : Underway config m stage) (hf : stage.functions[id]? = some f)
    (hname : stage.symbols.names[f.name]? = some name) (hexempt : f.isExempt name = false) :
    f.Sound stage.symbols := by
  rcases h.functions id f hf with ⟨⟨f', name', hf', hname', hsettled⟩, -⟩ | ⟨-, -, -, hsound⟩
  · obtain rfl := Option.some.inj (hf.symm.trans hf')
    obtain rfl := Option.some.inj (hname.symm.trans hname')
    rw [hexempt] at hsettled
    cases hsettled
  · exact hsound

/-- An instrumentation of whatever function ends, be it in an error. -/
theorem exists_result (h : Underway config m stage) (hformed : m.WellFormed) (id : FuncId)
    (store : Annotations) : ∃ result, stage.instrumentFunction config id store = .ok result := by
  cases hvalid : config.validate with
  | error cause =>
      rw [instrumentFunction, hvalid]
      exact ⟨_, rfl⟩
  | ok =>
      by_cases hid : id < stage.functions.size
      · rcases h.exists_step hformed hvalid store hid with
          ⟨m', outcome, hrun, -⟩ | ⟨m', name, frame, hrun, -⟩
        · exact ⟨_, hrun⟩
        · exact ⟨_, hrun⟩
      · rw [instrumentFunction, hvalid, Array.getElem?_eq_none (Nat.le_of_not_lt hid)]
        exact ⟨_, rfl⟩

end Underway

end Module

/-- Whatever function is instrumented of a module in which nothing is wrong, or of what a run has
made of such a module, no test fails.  The instrumentation ends in a result, provided that no
pointer is made by additions that go in a circle (`Func.Circles`), from which a search would not
come back.  If the function is not left alone, then every site is at its place when it is visited, a
frame is laid out for at least one variable with granules of 8 to 64 bytes, lifetimes are no longer
than their variables, and shadow bytes are written up to a place within a mask of their length. -/
theorem Pipeline.instrumentFunction_asserting {m stage : Module} {p : Pipeline}
    (hverify : m.verify = .ok []) (hstage : p.Reaches m stage) (id : FuncId) (store : Annotations) :
    (∃ result, stage.instrumentFunction p.config id store = .ok result) ∧
      ∀ f name, p.config.validate = .ok () → stage.functions[id]? = some f →
        stage.symbols.names[f.name]? = some name → f.isExempt name = false →
        ∃ survey slots d, Module.Surveyed p.config stage id store f name survey slots d ∧
          Module.Granted p.config stage f survey slots := by
  have hformed := Module.verify_eq_nil_iff.mp hverify
  have hunderway := hstage.underway hformed
  refine ⟨hunderway.exists_result hformed id store, fun f name hvalid hf hname hexempt => ?_⟩
  have hsound := hunderway.sound hf hname hexempt
  obtain ⟨survey, slots, d, hsurveyed, -, -⟩ :=
    Module.exists_surveyed store hvalid hf hname hexempt hsound hunderway.fits
  exact ⟨survey, slots, d, hsurveyed, hsurveyed.granted hsound⟩

/-- The two loads of `twiceFunction`, the first one first. -/
def twiceSites : List Site :=
  [⟨1, 0, 1, .check ⟨.inst 0, 8, .load, false⟩⟩, ⟨2, 0, 2, .check ⟨.inst 0, 8, .load, false⟩⟩]

/-- No test fails where accesses are checked, bulk operations are replaced, frames are added and
variables enter and leave their scopes.  It takes the order of the visits: from the first site to
the last, the second one has moved. -/
theorem Pipeline.instrumentFunction_asserting_chase :
    (∃ survey slots d,
      Module.Surveyed {} chaseModule 0 {} chaseFunction "chase" survey slots d ∧
        Module.Granted {} chaseModule chaseFunction survey slots) ∧
    (∃ result, Module.scopeModule.instrumentFunction Module.scopeConfig 0 {} = .ok result) ∧
    twiceSites.foldlM (Draft.visit {} false)
      { func := Module.twiceFunction, symbols := Module.twiceModule.symbols } =
        .error (.displaced 2) := by
  refine ⟨?_, ?_, ?_⟩
  · exact (Pipeline.instrumentFunction_asserting (m := chaseModule) (p := { config := {} })
      (by decide +kernel) (.inl rfl) 0 {}).2 chaseFunction "chase" rfl rfl rfl (by decide)
  · exact (Pipeline.instrumentFunction_asserting (p := { config := Module.scopeConfig })
      (by decide +kernel) (.inl rfl) 0 {}).1
  · have hfails : (match twiceSites.foldlM (Draft.visit {} false)
        { func := Module.twiceFunction, symbols := Module.twiceModule.symbols } with
      | .error fault => decide (fault = .displaced 2)
      | .ok _ => false) = true := by decide +kernel
    split at hfails
    · rename_i fault hfault
      rw [hfault, of_decide_eq_true hfails]
    · cases hfails

end Redzone
