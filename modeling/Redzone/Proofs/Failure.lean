import Redzone.Proofs.Modules.FunctionRun

/-!
# Runs over a function that end in an error

Every error but one comes before anything is changed.  A frame is found too large only after the
checks have been added: then the function keeps them, and the names that they need, and nothing else
is different.
-/

namespace Redzone

namespace Module

variable {config : Config} {m m' : Module} {id : FuncId} {store : Annotations} {f : Func}
  {name : String} {survey : Survey} {slots : List Slot} {d : Draft}

/-- Checks leave a trace exactly if there are some. -/
theorem Surveyed.adopt_eq_iff (h : Surveyed config m id store f name survey slots d) :
    m.adopt id d = m ↔ survey.sites = [] := by
  have hvisits := h.visits
  constructor
  · intro heq
    by_contra hsites
    obtain ⟨marked, -, hsurvey⟩ := h.judged
    have hgrows := Draft.size_lt_of_visitAll hvisits hsites
      fun site hsite => (Judge.survey_suits hsurvey site hsite).2
    -- the function that is taken over has more instructions than the one that was there
    have hfunction : (m.adopt id d).functions[id]? = some d.func := by
      simp [adopt, setFunction, (Array.getElem?_eq_some_iff.mp h.function).1]
    rw [heq, h.function] at hfunction
    rw [Option.some.inj hfunction] at hgrows
    exact hgrows.false
  · intro hsites
    rw [hsites] at hvisits
    cases hvisits
    have hsame : m.functions.setIfInBounds id f = m.functions := by
      obtain ⟨hid, hf⟩ := Array.getElem?_eq_some_iff.mp h.function
      rw [Array.setIfInBounds, dif_pos hid, ← hf, Array.set_getElem_self]
    rw [adopt, setFunction, hsame]

/-- What an error leaves of a module. -/
theorem instrumentFunction_error {cause : InstrumentError}
    (h : m.instrumentFunction config id store = .ok (m', .error cause)) :
    ((∀ name bytes, cause ≠ .frameTooLarge name bytes) → m' = m) ∧
      ∀ name bytes, cause = .frameTooLarge name bytes →
        ∃ f survey slots d, Surveyed config m id store f name survey slots d ∧
          m' = { m with
            functions := m.functions.setIfInBounds id d.func, symbols := d.symbols } ∧
          d.func.shell = f.shell ∧ m.symbols.GrowsTo d.symbols ∧
          (m' = m ↔ survey.sites = []) := by
  have hrun := instrumentFunction_run h
  generalize hresult : Except.error cause = result at hrun
  cases hrun with
  | refused hcause =>
      cases hresult
      exact ⟨fun _ => rfl, fun name bytes hlarge => absurd hlarge (hcause name bytes)⟩
  | exempt => cases hresult
  | plain =>
      rw [finish_eq] at hresult
      cases hresult
  | framed =>
      rw [finish_eq] at hresult
      cases hresult
  | tooLarge hsurveyed =>
      cases hresult
      refine ⟨fun hcause => absurd rfl (hcause _ _), ?_⟩
      rintro name bytes ⟨⟩
      exact ⟨_, _, _, _, hsurveyed, rfl, hsurveyed.extends.shell, hsurveyed.extends.symbols,
        hsurveyed.adopt_eq_iff⟩

end Module

/-- A function that passes a buffer of nearly four gigabytes on and loads from its parameter. -/
def hugeFunction : Func where
  name := 0
  params := [.ptr 0]
  ret := none
  insts := #[⟨.param 0, .ptr 0, [], false⟩, ⟨.stackSlot 4294967295 1, .ptr 0, [], false⟩,
    ⟨.symbolAddr 1, .ptr 0, [], false⟩, ⟨.call (.inst 2) [.inst 1], .unit, [], false⟩,
    ⟨.load (.inst 0) 4 none, .int, [], false⟩, ⟨.ret none, .unit, [], false⟩]
  blocks := #[{ argStart := 0, insts := [0, 1, 2, 3, 4, 5] }]

def hugeModule : Module where
  name := "huge"
  symbols := ((SymbolTable.empty.intern "huge").1.intern "use").1
  functions := #[hugeFunction, { name := 1, params := [.ptr 0], ret := none }]

theorem exists_instrumentFunction_huge :
    ∃ m', hugeModule.instrumentFunction {} 0 {} =
        .ok (m', .error (.frameTooLarge "huge" 4294967584)) ∧ m' ≠ hugeModule := by
  have hfails : (match hugeModule.instrumentFunction {} 0 {} with
      | .ok (m', .error cause) =>
          decide (cause = .frameTooLarge "huge" 4294967584 ∧ m' ≠ hugeModule)
      | _ => false) = true := by decide +kernel
  split at hfails
  · rename_i m' cause hrun
    obtain ⟨rfl, hne⟩ := of_decide_eq_true hfails
    exact ⟨m', hrun, hne⟩
  · cases hfails

theorem instrumentFunction_error_huge :
    ∃ m' survey slots d, hugeModule.instrumentFunction {} 0 {} =
        .ok (m', .error (.frameTooLarge "huge" 4294967584)) ∧
      Module.Surveyed {} hugeModule 0 {} hugeFunction "huge" survey slots d ∧
      m'.functions = hugeModule.functions.setIfInBounds 0 d.func ∧ survey.sites ≠ [] := by
  obtain ⟨m', hrun, hne⟩ := exists_instrumentFunction_huge
  obtain ⟨f, survey, slots, d, hsurveyed, heq, -, -, htrace⟩ :=
    (Module.instrumentFunction_error hrun).2 "huge" 4294967584 rfl
  obtain rfl : hugeFunction = f := Option.some.inj hsurveyed.function
  exact ⟨m', survey, slots, d, hrun, hsurveyed, by rw [heq], fun hsites => hne (htrace.mpr hsites)⟩

/-- Not every error leaves the module as it was. -/
theorem not_forall_instrumentFunction_error :
    ¬ ∀ (config : Config) (m m' : Module) (id : FuncId) (store : Annotations)
      (cause : InstrumentError),
      m.instrumentFunction config id store = .ok (m', .error cause) → m' = m := by
  intro h
  obtain ⟨m', hrun, hne⟩ := exists_instrumentFunction_huge
  exact hne (h {} hugeModule m' 0 {} _ hrun)

end Redzone
