import Redzone.Proofs.Pipeline.WellFormed

/-!
# Annotations that stay current

The pipeline reads the annotations of a module once and never gives them up.  That is right as long
as a step neither touches metadata nor makes an annotation of a global that was not there into one
of a global that it adds.  In a module that refers to nothing missing there is no annotation of the
second kind, so that only the metadata and the number of globals have to be followed through a run
(`Module.Retains`).
-/

namespace Redzone

namespace Module

variable {config : Config} {m m' m₁ m₂ : Module} {id : FuncId} {store : Annotations}

/-- A module has the metadata of another one, and no fewer globals. -/
structure Retains (m m' : Module) : Prop where
  nodes : m'.nodes = m.nodes
  named : m'.named = m.named
  globals : m.globals.size ≤ m'.globals.size

theorem Retains.refl (m : Module) : Retains m m := ⟨rfl, rfl, le_rfl⟩

theorem Retains.trans (h : Retains m m₁) (h' : Retains m₁ m₂) : Retains m m₂ :=
  ⟨h'.nodes.trans h.nodes, h'.named.trans h.named, h.globals.trans h'.globals⟩

/-- Where metadata refers to nothing missing, an annotated global is there. -/
theorem lt_size_of_metadataDefects {node : MdNode} {global : GlobalId}
    (hdefects : m.metadataDefects = []) (hnode : node ∈ m.nodes)
    (hglobal : (node.operand 0).global? = some global) : global < m.globals.size := by
  have hoperand : MdOperand.global global ∈ node.operands := by
    unfold MdNode.operand at hglobal
    rw [List.getD_eq_getElem?_getD] at hglobal
    cases hfirst : node.operands[0]? with
    | none =>
        rw [hfirst] at hglobal
        cases hglobal
    | some operand =>
        rw [hfirst, Option.getD_some] at hglobal
        cases operand with
        | global other =>
            cases hglobal
            exact List.mem_of_getElem? hfirst
        | _ => cases hglobal
  obtain ⟨number, hnumber⟩ := Array.getElem?_of_mem hnode
  have hnumbered : (node, number) ∈ m.nodes.toList.zipIdx := by
    rw [List.mem_zipIdx_iff_getElem?, Array.getElem?_toList]
    exact hnumber
  simp only [metadataDefects, List.append_eq_nil_iff, List.flatMap_eq_nil_iff] at hdefects
  have hnone := hdefects.2 (node, number) hnumbered (.global global) hoperand
  by_contra hmissing
  simp only [operandDefects] at hnone
  rw [if_neg hmissing] at hnone
  cases hnone

/-- Annotations are read from the metadata, and globals behind the old ones are not annotated. -/
theorem Retains.ofModule_eq (h : Retains m m') (hdefects : m.metadataDefects = []) :
    Annotations.ofModule m' = Annotations.ofModule m := by
  have hsubject : ∀ node ∈ m.nodes, Annotations.subject? m' node = Annotations.subject? m node := by
    intro node hnode
    apply Option.ext
    intro global
    rw [Annotations.subject?_eq_some_iff, Annotations.subject?_eq_some_iff]
    constructor
    · rintro ⟨hglobal, -⟩
      exact ⟨hglobal, lt_size_of_metadataDefects hdefects hnode hglobal⟩
    · rintro ⟨hglobal, hlt⟩
      exact ⟨hglobal, hlt.trans_le h.globals⟩
  have hadd : Annotations.addNode m' = Annotations.addNode m := by
    funext store number
    unfold Annotations.addNode
    rw [h.nodes]
    cases hnode : m.nodes[number]? with
    | none => rfl
    | some node =>
        dsimp only
        rw [hsubject node (Array.mem_of_getElem? hnode)]
        simp only [Annotations.merge_congr h.nodes]
  unfold Annotations.ofModule namedNodes
  rw [hadd, h.named]

/-! ### The steps of a run -/

/-- Whatever the instrumentation of a function comes to, it retains the metadata. -/
theorem instrumentFunction_retains {result : Except InstrumentError Outcome}
    (h : m.instrumentFunction config id store = .ok (m', result)) : Retains m m' := by
  cases result with
  | error cause =>
      have hrun := instrumentFunction_run h
      generalize hresult : Except.error cause = result at hrun
      cases hrun with
      | refused => exact .refl _
      | tooLarge => exact ⟨rfl, rfl, le_rfl⟩
      | exempt => cases hresult
      | plain => rw [finish_eq] at hresult; cases hresult
      | framed => rw [finish_eq] at hresult; cases hresult
  | ok outcome =>
      obtain ⟨hadvances, -⟩ := instrumentFunction_advances h
      obtain ⟨added, hadded, -⟩ := hadvances.globals
      have hlength := congrArg List.length hadded
      rw [List.length_append, Array.length_toList, Array.length_toList] at hlength
      exact ⟨hadvances.metadata.1, hadvances.metadata.2, by omega⟩

theorem instrumentFunctions_retains {preserved : Preserved} {ids : List FuncId}
    {result : Except InstrumentError (List (String × Outcome) × Preserved)}
    (h : m.instrumentFunctions config store preserved ids = .ok (m', result)) : Retains m m' := by
  induction ids generalizing m preserved result with
  | nil =>
      cases h
      exact .refl _
  | cons id rest ih =>
      rw [instrumentFunctions] at h
      obtain ⟨⟨m₁, step⟩, hstep, h⟩ := bind_eq_ok h
      have hretains := instrumentFunction_retains hstep
      cases step with
      | error cause =>
          cases h
          exact hretains
      | ok outcome =>
          obtain ⟨f, -, h⟩ := bind_eq_ok h
          obtain ⟨name, -, h⟩ := bind_eq_ok h
          obtain ⟨⟨m₂, others⟩, hothers, h⟩ := bind_eq_ok h
          cases h
          exact hretains.trans (ih hothers)

/-- Whatever the instrumentation of the globals of a well-formed module comes to, it retains the
metadata. -/
theorem instrumentGlobals_retains {result : Except InstrumentError Outcome} (hformed : m.WellFormed)
    (h : m.instrumentGlobals config store = .ok (m', result)) : Retains m m' := by
  cases result with
  | error cause =>
      unfold instrumentGlobals at h
      split at h
      · cases h
        exact .refl m
      · split at h
        · cases h
        · obtain ⟨candidates, -, h⟩ := bind_eq_ok h
          split at h
          · cases h
          · obtain ⟨⟨m₁, outcome⟩, -, h⟩ := bind_eq_ok h
            cases h
  | ok outcome =>
      cases (instrumentGlobals_run h).2 with
      | present => exact .refl m
      | idle => exact .refl m
      | changed _ hcandidates run =>
          obtain ⟨made, hchanges, -⟩ := run.changes (.of_candidates hformed hcandidates)
          have hkeeps := hchanges.keeps
          exact ⟨hkeeps.metadata.1, hkeeps.metadata.2, hkeeps.size.1⟩

end Module

namespace Pipeline

variable {p q : Pipeline} {m m' : Module} {cache : Cache} {config : Config} {preserved : Preserved}

/-! ### Parts of a run -/

/-- The first part of a run: the globals are instrumented, and then the first `count` functions. -/
def runFirst (p : Pipeline) (m : Module) (count : Nat) :
    Except Fault (Run (List (String × Outcome) × Preserved)) := do
  let (cache, store) := p.cache.clear.annotations m
  match ← m.instrumentGlobals p.config store with
  | (m, .error cause) => .ok ⟨cache, m, .error cause⟩
  | (m, .ok outcome) =>
      runFunctions p.config (cache.invalidate outcome.preserved) m outcome.preserved
        ((List.range m.functions.size).take count)

/-- A run over functions starts with a run over the first of them. -/
theorem exists_runFunctions_of_append {ids rest : List FuncId}
    {run : Run (List (String × Outcome) × Preserved)}
    (h : runFunctions config cache m preserved (ids ++ rest) = .ok run) :
    ∃ first, runFunctions config cache m preserved ids = .ok first := by
  induction ids generalizing cache m preserved run with
  | nil => exact ⟨_, rfl⟩
  | cons id others ih =>
      rw [List.cons_append, runFunctions] at h
      rw [runFunctions]
      generalize cache.annotations m = read at h ⊢
      obtain ⟨cache₁, store⟩ := read
      dsimp only at h ⊢
      obtain ⟨⟨m₁, step⟩, hstep, h⟩ := bind_eq_ok h
      rw [hstep, ok_bind]
      cases step with
      | error cause => exact ⟨_, rfl⟩
      | ok outcome =>
          obtain ⟨f, hf, h⟩ := bind_eq_ok h
          obtain ⟨name, hname, h⟩ := bind_eq_ok h
          obtain ⟨run₁, hrun₁, -⟩ := bind_eq_ok h
          obtain ⟨first, hfirst⟩ := ih hrun₁
          dsimp only
          rw [hf, ok_bind, hname, ok_bind, hfirst]
          exact ⟨_, rfl⟩

/-- A run goes through all of its first parts. -/
theorem exists_runFirst {result : Except InstrumentError Report}
    (h : p.run m = .ok (q, m', result)) (count : Nat) :
    ∃ first, p.runFirst m count = .ok first := by
  unfold run at h
  unfold runFirst
  dsimp only [Cache.clear, Cache.annotations] at h ⊢
  obtain ⟨⟨m₁, step⟩, hstep, h⟩ := bind_eq_ok h
  rw [hstep, ok_bind]
  cases step with
  | error cause => exact ⟨_, rfl⟩
  | ok outcome =>
      obtain ⟨run, hrun, -⟩ := bind_eq_ok h
      rw [← List.take_append_drop count (List.range m₁.functions.size)] at hrun
      exact exists_runFunctions_of_append hrun

theorem runFunctions_retains {store : Annotations} (hstore : cache.store = some store)
    {ids : List FuncId} {run : Run (List (String × Outcome) × Preserved)}
    (h : runFunctions config cache m preserved ids = .ok run) :
    run.cache = cache ∧ m.Retains run.module := by
  rw [runFunctions_eq hstore] at h
  cases hfunctions : m.instrumentFunctions config store preserved ids with
  | error fault =>
      rw [hfunctions] at h
      cases h
  | ok step =>
      rw [hfunctions] at h
      cases h
      exact ⟨rfl, Module.instrumentFunctions_retains hfunctions⟩

/-- The cache of a part of a run has the annotations that were read first. -/
theorem runFirst_retains (hformed : m.WellFormed) {count : Nat}
    {first : Run (List (String × Outcome) × Preserved)} (h : p.runFirst m count = .ok first) :
    first.cache.store = some (Annotations.ofModule m) ∧ m.Retains first.module := by
  unfold runFirst at h
  dsimp only [Cache.clear, Cache.annotations] at h
  obtain ⟨⟨m₁, step⟩, hstep, h⟩ := bind_eq_ok h
  have hretains := Module.instrumentGlobals_retains hformed hstep
  cases step with
  | error cause =>
      cases h
      exact ⟨rfl, hretains⟩
  | ok outcome =>
      simp only [Cache.invalidate_eq] at h
      obtain ⟨hcache, hretains'⟩ := runFunctions_retains rfl h
      exact ⟨hcache ▸ rfl, hretains.trans hretains'⟩

theorem run_retains (hformed : m.WellFormed) {result : Except InstrumentError Report}
    (h : p.run m = .ok (q, m', result)) :
    q.cache.store = some (Annotations.ofModule m) ∧ m.Retains m' := by
  obtain ⟨hall, rfl⟩ := run_eq_ok_iff.mp h
  refine ⟨rfl, ?_⟩
  obtain ⟨⟨m₁, step⟩, hstep, hall⟩ := bind_eq_ok hall
  have hretains := Module.instrumentGlobals_retains hformed hstep
  cases step with
  | error cause =>
      cases hall
      exact hretains
  | ok outcome =>
      obtain ⟨⟨m₂, functions⟩, hfunctions, hall⟩ := bind_eq_ok hall
      cases hall
      exact hretains.trans (Module.instrumentFunctions_retains hfunctions)

/-- The annotations of a module in which nothing is wrong are the same after any step: after the run
over its globals, after the run over a function, and after every part of a run of the pipeline.
What the cache holds for the next step is what the step would read. -/
theorem run_annotations_current {m : Module} (hverify : m.verify = .ok []) :
    (∀ config store m' outcome, m.instrumentGlobals config store = .ok (m', .ok outcome) →
        Annotations.ofModule m' = Annotations.ofModule m) ∧
      (∀ config id store m' result, m.instrumentFunction config id store = .ok (m', result) →
        Annotations.ofModule m' = Annotations.ofModule m) ∧
      (∀ (p : Pipeline) count first, p.runFirst m count = .ok first →
        Annotations.ofModule first.module = Annotations.ofModule m ∧
          first.cache.annotations first.module =
            (first.cache, Annotations.ofModule first.module)) ∧
      ∀ (p q : Pipeline) m' result, p.run m = .ok (q, m', result) →
        (∀ count, ∃ first, p.runFirst m count = .ok first) ∧
          q.cache.store = some (Annotations.ofModule m') := by
  have hformed := Module.verify_eq_nil_iff.mp hverify
  have hsame : ∀ {m' : Module}, m.Retains m' → Annotations.ofModule m' = Annotations.ofModule m :=
    fun hretains => hretains.ofModule_eq hformed.metadata
  refine ⟨?_, ?_, ?_, ?_⟩
  · intro config store m' outcome h
    exact hsame (Module.instrumentGlobals_retains hformed h)
  · intro config id store m' result h
    exact hsame (Module.instrumentFunction_retains h)
  · intro p count first h
    obtain ⟨hstore, hretains⟩ := runFirst_retains hformed h
    refine ⟨hsame hretains, ?_⟩
    rw [Cache.annotations_of_store hstore, hsame hretains]
  · intro p q m' result h
    obtain ⟨hstore, hretains⟩ := run_retains hformed h
    exact ⟨exists_runFirst h, by rw [hstore, hsame hretains]⟩

end Pipeline

theorem exists_run_counter :
    ∃ p' m' report, Pipeline.run { config := {} } (counterModule false) = .ok (p', m', .ok report) ∧
      (counterModule false).globals.size < m'.globals.size ∧
      ((Annotations.ofModule m').get 0).name = "counter" := by
  obtain ⟨p', m', report, hrun, h⟩ := Pipeline.exists_of_succeeds
    (Pipeline.run { config := {} } (counterModule false))
    (fun m' _ => decide ((counterModule false).globals.size < m'.globals.size ∧
      ((Annotations.ofModule m').get 0).name = "counter")) (by decide +kernel)
  exact ⟨p', m', report, hrun, of_decide_eq_true h⟩

/-- Globals are added, and the one that is annotated still is. -/
theorem run_annotations_current_counter :
    ∃ p' m' report, Pipeline.run { config := {} } (counterModule false) = .ok (p', m', .ok report) ∧
      (counterModule false).globals.size < m'.globals.size ∧
      ((Annotations.ofModule m').get 0).name = "counter" ∧
      p'.cache.store = some (Annotations.ofModule m') ∧
      ∃ first, Pipeline.runFirst { config := {} } (counterModule false) 1 = .ok first ∧
        Annotations.ofModule first.module = Annotations.ofModule (counterModule false) := by
  obtain ⟨p', m', report, hrun, hsize, hname⟩ := exists_run_counter
  obtain ⟨-, -, hfirst, hwhole⟩ :=
    Pipeline.run_annotations_current (m := counterModule false) (by decide +kernel)
  obtain ⟨hparts, hstore⟩ := hwhole _ _ _ _ hrun
  obtain ⟨first, hpart⟩ := hparts 1
  exact ⟨p', m', report, hrun, hsize, hname, hstore, first, hpart, (hfirst _ _ _ hpart).1⟩

end Redzone
