import Redzone.Instrument.Pipeline
import Redzone.Proofs.Edits.Run
import Redzone.Proofs.Failure

/-!
# A pipeline has no history

The pipeline reads annotations through a cache.  `Module.instrumentAll` is a run without one: it is
given the annotations, and every step sees the same.  A run of the pipeline is such a run, with the
annotations of the module that it starts from (`Pipeline.run_eq`), so that nothing an earlier run
left in the cache can make a difference.
-/

namespace Redzone

namespace Module

/-- Instrument the functions `ids` by given annotations, when `preserved` is what the steps before
left valid. -/
def instrumentFunctions (config : Config) (store : Annotations) (m : Module)
    (preserved : Preserved) : List FuncId →
      Except Fault (Module × Except InstrumentError (List (String × Outcome) × Preserved))
  | [] => .ok (m, .ok ([], preserved))
  | id :: rest => do
      match ← m.instrumentFunction config id store with
      | (m, .error cause) => .ok (m, .error cause)
      | (m, .ok outcome) =>
          let f ← m.function id
          let name ← m.resolve f.name
          let (m, result) ← instrumentFunctions config store m
            (preserved.intersect outcome.preserved) rest
          .ok (m, result.map fun (outcomes, kept) => ((name, outcome) :: outcomes, kept))

/-- Instrument a module by given annotations. -/
def instrumentAll (config : Config) (store : Annotations) (m : Module) :
    Except Fault (Module × Except InstrumentError Report) := do
  match ← m.instrumentGlobals config store with
  | (m, .error cause) => .ok (m, .error cause)
  | (m, .ok outcome) =>
      let (m, result) ← m.instrumentFunctions config store outcome.preserved
        (List.range m.functions.size)
      .ok (m, result.map fun (functions, preserved) => ⟨outcome, functions, preserved⟩)

end Module

theorem Cache.annotations_of_store {cache : Cache} {store : Annotations}
    (h : cache.store = some store) (m : Module) : cache.annotations m = (cache, store) := by
  rw [annotations, h]

/-- Annotations are never given up. -/
@[simp] theorem Cache.invalidate_eq (cache : Cache) (preserved : Preserved) :
    cache.invalidate preserved = cache := by
  unfold invalidate givesUp
  split
  · rfl
  · split <;> rfl

namespace Pipeline

/-- With annotations in the cache, functions are instrumented by them. -/
theorem runFunctions_eq {config : Config} {cache : Cache} {store : Annotations}
    (hstore : cache.store = some store) (m : Module) (preserved : Preserved) (ids : List FuncId) :
    runFunctions config cache m preserved ids =
      (m.instrumentFunctions config store preserved ids).map fun (m', result) =>
        ⟨cache, m', result⟩ := by
  induction ids generalizing m preserved with
  | nil => rfl
  | cons id rest ih =>
      rw [runFunctions, Module.instrumentFunctions, Cache.annotations_of_store hstore]
      dsimp only
      cases m.instrumentFunction config id store with
      | error fault => rfl
      | ok step =>
          obtain ⟨m₁, result⟩ := step
          cases result with
          | error cause => rfl
          | ok outcome =>
              simp only [ok_bind, Cache.invalidate_eq, ih]
              cases m₁.function id with
              | error fault => rfl
              | ok f =>
                  rw [ok_bind, ok_bind]
                  cases m₁.resolve f.name with
                  | error fault => rfl
                  | ok name =>
                      cases m₁.instrumentFunctions config store
                        (preserved.intersect outcome.preserved) rest <;> rfl

/-- A run of the pipeline is a run by the annotations of the module that it starts from. -/
theorem run_eq (p : Pipeline) (m : Module) :
    p.run m = (m.instrumentAll p.config (Annotations.ofModule m)).map fun (m', result) =>
      (⟨p.config, ⟨some (Annotations.ofModule m), p.cache.computations + 1⟩⟩, m', result) := by
  unfold run Module.instrumentAll
  dsimp only [Cache.clear, Cache.annotations]
  cases m.instrumentGlobals p.config (Annotations.ofModule m) with
  | error fault => rfl
  | ok step =>
      obtain ⟨m₁, result⟩ := step
      cases result with
      | error cause => rfl
      | ok outcome =>
          simp only [ok_bind, Cache.invalidate_eq]
          rw [runFunctions_eq rfl]
          cases m₁.instrumentFunctions p.config (Annotations.ofModule m) outcome.preserved
            (List.range m₁.functions.size) <;> rfl

/-- A run can be computed to succeed, with something true of what it leaves. -/
theorem exists_of_succeeds (run : Except Fault (Pipeline × Module × Except InstrumentError Report))
    (p : Module → Report → Bool)
    (h : (run.toOption.any fun result => result.2.2.toOption.any (p result.2.1)) = true) :
    ∃ q m report, run = .ok (q, m, .ok report) ∧ p m report = true := by
  obtain ⟨⟨q, m, result⟩, rfl, hresult⟩ := exists_of_any h
  obtain ⟨report, rfl, hp⟩ := exists_of_any (show result.toOption.any (p m) = true from hresult)
  exact ⟨q, m, report, rfl, hp⟩

/-- The pipeline after some runs, whatever they came to. -/
def after (p : Pipeline) : List Module → Except Fault Pipeline
  | [] => .ok p
  | m :: rest => do
      let (p, _) ← p.run m
      p.after rest

theorem after_eq_ok {p q : Pipeline} {earlier : List Module} (h : p.after earlier = .ok q) :
    q.config = p.config ∧ q.cache.computations = p.cache.computations + earlier.length := by
  induction earlier generalizing p with
  | nil =>
      cases h
      exact ⟨rfl, rfl⟩
  | cons m rest ih =>
      obtain ⟨⟨p₁, m₁, result⟩, hrun, h⟩ := bind_eq_ok h
      rw [run_eq] at hrun
      cases hall : m.instrumentAll p.config (Annotations.ofModule m) with
      | error fault =>
          rw [hall] at hrun
          cases hrun
      | ok step =>
          rw [hall] at hrun
          cases hrun
          obtain ⟨hconfig, hcomputations⟩ := ih h
          refine ⟨hconfig, hcomputations.trans ?_⟩
          simp only [List.length_cons]
          omega

/-- Whatever a pipeline was run on before, it does with a module what a new one does.  It reads the
annotations once, and every step goes by those that the module had in the beginning. -/
theorem run_after {config : Config} {earlier : List Module} {p : Pipeline}
    (h : after { config := config } earlier = .ok p) (m : Module) :
    (p.run m).map Prod.snd = (run { config := config } m).map Prod.snd ∧
      ∀ q m' result, p.run m = .ok (q, m', result) →
        m.instrumentAll config (Annotations.ofModule m) = .ok (m', result) ∧
          q.config = config ∧ q.cache.store = some (Annotations.ofModule m) ∧
          q.cache.computations = p.cache.computations + 1 ∧
          q.cache.computations = earlier.length + 1 := by
  obtain ⟨hconfig, hcomputations⟩ := after_eq_ok h
  change p.config = config at hconfig
  rw [Nat.zero_add] at hcomputations
  rw [run_eq, run_eq, hconfig]
  cases hall : m.instrumentAll config (Annotations.ofModule m) with
  | error fault =>
      refine ⟨rfl, fun q m' result hrun => ?_⟩
      cases hrun
  | ok step =>
      refine ⟨rfl, fun q m' result hrun => ?_⟩
      obtain ⟨rfl, hstep⟩ := Prod.mk.inj (Except.ok.inj hrun)
      exact ⟨congrArg Except.ok hstep, rfl, rfl, rfl, congrArg (· + 1) hcomputations⟩

end Pipeline

/-- A module with one global, which is excluded if `excluded` says so. -/
def counterModule (excluded : Bool) : Module where
  name := "counter"
  symbols := (SymbolTable.empty.intern "counter").1
  globals := #[{ name := 0, size := 12, align := 4 }]
  nodes := #[⟨[.global 0, .null, .string "counter", .int 0, .int (if excluded then 1 else 0)]⟩]
  named := Dict.empty.insert Annotations.listName [0]

theorem exists_after_counter :
    ∃ p, Pipeline.after { config := {} } [counterModule true, hugeModule] = .ok p ∧
      ∃ q m' report, p.run (counterModule false) = .ok (q, m', .ok report) ∧
        report.module.stats.globals = 1 := by
  have hruns : ((Pipeline.after { config := {} } [counterModule true, hugeModule]).toOption.any
      fun p => (p.run (counterModule false)).toOption.any fun result =>
        result.2.2.toOption.any fun report => report.module.stats.globals = 1) = true := by
    decide +kernel
  obtain ⟨p, hp, hruns⟩ := exists_of_any hruns
  obtain ⟨q, m', report, hrun, h⟩ := Pipeline.exists_of_succeeds (p.run (counterModule false))
    (fun _ report => report.module.stats.globals = 1) hruns
  exact ⟨p, hp, q, m', report, hrun, of_decide_eq_true h⟩

/-- A run that failed and annotations of a global with the same number make no difference. -/
theorem run_after_counter :
    ∃ p q m' report, Pipeline.after { config := {} } [counterModule true, hugeModule] = .ok p ∧
      p.run (counterModule false) = .ok (q, m', .ok report) ∧
      report.module.stats.globals = 1 ∧ q.cache.computations = 3 ∧
      (Pipeline.run { config := {} } (counterModule false)).map Prod.snd =
        .ok (m', .ok report) := by
  obtain ⟨p, hp, q, m', report, hrun, hstats⟩ := exists_after_counter
  obtain ⟨hsame, hrest⟩ := Pipeline.run_after hp (counterModule false)
  obtain ⟨-, -, -, -, hcomputations⟩ := hrest q m' (.ok report) hrun
  refine ⟨p, q, m', report, hp, hrun, hstats, hcomputations, ?_⟩
  rw [← hsame, hrun]
  rfl

end Redzone
