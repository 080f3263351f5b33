import Redzone.Instrument.Globals

/-!
# The pipeline

A module is instrumented as a whole: its annotations are read, then its globals and then its
functions, one after the other, are instrumented.  The annotations are read once and kept in a cache
that outlives every change of the run; the next run starts by emptying it.
-/

namespace Redzone

/-- Facts derived from a module, kept until they are asked for again. -/
structure Cache where
  store : Option Annotations := none
  /-- How often something had to be derived. -/
  computations : Nat := 0
  deriving DecidableEq

namespace Cache

/-- The annotations of a module, read if they are not there. -/
def annotations (cache : Cache) (m : Module) : Cache × Annotations :=
  match cache.store with
  | some store => (cache, store)
  | none =>
      let store := Annotations.ofModule m
      (⟨some store, cache.computations + 1⟩, store)

def clear (cache : Cache) : Cache := { cache with store := none }

/-- Whether annotations are given up when they were not preserved.  Which global an annotation is
about cannot change while a module is instrumented, so they never are. -/
def givesUp (_store : Annotations) (_preserved : Preserved) : Bool := false

/-- Forget what was not preserved and is given up. -/
def invalidate (cache : Cache) (preserved : Preserved) : Cache :=
  if preserved.annotations then cache
  else
    match cache.store with
    | some store => if givesUp store preserved then { cache with store := none } else cache
    | none => cache

end Cache

/-- What a run of the pipeline did. -/
structure Report where
  module : Outcome
  /-- Name and outcome of every function, in the module's order. -/
  functions : List (String × Outcome)
  /-- What every step left valid. -/
  preserved : Preserved
  deriving DecidableEq

namespace Report

def changed (r : Report) : Bool :=
  r.module.changed || r.functions.any fun (_, outcome) => outcome.changed

def diagnostics (r : Report) : List Diagnostic :=
  r.module.diagnostics ++ r.functions.flatMap fun (_, outcome) => outcome.diagnostics

/-- The outcome of the first function of this name. -/
def function? (r : Report) (name : String) : Option Outcome :=
  (r.functions.find? fun entry => entry.1 = name).map Prod.snd

end Report

/-- A configured sequence of instrumentations and its cache. -/
structure Pipeline where
  config : Config
  cache : Cache := {}
  deriving DecidableEq

namespace Pipeline

/-- What a run leaves behind: the cache, the module, and its result. -/
structure Run (α : Type) where
  cache : Cache
  module : Module
  result : Except InstrumentError α

/-- Instrument the functions `ids`, when `preserved` is what the steps before left valid. -/
def runFunctions (config : Config) (cache : Cache) (m : Module) (preserved : Preserved) :
    List FuncId → Except Fault (Run (List (String × Outcome) × Preserved))
  | [] => .ok ⟨cache, m, .ok ([], preserved)⟩
  | id :: rest => do
      let (cache, store) := cache.annotations m
      match ← m.instrumentFunction config id store with
      -- what earlier steps did to the module stays
      | (m, .error cause) => .ok ⟨cache, m, .error cause⟩
      | (m, .ok outcome) =>
          let f ← m.function id
          let name ← m.resolve f.name
          let run ← runFunctions config (cache.invalidate outcome.preserved) m
            (preserved.intersect outcome.preserved) rest
          .ok { run with
            result := run.result.map fun (outcomes, kept) => ((name, outcome) :: outcomes, kept) }

def run (p : Pipeline) (m : Module) :
    Except Fault (Pipeline × Module × Except InstrumentError Report) := do
  let (cache, store) := p.cache.clear.annotations m
  match ← m.instrumentGlobals p.config store with
  | (m, .error cause) => .ok ({ p with cache := cache }, m, .error cause)
  | (m, .ok outcome) =>
      let run ← runFunctions p.config (cache.invalidate outcome.preserved) m outcome.preserved
        (List.range m.functions.size)
      .ok ({ p with cache := run.cache }, run.module,
        run.result.map fun (functions, preserved) => ⟨outcome, functions, preserved⟩)

end Pipeline

end Redzone
