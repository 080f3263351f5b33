import Redzone.Instrument.Function
import Redzone.Globals.InitOrder
import Redzone.Globals.Registration

/-!
# Instrumentation of a module

The eligible globals of a module get redzones and descriptors.  A constructor starts the runtime and
registers the descriptors, a destructor unregisters them.  Constructors of the program are bracketed
if the order of initialization is checked.  A module that has the constructor already is left alone.
-/

namespace Redzone

/-- A function of the instrumentation's own: one block of code that returns. -/
def ownFunction (name : SymbolId) (ops : List Op) : Func :=
  let code : List Instruction :=
    (ops ++ [Op.ret none]).map fun op => { op := op, ty := op.addedTy }
  { name := name, params := [], ret := none, linkage := .internal, noSanitize := true,
    sanitized := true, insts := code.toArray,
    blocks := #[{ argStart := 0, insts := List.range code.length }] }

/-- The code that calls routines without arguments, from place `n` on. -/
def plainCalls (n : InstId) : List SymbolId → List Op
  | [] => []
  | routine :: rest => .symbolAddr routine :: .call (.inst n) [] :: plainCalls (n + 2) rest

namespace Annex

def use (a : Annex) (uses : RuntimeUses) (name : String) (params : List Ty) :
    Annex × RuntimeUses × SymbolId :=
  let (a, symbol) := a.intern name
  (a, uses.add name ⟨params, none⟩, symbol)

def useAll (a : Annex) (uses : RuntimeUses) : List String → Annex × RuntimeUses × List SymbolId
  | [] => (a, uses, [])
  | name :: rest =>
      let (a, uses, symbol) := a.use uses name []
      let (a, uses, symbols) := a.useAll uses rest
      (a, uses, symbol :: symbols)

/-- Make the module's constructor: it starts the runtime and registers the descriptors. -/
def makeCtor (config : Config) (a : Annex) (registration : Option Registration) :
    Annex × RuntimeUses × Func :=
  let (a, name) := a.intern EntryPoint.moduleCtor
  let (a, uses, starters) := a.useAll {}
    (if config.kernel then [] else [EntryPoint.init, EntryPoint.versionCheck])
  let start := plainCalls 0 starters
  match registration with
  | none => (a, uses, ownFunction name start)
  | some r =>
      let (a, uses, routine) := a.use uses r.register r.params
      (a, uses, ownFunction name (start ++ r.callCode start.length routine))

/-- Make the module's destructor: it unregisters the descriptors. -/
def makeDtor (a : Annex) (uses : RuntimeUses) (r : Registration) : Annex × RuntimeUses × Func :=
  let (a, name) := a.intern EntryPoint.moduleDtor
  let (a, uses, routine) := a.use uses r.unregister r.params
  (a, uses, ownFunction name (r.callCode 0 routine))

end Annex

namespace Module

/-- Add a constructor of the instrumentation's own. -/
def addCtor (m : Module) (f : Func) : Module :=
  { (m.addFunction f).1 with ctors := m.ctors ++ [⟨EntryPoint.ctorPriority, f.name⟩] }

/-- Add a destructor of the instrumentation's own. -/
def addDtor (m : Module) (f : Func) : Module :=
  { (m.addFunction f).1 with dtors := m.dtors ++ [⟨EntryPoint.ctorPriority, f.name⟩] }

/-- Instrument the globals that have been found eligible. -/
def instrumentCandidates (config : Config) (m : Module) (store : Annotations)
    (candidates : Candidates) : Except Fault (Module × Outcome) := do
  let (a, globals) ← Annex.addRedzones config store { module := m } candidates.ids
  let (a, registration) ← if globals.isEmpty then .ok (a, none) else do
    let (a, r) ← a.addRegistration globals config.scheme
    .ok (a, some r)
  let (a, uses, ctor) := a.makeCtor config registration
  -- the module's own constructor is not yet listed, and so it is not bracketed
  let bracketed := config.initOrder && !config.kernel && globals.any Registered.dynInit
  let (a, uses, wrapped) ← if bracketed then a.bracketInitializers uses else .ok (a, uses, 0)
  let a := { a with module := a.module.addCtor ctor }
  let (m, uses) := match registration with
    | none => (a.module, uses)
    | some r =>
        let (a, uses, dtor) := a.makeDtor uses r
        (a.module.addDtor dtor, uses)
  .ok (uses.declareAll m,
    { changed := true
      preserved := Preserved.none.preserve .annotations
      stats :=
        { globals := globals.length, skippedGlobals := candidates.skipped, wrapped := wrapped }
      diagnostics := candidates.diagnostics })

def instrumentGlobals (config : Config) (m : Module) (store : Annotations) :
    Except Fault Result :=
  match config.validate with
  | .error cause => .ok (m, .error cause)
  | .ok () =>
      if (m.functionByName EntryPoint.moduleCtor).isSome then
        .ok (m, .ok {})
      else do
        let candidates ← m.candidates config store
        if candidates.ids.isEmpty && config.kernel then
          .ok (m, .ok
            { stats := { skippedGlobals := candidates.skipped }
              diagnostics := candidates.diagnostics })
        else
          let (m, outcome) ← m.instrumentCandidates config store candidates
          .ok (m, .ok outcome)

end Module

end Redzone
