import Redzone.Frame.Code

/-!
# Instrumentation of a function

A function is surveyed before anything is changed.  Then its accesses get their checks, from the
last one to the first, and its stack slots are merged into a frame.  The module gains the
description of the frame and declarations of the routines that the new code calls; nothing else in
it changes.

A run that ends in an error returns the module as the error found it.  That is the module as it was,
unless the frame turned out too large: its checks have been added by then.
-/

namespace Redzone

/-- Whether a function is left alone. -/
def Func.isExempt (f : Func) (name : String) : Bool :=
  f.isDeclaration || f.noSanitize || f.sanitized || EntryPoint.isGenerated name

/-- What a run left valid: everything if it added nothing, the control flow if it added no block. -/
def preservedBy (before after : Func) : Preserved :=
  if after.insts.size = before.insts.size then .all
  else if after.blocks.size = before.blocks.size then
    ((Preserved.none.preserve .cfg).preserve .dominators).preserve .annotations
  else Preserved.none.preserve .annotations

/-- The result of an instrumentation: the module it leaves, and its outcome or the error that ended
it. -/
abbrev Result := Module × Except InstrumentError Outcome

namespace Module

/-- Take over a function that was instrumented, with the names it needs. -/
def adopt (m : Module) (id : FuncId) (d : Draft) : Module :=
  { m.setFunction id d.func with symbols := d.symbols }

/-- Finish a run: take over the function, add the description of its frame, declare the routines it
calls and mark it. -/
def finish (m : Module) (id : FuncId) (before : Func) (d : Draft) (description : Option Global)
    (stats : Stats) : Result :=
  let m := m.adopt id { d with func := { d.func with sanitized := true } }
  let m := match description with
    | some g => (m.addGlobal g).1
    | none => m
  (d.uses.declareAll m,
    .ok
      { changed := d.func.insts.size ≠ before.insts.size
        preserved := preservedBy before d.func
        stats := stats })

/-- Add the code for a survey and for the slots that are merged into a frame. -/
def instrumentSurveyed (config : Config) (m : Module) (id : FuncId) (f : Func) (name : String)
    (survey : Survey) (slots : List Slot) : Except Fault Result := do
  let checks := survey.sites.filter Site.isCheck
  let outlined := config.callsThreshold < checks.length
  let d ← Draft.visitAll config outlined { func := f, symbols := m.symbols } survey.sites
  let stats : Stats :=
    { checked := checks.length
      skipped := survey.skipped
      replaced := survey.sites.length - checks.length
      stackVariables := slots.length }
  if slots.isEmpty then
    .ok (m.finish id f d none stats)
  else
    Frame.checkInput (slotVariables slots) config.mapping.granularity
    let frame ← Frame.layOut (slotVariables slots) config.mapping.granularity
    if frame.size < 1 <<< 32 then
      let (d, description) ← d.addFrame config name slots frame
      .ok (m.finish id f d (some description) stats)
    else
      .ok (m.adopt id d, .error (.frameTooLarge name frame.size))

/-- Instrument the function `f`, which has the number `id`, is called `name` and is not exempt. -/
def instrumentBody (config : Config) (m : Module) (id : FuncId) (f : Func) (name : String)
    (store : Annotations) : Except Fault Result := do
  let marked ← f.scopedSlots
  let judge : Judge := ⟨config, m.globals.toList, store, f, name, marked⟩
  match judge.survey with
  | .error (.fault cause) => .error cause
  | .error (.error cause) => .ok (m, .error cause)
  | .ok survey =>
      let slots ← if config.stack then f.frameSlots config else .ok []
      m.instrumentSurveyed config id f name survey slots

def instrumentFunction (config : Config) (m : Module) (id : FuncId) (store : Annotations) :
    Except Fault Result :=
  match config.validate with
  | .error cause => .ok (m, .error cause)
  | .ok () =>
      match m.functions[id]? with
      | none => .ok (m, .error (.unknownFunction id))
      | some f => do
          let name ← m.resolve f.name
          if f.isExempt name then
            .ok (m, .ok {})
          else
            m.instrumentBody config id f name store

end Module

end Redzone
