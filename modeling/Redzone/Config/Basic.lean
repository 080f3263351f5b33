import Redzone.Outcome

/-!
# Configuration

Every choice an instrumentation leaves open, with its default.
-/

namespace Redzone

/-- The choices that an instrumentation leaves open. -/
structure Config where
  /-- Instrument a kernel: another shadow offset, no call to start the runtime, no check of the
  initialization order. -/
  kernel : Bool := false
  /-- Go on after a report. -/
  recover : Bool := false
  /-- Poison stack variables that are out of scope. -/
  useAfterScope : Bool := false
  /-- Register globals in a way that lets the linker drop unused ones, if the object format has
  one. -/
  globalGc : Bool := true
  /-- Give every visible global an indicator by which two definitions are told apart. -/
  odrIndicator : Bool := false
  platform : Platform := {}
  /-- Binary logarithm of the shadow granularity. -/
  scale : Nat := defaultScale
  /-- Where shadow memory starts; the platform's choice if none is given. -/
  offset : Option Nat := none
  reads : Bool := true
  writes : Bool := true
  atomics : Bool := true
  /-- Call checking twins of the bulk memory operations. -/
  bulkMemory : Bool := true
  /-- Report uses of a global before its dynamic initialization. -/
  initOrder : Bool := true
  /-- Check a pointer once per block while nothing intervenes. -/
  optSameTemp : Bool := true
  /-- Leave accesses alone that are within a stack slot for sure. -/
  optStack : Bool := true
  /-- Leave accesses alone that are within a global for sure. -/
  optGlobals : Bool := true
  /-- Leave stack slots alone that are only loaded and stored as a whole. -/
  skipPromotable : Bool := true
  stack : Bool := true
  globals : Bool := true
  /-- With more checked accesses than this, a function calls routines that check. -/
  callsThreshold : Nat := 7000
  /-- Runs of at least so many shadow bytes are written by a routine. -/
  maxInlinePoisoning : Nat := 64
  deriving DecidableEq

namespace Config

/-- A scale that no mapping has is an error. -/
def validate (config : Config) : Except InstrumentError Unit :=
  if minScale ≤ config.scale ∧ config.scale ≤ maxScale then
    .ok ()
  else
    .error (.unsupportedScale config.scale)

/-- The mapping that the configuration asks for. -/
def mapping (config : Config) : ShadowMapping where
  scale := config.scale
  offset := config.offset.getD (ShadowMapping.forPlatform config.platform config.kernel).offset

end Config

end Redzone
