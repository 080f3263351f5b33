import Redzone.Annotation
import Redzone.Shadow

/-!
# Outcomes of instrumentation

What a run of an instrumentation reports: whether the module changed, which derived facts about it
still hold, how often it did what, and what it left alone that one might have wanted checked.
-/

namespace Redzone

/-- Facts derived from a module. -/
inductive Analysis
  /-- Blocks and the branches between them. -/
  | cfg
  | dominators
  | annotations
  deriving DecidableEq

/-- The derived facts that still hold after a run. -/
structure Preserved where
  cfg : Bool
  dominators : Bool
  annotations : Bool
  deriving DecidableEq

namespace Preserved

/-- Nothing has changed. -/
def all : Preserved := ⟨true, true, true⟩

/-- Everything may have changed. -/
def none : Preserved := ⟨false, false, false⟩

/-- The facts of this kind hold too. -/
def preserve (set : Preserved) : Analysis → Preserved
  | .cfg => { set with cfg := true }
  | .dominators => { set with dominators := true }
  | .annotations => { set with annotations := true }

def holds (set : Preserved) : Analysis → Bool
  | .cfg => set.cfg
  | .dominators => set.dominators
  | .annotations => set.annotations

def areAll (set : Preserved) : Bool := set.cfg && set.dominators && set.annotations

def intersect (a b : Preserved) : Preserved :=
  ⟨a.cfg && b.cfg, a.dominators && b.dominators, a.annotations && b.annotations⟩

end Preserved

/-- How often a run did what. -/
structure Stats where
  /-- Accesses that got a check. -/
  checked : Nat := 0
  /-- Accesses that need none or were excluded. -/
  skipped : Nat := 0
  /-- Bulk memory operations that became calls. -/
  replaced : Nat := 0
  /-- Stack slots that were put into a frame. -/
  stackVariables : Nat := 0
  /-- Globals that got a redzone. -/
  globals : Nat := 0
  skippedGlobals : Nat := 0
  /-- Constructors that were bracketed for the check of the initialization order. -/
  wrapped : Nat := 0
  deriving DecidableEq

def Stats.add (a b : Stats) : Stats where
  checked := a.checked + b.checked
  skipped := a.skipped + b.skipped
  replaced := a.replaced + b.replaced
  stackVariables := a.stackVariables + b.stackVariables
  globals := a.globals + b.globals
  skippedGlobals := a.skippedGlobals + b.skippedGlobals
  wrapped := a.wrapped + b.wrapped

/-- Something that was left without a check. -/
structure Diagnostic where
  symbol : String
  location : SourceLocation
  message : String
  deriving DecidableEq

def Diagnostic.text (d : Diagnostic) : String :=
  if d.location.isEmpty then
    s!"@{d.symbol}: {d.message}"
  else
    s!"{d.location.text}: @{d.symbol}: {d.message}"

/-- What a run did. -/
structure Outcome where
  changed : Bool := false
  preserved : Preserved := .all
  stats : Stats := {}
  diagnostics : List Diagnostic := []
  deriving DecidableEq

/-- Why a module cannot be instrumented. -/
inductive InstrumentError
  /-- The instruction accesses no bytes at all. -/
  | emptyAccess (function : String) (inst : InstId)
  | frameTooLarge (function : String) (bytes : Nat)
  | unknownFunction (id : FuncId)
  | unsupportedScale (scale : Nat)
  deriving DecidableEq

def InstrumentError.message : InstrumentError → String
  | .emptyAccess function inst =>
      s!"invalid input in @{function}: memory access v{inst} has no size"
  | .frameTooLarge function bytes =>
      s!"invalid input in @{function}: stack frame of {bytes} bytes is too large"
  | .unknownFunction id => s!"function id {id} is out of range"
  | .unsupportedScale scale =>
      s!"unsupported shadow scale {scale}, expected {minScale}..={maxScale}"

end Redzone
