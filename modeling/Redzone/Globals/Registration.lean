import Redzone.Access.Check
import Redzone.Globals.Descriptor

/-!
# Registration of globals

Descriptors reach the runtime in one of three ways: as one table, or each in a global of its own
that the linker collects in a section and may drop together with the global it describes.  A
constructor of the module registers the descriptors and a destructor unregisters them, with the same
arguments.
-/

namespace Redzone

/-- How descriptors reach the runtime. -/
inductive Scheme
  /-- One table, passed by address and length. -/
  | flat
  /-- A section whose bounds the linker provides. -/
  | elf
  /-- A section of the image, and pairs that keep descriptors alive. -/
  | machO
  deriving DecidableEq

/-- The scheme that a configuration asks for, as far as the object format has it. -/
def Config.scheme (config : Config) : Scheme :=
  if !config.globalGc then .flat
  else
    match config.platform.format with
    | .elf => if config.kernel then .flat else .elf
    | .machO => .machO
    | .coff => .flat

/-- The calls that register and unregister the descriptors. -/
structure Registration where
  register : String
  unregister : String
  params : List Ty
  /-- Symbols that are passed by address. -/
  symbols : List SymbolId
  /-- Number of descriptors, passed last. -/
  count : Option Nat := none
  deriving DecidableEq

namespace Annex

/-- Add the descriptor of a global as a global of its own. -/
def addDescriptor (a : Annex) (place : String) (associated : Option SymbolId) (r : Registered) :
    Except Fault (Annex × SymbolId) := do
  let name ← a.module.resolve r.symbol
  let (a, symbol) := a.intern (EntryPoint.descriptor name)
  let a := a.keep symbol
  .ok (a.addGlobal
    { name := symbol, size := EntryPoint.descriptorSize, align := 8, linkage := .priv,
      sectionName := some place, associated := associated, init := some (.fields r.descriptor) },
    symbol)

/-- Add the pair that keeps a descriptor alive as long as its global. -/
def addBinder (a : Annex) (r : Registered) (descriptor : SymbolId) : Except Fault Annex := do
  let name ← a.module.resolve r.symbol
  let (a, symbol) := a.intern (EntryPoint.binder name)
  let a := a.addGlobal
    { name := symbol, size := 16, align := 8, linkage := .priv,
      sectionName := some EntryPoint.machOLiveness,
      init := some (.fields [.addr r.symbol, .addr descriptor]) }
  .ok (a.keep symbol)

/-- Add a descriptor that the linker finds by its section. -/
def addElfDescriptor (a : Annex) (r : Registered) : Except Fault Annex := do
  let (a, _) ← a.addDescriptor EntryPoint.elfSection (some r.symbol) r
  .ok a

/-- Add a descriptor and the pair that keeps it alive. -/
def addMachODescriptor (a : Annex) (r : Registered) : Except Fault Annex := do
  let (a, symbol) ← a.addDescriptor EntryPoint.machOSection none r
  a.addBinder r symbol

/-- Add the descriptors of some globals, and say how they are registered. -/
def addRegistration (a : Annex) (globals : List Registered) :
    Scheme → Except Fault (Annex × Registration)
  | .flat =>
      let (a, table) := a.addConstant (EntryPoint.generated "globals")
        (.fields (globals.flatMap Registered.descriptor)) 8
      .ok (a,
        { register := EntryPoint.registerGlobals
          unregister := EntryPoint.unregisterGlobals
          params := [.ptr 0, .int]
          symbols := [table]
          count := some globals.length })
  | .elf => do
      let a ← globals.foldlM addElfDescriptor a
      let (a, flag) := a.registeredFlag
      let (a, start) := a.sectionBound EntryPoint.elfStart
      let (a, stop) := a.sectionBound EntryPoint.elfStop
      .ok (a,
        { register := EntryPoint.registerElfGlobals
          unregister := EntryPoint.unregisterElfGlobals
          params := [.ptr 0, .ptr 0, .ptr 0]
          symbols := [flag, start, stop] })
  | .machO => do
      let a ← globals.foldlM addMachODescriptor a
      let (a, flag) := a.registeredFlag
      .ok (a,
        { register := EntryPoint.registerImageGlobals
          unregister := EntryPoint.unregisterImageGlobals
          params := [.ptr 0]
          symbols := [flag] })

end Annex

namespace Registration

/-- The code that computes the arguments of both calls; its results are the arguments. -/
def argCode (r : Registration) : List Op :=
  r.symbols.map Op.symbolAddr ++ (r.count.map fun count => Op.iconst count).toList

/-- The code of a call of `routine` with the registration's arguments, from place `n` on. -/
def callCode (r : Registration) (n : InstId) (routine : SymbolId) : List Op :=
  let args := r.argCode
  args ++
    [ .symbolAddr routine,
      .call (.inst (n + args.length))
        ((List.range' n args.length).map Value.inst) ]

end Registration

end Redzone
