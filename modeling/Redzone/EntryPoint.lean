import Redzone.Ir.Module

/-!
# Entry points of the runtime

The instrumented program calls routines of a runtime library by name, and the instrumentation makes
up symbols of its own.  This module has all these names.

Routines are declared in a module only once the code that calls them is complete: `RuntimeUses`
collects what was called, and `declareAll` declares it in the order of the names.
-/

namespace Redzone

namespace EntryPoint

def init : String := "__asan_init"
def versionCheck : String := "__asan_version_mismatch_check_v8"
def registerGlobals : String := "__asan_register_globals"
def unregisterGlobals : String := "__asan_unregister_globals"
def registerElfGlobals : String := "__asan_register_elf_globals"
def unregisterElfGlobals : String := "__asan_unregister_elf_globals"
def registerImageGlobals : String := "__asan_register_image_globals"
def unregisterImageGlobals : String := "__asan_unregister_image_globals"
def beforeDynamicInit : String := "__asan_before_dynamic_init"
def afterDynamicInit : String := "__asan_after_dynamic_init"

/-- The checking twin of an operation on a range of memory. -/
def bulk : Bulk → String
  | .copy => "__asan_memcpy"
  | .move => "__asan_memmove"
  | .fill => "__asan_memset"

/-- What an access does to memory. -/
inductive Access
  | load
  | store
  deriving DecidableEq

/-- The word for an access in the names of routines. -/
def Access.text : Access → String
  | .load => "load"
  | .store => "store"

/-- Access sizes that have routines of their own. -/
def isFixedSize (size : Nat) : Bool := size = 1 || size = 2 || size = 4 || size = 8 || size = 16

/-- The ending of routines after which the program goes on. -/
def noAbort (recover : Bool) : String := if recover then "_noabort" else ""

/-- The routine that reports a bad access. -/
def report (access : Access) (size : Nat) (recover : Bool) : String :=
  if isFixedSize size then
    s!"__asan_report_{access.text}{size}{noAbort recover}"
  else
    s!"__asan_report_{access.text}_n{noAbort recover}"

/-- The routine that checks an access. -/
def check (access : Access) (size : Nat) (recover : Bool) : String :=
  if isFixedSize size then
    s!"__asan_{access.text}{size}{noAbort recover}"
  else
    s!"__asan_{access.text}N{noAbort recover}"

/-- The values that a routine can fill shadow memory with. -/
def setShadowValues : List UInt8 := [0x00, 0xf1, 0xf2, 0xf3, 0xf5, 0xf8]

def hexByte (byte : UInt8) : String :=
  String.ofList [(byte.toNat / 16).digitChar, (byte.toNat % 16).digitChar]

/-- The name of the routine that fills shadow memory with `value`. -/
def setShadow (value : UInt8) : String := s!"__asan_set_shadow_{hexByte value}"

/-- The routine that fills shadow memory with `value`, if there is one. -/
def setShadow? (value : UInt8) : Option String :=
  if value ∈ setShadowValues then some (setShadow value) else none

/-! ### Symbols that the instrumentation makes up -/

def moduleCtor : String := "asan.module_ctor"
def moduleDtor : String := "asan.module_dtor"

/-- Priority of the module's own constructor and destructor. -/
def ctorPriority : Nat := 1

/-- A private string or table. -/
def generated (what : String) : String := s!"__asan_gen_.{what}"

/-- The indicator by which two definitions of one global are told apart. -/
def odrIndicator (name : String) : String := s!"__odr_asan_gen_{name}"

/-- The descriptor of a global. -/
def descriptor (name : String) : String := s!"__asan_global_{name}"

/-- The pair that keeps a global and its descriptor together. -/
def binder (name : String) : String := s!"__asan_binder_{name}"

/-- The description of a function's frame. -/
def stackDescription (name : String) : String := s!"__asan_stack_desc.{name}"

def registeredFlag : String := "__asan_globals_registered"
def elfSection : String := "asan_globals"
def elfStart : String := "__start_asan_globals"
def elfStop : String := "__stop_asan_globals"
def machOSection : String := "__DATA,__asan_globals"
def machOLiveness : String := "__DATA,__asan_liveness"

/-- Bytes of one descriptor: eight fields of a pointer's size. -/
def descriptorSize : Nat := 64

/-- Whether a text starts with `start`. -/
def startsWith (text start : String) : Bool := start.toList.isPrefixOf text.toList

/-- Whether a symbol belongs to the instrumentation and not to the program. -/
def isGenerated (name : String) : Bool :=
  startsWith name "__asan_" || startsWith name "__odr_asan_gen_" || startsWith name "fasan." ||
    name = moduleCtor || name = moduleDtor

end EntryPoint

/-- Parameters and result of a routine. -/
structure Signature where
  params : List Ty
  ret : Option Ty := none
  deriving DecidableEq

/-- The routines that a piece of instrumentation calls. -/
structure RuntimeUses where
  routines : Dict String Signature := .empty
  deriving DecidableEq

namespace RuntimeUses

def isEmpty (uses : RuntimeUses) : Bool := uses.routines.entries.isEmpty

/-- Call a routine.  Its first signature stands. -/
def add (uses : RuntimeUses) (name : String) (signature : Signature) : RuntimeUses :=
  ⟨uses.routines.alter name fun old => old.getD signature⟩

/-- Declare every routine that the module does not have yet, in the order of their names. -/
def declareAll (uses : RuntimeUses) (m : Module) : Module :=
  uses.routines.entries.foldl
    (fun m (name, signature) => (m.declare name signature.params signature.ret).1) m

end RuntimeUses

end Redzone
