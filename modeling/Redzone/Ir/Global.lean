import Redzone.Fault
import Redzone.Ir.Linkage

/-!
# Global variables

A global has a size, an alignment and, unless it is only declared, initial contents.  Contents that
are not written out are zero.
-/

namespace Redzone

/-- Number of a global of a module.  Globals are only ever appended, so a number stays valid. -/
abbrev GlobalId := Nat

/-- Who may see a name across the objects of one program. -/
inductive Visibility
  | everywhere
  | hidden
  | protect
  deriving DecidableEq

/-- One field of structured contents. -/
inductive ConstField
  /-- A little-endian integer of `bytes` bytes. -/
  | int (value : Int) (bytes : Nat)
  /-- The address of a symbol, eight bytes long. -/
  | addr (symbol : SymbolId)
  | bytes (data : List UInt8)
  /-- A run of zero bytes. -/
  | zero (count : Nat)
  deriving DecidableEq

def ConstField.size : ConstField → Nat
  | int _ width => width
  | addr _ => 8
  | bytes data => data.length
  | zero count => count

/-- The initial contents of a global.  What is not written out is zero. -/
inductive Initializer
  | zero
  | bytes (data : List UInt8)
  | fields (parts : List ConstField)
  deriving DecidableEq

/-- Number of bytes that are written out. -/
def Initializer.size : Initializer → Nat
  | zero => 0
  | bytes data => data.length
  | fields parts => parts.foldr (fun part total => part.size + total) 0

/-- A global variable; without an initializer it is a declaration. -/
structure Global where
  name : SymbolId
  /-- Allocated bytes, trailing padding included. -/
  size : Nat
  align : Nat
  /-- Trailing bytes that do not belong to the object itself. -/
  padding : Nat := 0
  linkage : Linkage := .external
  visibility : Visibility := .everywhere
  constant : Bool := false
  threadLocal : Bool := false
  /-- Size and place must not change. -/
  fixedAddress : Bool := false
  sectionName : Option String := none
  /-- The linker may drop this global only together with that one. -/
  associated : Option SymbolId := none
  init : Option Initializer := some .zero
  deriving DecidableEq

namespace Global

def isDeclaration (g : Global) : Bool := g.init.isNone

/-- Size of the object itself, without trailing padding. -/
def objectSize? (g : Global) : Except Fault Nat := checkedSub g.size g.padding

/-- The size that `objectSize?` gives for a global that is no smaller than its padding. -/
def objectSize (g : Global) : Nat := g.size - g.padding

end Global

end Redzone
