import Redzone.Globals.Annex
import Redzone.Globals.Eligible

/-!
# Redzones and descriptors of globals

A global that gets a redzone keeps its contents and grows by zero bytes.  Its descriptor tells the
runtime about it in eight fields of eight bytes:

```text
 0  address of the global        32  name of the module
 8  size of the object           40  whether it is initialized dynamically
16  size with the redzone        48  place in the source program, or 0
24  name of the global           56  indicator of its definition, or 0
```
-/

namespace Redzone

/-- Write `count` zero bytes behind contents; if all are zero, nothing need be written. -/
def Initializer.extend (count : Nat) : Initializer → Initializer
  | .zero => .zero
  | .bytes data => .fields [.bytes data, .zero count]
  | .fields parts => .fields (parts ++ [.zero count])

/-- Extend contents by zero bytes up to `size` bytes. -/
def Initializer.padTo (size : Nat) (init : Initializer) : Except Fault Initializer := do
  let tail ← checkedSub size init.size
  .ok (init.extend tail)

/-- A global with its redzone. -/
def Global.withRedzone (granularity : Nat) (g : Global) : Except Fault Global := do
  let redzone ← globalRedzone? g.size granularity
  let init ← g.init.mapM (Initializer.padTo (g.size + redzone))
  .ok
    { g with
      size := g.size + redzone
      padding := g.padding + redzone
      align := max g.align (minGlobalRedzone granularity)
      init := init }

/-- What is registered of a global. -/
structure Registered where
  symbol : SymbolId
  descriptor : List ConstField
  dynInit : Bool
  deriving DecidableEq

def ConstField.word (value : Nat) : ConstField := .int (signed64 value) 8

namespace Annex

/-- The field for a place in the source program. -/
def locationField (a : Annex) (loc : SourceLocation) : Annex × ConstField :=
  if loc.isEmpty then
    (a, .word 0)
  else
    let (a, symbol) := a.addLocation loc
    (a, .addr symbol)

/-- The field for the indicator of a definition. -/
def indicatorField (a : Annex) (config : Config) (name : String) (g : Global) :
    Annex × ConstField :=
  if config.odrIndicator && !g.linkage.isLocal then
    let (a, symbol) := a.intern (EntryPoint.odrIndicator name)
    (a.addGlobal
      { name := symbol, size := 1, align := 1, linkage := g.linkage, visibility := g.visibility },
      .addr symbol)
  else
    (a, .word 0)

/-- Give the global numbered `id` its redzone and make its descriptor. -/
def addRedzone (config : Config) (store : Annotations) (a : Annex) (id : GlobalId) :
    Except Fault (Annex × Registered) := do
  let g ← a.module.global id
  let name ← a.module.resolve g.name
  let facts := store.get id
  let objectSize ← g.objectSize?
  let grown ← g.withRedzone config.mapping.granularity
  let a := { a with module := a.module.setGlobal id grown }
  let (a, nameString) := a.addString (if facts.name.isEmpty then name else facts.name)
  let (a, moduleName) := a.moduleName
  let (a, location) := a.locationField facts.location
  let (a, indicator) := a.indicatorField config name g
  .ok (a,
    { symbol := g.name
      descriptor :=
        [ .addr g.name, .word objectSize, .word grown.size, .addr nameString,
          .addr moduleName, .word (if facts.dynInit then 1 else 0), location, indicator ]
      dynInit := facts.dynInit })

/-- Give globals their redzones, one after the other. -/
def addRedzones (config : Config) (store : Annotations) :
    Annex → List GlobalId → Except Fault (Annex × List Registered)
  | a, [] => .ok (a, [])
  | a, id :: rest => do
      let (a, registered) ← a.addRedzone config store id
      let (a, others) ← addRedzones config store a rest
      .ok (a, registered :: others)

end Annex

end Redzone
