import Redzone.Annotation
import Redzone.EntryPoint

/-!
# Globals that the instrumentation adds

Strings, tables and flags that describe a module to the runtime.  Private strings are numbered in
the order in which they are made; the module's name is made when it is first needed, and only once.
-/

namespace Redzone

/-- A module that is being extended, with what has been added so far. -/
structure Annex where
  module : Module
  /-- Number of private strings. -/
  strings : Nat := 0
  /-- The string that holds the module's name. -/
  moduleName? : Option SymbolId := none

/-- The bytes of a text, with a zero behind them. -/
def zeroTerminated (text : String) : List UInt8 := text.toUTF8.toList ++ [0]

namespace Annex

def intern (a : Annex) (name : String) : Annex × SymbolId :=
  let (m, symbol) := a.module.intern name
  ({ a with module := m }, symbol)

def addGlobal (a : Annex) (g : Global) : Annex := { a with module := (a.module.addGlobal g).1 }

/-- Ask the linker to keep a symbol. -/
def keep (a : Annex) (symbol : SymbolId) : Annex :=
  { a with module := { a.module with used := a.module.used ++ [symbol] } }

def addConstant (a : Annex) (name : String) (init : Initializer) (align : Nat) :
    Annex × SymbolId :=
  let (a, symbol) := a.intern name
  (a.addGlobal
    { name := symbol, size := init.size, align := align, linkage := .priv, constant := true,
      init := some init },
    symbol)

def addString (a : Annex) (text : String) : Annex × SymbolId :=
  let name := EntryPoint.generated s!"str.{a.strings}"
  { a with strings := a.strings + 1 }.addConstant name (.bytes (zeroTerminated text)) 1

/-- The string that holds the module's name. -/
def moduleName (a : Annex) : Annex × SymbolId :=
  match a.moduleName? with
  | some symbol => (a, symbol)
  | none =>
      let (a, symbol) := a.addConstant (EntryPoint.generated "module_name")
        (.bytes (zeroTerminated a.module.name)) 1
      ({ a with moduleName? := some symbol }, symbol)

/-- Add a record of a place in the source program: its file, line and column. -/
def addLocation (a : Annex) (loc : SourceLocation) : Annex × SymbolId :=
  let name := EntryPoint.generated s!"loc.{a.strings}"
  let (a, file) := a.addString loc.file
  a.addConstant name (.fields [.addr file, .int loc.line 4, .int loc.column 4]) 8

/-- Add a global unless the module has one of its name. -/
def addUnlessNamed (a : Annex) (name : String) (make : SymbolId → Global) : Annex × SymbolId :=
  let (a, symbol) := a.intern name
  match a.module.globalBySymbol symbol with
  | some _ => (a, symbol)
  | none => (a.addGlobal (make symbol), symbol)

/-- The flag by which the runtime sees that the globals are registered. -/
def registeredFlag (a : Annex) : Annex × SymbolId :=
  a.addUnlessNamed EntryPoint.registeredFlag fun symbol =>
    { name := symbol, size := 8, align := 8, linkage := .common, visibility := .hidden }

/-- The start or the end of a section, which the linker provides. -/
def sectionBound (a : Annex) (name : String) : Annex × SymbolId :=
  a.addUnlessNamed name fun symbol =>
    { name := symbol, size := 0, align := 8, linkage := .externWeak, visibility := .hidden,
      init := none }

end Annex

end Redzone
