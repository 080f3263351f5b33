import Redzone.Ir.Metadata
import Redzone.Ir.Symbol

/-!
# Modules

A module owns its functions, globals and metadata, the lists of functions that run before and after
the program, and the symbol table they all share.
-/

namespace Redzone

/-- Number of a function of a module. -/
abbrev FuncId := Nat

/-- An entry of the list of constructors or destructors. -/
structure ListEntry where
  /-- Lower priorities run first. -/
  priority : Nat
  function : SymbolId
  deriving DecidableEq

/-- The priority of ordinary static initializers. -/
def defaultPriority : Nat := 65535

/-- A unit of compilation. -/
structure Module where
  name : String
  symbols : SymbolTable := .empty
  functions : Array Func := #[]
  globals : Array Global := #[]
  nodes : Array MdNode := #[]
  /-- Named lists of metadata nodes. -/
  named : Dict String (List NodeId) := .empty
  ctors : List ListEntry := []
  dtors : List ListEntry := []
  /-- Symbols that the linker must keep. -/
  used : List SymbolId := []
  deriving DecidableEq

namespace Module

/-- The number of `name`, which is new to the symbol table or known to it. -/
def intern (m : Module) (name : String) : Module × SymbolId :=
  let (symbols, symbol) := m.symbols.intern name
  ({ m with symbols := symbols }, symbol)

def resolve (m : Module) (symbol : SymbolId) : Except Fault String := m.symbols.resolve symbol

def addFunction (m : Module) (f : Func) : Module × FuncId :=
  ({ m with functions := m.functions.push f }, m.functions.size)

def addGlobal (m : Module) (g : Global) : Module × GlobalId :=
  ({ m with globals := m.globals.push g }, m.globals.size)

def function (m : Module) (id : FuncId) : Except Fault Func :=
  match m.functions[id]? with
  | some f => .ok f
  | none => .error (.noFunction id)

def global (m : Module) (id : GlobalId) : Except Fault Global :=
  match m.globals[id]? with
  | some g => .ok g
  | none => .error (.noGlobal id)

def setFunction (m : Module) (id : FuncId) (f : Func) : Module :=
  { m with functions := m.functions.setIfInBounds id f }

def setGlobal (m : Module) (id : GlobalId) (g : Global) : Module :=
  { m with globals := m.globals.setIfInBounds id g }

/-- The first function with this symbol as its name. -/
def functionBySymbol (m : Module) (symbol : SymbolId) : Option FuncId :=
  m.functions.findIdx? fun f => f.name = symbol

/-- The first global with this symbol as its name. -/
def globalBySymbol (m : Module) (symbol : SymbolId) : Option GlobalId :=
  m.globals.findIdx? fun g => g.name = symbol

def functionByName (m : Module) (name : String) : Option FuncId :=
  (m.symbols.get? name).bind m.functionBySymbol

def globalByName (m : Module) (name : String) : Option GlobalId :=
  (m.symbols.get? name).bind m.globalBySymbol

def addNode (m : Module) (node : MdNode) : Module × NodeId :=
  ({ m with nodes := m.nodes.push node }, m.nodes.size)

/-- Append a node to a named list, which may be new. -/
def addNamed (m : Module) (list : String) (node : NodeId) : Module :=
  { m with named := m.named.alter list fun old => old.getD [] ++ [node] }

/-- The nodes of a named list. -/
def namedNodes (m : Module) (list : String) : List NodeId := (m.named.get? list).getD []

/-- Declare a function unless the module already has one of this name. -/
def declare (m : Module) (name : String) (params : List Ty) (ret : Option Ty) :
    Module × SymbolId :=
  let (m, symbol) := m.intern name
  match m.functionBySymbol symbol with
  | some _ => (m, symbol)
  | none => ((m.addFunction { name := symbol, params := params, ret := ret }).1, symbol)

end Module

end Redzone
