import Redzone.Ir.Module
import Redzone.Text.Quoted

/-!
# The summary of a module

One line on a module: its name, its symbol table, and how much it holds of everything else.
-/

namespace Redzone

/-- Some texts between brackets. -/
def bracketed (left : String) (texts : List String) (right : String) : String :=
  left ++ ", ".intercalate texts ++ right

/-- The symbols by number and by name. -/
def SymbolTable.summary (table : SymbolTable) : String :=
  let quoted := table.names.toList.map Text.quote
  let names := bracketed "[" quoted "]"
  let lookup := bracketed "\x7b"
    (quoted.zipIdx.map fun (name, symbol) => s!"{name}: SymbolId({symbol})") "\x7d"
  s!"SymbolTable \x7b names: {names}, lookup: {lookup} \x7d"

def Module.summary (m : Module) : String :=
  let functions := Text.quote s!"[{m.functions.size} functions]"
  let globals := Text.quote s!"[{m.globals.size} globals]"
  let nodes := Text.quote s!"[{m.nodes.size} nodes]"
  s!"Module \x7b name: {Text.quote m.name}, symbols: {m.symbols.summary}, " ++
    s!"functions: {functions}, globals: {globals}, metadata: {nodes} \x7d"

end Redzone
