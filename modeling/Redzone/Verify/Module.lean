import Redzone.Verify.Function

/-!
# Verification of a module

Names are unique, the constructor and destructor lists name functions, globals are big enough for
their contents, metadata refers to what is there, and every function is well formed.
-/

namespace Redzone

namespace Module

/-- Names that came before, in `seen` or in the list itself. -/
def repeatedNames : List String → List String → List Finding
  | _, [] => []
  | seen, name :: rest =>
      if name ∈ seen then
        ⟨.module, .duplicateFunction name⟩ :: repeatedNames seen rest
      else
        repeatedNames (name :: seen) rest

/-- The defects of an entry of the constructor or destructor list. -/
def verifyEntry (m : Module) (entry : ListEntry) : Except Fault (List Finding) :=
  match m.functionBySymbol entry.function with
  | some _ => .ok []
  | none => do
      let name ← m.resolve entry.function
      .ok [⟨.module, .unknownListed name⟩]

/-- The defects of a global that stands behind globals with the names `seen`. -/
def globalDefects (m : Module) (seen : List SymbolId) (g : Global) : List Defect :=
  (if g.name ∈ seen then [.duplicateGlobal] else []) ++
    (if (m.functionBySymbol g.name).isSome then [.globalCollides] else []) ++
    (if isPowerOfTwo g.align then [] else [.globalAlign g.align]) ++
    (if g.padding > g.size then [.globalPadding g.padding g.size] else []) ++
    match g.init with
    | some init => if init.size > g.size then [.globalInit init.size g.size] else []
    | none => []

/-- The defects of globals that stand behind globals with the names `seen`. -/
def verifyGlobals (m : Module) : List SymbolId → List Global → Except Fault (List Finding)
  | _, [] => .ok []
  | seen, g :: rest => do
      let name ← m.resolve g.name
      let findings ← verifyGlobals m (g.name :: seen) rest
      .ok ((m.globalDefects seen g).map (fun defect => ⟨.global name, defect⟩) ++ findings)

/-- What is wrong with an operand of the node numbered `node`. -/
def operandDefects (m : Module) (node : NodeId) : MdOperand → List Defect
  | .node id => if id < m.nodes.size then [] else [.danglingNode node id]
  | .global id => if id < m.globals.size then [] else [.danglingGlobal node id]
  | _ => []

def metadataDefects (m : Module) : List Defect :=
  (m.named.entries.flatMap fun (list, nodes) =>
    nodes.flatMap fun node => if node < m.nodes.size then [] else [Defect.missingNode list node]) ++
  m.nodes.toList.zipIdx.flatMap fun (node, id) => node.operands.flatMap (m.operandDefects id)

def verify (m : Module) : Except Fault (List Finding) := do
  let names ← m.functions.toList.mapM fun f => m.resolve f.name
  let entries ← (m.ctors ++ m.dtors).mapM m.verifyEntry
  let globals ← m.verifyGlobals [] m.globals.toList
  let functions ← m.functions.toList.mapM fun f => f.verify m.symbols
  .ok (repeatedNames [] names ++ entries.flatten ++ globals ++
    m.metadataDefects.map (fun defect => ⟨.module, defect⟩) ++ functions.flatten)

end Module

end Redzone
