import Redzone.Frame.Code
import Redzone.Globals.Annex

/-!
# Check of the initialization order

While a constructor of the module runs, the dynamically initialized globals of other modules are
poisoned.  A call at its start asks for that, and a call in front of every return takes it back.
-/

namespace Redzone

/-- Whether control returns here. -/
def Op.isRet : Op → Bool
  | .ret _ => true
  | _ => false

namespace Func

/-- Put a call of the routine `after` in front of the instruction at some place. -/
def callAtExit (after : SymbolId) (f : Func) (exit : BlockId × Nat) : Except Fault Func :=
  let n := f.insts.size
  f.insertCode exit.1 exit.2 (addedCode [] [.symbolAddr after, .call (.inst n) []])

/-- Bracket a function: call `before` with the module's name behind the parameters, and `after` in
front of every return. -/
def bracket (before after moduleName : SymbolId) (f : Func) : Except Fault Func := do
  let exits ← f.exits Op.isRet
  let pos ← f.prologueLength
  let f ← exits.foldlM (callAtExit after) f
  let n := f.insts.size
  f.insertCode 0 pos
    (addedCode []
      [.symbolAddr moduleName, .symbolAddr before, .call (.inst (n + 1)) [.inst n]])

end Func

namespace Module

/-- The defined functions that run as constructors behind the module's own. -/
def initializers (m : Module) : List FuncId :=
  let late := m.ctors.filter fun entry => EntryPoint.ctorPriority < entry.priority
  (late.filterMap fun entry => m.functionBySymbol entry.function).filter fun id =>
    match m.functions[id]? with
    | some f => !f.isDeclaration
    | none => false

/-- Bracket the function numbered `id`. -/
def bracketFunction (before after moduleName : SymbolId) (m : Module) (id : FuncId) :
    Except Fault Module := do
  let f ← m.function id
  let f ← f.bracket before after moduleName
  .ok (m.setFunction id f)

end Module

/-- Bracket the constructors of a module.  Returns how many there are. -/
def Annex.bracketInitializers (a : Annex) (uses : RuntimeUses) :
    Except Fault (Annex × RuntimeUses × Nat) := do
  let (a, moduleName) := a.moduleName
  let (a, before) := a.intern EntryPoint.beforeDynamicInit
  let (a, after) := a.intern EntryPoint.afterDynamicInit
  let uses := (uses.add EntryPoint.beforeDynamicInit ⟨[.ptr 0], none⟩).add
    EntryPoint.afterDynamicInit ⟨[], none⟩
  let targets := a.module.initializers
  let m ← targets.foldlM (Module.bracketFunction before after moduleName) a.module
  .ok ({ a with module := m }, uses, targets.length)

end Redzone
