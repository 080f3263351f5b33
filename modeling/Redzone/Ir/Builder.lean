import Redzone.Ir.Function

/-!
# Building functions

A builder is a function under construction together with the place where the next instruction goes:
at the end of a block, or before a position that moves along with what is inserted.  Without a place
an instruction goes to the arena only.
-/

namespace Redzone

/-- Where the next instruction goes. -/
inductive Cursor
  | atEnd (block : BlockId)
  | before (block : BlockId) (pos : Nat)
  deriving DecidableEq

/-- A function under construction. -/
structure Builder where
  func : Func
  cursor : Option Cursor := none
  /-- Mark what is built as exempt from checks. -/
  noSanitize : Bool := false
  deriving DecidableEq

namespace Builder

/-- Append a block, with arguments of the given types. -/
def createBlock (b : Builder) (tys : List Ty) : Builder × BlockId :=
  let (func, block) := b.func.pushBlockWithArgs tys
  ({ b with func := func }, block)

/-- Go on at the end of `block`. -/
def switchTo (b : Builder) (block : BlockId) : Builder := { b with cursor := some (.atEnd block) }

/-- Go on before position `pos` of `block`. -/
def positionAt (b : Builder) (block : BlockId) (pos : Nat) : Builder :=
  { b with cursor := some (.before block pos) }

/-- Block and position of the next instruction. -/
def insertionPoint (b : Builder) : Except Fault (Option (BlockId × Nat)) :=
  match b.cursor with
  | none => .ok none
  | some (.before block pos) => .ok (some (block, pos))
  | some (.atEnd block) => do
      let blk ← b.func.block block
      .ok (some (block, blk.insts.length))

/-- Give a stack slot the name it has in the source program.  Block arguments are not slots. -/
def setSlotName (b : Builder) (slot : Value) (name : String) : Builder :=
  match slot with
  | .inst i => { b with func := { b.func with slotNames := b.func.slotNames.insert i name } }
  | .arg _ => b

/-- Make an instruction and put it where the cursor says. -/
def push (b : Builder) (op : Op) (ty : Ty) (origin : Origin) : Except Fault (Builder × Value) :=
  let code : List Instruction := [⟨op, ty, origin, b.noSanitize⟩]
  let value := Value.inst b.func.insts.size
  match b.cursor with
  | none => .ok ({ b with func := b.func.pushCode code }, value)
  | some (.atEnd block) => do
      let func ← b.func.appendCode block code
      .ok ({ b with func := func }, value)
  | some (.before block pos) => do
      let func ← b.func.insertCode block pos code
      .ok ({ b with func := func, cursor := some (.before block (pos + 1)) }, value)

/-- Call a symbol: take its address, then call that. -/
def callSymbol (b : Builder) (callee : SymbolId) (args : List Value) (ty : Ty) (origin : Origin) :
    Except Fault (Builder × Value) := do
  let (b, addr) ← b.push (.symbolAddr callee) (.ptr 0) origin
  b.push (.call addr args) ty origin

end Builder

end Redzone
