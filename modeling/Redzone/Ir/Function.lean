import Redzone.Dict
import Redzone.Fault
import Redzone.Ir.Linkage

/-!
# Functions and blocks

Instructions live in an arena that only grows; a block lists the numbers of its instructions in
program order.  Adding code therefore never renumbers anything: `insertCode` appends to the arena
and splices the fresh numbers into one block, `splitBlock` moves a block's tail to a fresh block.

A reference that leads nowhere is a `Fault`.  The operations that can be asked for something that is
not there say so in their type.
-/

namespace Redzone

/-- A straight-line piece of code.  Its arguments take the place of phi nodes. -/
structure Block where
  /-- Place of the first argument in the function's arena of block arguments. -/
  argStart : Nat
  argCount : Nat := 0
  /-- The instructions in program order; the last one is the terminator. -/
  insts : List InstId := []
  deriving DecidableEq

/-- A function; without blocks it is a declaration. -/
structure Func where
  name : SymbolId
  params : List Ty
  ret : Option Ty
  linkage : Linkage := .external
  /-- The function must not be instrumented. -/
  noSanitize : Bool := false
  /-- The function has been instrumented. -/
  sanitized : Bool := false
  insts : Array Instruction := #[]
  /-- The blocks; the first one is the entry. -/
  blocks : Array Block := #[]
  /-- The arena of block arguments, of which only the types are kept. -/
  blockArgs : Array Ty := #[]
  /-- Names of stack slots in the source program. -/
  slotNames : Dict InstId String := .empty
  deriving DecidableEq

namespace Func

def isDeclaration (f : Func) : Bool := f.blocks.isEmpty

def inst (f : Func) (i : InstId) : Except Fault Instruction :=
  match f.insts[i]? with
  | some instruction => .ok instruction
  | none => .error (.noInstruction i)

def block (f : Func) (b : BlockId) : Except Fault Block :=
  match f.blocks[b]? with
  | some blk => .ok blk
  | none => .error (.noBlock b)

/-- The numbers of all blocks, in layout order. -/
def blockIds (f : Func) : List BlockId := List.range f.blocks.size

/-- Every listing of an instruction in a block, block by block. -/
def listed (f : Func) : List InstId := f.blocks.toList.flatMap Block.insts

def argTys (f : Func) (b : BlockId) : Except Fault (List Ty) := do
  let blk ← f.block b
  if blk.argStart + blk.argCount ≤ f.blockArgs.size then
    .ok ((f.blockArgs.toList.drop blk.argStart).take blk.argCount)
  else
    .error (.noBlockArgs b)

/-- The type of a value that is in its arena. -/
def valueTy (f : Func) : Value → Option Ty
  | .inst i => f.insts[i]?.map Instruction.ty
  | .arg i => f.blockArgs[i]?

/-- The instruction whose result a value is. -/
def defInst (f : Func) (v : Value) : Option Instruction := v.inst?.bind fun i => f.insts[i]?

/-- The operation whose result a value is. -/
def defOp (f : Func) (v : Value) : Option Op := (f.defInst v).map Instruction.op

/-- The terminator of a block, if the block ends in one. -/
def terminator (f : Func) (b : BlockId) : Except Fault (Option InstId) := do
  let blk ← f.block b
  match blk.insts.getLast? with
  | none => .ok none
  | some last =>
      let instruction ← f.inst last
      .ok (if instruction.op.isTerminator then some last else none)

/-- The first block that lists `i`, among the blocks `b`, `b + 1`, …, and the place in it. -/
def locateFrom (i : InstId) : BlockId → List Block → Option (BlockId × Nat)
  | _, [] => none
  | b, blk :: rest =>
      match blk.insts.idxOf? i with
      | some pos => some (b, pos)
      | none => locateFrom i (b + 1) rest

/-- The block that lists an instruction, and the place in it. -/
def locate (f : Func) (i : InstId) : Option (BlockId × Nat) := locateFrom i 0 f.blocks.toList

/-- Number of leading parameters in a list of instructions. -/
def leadingParams (f : Func) : List InstId → Except Fault Nat
  | [] => .ok 0
  | i :: rest => do
      let instruction ← f.inst i
      if instruction.op.isParam then
        let count ← leadingParams f rest
        .ok (count + 1)
      else
        .ok 0

/-- Number of leading parameters in the entry block. -/
def prologueLength (f : Func) : Except Fault Nat :=
  match f.blocks[0]? with
  | none => .ok 0
  | some entry => f.leadingParams entry.insts

/-! ### Edits -/

/-- Append an instruction to the arena, placing it in no block. -/
def pushInst (f : Func) (instruction : Instruction) : Func × InstId :=
  ({ f with insts := f.insts.push instruction }, f.insts.size)

/-- Append an empty block without arguments. -/
def pushBlock (f : Func) : Func × BlockId :=
  ({ f with blocks := f.blocks.push { argStart := f.blockArgs.size } }, f.blocks.size)

/-- Append an empty block with arguments of the given types. -/
def pushBlockWithArgs (f : Func) (tys : List Ty) : Func × BlockId :=
  ({ f with
      blocks := f.blocks.push { argStart := f.blockArgs.size, argCount := tys.length }
      blockArgs := f.blockArgs ++ tys.toArray },
    f.blocks.size)

def setBlock (f : Func) (b : BlockId) (blk : Block) : Func :=
  { f with blocks := f.blocks.setIfInBounds b blk }

def setInst (f : Func) (i : InstId) (instruction : Instruction) : Func :=
  { f with insts := f.insts.setIfInBounds i instruction }

/-- Replace what an instruction does and keep all else about it. -/
def setOp (f : Func) (i : InstId) (op : Op) : Except Fault Func := do
  let instruction ← f.inst i
  .ok (f.setInst i { instruction with op := op })

/-- List the instructions `ids` in block `b` before position `pos`. -/
def insertAt (f : Func) (b : BlockId) (pos : Nat) (ids : List InstId) : Except Fault Func := do
  let blk ← f.block b
  if pos ≤ blk.insts.length then
    .ok (f.setBlock b { blk with insts := blk.insts.take pos ++ ids ++ blk.insts.drop pos })
  else
    .error (.pastEnd pos blk.insts.length)

/-- The numbers that `code` gets when it is appended to the arena. -/
def freshIds (f : Func) (code : List Instruction) : List InstId :=
  List.range' f.insts.size code.length

/-- Append `code` to the arena. -/
def pushCode (f : Func) (code : List Instruction) : Func :=
  { f with insts := f.insts ++ code.toArray }

/-- Put new instructions into block `b` before position `pos`. -/
def insertCode (f : Func) (b : BlockId) (pos : Nat) (code : List Instruction) :
    Except Fault Func :=
  (f.pushCode code).insertAt b pos (f.freshIds code)

/-- Put new instructions at the end of block `b`. -/
def appendCode (f : Func) (b : BlockId) (code : List Instruction) : Except Fault Func := do
  let blk ← f.block b
  f.insertCode b blk.insts.length code

/-- Move the instructions of `b` from `pos` on into a fresh block without arguments.  Block `b` is
left without a terminator. -/
def splitBlock (f : Func) (b : BlockId) (pos : Nat) : Except Fault (Func × BlockId) := do
  let blk ← f.block b
  if pos ≤ blk.insts.length then
    let kept := f.setBlock b { blk with insts := blk.insts.take pos }
    .ok ({ kept with
            blocks := kept.blocks.push
              { argStart := f.blockArgs.size, insts := blk.insts.drop pos } },
      f.blocks.size)
  else
    .error (.pastEnd pos blk.insts.length)

end Func

namespace Block

def argValues (blk : Block) : List Value :=
  (List.range blk.argCount).map fun i => Value.arg (blk.argStart + i)

end Block

end Redzone
