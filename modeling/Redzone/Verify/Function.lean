import Redzone.Verify.Finding
import Redzone.Word

/-!
# Verification of a function

The structure of the blocks is checked first, then every listed instruction on its own: its operands
exist, they have the types it needs, and its own type is the one it produces.  Types are checked for
values that are in their arena at all; for the others the dangling reference is the defect.
-/

namespace Redzone

/-- What the instructions of a function may refer to. -/
structure Scope where
  func : Func
  symbols : SymbolTable
  /-- The instructions that some block lists. -/
  placed : List InstId

/-- The scope of a function's own body. -/
def Func.scope (f : Func) (symbols : SymbolTable) : Scope :=
  ⟨f, symbols, f.listed.filter fun i => i < f.insts.size⟩

namespace Scope

/-- Whether a value exists: a block argument of the arena, or a placed instruction. -/
def knows (s : Scope) : Value → Bool
  | .arg i => i < s.func.blockArgs.size
  | .inst i => s.placed.contains i

def operand (s : Scope) (v : Value) : List Defect := if s.knows v then [] else [.dangling v]

def hasTy (s : Scope) (role : String) (expected : Ty) (v : Value) : List Defect :=
  match s.func.valueTy v with
  | some found => if found = expected then [] else [.operandTy role expected found]
  | none => []

def hasPtrTy (s : Scope) (role : String) (v : Value) : List Defect :=
  match s.func.valueTy v with
  | some found => if found.isPtr then [] else [.operandNotPtr role found]
  | none => []

/-- An access reads or writes at least one byte. -/
def width (role : String) (bytes : Nat) : List Defect :=
  if bytes = 0 then [.zeroWidth role] else []

/-- The instruction's own type is this one. -/
def result (role : String) (expected found : Ty) : List Defect :=
  if found = expected then [] else [.resultTy role expected found]

/-- The instruction's own type is a pointer. -/
def resultPtr (role : String) (found : Ty) : List Defect :=
  if found.isPtr then [] else [.resultNotPtr role found]

/-- A value passed to a block argument exists and has the argument's type. -/
def targetArg (s : Scope) (block : BlockId) (tys : List Ty) (v : Value) (position : Nat) :
    List Defect :=
  s.operand v ++
    match s.func.valueTy v, tys[position]? with
    | some found, some expected =>
        if found = expected then [] else [.targetArgTy block position expected found]
    | _, _ => []

/-- A branch goes to a block other than the entry and passes what that block takes. -/
def target (s : Scope) (t : Target) : Except Fault (List Defect) :=
  match s.func.blocks[t.block]? with
  | none => .ok [.missingTarget t.block]
  | some blk => do
      let tys ← s.func.argTys t.block
      .ok ((if t.block = 0 then [.targetEntry] else []) ++
        (if t.args.length = blk.argCount then []
          else [.targetArgCount t.block t.args.length blk.argCount]) ++
        t.args.zipIdx.flatMap fun (v, position) => s.targetArg t.block tys v position)

/-- The defects of an instruction that is no branch, its operands' existence apart. -/
def shape (s : Scope) (i : Instruction) : List Defect :=
  match i.op with
  | .param index =>
      match s.func.params[index]? with
      | none => [.paramIndex index s.func.params.length]
      | some declared => if declared = i.ty then [] else [.paramTy index i.ty declared]
  | .iconst _ => result "const" .int i.ty
  | .bconst _ => result "bconst" .bool i.ty
  | .arith _ lhs rhs =>
      s.hasTy "int arith lhs" .int lhs ++ s.hasTy "int arith rhs" .int rhs ++
        result "int arith" .int i.ty
  | .icmp _ lhs rhs =>
      s.hasTy "icmp lhs" .int lhs ++ s.hasTy "icmp rhs" .int rhs ++ result "icmp" .bool i.ty
  | .select cond ifTrue ifFalse =>
      s.hasTy "select cond" .bool cond ++
        match s.func.valueTy ifTrue, s.func.valueTy ifFalse with
        | some a, some b => if a = b then [] else [.selectArms a b]
        | _, _ => []
  | .extend _ value bits =>
      s.hasTy "sext/zext" .int value ++ (if bits = 0 then [.zeroBits] else []) ++
        result "sext/zext" .int i.ty
  | .load ptr bytes _ => s.hasPtrTy "load ptr" ptr ++ width "load" bytes
  | .store _ ptr bytes _ =>
      s.hasPtrTy "store ptr" ptr ++ width "store" bytes ++ result "store" .unit i.ty
  | .rmw _ ptr value bytes _ =>
      s.hasPtrTy "rmw ptr" ptr ++ s.hasTy "rmw value" .int value ++ width "rmw" bytes
  | .cmpxchg ptr expected desired bytes _ =>
      s.hasPtrTy "cmpxchg ptr" ptr ++ s.hasTy "cmpxchg expected" .int expected ++
        s.hasTy "cmpxchg desired" .int desired ++ width "cmpxchg" bytes
  | .bulk .fill dest byte length =>
      s.hasPtrTy "memset dst" dest ++ s.hasTy "memset byte" .int byte ++
        s.hasTy "memset len" .int length
  | .bulk _ dest source length =>
      s.hasPtrTy "memcpy dst" dest ++ s.hasPtrTy "memcpy src" source ++
        s.hasTy "memcpy len" .int length
  | .stackSlot _ align =>
      (if isPowerOfTwo align then [] else [.slotAlign align]) ++ resultPtr "stack_slot" i.ty
  | .lifetime _ ptr _ => s.hasPtrTy "lifetime marker" ptr
  | .symbolAddr symbol =>
      (if s.symbols.contains symbol then [] else [.unknownSymbol symbol]) ++
        resultPtr "symbol_addr" i.ty
  | .call callee _ => s.hasPtrTy "call target" callee
  | .ptrAdd ptr offset => s.hasPtrTy "ptradd ptr" ptr ++ s.hasTy "ptradd offset" .int offset
  | .ptrToAddr ptr => s.hasPtrTy "ptrtoaddr" ptr ++ result "ptrtoaddr" .int i.ty
  | .intToPtr value => s.hasTy "inttoptr" .int value ++ resultPtr "inttoptr" i.ty
  | .ret value =>
      match value, s.func.ret with
      | some v, some ty => s.hasTy "ret value" ty v
      | some _, none => [.retUnexpected]
      | none, some _ => [.retMissing]
      | none, none => []
  | .br _ | .brif .. | .unwind | .unreachable | .trap => []

def instruction (s : Scope) (i : Instruction) : Except Fault (List Defect) :=
  match i.op with
  | .br next => s.target next
  | .brif cond ifTrue ifFalse => do
      let first ← s.target ifTrue
      let second ← s.target ifFalse
      .ok (s.operand cond ++ s.hasTy "brif cond" .bool cond ++ first ++ second)
  | op => .ok (op.operands.flatMap s.operand ++ s.shape i)

/-- The defects of the instruction `i`, listed at place `pos` of block `b`, which is the last place
of the block or is not. -/
def listing (s : Scope) (name : String) (b : BlockId) (pos : Nat) (isLast : Bool) (i : InstId) :
    Except Fault (List Finding) :=
  match s.func.insts[i]? with
  | none => .ok []
  | some instruction => do
      let place := Place.instruction name b pos
      let terminator := instruction.op.isTerminator
      let own ← s.instruction instruction
      .ok ((if terminator && !isLast then [⟨place, .terminatorInside⟩] else []) ++
        (if isLast && !terminator then [⟨.block name b, .noTerminator⟩] else []) ++
        (if instruction.op.isParam && b != 0 then [⟨place, .paramOutsideEntry⟩] else []) ++
        own.map fun defect => ⟨place, defect⟩)

def block (s : Scope) (name : String) (b : BlockId) (blk : Block) :
    Except Fault (List Finding) :=
  if blk.insts.isEmpty then
    .ok [⟨.block name b, .emptyBlock⟩]
  else do
    let findings ← blk.insts.zipIdx.mapM fun (i, pos) =>
      s.listing name b pos (pos + 1 == blk.insts.length) i
    .ok findings.flatten

end Scope

/-- Every listing of an instruction, with its block. -/
def Func.listings (f : Func) : List (BlockId × InstId) :=
  f.blocks.toList.zipIdx.flatMap fun (blk, b) => blk.insts.map fun i => (b, i)

/-- Listings of instructions that are not in an arena of `size` instructions, or that came before,
in `seen` or in the list itself. -/
def placementDefects (size : Nat) : List InstId → List (BlockId × InstId) → List (BlockId × Defect)
  | _, [] => []
  | seen, (b, i) :: rest =>
      if size ≤ i then
        (b, .missingInst i) :: placementDefects size seen rest
      else if i ∈ seen then
        (b, .placedTwice i) :: placementDefects size seen rest
      else
        placementDefects size (i :: seen) rest

/-- The defects of a function's body, reported under the function's name. -/
def Func.verifyBody (f : Func) (name : String) (symbols : SymbolTable) :
    Except Fault (List Finding) :=
  match f.blocks[0]? with
  | none => .ok []
  | some entry => do
      let scope := f.scope symbols
      let args := if entry.argCount = 0 then [] else [⟨.function name, .entryArgs⟩]
      let placement := (placementDefects f.insts.size [] f.listings).map fun (b, defect) =>
        ⟨.block name b, defect⟩
      let blocks ← f.blocks.toList.zipIdx.mapM fun (blk, b) => scope.block name b blk
      .ok (args ++ placement ++ blocks.flatten)

def Func.verify (f : Func) (symbols : SymbolTable) : Except Fault (List Finding) := do
  let name ← symbols.resolve f.name
  f.verifyBody name symbols

end Redzone
