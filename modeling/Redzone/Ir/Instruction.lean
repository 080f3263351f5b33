/-!
# Values, operations and instructions

A function body refers to its values by number.  A value is the result of an instruction, numbered
by its place in the function's arena, or an argument of a block, numbered by its place in the arena
of block arguments.  Numbers are never reused, so a reference stays valid while code is added.

Integers have no width: an `int` holds whatever an operation computed or a load produced, and a
width matters only at memory accesses and at an explicit extension.
-/

namespace Redzone

/-- Number of an instruction in its function's arena. -/
abbrev InstId := Nat

/-- Number of a block of a function. -/
abbrev BlockId := Nat

/-- Number of a name in a module's symbol table. -/
abbrev SymbolId := Nat

inductive Ty
  /-- An integer of no fixed width. -/
  | int
  /-- The result of a comparison. -/
  | bool
  /-- A pointer into the address space `space`; space 0 is the one that is instrumented. -/
  | ptr (space : Nat)
  /-- The type of stores, of calls without a result and of terminators. -/
  | unit
  deriving DecidableEq

/-- Whether a type is a pointer type, in whatever address space. -/
def Ty.isPtr : Ty → Bool
  | .ptr _ => true
  | _ => false

/-- Ordering constraint of an atomic access. -/
inductive MemOrder
  | relaxed
  | acquire
  | release
  | acqRel
  | seqCst
  deriving DecidableEq

/-- Operations on two integers.  `shr` is the floor of a division by a power of two. -/
inductive Arith
  | add
  | sub
  | mul
  | and
  | or
  | xor
  | shl
  | shr
  deriving DecidableEq

inductive Comparison
  | eq
  | ne
  | lt
  | le
  | gt
  | ge
  deriving DecidableEq

/-- What an atomic read-modify-write does to the old contents. -/
inductive Rmw
  | xchg
  | add
  | sub
  | and
  | or
  | xor
  deriving DecidableEq

/-- Operations on a whole range of memory. -/
inductive Bulk
  /-- Copy between ranges that do not overlap. -/
  | copy
  /-- Copy between ranges that may overlap. -/
  | move
  /-- Fill with one byte. -/
  | fill
  deriving DecidableEq

/-- The two ends of an object's lexical scope. -/
inductive ScopeEdge
  | enter
  | leave
  deriving DecidableEq

/-- A value of a function: an instruction's result or a block argument. -/
inductive Value
  | inst (index : InstId)
  | arg (index : Nat)
  deriving DecidableEq

namespace Value

/-- Place of the value in its arena. -/
def index : Value → Nat
  | inst i => i
  | arg i => i

def isArg : Value → Bool
  | inst _ => false
  | arg _ => true

/-- One number for both kinds: block arguments are counted from `1 <<< 31`. -/
def raw : Value → Nat
  | inst i => i
  | arg i => i + 1 <<< 31

/-- The instruction whose result the value is. -/
def inst? : Value → Option InstId
  | inst i => some i
  | arg _ => none

end Value

/-- Where a branch goes and which values it binds to the arguments of that block. -/
structure Target where
  block : BlockId
  args : List Value := []
  deriving DecidableEq

/-- What an instruction does.  Memory accesses carry their width in bytes; an access with an
ordering is atomic. -/
inductive Op
  /-- The parameter at position `index`. -/
  | param (index : Nat)
  | iconst (value : Int)
  | bconst (value : Bool)
  | arith (op : Arith) (lhs rhs : Value)
  | icmp (cmp : Comparison) (lhs rhs : Value)
  | select (cond ifTrue ifFalse : Value)
  /-- Read the low `bits` bits as a signed or as an unsigned integer. -/
  | extend (signed : Bool) (value : Value) (bits : Nat)
  | load (ptr : Value) (bytes : Nat) (order : Option MemOrder)
  | store (value ptr : Value) (bytes : Nat) (order : Option MemOrder)
  /-- Atomic read-modify-write; the result is the old contents. -/
  | rmw (op : Rmw) (ptr value : Value) (bytes : Nat) (order : MemOrder)
  /-- Atomic compare-and-exchange; the result is the old contents. -/
  | cmpxchg (ptr expected desired : Value) (bytes : Nat) (order : MemOrder)
  /-- `source` is a pointer for the two copies and a byte for the fill. -/
  | bulk (kind : Bulk) (dest source length : Value)
  /-- A fresh stack object of `size` bytes. -/
  | stackSlot (size align : Nat)
  /-- The object at `ptr` enters or leaves its scope. -/
  | lifetime (edge : ScopeEdge) (ptr : Value) (size : Nat)
  | symbolAddr (symbol : SymbolId)
  | call (callee : Value) (args : List Value)
  | ptrAdd (ptr offset : Value)
  | ptrToAddr (ptr : Value)
  /-- The integer is taken modulo the size of the address space. -/
  | intToPtr (value : Value)
  | ret (value : Option Value)
  | br (target : Target)
  | brif (cond : Value) (ifTrue ifFalse : Target)
  /-- Leave the function by passing on an unwind in flight. -/
  | unwind
  /-- Control never gets here. -/
  | unreachable
  /-- Stop the program. -/
  | trap
  deriving DecidableEq

namespace Op

/-- Whether the operation ends a block. -/
def isTerminator : Op → Bool
  | ret _ | br _ | brif .. | unwind | unreachable | trap => true
  | _ => false

/-- Whether control leaves the function here. -/
def isExit : Op → Bool
  | ret _ | unwind => true
  | _ => false

def isParam : Op → Bool
  | param _ => true
  | _ => false

/-- The values an operation reads, in the order they are written. -/
def operands : Op → List Value
  | param _ | iconst _ | bconst _ | stackSlot .. | symbolAddr _ => []
  | unwind | unreachable | trap => []
  | arith _ lhs rhs | icmp _ lhs rhs => [lhs, rhs]
  | select cond ifTrue ifFalse => [cond, ifTrue, ifFalse]
  | extend _ value _ => [value]
  | load ptr _ _ => [ptr]
  | store value ptr _ _ => [value, ptr]
  | rmw _ ptr value _ _ => [ptr, value]
  | cmpxchg ptr expected desired _ _ => [ptr, expected, desired]
  | bulk _ dest source length => [dest, source, length]
  | lifetime _ ptr _ => [ptr]
  | call callee args => callee :: args
  | ptrAdd ptr offset => [ptr, offset]
  | ptrToAddr ptr => [ptr]
  | intToPtr value => [value]
  | ret value => value.toList
  | br target => target.args
  | brif cond ifTrue ifFalse => cond :: (ifTrue.args ++ ifFalse.args)

/-- The blocks a terminator may branch to. -/
def successors : Op → List BlockId
  | br target => [target.block]
  | brif _ ifTrue ifFalse => [ifTrue.block, ifFalse.block]
  | _ => []

/-- The type of the result, for the operations that fix it. -/
def resultTy? : Op → Option Ty
  | param _ | select .. | load .. | call .. => none
  | iconst _ | arith .. | extend .. | rmw .. | cmpxchg .. | ptrToAddr _ => some .int
  | bconst _ | icmp .. => some .bool
  | stackSlot .. | symbolAddr _ | ptrAdd .. | intToPtr _ => some (.ptr 0)
  | store .. | bulk .. | lifetime .. | ret _ | br _ | brif .. => some .unit
  | unwind | unreachable | trap => some .unit

end Op

/-- The source instructions a piece of code was derived from; none if it was made up. -/
abbrev Origin := List Nat

structure Instruction where
  op : Op
  ty : Ty
  origin : Origin := []
  /-- The access must not be checked.  Code that the instrumentation adds is marked so. -/
  noSanitize : Bool := false
  deriving DecidableEq

end Redzone
