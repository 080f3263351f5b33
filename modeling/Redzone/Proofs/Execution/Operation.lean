import Redzone.Proofs.Execution.Memory

/-!
# What an operation does

An operation reads the values of its operands and memory, and then control goes on behind it, goes
to another block, or leaves the function.  All values are integers: a truth value is 1 or 0 and a
pointer is the address it holds.  An operation has no meaning at all if it reads a value that was
never computed, a parameter that was not passed or a symbol that has no name, or if it shifts by a
negative distance.

A bulk memory operation is of type `unit` as a rule, and what one of another type computes is left
open by the operations themselves.  Here it is the destination, as it is with the routines that take
the operation's place.

What lies outside the function is a parameter, the `Machine`: where symbols lie, and what a call of
an address does to memory and returns.

`Op.exec_congr` says that nothing but the operands is read from the environment.
-/

namespace Redzone

/-- How the execution of a function ends. -/
inductive Ending
  | returned (value : Option Int)
  | unwound
  | unreachable
  | trapped
  /-- The next operation has no meaning. -/
  | undefined
  deriving DecidableEq

/-- What a call comes to. -/
inductive Reply
  | returns (value : Option Int) (memory : Memory)
  /-- Control does not come back, and the caller ends as well. -/
  | ends (ending : Ending) (memory : Memory)

/-- What lies outside of a function. -/
structure Machine where
  /-- Where a symbol lies. -/
  address : String → Nat
  /-- What the function at an address does, given its arguments and memory. -/
  call : (callee : Int) → (args : List Int) → Memory → Reply

/-- What stays the same while a function is executed. -/
structure Activation where
  machine : Machine
  symbols : SymbolTable
  args : List Int

/-- The address of a symbol that has a name. -/
def Activation.symbol (x : Activation) (symbol : SymbolId) : Option Int :=
  x.symbols.names[symbol]?.map fun name => (x.machine.address name : Int)

/-- The values that have been computed. -/
abbrev Env := Value → Option Int

/-- Give a value its number, or take it away. -/
def Env.set (env : Env) (v : Value) (result : Option Int) : Env :=
  fun w => if w = v then result else env w

@[simp] theorem Env.set_self (env : Env) (v : Value) (result : Option Int) :
    env.set v result v = result := by
  simp [Env.set]

theorem Env.set_of_ne (env : Env) {v w : Value} (result : Option Int) (h : w ≠ v) :
    env.set v result w = env w := by
  simp [Env.set, h]

/-! ### Integers -/

/-- The number that a truth value is. -/
def truth (b : Bool) : Int := if b then 1 else 0

/-- Shifts by a negative distance have no meaning. -/
def Arith.eval : Arith → Int → Int → Option Int
  | .add, a, b => some (a + b)
  | .sub, a, b => some (a - b)
  | .mul, a, b => some (a * b)
  | .and, a, b => some (a.land b)
  | .or, a, b => some (a.lor b)
  | .xor, a, b => some (a.xor b)
  | .shl, a, b => if 0 ≤ b then some (a * 2 ^ b.toNat) else none
  | .shr, a, b => if 0 ≤ b then some (a / 2 ^ b.toNat) else none

def Comparison.eval : Comparison → Int → Int → Bool
  | .eq, a, b => a = b
  | .ne, a, b => a ≠ b
  | .lt, a, b => a < b
  | .le, a, b => a ≤ b
  | .gt, a, b => a > b
  | .ge, a, b => a ≥ b

/-- The new contents that an atomic read-modify-write makes of the old ones. -/
def Rmw.eval : Rmw → Int → Int → Int
  | .xchg, _, v => v
  | .add, old, v => old + v
  | .sub, old, v => old - v
  | .and, old, v => old.land v
  | .or, old, v => old.lor v
  | .xor, old, v => old.xor v

/-- The low `bits` bits of an integer, read as a signed or as an unsigned number. -/
def extendInt (signed : Bool) (bits : Nat) (v : Int) : Int :=
  if signed then v.bmod (2 ^ bits) else v % 2 ^ bits

/-- What a bulk memory operation makes of memory.  The source is read before anything is written. -/
def Bulk.apply (kind : Bulk) (dest source length : Int) (memory : Memory) : Memory :=
  memory.write (toAddress dest)
    (match kind with
      | .copy | .move => memory.read (toAddress source) (toAddress length)
      | .fill => List.replicate (toAddress length) (lowByte source))

/-- Where a stack object of `size` bytes is put when the stack ends at `stack`. -/
def carve (stack size align : Nat) : Nat := toAddress (stack - size) / align * align

theorem carve_lt (stack size align : Nat) : carve stack size align < addressSpace :=
  (Nat.div_mul_le_self _ _).trans_lt (toAddress_lt _)

/-! ### Operations -/

/-- A call that was made, with memory as it was then. -/
structure Call where
  callee : Int
  args : List Int
  memory : Memory

/-- What is left behind by an operation after which control goes on. -/
structure Progress where
  value : Option Int := none
  memory : Memory
  /-- Where the stack ends. -/
  stack : Nat
  call : Option Call := none
  /-- Address and number of the bytes that were accessed. -/
  access : Option (Nat × Nat) := none

/-- Where an operation leads. -/
inductive Effect
  | proceeds (progress : Progress)
  | jumps (target : BlockId) (args : List Int)
  | ends (ending : Ending) (memory : Memory) (call : Option Call)

/-- What an operation does; `none` if it has no meaning. -/
def Op.exec (x : Activation) (env : Env) (memory : Memory) (stack : Nat) : Op → Option Effect
  | .param index => do
      let v ← x.args[index]?
      some (.proceeds { value := some v, memory, stack })
  | .iconst value => some (.proceeds { value := some value, memory, stack })
  | .bconst value => some (.proceeds { value := some (truth value), memory, stack })
  | .arith op lhs rhs => do
      let a ← env lhs
      let b ← env rhs
      let v ← op.eval a b
      some (.proceeds { value := some v, memory, stack })
  | .icmp cmp lhs rhs => do
      let a ← env lhs
      let b ← env rhs
      some (.proceeds { value := some (truth (cmp.eval a b)), memory, stack })
  | .select cond ifTrue ifFalse => do
      let c ← env cond
      let v ← env (if c ≠ 0 then ifTrue else ifFalse)
      some (.proceeds { value := some v, memory, stack })
  | .extend signed value bits => do
      let v ← env value
      some (.proceeds { value := some (extendInt signed bits v), memory, stack })
  | .load ptr bytes _ => do
      let p ← env ptr
      some (.proceeds
        { value := some (memory.readInt (toAddress p) bytes), memory, stack
          access := some (toAddress p, bytes) })
  | .store value ptr bytes _ => do
      let v ← env value
      let p ← env ptr
      some (.proceeds
        { memory := memory.writeInt (toAddress p) bytes v, stack
          access := some (toAddress p, bytes) })
  | .rmw op ptr value bytes _ => do
      let p ← env ptr
      let v ← env value
      let old := memory.readInt (toAddress p) bytes
      some (.proceeds
        { value := some old, memory := memory.writeInt (toAddress p) bytes (op.eval old v), stack
          access := some (toAddress p, bytes) })
  | .cmpxchg ptr expected desired bytes _ => do
      let p ← env ptr
      let e ← env expected
      let d ← env desired
      let old := memory.readInt (toAddress p) bytes
      some (.proceeds
        { value := some old
          memory := if old = e then memory.writeInt (toAddress p) bytes d else memory
          stack
          access := some (toAddress p, bytes) })
  | .bulk kind dest source length => do
      let d ← env dest
      let s ← env source
      let n ← env length
      some (.proceeds { value := some d, memory := kind.apply d s n memory, stack })
  | .stackSlot size align =>
      some (.proceeds
        { value := some (carve stack size align), memory, stack := carve stack size align })
  | .lifetime .. => some (.proceeds { memory, stack })
  | .symbolAddr symbol => do
      let v ← x.symbol symbol
      some (.proceeds { value := some v, memory, stack })
  | .call callee args => do
      let c ← env callee
      let vs ← args.mapM env
      let call : Call := ⟨c, vs, memory⟩
      match x.machine.call c vs memory with
      | .returns value memory =>
          some (.proceeds { value := value, memory := memory, stack, call := some call })
      | .ends ending memory => some (.ends ending memory (some call))
  | .ptrAdd ptr offset => do
      let p ← env ptr
      let n ← env offset
      some (.proceeds { value := some ((p + n) % addressSpace), memory, stack })
  | .ptrToAddr ptr => do
      let p ← env ptr
      some (.proceeds { value := some (toAddress p), memory, stack })
  | .intToPtr value => do
      let v ← env value
      some (.proceeds { value := some (toAddress v), memory, stack })
  | .ret none => some (.ends (.returned none) memory none)
  | .ret (some value) => do
      let v ← env value
      some (.ends (.returned (some v)) memory none)
  | .br target => do
      let vs ← target.args.mapM env
      some (.jumps target.block vs)
  | .brif cond ifTrue ifFalse => do
      let c ← env cond
      let target := if c ≠ 0 then ifTrue else ifFalse
      let vs ← target.args.mapM env
      some (.jumps target.block vs)
  | .unwind => some (.ends .unwound memory none)
  | .unreachable => some (.ends .unreachable memory none)
  | .trap => some (.ends .trapped memory none)

section

variable {x : Activation} {env : Env} {memory memory' : Memory} (stack : Nat) {callee : Value}
  {args : List Value} {c : Int} {vs : List Int}

theorem Op.exec_call_returns {value : Option Int} (hcallee : env callee = some c)
    (hargs : args.mapM env = some vs)
    (hcall : x.machine.call c vs memory = .returns value memory') :
    (Op.call callee args).exec x env memory stack = some (.proceeds
      { value := value, memory := memory', stack := stack, call := some ⟨c, vs, memory⟩ }) := by
  simp [Op.exec, hcallee, hargs, hcall]

theorem Op.exec_call_ends {ending : Ending} (hcallee : env callee = some c)
    (hargs : args.mapM env = some vs)
    (hcall : x.machine.call c vs memory = .ends ending memory') :
    (Op.call callee args).exec x env memory stack =
      some (.ends ending memory' (some ⟨c, vs, memory⟩)) := by
  simp [Op.exec, hcallee, hargs, hcall]

end

theorem mapM_option_congr {α β : Type} {f g : α → Option β} {l : List α}
    (h : ∀ a ∈ l, f a = g a) : l.mapM f = l.mapM g := by
  induction l with
  | nil => rfl
  | cons a rest ih =>
      rw [List.forall_mem_cons] at h
      rw [List.mapM_cons, List.mapM_cons, h.1, ih h.2]

/-- An operation reads its operands and nothing else. -/
theorem Op.exec_congr {x : Activation} {env env' : Env} {memory : Memory} {stack : Nat} {op : Op}
    (h : ∀ v ∈ op.operands, env v = env' v) :
    op.exec x env memory stack = op.exec x env' memory stack := by
  cases op with
  | call callee args =>
      rw [Op.operands, List.forall_mem_cons] at h
      rw [Op.exec, Op.exec, h.1, mapM_option_congr h.2]
  | br target =>
      rw [Op.operands] at h
      rw [Op.exec, Op.exec, mapM_option_congr h]
  | brif cond ifTrue ifFalse =>
      rw [Op.operands, List.forall_mem_cons, List.forall_mem_append] at h
      obtain ⟨hcond, htrue, hfalse⟩ := h
      rw [Op.exec, Op.exec, hcond]
      refine congrArg _ (funext fun c => ?_)
      by_cases hc : c = 0 <;>
        simp [hc, mapM_option_congr htrue, mapM_option_congr hfalse]
  | select cond ifTrue ifFalse =>
      simp only [Op.operands, List.forall_mem_cons] at h
      obtain ⟨hcond, htrue, hfalse, -⟩ := h
      rw [Op.exec, Op.exec, hcond]
      refine congrArg _ (funext fun c => ?_)
      by_cases hc : c = 0 <;> simp [hc, htrue, hfalse]
  | ret value => cases value <;> simp_all [Op.exec, Op.operands]
  | _ => simp_all [Op.exec, Op.operands]

end Redzone
