import Redzone.Ir.Module

/-!
# The text of a module

A function is printed block by block, one instruction a line.  Values are numbered in the order in
which the text shows them: the arguments of a block first, then its instructions.  A value that no
block lists has no number and is printed by its raw number behind a question mark.
-/

namespace Redzone

def Ty.text : Ty → String
  | .int => "int"
  | .bool => "bool"
  | .ptr 0 => "ptr"
  | .ptr space => s!"ptr<{space}>"
  | .unit => "unit"

def MemOrder.text : MemOrder → String
  | .relaxed => "Relaxed"
  | .acquire => "Acquire"
  | .release => "Release"
  | .acqRel => "AcqRel"
  | .seqCst => "SeqCst"

def Arith.text : Arith → String
  | .add => "add"
  | .sub => "sub"
  | .mul => "mul"
  | .and => "and"
  | .or => "or"
  | .xor => "xor"
  | .shl => "shl"
  | .shr => "shr"

def Comparison.text : Comparison → String
  | .eq => "eq"
  | .ne => "ne"
  | .lt => "lt"
  | .le => "le"
  | .gt => "gt"
  | .ge => "ge"

def Rmw.text : Rmw → String
  | .xchg => "xchg"
  | .add => "add"
  | .sub => "sub"
  | .and => "and"
  | .or => "or"
  | .xor => "xor"

def Bulk.text : Bulk → String
  | .copy => "memcpy"
  | .move => "memmove"
  | .fill => "memset"

def ScopeEdge.text : ScopeEdge → String
  | .enter => "start"
  | .leave => "end"

def Linkage.text : Linkage → String
  | .external => "external"
  | .internal => "internal"
  | .priv => "private"
  | .weak => "weak"
  | .weakOdr => "weak_odr"
  | .linkOnce => "linkonce"
  | .linkOnceOdr => "linkonce_odr"
  | .common => "common"
  | .externWeak => "extern_weak"
  | .availableExternally => "available_externally"

/-! ### Value numbers -/

/-- The values of a function in the order in which its text shows them. -/
def Func.shownValues (f : Func) : List Value :=
  f.blocks.toList.flatMap fun blk => blk.argValues ++ blk.insts.map Value.inst

/-- The number of a value among `shown`, counted from `start`.  A value that is shown more than once
has its last number. -/
def valueNumber? (value : Value) : Nat → List Value → Option Nat
  | _, [] => none
  | start, shown :: rest =>
      match valueNumber? value (start + 1) rest with
      | some number => some number
      | none => if shown = value then some start else none

/-- What is needed to print the code of one function. -/
structure Printer where
  shown : List Value
  symbols : SymbolTable

namespace Printer

def value (p : Printer) (v : Value) : String :=
  match valueNumber? v 0 p.shown with
  | some number => s!"v{number}"
  | none => s!"?{v.raw}"

def values (p : Printer) (vs : List Value) : String := ", ".intercalate (vs.map p.value)

def symbol (p : Printer) (s : SymbolId) : String :=
  match p.symbols.resolve s with
  | .ok name => s!"@{name}"
  | .error _ => s!"@<sym{s}>"

def target (p : Printer) (t : Target) : String :=
  if t.args.isEmpty then s!"bb{t.block}" else s!"bb{t.block}({p.values t.args})"

def instruction (p : Printer) (v : Value) (i : Instruction) : String :=
  let result := p.value v
  match i.op with
  | .param index => s!"{result} = param {index}"
  | .iconst value => s!"{result} = iconst {value}"
  | .bconst value => s!"{result} = bconst {value}"
  | .arith op lhs rhs => s!"{result} = {op.text} {p.values [lhs, rhs]}"
  | .icmp cmp lhs rhs => s!"{result} = icmp.{cmp.text} {p.values [lhs, rhs]}"
  | .select cond ifTrue ifFalse => s!"{result} = select {p.values [cond, ifTrue, ifFalse]}"
  | .extend true value bits => s!"{result} = sext {p.value value}, {bits}"
  | .extend false value bits => s!"{result} = zext {p.value value}, {bits}"
  | .load ptr bytes none => s!"{result} = load.{i.ty.text} {p.value ptr}, {bytes}"
  | .load ptr bytes (some order) =>
      s!"{result} = load.atomic.{i.ty.text} {p.value ptr}, {bytes}, {order.text}"
  | .store value ptr bytes none => s!"store {p.values [value, ptr]}, {bytes}"
  | .store value ptr bytes (some order) =>
      s!"store.atomic {p.values [value, ptr]}, {bytes}, {order.text}"
  | .rmw op ptr value bytes order =>
      s!"{result} = rmw.{op.text} {p.values [ptr, value]}, {bytes}, {order.text}"
  | .cmpxchg ptr expected desired bytes order =>
      s!"{result} = cmpxchg {p.values [ptr, expected, desired]}, {bytes}, {order.text}"
  | .bulk kind dest source length => s!"{kind.text} {p.values [dest, source, length]}"
  | .stackSlot size align => s!"{result} = stack_slot {size}, align {align}"
  | .lifetime edge ptr size => s!"lifetime.{edge.text} {p.value ptr}, {size}"
  | .symbolAddr s => s!"{result} = symbol_addr {p.symbol s}"
  | .call callee args =>
      let call := s!"call {p.value callee}({p.values args})"
      if i.ty = .unit then call else s!"{result} = {call}"
  | .ptrAdd ptr offset => s!"{result} = ptradd {p.values [ptr, offset]}"
  | .ptrToAddr ptr => s!"{result} = ptrtoaddr {p.value ptr}"
  | .intToPtr value => s!"{result} = inttoptr {p.value value}"
  | .ret none => "ret"
  | .ret (some value) => s!"ret {p.value value}"
  | .br next => s!"br {p.target next}"
  | .brif cond ifTrue ifFalse =>
      s!"brif {p.value cond}, {p.target ifTrue}, {p.target ifFalse}"
  | .unwind => "unwind"
  | .unreachable => "unreachable"
  | .trap => "trap"

end Printer

namespace Func

/-- The line that opens a block. -/
def blockHeader (f : Func) (p : Printer) (b : BlockId) (blk : Block) : Except Fault String :=
  if blk.argCount = 0 then
    .ok s!"bb{b}:"
  else do
    let tys ← f.argTys b
    let args := (blk.argValues.zip tys).map fun (v, ty) => s!"{p.value v}: {ty.text}"
    let inner := ", ".intercalate args
    .ok s!"bb{b}({inner}):"

def blockText (f : Func) (p : Printer) (b : BlockId) : Except Fault String := do
  let blk ← f.block b
  let header ← f.blockHeader p b blk
  let lines ← blk.insts.mapM fun i => do
    let instruction ← f.inst i
    .ok s!"    {p.instruction (.inst i) instruction}\n"
  .ok (s!"  {header}\n" ++ String.join lines)

def text (f : Func) (symbols : SymbolTable) : Except Fault String := do
  let p : Printer := ⟨f.shownValues, symbols⟩
  let keyword := if f.isDeclaration then "declare" else "func"
  let params := ", ".intercalate (f.params.map Ty.text)
  let result := match f.ret with
    | some ty => s!" -> {ty.text}"
    | none => ""
  let header := s!"{keyword} {p.symbol f.name}({params}){result}"
  if f.isDeclaration then
    .ok header
  else
    let blocks ← f.blockIds.mapM (f.blockText p)
    .ok (header ++ " \x7b\n" ++ String.join blocks ++ "\x7d")

end Func

/-- What is printed of a global's initial contents. -/
def Initializer.text : Initializer → String
  | .zero => "zeroinitializer"
  | .bytes data => s!"bytes[{data.length}]"
  | .fields parts => s!"fields[{parts.length}]"

def Global.text (g : Global) (symbols : SymbolTable) : Except Fault String := do
  let name ← symbols.resolve g.name
  let padding := if g.padding > 0 then s!" (pad {g.padding})" else ""
  let constant := if g.constant then ", constant" else ""
  let threadLocal := if g.threadLocal then ", thread_local" else ""
  let place := match g.sectionName with
    | some place => ", section \"" ++ place ++ "\""
    | none => ""
  let init := match g.init with
    | some init => s!" = {init.text}"
    | none => ""
  .ok (s!"global @{name}: size {g.size}{padding}, align {g.align}, {g.linkage.text}" ++
    s!"{constant}{threadLocal}{place}{init}")

def Module.text (m : Module) : Except Fault String := do
  let globals ← m.globals.toList.mapM fun g => do
    let line ← g.text m.symbols
    .ok s!"{line}\n"
  let ctors ← m.ctors.mapM fun entry => do
    let name ← m.resolve entry.function
    .ok s!"ctor {entry.priority} @{name}\n"
  let dtors ← m.dtors.mapM fun entry => do
    let name ← m.resolve entry.function
    .ok s!"dtor {entry.priority} @{name}\n"
  let functions ← m.functions.toList.mapM fun f => do
    let text ← f.text m.symbols
    .ok s!"\n{text}\n"
  .ok ("module \"" ++ m.name ++ "\"\n" ++ String.join globals ++ String.join ctors ++
    String.join dtors ++ String.join functions)

end Redzone
