import Redzone.Access.Site

/-!
# The code of a check

In front of a checked access the address is taken and the shadow byte of its granule is loaded.  If
it is not zero and the access does not fill a granule, a slow path compares the last byte of the
access with the number of bytes that may be accessed.  A bad access calls a report routine.

```text
    …  shadow ≠ 0 ? ──no──▶ cont: the access …
          │ yes
         slow:  last byte ≥ shadow ? ──no──▶ cont
          │ yes
         report: call the routine, then go on at cont or nowhere
```

An access of an unusual size is checked at its first and at its last byte.  Each piece of code is a
list of operations that refer to one another by their places in the arena, which starts at `n`.
-/

namespace Redzone

/-- The type that operations of added code have. -/
def Op.addedTy : Op → Ty
  | .load .. => .int
  | .call .. => .unit
  | op => op.resultTy?.getD .unit

/-- Operations as code that the instrumentation adds: exempt from checks. -/
def addedCode (origin : Origin) (ops : List Op) : List Instruction :=
  ops.map fun op => { op := op, ty := op.addedTy, origin := origin, noSanitize := true }

/-- The code that computes the address of the shadow byte of `addr`; the fourth result is it. -/
def shadowAddrCode (mapping : ShadowMapping) (n : InstId) (addr : Value) : List Op :=
  [ .iconst mapping.scale,
    .arith .shr addr (.inst n),
    .iconst (signed64 mapping.offset),
    .arith .add (.inst (n + 1)) (.inst (n + 2)) ]

/-- The code that loads the shadow of `size` bytes at `addr` and compares it with zero.  The sixth
result is the shadow, the last one says whether it is not zero. -/
def probeCode (mapping : ShadowMapping) (n : InstId) (addr : Value) (size : Nat) : List Op :=
  shadowAddrCode mapping n addr ++
    [ .intToPtr (.inst (n + 3)),
      .load (.inst (n + 4)) (mapping.loadWidth size) none,
      .iconst 0,
      .icmp .ne (.inst (n + 5)) (.inst (n + 6)) ]

/-- The code of the slow path: branch to `report` if the last of `size` bytes at `addr` is behind
those that `shadow` allows. -/
def slowCode (mapping : ShadowMapping) (n : InstId) (addr shadow : Value) (size : Nat)
    (report cont : BlockId) : List Op :=
  let first : List Op :=
    [.iconst (mapping.granularity - 1 : Nat), .arith .and addr (.inst n)]
  let last : List Op :=
    if size > 1 then
      [.iconst (size - 1 : Nat), .arith .add (.inst (n + 1)) (.inst (n + 2))]
    else []
  let m := n + first.length + last.length
  first ++ last ++
    [ .extend true shadow 8,
      .icmp .ge (.inst (m - 1)) (.inst m),
      .brif (.inst (m + 1)) { block := report } { block := cont } ]

/-- The code that calls the report routine and goes on at `cont` or nowhere. -/
def reportCode (n : InstId) (routine : SymbolId) (args : List Value) (recover : Bool)
    (cont : BlockId) : List Op :=
  [ .symbolAddr routine,
    .call (.inst n) args,
    if recover then .br { block := cont } else .unreachable ]

/-- A check that is put into a function. -/
structure Check where
  mapping : ShadowMapping
  recover : Bool
  /-- The report routine and what it is told. -/
  routine : SymbolId
  args : List Value
  origin : Origin

/-- Check `size` bytes at the integer `addr` before position `pos` of block `b`.  Returns the block
in which the code from that position on is found. -/
def Check.insert (c : Check) (f : Func) (b : BlockId) (pos : Nat) (addr : Value) (size : Nat) :
    Except Fault (Func × BlockId) := do
  let n := f.insts.size
  let probe := addedCode c.origin (probeCode c.mapping n addr size)
  -- the probe's load and its comparison
  let shadow := Value.inst (n + 5)
  let suspicious := Value.inst (n + 7)
  let f ← f.insertCode b pos probe
  let (f, cont) ← f.splitBlock b (pos + probe.length)
  let (f, report) := f.pushBlock
  let f ← if c.mapping.needsSlowPath size then do
      let (f, slow) := f.pushBlock
      let f ← f.appendCode b
        (addedCode c.origin [.brif suspicious { block := slow } { block := cont }])
      f.appendCode slow
        (addedCode c.origin (slowCode c.mapping f.insts.size addr shadow size report cont))
    else
      f.appendCode b
        (addedCode c.origin [.brif suspicious { block := report } { block := cont }])
  let f ← f.appendCode report
    (addedCode c.origin (reportCode f.insts.size c.routine c.args c.recover cont))
  .ok (f, cont)

/-- A function that is being instrumented, with the names it needs. -/
structure Draft where
  func : Func
  symbols : SymbolTable
  uses : RuntimeUses := {}
  deriving DecidableEq

namespace Draft

def use (d : Draft) (name : String) (signature : Signature) : Draft × SymbolId :=
  let (symbols, symbol) := d.symbols.intern name
  ({ d with symbols := symbols, uses := d.uses.add name signature }, symbol)

/-- Parameters of the routines that check or report an access. -/
def accessSignature (size : Nat) : Signature :=
  ⟨if EntryPoint.isFixedSize size then [.int] else [.int, .int], none⟩

/-- Put a call of a checking routine in front of an access. -/
def callCheck (config : Config) (d : Draft) (site : Site) (access : MemAccess) :
    Except Fault Draft := do
  let i ← d.func.inst site.inst
  let (d, routine) := d.use (EntryPoint.check access.kind access.size config.recover)
    (accessSignature access.size)
  let n := d.func.insts.size
  let ops : List Op :=
    if EntryPoint.isFixedSize access.size then
      [.ptrToAddr access.ptr, .symbolAddr routine, .call (.inst (n + 1)) [.inst n]]
    else
      [ .ptrToAddr access.ptr, .iconst access.size, .symbolAddr routine,
        .call (.inst (n + 2)) [.inst n, .inst (n + 1)] ]
  let f ← d.func.insertCode site.block site.pos (addedCode i.origin ops)
  .ok { d with func := f }

/-- Put a check in front of an access. -/
def inlineCheck (config : Config) (d : Draft) (site : Site) (access : MemAccess) :
    Except Fault Draft := do
  let i ← d.func.inst site.inst
  let (d, routine) := d.use (EntryPoint.report access.kind access.size config.recover)
    (accessSignature access.size)
  let n := d.func.insts.size
  let addr := Value.inst n
  let check (args : List Value) : Check := ⟨config.mapping, config.recover, routine, args, i.origin⟩
  if EntryPoint.isFixedSize access.size then
    let f ← d.func.insertCode site.block site.pos (addedCode i.origin [.ptrToAddr access.ptr])
    let (f, _) ← (check [addr]).insert f site.block (site.pos + 1) addr access.size
    .ok { d with func := f }
  else
    let ops : List Op :=
      [ .ptrToAddr access.ptr, .iconst (access.size - 1 : Nat),
        .arith .add addr (.inst (n + 1)), .iconst access.size ]
    let last := Value.inst (n + 2)
    let args := [addr, .inst (n + 3)]
    let f ← d.func.insertCode site.block site.pos (addedCode i.origin ops)
    -- either check reports the whole access
    let (f, cont) ← (check args).insert f site.block (site.pos + ops.length) addr 1
    let (f, _) ← (check args).insert f cont 0 last 1
    .ok { d with func := f }

/-- The signature of the checking twin of a bulk memory operation. -/
def bulkSignature (kind : Bulk) : Signature :=
  ⟨[.ptr 0, if kind = .fill then .int else .ptr 0, .int], some (.ptr 0)⟩

/-- Turn a bulk memory operation into a call of its checking twin. -/
def replaceBulk (d : Draft) (site : Site) : Except Fault Draft := do
  let i ← d.func.inst site.inst
  match i.op with
  | .bulk kind dest source length =>
      let (d, routine) := d.use (EntryPoint.bulk kind) (bulkSignature kind)
      let callee := Value.inst d.func.insts.size
      let f ← d.func.insertCode site.block site.pos (addedCode i.origin [.symbolAddr routine])
      let f ← f.setOp site.inst (.call callee [dest, source, length])
      .ok { d with func := f }
  | _ => .ok d

/-- Do what is to be done at a site; `outlined` asks for calls of checking routines. -/
def handle (config : Config) (outlined : Bool) (d : Draft) (site : Site) : Except Fault Draft :=
  match site.kind with
  | .check access =>
      if outlined then d.callCheck config site access else d.inlineCheck config site access
  | .bulk => d.replaceBulk site

/-- Visit a site, which has to be at its place still. -/
def visit (config : Config) (outlined : Bool) (d : Draft) (site : Site) : Except Fault Draft := do
  require (site.isInPlace d.func = true) (.displaced site.inst)
  d.handle config outlined site

/-- Visit the sites from the last one to the first, so that the places of the others stay. -/
def visitAll (config : Config) (outlined : Bool) (d : Draft) (sites : List Site) :
    Except Fault Draft :=
  sites.reverse.foldlM (visit config outlined) d

end Draft

end Redzone
