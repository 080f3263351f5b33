import Redzone.Access.Check
import Redzone.Frame.ShadowWrite
import Redzone.Frame.Slot
import Redzone.Layout.Frame

/-!
# Redzoned frames

The slots of a function are merged into one frame:

```text
frame + 0    header: magic number, description, address of the function
frame + 32   variable | redzone | variable | redzone | …
```

Behind the parameters the header is written and the redzones are poisoned.  In front of every exit
the magic number is retired and the frame's shadow is cleared.  If uses out of scope are reported,
variables with lifetime markers start out poisoned, and their markers unpoison and poison them.
-/

namespace Redzone

namespace Draft

/-- The number that some bytes are, little end first. -/
def littleEndian : List UInt8 → Nat
  | [] => 0
  | byte :: rest => byte.toNat + 256 * littleEndian rest

/-- The code of one write, for code that starts at `n`; every write takes five instructions. -/
def writeCode (d : Draft) (n : InstId) (base : Value) : ShadowWrite → Draft × List Op
  | .store offset bytes =>
      (d,
        [ .iconst offset, .arith .add base (.inst n), .intToPtr (.inst (n + 1)),
          .iconst (signed64 (littleEndian bytes)),
          .store (.inst (n + 3)) (.inst (n + 2)) bytes.length none ])
  | .fill offset length value =>
      let (d, routine) := d.use (EntryPoint.setShadow value) ⟨[.int, .int], none⟩
      (d,
        [ .iconst offset, .arith .add base (.inst n), .iconst length,
          .symbolAddr routine, .call (.inst (n + 3)) [.inst (n + 1), .inst (n + 2)] ])

/-- The code of some writes to the shadow whose address is `base`. -/
def writesCode (d : Draft) (n : InstId) (base : Value) : List ShadowWrite → Draft × List Op
  | [] => (d, [])
  | write :: rest =>
      let (d, ops) := d.writeCode n base write
      let (d, others) := d.writesCode (n + ops.length) base rest
      (d, ops ++ others)

end Draft

/-- The variables of a frame that holds some slots. -/
def slotVariables (slots : List Slot) : List StackVariable :=
  slots.zipIdx.map fun (slot, index) =>
    { name := slot.name
      size := slot.size
      align := slot.align
      lifetime := if slot.hasScope then slot.size else 0
      index := index }

/-- The global that holds the description of a frame. -/
def descriptionGlobal (symbol : SymbolId) (description : String) : Global :=
  let bytes := description.toUTF8.toList ++ [0]
  { name := symbol, size := bytes.length, align := 1, linkage := .priv, constant := true,
    init := some (.bytes bytes) }

/-- The code that writes the header of the frame and computes the address of its shadow. -/
def prologueCode (mapping : ShadowMapping) (n : InstId) (size align : Nat)
    (description function : SymbolId) : List Op :=
  [ .stackSlot size align,
    .iconst frameMagic,
    .store (.inst (n + 1)) (.inst n) 8 none,
    .symbolAddr description,
    .iconst 8,
    .ptrAdd (.inst n) (.inst (n + 4)),
    .store (.inst (n + 3)) (.inst (n + 5)) 8 none,
    .symbolAddr function,
    .iconst 16,
    .ptrAdd (.inst n) (.inst (n + 8)),
    .store (.inst (n + 7)) (.inst (n + 9)) 8 none,
    .ptrToAddr (.inst n) ] ++
  shadowAddrCode mapping (n + 12) (.inst (n + 11))

/-- A frame in a function: what the code that refers to it has to know. -/
structure FrameCode where
  frame : Frame
  /-- The shadow when all variables are in scope. -/
  inScope : List UInt8
  /-- The shadow at function entry. -/
  atEntry : List UInt8
  /-- The frame itself. -/
  base : Value
  /-- The address of the frame's shadow. -/
  shadowBase : Value
  maxInline : Nat

namespace FrameCode

/-- Put the code that writes the header and poisons the frame behind the parameters. -/
def prologue (config : Config) (frame : Frame) (inScope atEntry : List UInt8)
    (description : SymbolId) (d : Draft) : Except Fault (Draft × FrameCode) := do
  let pos ← d.func.prologueLength
  let n := d.func.insts.size
  let header := prologueCode config.mapping n frame.size frame.align description d.func.name
  -- the header ends with the address of the frame's shadow
  let code : FrameCode :=
    { frame := frame, inScope := inScope, atEntry := atEntry, base := .inst n,
      shadowBase := .inst (n + 15), maxInline := config.maxInlinePoisoning }
  let writes ← ShadowWrite.plan code.maxInline atEntry atEntry 0 atEntry.length
  let (d, poison) := d.writesCode (n + header.length) code.shadowBase writes
  let f ← d.func.insertCode 0 pos (addedCode [] (header ++ poison))
  .ok ({ d with func := f }, code)

/-- Turn a slot into an address within the frame. -/
def placeSlot (code : FrameCode) (slots : List Slot) (f : Func) (var : StackVariable) :
    Except Fault Func :=
  match slots[var.index]? with
  | none => .ok f
  | some slot =>
      match f.locate slot.inst with
      | none => .ok f
      | some (b, pos) => do
          let offset := Value.inst f.insts.size
          let f ← f.insertCode b pos [{ op := .iconst var.offset, ty := .int }]
          f.setOp slot.inst (.ptrAdd code.base offset)

/-- The granules that a lifetime marker of a variable changes; none if it is about no byte of the
variable. -/
def markedGranules (granularity : Nat) (var : StackVariable) (marker : Marker) :
    Except Fault (Option (Nat × Nat)) :=
  if var.size ≤ marker.offset then
    .ok none
  else do
    let room ← checkedSub var.size marker.offset
    let size := min marker.size room
    let start := var.offset + marker.offset
    .ok (some (start / granularity, ceilDiv (start + size) granularity))

/-- Put the code that poisons or unpoisons a variable in front of a lifetime marker. -/
def placeMarker (code : FrameCode) (d : Draft) (marker : Marker) : Except Fault Draft :=
  match code.frame.vars.find? fun var => var.index = marker.slot, d.func.locate marker.inst with
  | some var, some (b, pos) => do
      match ← markedGranules code.frame.granularity var marker with
      | none => .ok d
      | some (start, stop) =>
          let i ← d.func.inst marker.inst
          -- the mask is the shadow at entry in both cases: a marker changes only what it once
          -- poisoned
          let bytes := match marker.edge with
            | .leave => code.atEntry
            | .enter => code.inScope
          let writes ← ShadowWrite.plan code.maxInline code.atEntry bytes start stop
          let (d, ops) := d.writesCode d.func.insts.size code.shadowBase writes
          let f ← d.func.insertCode b pos (addedCode i.origin ops)
          .ok { d with func := f }
  | _, _ => .ok d

/-- Put the code that tears the frame down in front of the last instruction of a block. -/
def placeExit (code : FrameCode) (d : Draft) (exit : BlockId × Nat) : Except Fault Draft := do
  let n := d.func.insts.size
  let retire : List Op := [.iconst retiredFrameMagic, .store (.inst n) code.base 8 none]
  let clean := List.replicate code.atEntry.length 0
  let writes ← ShadowWrite.plan code.maxInline code.atEntry clean 0 clean.length
  let (d, ops) := d.writesCode (n + retire.length) code.shadowBase writes
  let f ← d.func.insertCode exit.1 exit.2 (addedCode [] (retire ++ ops))
  .ok { d with func := f }

end FrameCode

namespace Func

/-- The place of a block's last instruction, if control leaves the function there. -/
def exit? (f : Func) (leaves : Op → Bool) (b : BlockId) :
    Except Fault (Option (BlockId × Nat)) := do
  match ← f.terminator b with
  | none => .ok none
  | some last =>
      let instruction ← f.inst last
      let blk ← f.block b
      if leaves instruction.op then
        let pos ← checkedSub blk.insts.length 1
        .ok (some (b, pos))
      else
        .ok none

/-- The places where control leaves the function. -/
def exits (f : Func) (leaves : Op → Bool) : Except Fault (List (BlockId × Nat)) := do
  let exits ← f.blockIds.mapM (f.exit? leaves)
  .ok (exits.filterMap id)

end Func

/-- Replace some slots by a frame that was laid out for them.  Returns the global that describes the
frame. -/
def Draft.addFrame (config : Config) (name : String) (slots : List Slot) (frame : Frame)
    (d : Draft) : Except Fault (Draft × Global) := do
  let inScope := frame.shadow
  let atEntry ← frame.entryShadow
  let markers ← if config.useAfterScope then d.func.markers slots else .ok []
  let (symbols, symbol) := d.symbols.intern (EntryPoint.stackDescription name)
  let d := { d with symbols := symbols }
  let (d, code) ← FrameCode.prologue config frame inScope atEntry symbol d
  let f ← frame.vars.foldlM (code.placeSlot slots) d.func
  let d ← markers.foldlM code.placeMarker { d with func := f }
  -- a block has one exit, so that no code moves the place of another
  let exits ← d.func.exits Op.isExit
  let d ← exits.foldlM code.placeExit d
  .ok (d, descriptionGlobal symbol frame.description)

end Redzone
