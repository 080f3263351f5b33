import Redzone.Access.Pointer
import Redzone.Config.Basic

/-!
# Stack slots that move into a frame

The slots of the entry block get redzones, except those that hold nothing, those that are exempt,
and those that might as well live in a register because every use loads or stores them as a whole.
-/

namespace Redzone

/-- A stack slot that is to be put into a frame. -/
structure Slot where
  inst : InstId
  size : Nat
  align : Nat
  name : String
  /-- The slot has lifetime markers and they count. -/
  hasScope : Bool
  deriving DecidableEq

/-- A use of a slot that a variable in a register would allow. -/
def Op.usesWhole (slot : Value) (size : Nat) : Op → Bool
  | .load ptr bytes none => ptr = slot && bytes = size
  | .store value ptr bytes none => ptr = slot && value ≠ slot && bytes = size
  | .lifetime .. => true
  | _ => false

namespace Func

/-- Whether all of the instructions `ids` use a slot as a whole, if they use it. -/
def useWhole (f : Func) (slot : Value) (size : Nat) : List InstId → Except Fault Bool
  | [] => .ok true
  | i :: rest => do
      let instruction ← f.inst i
      if instruction.op.operands.contains slot && !instruction.op.usesWhole slot size then
        .ok false
      else
        f.useWhole slot size rest

/-- Whether a slot might live in a register. -/
def isPromotable (f : Func) (slot : InstId) (size : Nat) : Except Fault Bool :=
  f.useWhole (.inst slot) size f.listed

/-- The slot that an instruction makes, if it is to be put into a frame.  The slots in `marked` have
lifetime markers that count. -/
def slot? (f : Func) (config : Config) (marked : List InstId) (i : InstId) :
    Except Fault (Option Slot) := do
  let instruction ← f.inst i
  match instruction.op with
  | .stackSlot size align =>
      if size = 0 || instruction.noSanitize then
        .ok none
      else
        let promotable ← if config.skipPromotable then f.isPromotable i size else .ok false
        if promotable then
          .ok none
        else
          let name := (f.slotNames.get? i).getD s!"v{i}"
          .ok (some ⟨i, size, align, name, marked.contains i⟩)
  | _ => .ok none

/-- The slots that are to be put into a frame. -/
def frameSlots (f : Func) (config : Config) : Except Fault (List Slot) := do
  let marked ← if config.useAfterScope then f.scopedSlots else .ok []
  let entry ← f.block 0
  let slots ← entry.insts.mapM (f.slot? config marked)
  .ok (slots.filterMap id)

end Func

/-- A lifetime marker of a slot that is put into a frame. -/
structure Marker where
  inst : InstId
  /-- Place of the slot in the list of slots. -/
  slot : Nat
  /-- The marked bytes of the slot. -/
  offset : Nat
  size : Nat
  edge : ScopeEdge
  deriving DecidableEq

namespace Func

/-- The lifetime marker that an instruction is, if it is about one of the slots. -/
def marker? (f : Func) (slots : List Slot) (i : InstId) : Except Fault (Option Marker) := do
  let instruction ← f.inst i
  match instruction.op with
  | .lifetime edge ptr size =>
      match f.baseAndOffset ptr with
      | some (.inst base, offset) =>
          if 0 ≤ offset then
            match slots.findIdx? fun slot => slot.inst = base with
            | some slot => .ok (some ⟨i, slot, offset.toNat, size, edge⟩)
            | none => .ok none
          else
            .ok none
      | _ => .ok none
  | _ => .ok none

/-- The lifetime markers of some slots, in the order in which the blocks list them. -/
def markers (f : Func) (slots : List Slot) : Except Fault (List Marker) := do
  let markers ← f.listed.mapM (f.marker? slots)
  .ok (markers.filterMap id)

end Func

end Redzone
