import Redzone.Ir.Function
import Redzone.Word

/-!
# Where a pointer points to

A pointer that is another pointer plus a constant points a known distance into the same object.
`baseAndOffset` follows such additions to the pointer they start from.  The distance is kept in a
64-bit word; a chain of additions that leaves it is not followed.  Nothing says that a chain has a
start: additions may be made from one another in a circle, and if their constants add up to nothing,
no number of rounds is enough.  A search that has not ended after `roundLimit` rounds is such a one.
-/

namespace Redzone

/-- Whether an integer fits a signed 64-bit word. -/
def fitsInt64 (n : Int) : Bool := -0x8000000000000000 ≤ n && n < 0x8000000000000000

namespace Func

/-- Follow constant additions from `ptr`, with `offset` already gone.  There is no result if they
have not come to an end after so many rounds. -/
def follow (f : Func) :
    (rounds : Nat) → (ptr : Value) → (offset : Int) → Option (Option (Value × Int))
  | 0, _, _ => none
  | rounds + 1, ptr, offset =>
      match f.defOp ptr with
      | some (.ptrAdd inner distance) =>
          match f.defOp distance with
          | some (.iconst c) =>
              if fitsInt64 (offset + c) then f.follow rounds inner (offset + c) else some none
          | _ => some none
      | _ => some (some (ptr, offset))

/-- More rounds than there are additions and distances that they can be met with. -/
def roundLimit (f : Func) : Nat := addressSpace * f.insts.size + 2

/-- The pointer that `ptr` was made from by constant additions, and the sum of the constants. -/
def baseAndOffset (f : Func) (ptr : Value) : Option (Value × Int) :=
  (f.follow f.roundLimit ptr 0).join

/-- The stack slot that a lifetime marker is about. -/
def markedSlot (f : Func) (instruction : Instruction) : Except Fault (Option InstId) :=
  match instruction.op with
  | .lifetime _ ptr _ =>
      match f.baseAndOffset ptr with
      | some (.inst base, _) => do
          let target ← f.inst base
          match target.op with
          | .stackSlot .. => .ok (some base)
          | _ => .ok none
      | _ => .ok none
  | _ => .ok none

/-- The stack slots that have lifetime markers. -/
def scopedSlots (f : Func) : Except Fault (List InstId) := do
  let slots ← f.listed.mapM fun i => do
    let instruction ← f.inst i
    f.markedSlot instruction
  .ok (slots.filterMap id)

end Func

end Redzone
