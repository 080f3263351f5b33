import Redzone.EntryPoint
import Redzone.Shadow

/-!
# Writing shadow bytes

A range of shadow bytes is written with as few instructions as possible: long runs of one value go
through a routine, all else through stores of eight, four, two or one bytes.  Bytes that need not be
written, those where the mask is zero, may be written nevertheless, if that makes a store wider;
they are never written alone.

Each loop goes from place to place.  It counts the places that are `left` and passes over those that
an earlier step has dealt with.
-/

namespace Redzone

/-- One step of writing shadow bytes.  Offsets count from the start of the shadow. -/
inductive ShadowWrite
  /-- Store some bytes, little end first. -/
  | store (offset : Nat) (bytes : List UInt8)
  /-- Have a routine write `length` times the byte `value`. -/
  | fill (offset length : Nat) (value : UInt8)
  deriving DecidableEq

namespace ShadowWrite

/-- The byte at a place. -/
def byteAt (bytes : Array UInt8) (i : Nat) : Except Fault UInt8 :=
  bytes[i]?.elim (.error (.noShadow (i + 1) bytes.size)) .ok

/-- The `width` bytes from a place on. -/
def bytesAt (bytes : Array UInt8) (i width : Nat) : Except Fault (List UInt8) := do
  require (i + width ≤ bytes.size) (.noShadow (i + width) bytes.size)
  .ok (bytes.extract i (i + width)).toList

/-! ### Stores -/

/-- The widest store that stays within `available` bytes. -/
def windowWidth (available : Nat) : Nat :=
  if 8 ≤ available then 8 else if 4 ≤ available then 4 else if 2 ≤ available then 2 else
    min available 1

/-- The narrowest store that covers `used` bytes. -/
def coverWidth (used : Nat) : Nat :=
  if used ≤ 1 then 1 else if used ≤ 2 then 2 else if used ≤ 4 then 4 else 8

/-- How far behind `i` the last byte is that has to be written, of those up to `last` behind it. -/
def lastWanted (mask : Array UInt8) (i : Nat) : (last : Nat) → Except Fault Nat
  | 0 => .ok 0
  | last + 1 => do
      let wanted ← byteAt mask (i + (last + 1))
      if wanted = 0 then lastWanted mask i last else .ok (last + 1)

/-- Stores for the places from `i` to `stop`, which are `left` many; those in front of `done` are
written already. -/
def stores (mask bytes : Array UInt8) (stop : Nat) :
    (left i done : Nat) → Except Fault (List ShadowWrite)
  | 0, _, _ => .ok []
  | left + 1, i, done =>
      if i < done then
        stores mask bytes stop left (i + 1) done
      else do
        let wanted ← byteAt mask i
        if wanted = 0 then
          stores mask bytes stop left (i + 1) done
        else
          let available ← checkedSub stop i
          let last ← checkedSub (windowWidth available) 1
          let last ← lastWanted mask i last
          let data ← bytesAt bytes i (coverWidth (last + 1))
          let rest ← stores mask bytes stop left (i + 1) (i + coverWidth (last + 1))
          .ok (store i data :: rest)

/-! ### Runs -/

/-- The end of a run of wanted places from `j` on that all get the byte `value`. -/
def runEnd (mask bytes : Array UInt8) (value : UInt8) : (left j : Nat) → Except Fault Nat
  | 0, j => .ok j
  | left + 1, j => do
      let wanted ← byteAt mask j
      let byte ← byteAt bytes j
      if wanted ≠ 0 ∧ byte = value then runEnd mask bytes value left (j + 1) else .ok j

/-- Writes for the places from `done` to `stop`.  The last of them are the `left` many places from
`i` on; a run that ends at `next` is to be stored with what follows it. -/
def copy (maxInline : Nat) (mask bytes : Array UInt8) (stop : Nat) :
    (left i next done : Nat) → Except Fault (List ShadowWrite)
  | 0, _, _, done => stores mask bytes stop (stop - done) done done
  | left + 1, i, next, done =>
      if i < next then
        copy maxInline mask bytes stop left (i + 1) next done
      else do
        let wanted ← byteAt mask i
        if wanted = 0 then
          copy maxInline mask bytes stop left (i + 1) next done
        else
          let value ← byteAt bytes i
          let j ← runEnd mask bytes value left (i + 1)
          let count ← checkedSub j i
          if maxInline ≤ count ∧ value ∈ EntryPoint.setShadowValues then
            let pending ← stores mask bytes i (i - done) done done
            let rest ← copy maxInline mask bytes stop left (i + 1) j j
            .ok (pending ++ fill i count value :: rest)
          else
            copy maxInline mask bytes stop left (i + 1) j done

/-- Write the bytes from `start` to `stop` where the mask is not zero. -/
def plan (maxInline : Nat) (mask bytes : List UInt8) (start stop : Nat) :
    Except Fault (List ShadowWrite) := do
  require (mask.length = bytes.length) (.unequalLengths mask.length bytes.length)
  if stop ≤ start then
    .ok []
  else
    require (stop ≤ mask.length) (.noShadow stop mask.length)
    copy maxInline mask.toArray bytes.toArray stop (stop - start) start start start

end ShadowWrite

end Redzone
