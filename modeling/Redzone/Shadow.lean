import Redzone.Ir.Function
import Redzone.Platform
import Redzone.Word

/-!
# Shadow memory

Every granule of `1 <<< scale` bytes of application memory is described by one shadow byte at
`(addr >> scale) + offset`:

* `0`: the whole granule may be accessed;
* `1` up to the granularity less one: only that many leading bytes may be accessed;
* a byte with the high bit set: the whole granule is poisoned, and the byte says by what.

The values between the granularity and `0x7f` are never written.

`checkPoisoned` is what an inline check computes from the shadow byte of an access;
`byteAddressable` is the meaning of a shadow byte, one application byte at a time.
-/

namespace Redzone

/-! ### Poison values -/

/-- In front of the first variable of a stack frame, where the frame's header lies. -/
def stackLeftRedzone : UInt8 := 0xf1

/-- Between two variables of a stack frame. -/
def stackMidRedzone : UInt8 := 0xf2

/-- Behind the last variable of a stack frame. -/
def stackRightRedzone : UInt8 := 0xf3

/-- The memory of a frame whose function has returned. -/
def stackAfterReturn : UInt8 := 0xf5

/-- A stack variable out of scope. -/
def stackUseAfterScope : UInt8 := 0xf8

/-- Behind a global variable. -/
def globalRedzoneByte : UInt8 := 0xf9

/-- Stands at the start of a live frame. -/
def frameMagic : Nat := 0x41b58ab3

/-- Stands at the start of a frame whose function has returned. -/
def retiredFrameMagic : Nat := 0x45e0360e

/-! ### The mapping -/

/-- The scale used unless another one is asked for. -/
def defaultScale : Nat := 3

/-- The least scale, that is granules of 8 bytes. -/
def minScale : Nat := 3

/-- The greatest scale, that is granules of 64 bytes. -/
def maxScale : Nat := 6

/-- How the shadow byte of an address is found. -/
structure ShadowMapping where
  /-- Binary logarithm of the granularity. -/
  scale : Nat
  offset : Nat
  deriving DecidableEq

namespace ShadowMapping

/-- The mapping a platform uses by default. -/
def forPlatform (platform : Platform) (kernel : Bool) : ShadowMapping where
  scale := defaultScale
  offset :=
    match platform.arch, platform.os with
    | .x86_64, .linux => if kernel then 0xdffffc0000000000 else 0x7fff8000
    | .x86_64, .freeBsd => 1 <<< 46
    | .x86_64, .macOs => 1 <<< 44
    | .aarch64, .linux => 1 <<< 36
    | .aarch64, .freeBsd => 1 <<< 47
    | .aarch64, .macOs => 1 <<< 44

/-- Bytes of application memory per shadow byte. -/
def granularity (mapping : ShadowMapping) : Nat := 1 <<< mapping.scale

/-- Address of the shadow byte of `addr`. -/
def shadowAddr (mapping : ShadowMapping) (addr : Nat) : Nat :=
  (addr / mapping.granularity + mapping.offset) % addressSpace

/-- Number of shadow bytes that an inline check of `size` bytes loads. -/
def loadWidth (mapping : ShadowMapping) (size : Nat) : Nat := max (size / mapping.granularity) 1

/-- Whether a non-zero shadow byte does not yet condemn an access of `size` bytes. -/
def needsSlowPath (mapping : ShadowMapping) (size : Nat) : Bool := size < mapping.granularity

/-- Whether a shadow byte is worth a second look: it is not zero. -/
def suspicious (shadow : UInt8) : Bool := shadow ≠ 0

/-- Whether an inline check of `size` bytes at `addr`, which lie in one granule, reports an error
when it finds `shadow`. -/
def checkPoisoned (mapping : ShadowMapping) (addr size : Nat) (shadow : UInt8) : Bool :=
  suspicious shadow &&
    (!mapping.needsSlowPath size ||
      signed8 shadow ≤ signed64 (addr % mapping.granularity + size - 1))

/-- Whether the byte at `addr` may be accessed when its granule's shadow byte is `shadow`. -/
def byteAddressable (mapping : ShadowMapping) (addr : Nat) (shadow : UInt8) : Bool :=
  shadow = 0 || (0 < signed8 shadow && ((addr % mapping.granularity : Nat) : Int) < signed8 shadow)

end ShadowMapping

/-! ### Vectors of shadow bytes -/

/-- Cut a vector to `size` bytes, or extend it to `size` bytes with `fill`. -/
def resizeShadow (shadow : List UInt8) (size : Nat) (fill : UInt8) : List UInt8 :=
  shadow.take size ++ List.replicate (size - shadow.length) fill

/-- The shadow of `size` bytes that may be accessed, the last granule filled up with poison. -/
def liveShadow (size granularity : Nat) : List UInt8 :=
  List.replicate (size / granularity) 0 ++
    if size % granularity = 0 then [] else [UInt8.ofNat (size % granularity)]

/-- The shadow of an object of `size` bytes and the redzone behind it, `total` bytes together. -/
def objectShadow (size total granularity : Nat) (redzone : UInt8) : Except Fault (List UInt8) :=
  if granularity = 0 then
    .error .zeroGranularity
  else
    .ok (resizeShadow (liveShadow size granularity) (total / granularity) redzone)

end Redzone
