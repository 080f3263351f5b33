/-!
# Machine words

Addresses and sizes are natural numbers.  Where a number is written into the program or read back as
a machine word, its two's complement reading matters.
-/

namespace Redzone

/-- Number of addresses, two to the power of 64. -/
def addressSpace : Nat := 0x10000000000000000

/-- The signed reading of a 64-bit word. -/
def signed64 (word : Nat) : Int := (word : Int).bmod addressSpace

def signed8 (byte : UInt8) : Int := (byte.toNat : Int).bmod 256

def isPowerOfTwo (n : Nat) : Bool := 1 <<< n.log2 == n

/-- The least multiple of `step` that is not below `n`. -/
def roundUp (n step : Nat) : Nat := (n + step - 1) / step * step

/-- How many pieces of `step` bytes cover `n` bytes. -/
def ceilDiv (n step : Nat) : Nat := (n + step - 1) / step

end Redzone
