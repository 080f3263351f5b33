import Mathlib
import Redzone.Frame.Code

/-!
# Memory of a running program

Memory has a byte at every address, and addresses are counted modulo `addressSpace`: a range that
reaches the last address goes on at address 0.  Integers of no fixed width meet memory in two
places.  An integer that is used as an address counts modulo `addressSpace` (`toAddress`), and a
store keeps the low bytes of its value, little end first (`bytesOf`); a load reads them back as an
unsigned number.

The laws say which byte a write leaves where: `write_apply_of_lt` inside the range written and
`write_apply_of_ne` outside it.
-/

namespace Redzone

/-- The byte at every address. -/
abbrev Memory := Nat → UInt8

/-- The address that an integer stands for. -/
def toAddress (v : Int) : Nat := (v % addressSpace).toNat

theorem addressSpace_pos : 0 < addressSpace := by decide

theorem toAddress_lt (v : Int) : toAddress v < addressSpace := by
  unfold toAddress addressSpace
  omega

theorem toAddress_natCast_mod (a : Nat) : toAddress a = a % addressSpace := by
  rw [toAddress, ← Int.natCast_mod, Int.toNat_natCast]

/-- An address stands for itself. -/
theorem toAddress_natCast {a : Nat} (ha : a < addressSpace) : toAddress a = a := by
  rw [toAddress_natCast_mod, Nat.mod_eq_of_lt ha]

@[simp] theorem toAddress_toAddress (v : Int) : toAddress (toAddress v : Nat) = toAddress v :=
  toAddress_natCast (toAddress_lt v)

theorem toAddress_congr {v w : Int} (h : v % addressSpace = w % addressSpace) :
    toAddress v = toAddress w := by
  unfold toAddress
  rw [h]

theorem toAddress_add (v : Int) (first k : Nat) :
    (toAddress (v + first) + k) % addressSpace = toAddress (v + (first + k : Nat)) := by
  unfold toAddress addressSpace
  omega

theorem toAddress_add_inj {v : Int} {j k : Nat} (hj : j < addressSpace) (hk : k < addressSpace)
    (h : toAddress (v + j) = toAddress (v + k)) : j = k := by
  unfold toAddress addressSpace at *
  omega

theorem signed64_emod (word : Nat) : signed64 word % addressSpace = (word : Int) % addressSpace :=
  Int.bmod_emod

/-! ### Bytes of an integer -/

/-- The low byte of an integer. -/
def lowByte (v : Int) : UInt8 := UInt8.ofNat (v % 256).toNat

/-- The `count` low bytes of an integer, little end first. -/
def bytesOf : (count : Nat) → Int → List UInt8
  | 0, _ => []
  | count + 1, v => lowByte v :: bytesOf count (v / 256)

@[simp] theorem length_bytesOf (count : Nat) (v : Int) : (bytesOf count v).length = count := by
  induction count generalizing v with
  | zero => rfl
  | succ count ih => simp [bytesOf, ih]

/-- Only the low bytes of an integer count. -/
theorem bytesOf_congr {count : Nat} {v w : Int} (h : v % 256 ^ count = w % 256 ^ count) :
    bytesOf count v = bytesOf count w := by
  induction count generalizing v w with
  | zero => rfl
  | succ count ih =>
      obtain ⟨t, ht⟩ := Int.ModEq.dvd h
      have hw : w = v + 256 * (256 ^ count * t) := by
        rw [pow_succ'] at ht
        linarith
      have hlow : w % 256 = v % 256 := by rw [hw, Int.add_mul_emod_self_left]
      have hhigh : v / 256 % 256 ^ count = w / 256 % 256 ^ count := by
        rw [hw, Int.add_mul_ediv_left _ _ (by norm_num), Int.add_mul_emod_self_left]
      rw [bytesOf, bytesOf, ih hhigh, lowByte, lowByte, hlow]

theorem lowByte_add_mul (byte : UInt8) (n : Int) : lowByte (byte.toNat + 256 * n) = byte := by
  have hlt : (byte.toNat : Int) < 256 := by exact_mod_cast byte.toNat_lt
  have hmod : ((byte.toNat : Int) + 256 * n) % 256 = byte.toNat := by omega
  rw [lowByte, hmod, Int.toNat_natCast, UInt8.ofNat_toNat]

/-- Bytes are read back as they were written. -/
theorem bytesOf_littleEndian (bytes : List UInt8) :
    bytesOf bytes.length (Draft.littleEndian bytes) = bytes := by
  induction bytes with
  | nil => rfl
  | cons byte rest ih =>
      have hlt : (byte.toNat : Int) < 256 := by exact_mod_cast byte.toNat_lt
      have hdiv : ((byte.toNat : Int) + 256 * (Draft.littleEndian rest : Int)) / 256 =
          Draft.littleEndian rest := by omega
      rw [List.length_cons, bytesOf, Draft.littleEndian]
      push_cast
      rw [lowByte_add_mul, hdiv, ih]

/-- The signed reading of a word of at most eight bytes has the same bytes. -/
theorem bytesOf_signed64 {bytes : List UInt8} (hlength : bytes.length ≤ 8) :
    bytesOf bytes.length (signed64 (Draft.littleEndian bytes)) = bytes := by
  conv => rhs; rw [← bytesOf_littleEndian bytes]
  apply bytesOf_congr
  have hdvd : (256 : Int) ^ bytes.length ∣ (addressSpace : Nat) := by
    have hspace : ((addressSpace : Nat) : Int) = 256 ^ 8 := by decide
    rw [hspace]
    exact pow_dvd_pow 256 hlength
  unfold signed64
  rw [← Int.emod_emod_of_dvd _ hdvd, Int.bmod_emod, Int.emod_emod_of_dvd _ hdvd]

theorem littleEndian_eq_zero_iff (bytes : List UInt8) :
    Draft.littleEndian bytes = 0 ↔ ∀ byte ∈ bytes, byte = 0 := by
  induction bytes with
  | nil => simp [Draft.littleEndian]
  | cons byte rest ih =>
      have hbyte : byte.toNat = 0 ↔ byte = 0 := by
        rw [← UInt8.toNat_inj, UInt8.toNat_zero]
      rw [Draft.littleEndian, List.forall_mem_cons, ← ih, ← hbyte]
      omega

@[simp] theorem littleEndian_singleton (byte : UInt8) :
    Draft.littleEndian [byte] = byte.toNat := by
  simp [Draft.littleEndian]

/-! ### Reading and writing -/

namespace Memory

/-- The `count` bytes from `addr` on. -/
def read (memory : Memory) (addr : Nat) : (count : Nat) → List UInt8
  | 0 => []
  | count + 1 => memory (addr % addressSpace) :: memory.read (addr + 1) count

/-- Memory after some bytes have been written from `addr` on. -/
def write (memory : Memory) (addr : Nat) : List UInt8 → Memory
  | [] => memory
  | byte :: rest => fun a =>
      if a = addr % addressSpace then byte else memory.write (addr + 1) rest a

/-- The unsigned number that `count` bytes from `addr` on are. -/
def readInt (memory : Memory) (addr count : Nat) : Int :=
  Draft.littleEndian (memory.read addr count)

/-- Memory after the `count` low bytes of an integer have been written from `addr` on. -/
def writeInt (memory : Memory) (addr count : Nat) (v : Int) : Memory :=
  memory.write addr (bytesOf count v)

theorem read_eq_of_apply {memory : Memory} {addr : Nat} {bytes : List UInt8}
    (h : ∀ k (hk : k < bytes.length), memory ((addr + k) % addressSpace) = bytes[k]) :
    memory.read addr bytes.length = bytes := by
  induction bytes generalizing addr with
  | nil => rfl
  | cons byte rest ih =>
      have hhead : memory (addr % addressSpace) = byte := h 0 (Nat.succ_pos _)
      rw [List.length_cons, read, hhead, ih]
      intro k hk
      rw [Nat.add_assoc, Nat.add_comm 1 k]
      exact h (k + 1) (Nat.succ_lt_succ hk)

theorem write_cons_apply (memory : Memory) (addr : Nat) (byte : UInt8) (rest : List UInt8)
    (a : Nat) :
    memory.write addr (byte :: rest) a =
      if a = addr % addressSpace then byte else memory.write (addr + 1) rest a := rfl

/-- A write leaves the bytes outside its range alone. -/
theorem write_apply_of_ne {memory : Memory} {addr a : Nat} {bytes : List UInt8}
    (h : ∀ k < bytes.length, a ≠ (addr + k) % addressSpace) :
    memory.write addr bytes a = memory a := by
  induction bytes generalizing addr with
  | nil => rfl
  | cons byte rest ih =>
      have hhead : a ≠ addr % addressSpace := h 0 (by simp)
      rw [write_cons_apply, if_neg hhead]
      apply ih
      intro k hk
      have htail := h (k + 1) (by simpa using hk)
      rwa [← Nat.add_assoc, Nat.add_right_comm] at htail

/-- A write that fits the address space leaves its bytes where it says. -/
theorem write_apply_of_lt {memory : Memory} {addr k : Nat} {bytes : List UInt8}
    (hfits : bytes.length ≤ addressSpace) (hk : k < bytes.length) :
    memory.write addr bytes ((addr + k) % addressSpace) = bytes[k] := by
  induction bytes generalizing addr k with
  | nil => simp at hk
  | cons byte rest ih =>
      cases k with
      | zero => simp [write_cons_apply]
      | succ k =>
          have hlt : k + 1 < addressSpace := lt_of_lt_of_le hk hfits
          have hne : (addr + (k + 1)) % addressSpace ≠ addr % addressSpace := by
            unfold addressSpace at hlt ⊢
            omega
          have hnext : addr + (k + 1) = addr + 1 + k := by omega
          rw [write_cons_apply, if_neg hne, hnext, List.getElem_cons_succ]
          exact ih (by simp at hfits; omega) (by simpa using hk)

end Memory

end Redzone
