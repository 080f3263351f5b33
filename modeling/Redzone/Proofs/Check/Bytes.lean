import Redzone.Proofs.Check.Reference
import Redzone.Proofs.Frame.Addressable

/-!
# What the tests of an access say about its bytes

A shadow byte tells how many leading bytes of its granule may be accessed.  So of the bytes that an
access has in one granule the last one decides (`exists_not_byteAddressable_iff`), and it is the one
that a test looks at.  There is one exception: a test of a whole granule takes any shadow byte but
zero for poison, hence also those between the granularity and `0x7f`, which no one writes
(`checkPoisoned_agrees_iff`).

An access that goes on beyond its granule is tested only in part.  What its tests object to is a
byte that may not be accessed all the same, for an access that goes on has the last byte of its
first granule, and a shadow byte that lets this one be accessed is zero (`Encodes.eq_zero_of_last`).
-/

namespace Redzone

namespace ShadowMapping

variable {mapping : ShadowMapping} {byte : UInt8} {a b size : Nat} {memory : Memory}

/-! ### One granule -/

/-- A test of no more than a granule objects to what is not zero, if the access fills the granule,
if the whole granule is poisoned, or if the access goes on behind the bytes that may be accessed. -/
theorem checkPoisoned_iff (hmax : mapping.scale ≤ maxScale) (hpos : 0 < size)
    (hsize : size ≤ mapping.granularity) :
    mapping.checkPoisoned a size byte = true ↔
      byte.toNat ≠ 0 ∧ (size = mapping.granularity ∨ 128 ≤ byte.toNat ∨
        byte.toNat < a % mapping.granularity + size) := by
  have hgranularity := granularity_le hmax
  have hmod := Nat.mod_lt a mapping.granularity_pos
  have hzero : byte ≠ 0 ↔ byte.toNat ≠ 0 := not_congr UInt8.toNat_inj.symm
  have hsigned : signed64 (a % mapping.granularity + size - 1) =
      (a % mapping.granularity + size - 1 : Nat) := by
    apply Int.bmod_eq_of_le
    all_goals
      unfold addressSpace
      omega
  rw [checkPoisoned, suspicious, needsSlowPath, Bool.and_eq_true, Bool.or_eq_true,
    Bool.not_eq_true', decide_eq_true_iff, decide_eq_true_iff, decide_eq_false_iff_not, hsigned,
    hzero]
  rcases Nat.lt_or_ge byte.toNat 128 with hlt | hge
  · rw [signed8_of_lt hlt]
    omega
  · have hneg := signed8_neg hge
    omega

/-- The bytes of an access that stays in its granule. -/
theorem div_mod_of_inGranule (h : a % mapping.granularity + size ≤ mapping.granularity)
    (hab : a ≤ b) (hb : b < a + size) : b / mapping.granularity = a / mapping.granularity ∧
      b % mapping.granularity = a % mapping.granularity + (b - a) := by
  have hdiv := Nat.div_add_mod a mapping.granularity
  exact (Nat.div_mod_unique mapping.granularity_pos).mpr ⟨by omega, by omega⟩

/-- Of the bytes in one granule the last one decides. -/
theorem exists_not_byteAddressable_iff (hpos : 0 < size)
    (h : a % mapping.granularity + size ≤ mapping.granularity) :
    (∃ b, a ≤ b ∧ b < a + size ∧ mapping.byteAddressable b byte = false) ↔
      mapping.byteAddressable (a + (size - 1)) byte = false := by
  constructor
  · rintro ⟨b, hab, hb, hbyte⟩
    have hmod := (div_mod_of_inGranule h hab hb).2
    have hlast := (div_mod_of_inGranule h (Nat.le_add_right a (size - 1)) (by omega)).2
    rw [← Bool.not_eq_true, byteAddressable_iff] at hbyte ⊢
    omega
  · intro hlast
    exact ⟨a + (size - 1), Nat.le_add_right a _, by omega, hlast⟩

/-- A test agrees with the bytes that it is about, unless it tests a whole granule and the shadow
byte is one that no one writes. -/
theorem checkPoisoned_agrees_iff (hmax : mapping.scale ≤ maxScale) (hpos : 0 < size)
    (h : a % mapping.granularity + size ≤ mapping.granularity) :
    (mapping.checkPoisoned a size byte = true ↔
        ∃ b, a ≤ b ∧ b < a + size ∧ mapping.byteAddressable b byte = false) ↔
      ¬ (size = mapping.granularity ∧ mapping.granularity ≤ byte.toNat ∧ byte.toNat ≤ 0x7f) := by
  have hlast := (div_mod_of_inGranule h (Nat.le_add_right a (size - 1)) (by omega)).2
  rw [exists_not_byteAddressable_iff hpos h, checkPoisoned_iff hmax hpos (by omega),
    ← Bool.not_eq_true, byteAddressable_iff]
  omega

/-- A shadow byte that says something: how many leading bytes may be accessed, with zero for all of
them, or that none may be. -/
def Encodes (mapping : ShadowMapping) (byte : UInt8) : Prop :=
  byte.toNat < mapping.granularity ∨ 0x80 ≤ byte.toNat

theorem Encodes.checkPoisoned_iff (hbyte : mapping.Encodes byte) (hmax : mapping.scale ≤ maxScale)
    (hpos : 0 < size) (h : a % mapping.granularity + size ≤ mapping.granularity) :
    mapping.checkPoisoned a size byte = true ↔
      ∃ b, a ≤ b ∧ b < a + size ∧ mapping.byteAddressable b byte = false := by
  refine (checkPoisoned_agrees_iff hmax hpos h).mpr ?_
  rintro ⟨-, hge, hle⟩
  rcases hbyte with hlt | hhigh
  · exact absurd hlt (Nat.not_lt.mpr hge)
  · exact absurd hhigh (Nat.not_le.mpr (Nat.lt_succ_of_le hle))

/-- Where the last byte of a granule may be accessed, all of them may be. -/
theorem Encodes.eq_zero_of_last (hbyte : mapping.Encodes byte)
    (hb : mapping.byteAddressable b byte = true)
    (hlast : b % mapping.granularity + 1 = mapping.granularity) : byte = 0 := by
  rw [byteAddressable_iff] at hb
  apply UInt8.toNat_inj.mp
  unfold Encodes at hbyte
  rw [UInt8.toNat_zero]
  omega

/-! ### Shadow memory -/

/-- Whether the byte at `a` may be accessed. -/
def addressable (mapping : ShadowMapping) (memory : Memory) (a : Nat) : Bool :=
  mapping.byteAddressable a (memory (mapping.shadowAddr a))

/-- Whether some test of `size` bytes at `a` objects. -/
def objects (mapping : ShadowMapping) (memory : Memory) (a size : Nat) : Bool :=
  (mapping.tests a size).any fun test => test.objects memory

/-- A shadow memory that holds nothing but shadow bytes that say something. -/
def EncodesAll (mapping : ShadowMapping) (memory : Memory) : Prop :=
  ∀ a < addressSpace, mapping.Encodes (memory (mapping.shadowAddr a))

theorem shadowAddr_congr (h : a / mapping.granularity = b / mapping.granularity) :
    mapping.shadowAddr a = mapping.shadowAddr b := by
  rw [shadowAddr, shadowAddr, h]

/-- The shadow byte of the next granule is the next shadow byte. -/
theorem shadowAddr_add_granularity (mapping : ShadowMapping) (a : Nat) :
    mapping.shadowAddr (a + mapping.granularity) = (mapping.shadowAddr a + 1) % addressSpace := by
  rw [shadowAddr, shadowAddr, Nat.add_div_right a mapping.granularity_pos, Nat.mod_add_mod]
  congr 1
  omega

/-- If the last byte of its granule may be accessed, the shadow byte of `a` is zero. -/
theorem EncodesAll.eq_zero (h : mapping.EncodesAll memory) (ha : a < addressSpace)
    (hlast : mapping.addressable memory
      (a + (mapping.granularity - 1 - a % mapping.granularity)) = true) :
    memory (mapping.shadowAddr a) = 0 := by
  have hlt := Nat.mod_lt a mapping.granularity_pos
  have hrest : a % mapping.granularity + (mapping.granularity - a % mapping.granularity) ≤
      mapping.granularity := by omega
  obtain ⟨hdiv, hmod⟩ := div_mod_of_inGranule hrest
    (b := a + (mapping.granularity - 1 - a % mapping.granularity)) (by omega) (by omega)
  rw [addressable, shadowAddr_congr hdiv] at hlast
  exact (h a ha).eq_zero_of_last hlast (by omega)

/-! ### Tests -/

theorem EncodesAll.granuleTest_iff (hmemory : mapping.EncodesAll memory)
    (hmax : mapping.scale ≤ maxScale) (hpos : 0 < size) (ha : a < addressSpace)
    (h : a % mapping.granularity + size ≤ mapping.granularity) :
    (mapping.granuleTest a size).objects memory = true ↔
      ∃ b, a ≤ b ∧ b < a + size ∧ mapping.addressable memory b = false := by
  rw [granuleTest, (hmemory a ha).checkPoisoned_iff hmax hpos h]
  refine exists_congr fun b => and_congr_right fun hab => and_congr_right fun hb => ?_
  rw [addressable, shadowAddr_congr (div_mod_of_inGranule h hab hb).1]

/-- A test of one granule is silent if all bytes may be accessed, even if the access goes on in the
next granule. -/
theorem EncodesAll.granuleTest_silent (hmemory : mapping.EncodesAll memory)
    (hmax : mapping.scale ≤ maxScale) (hpos : 0 < size) (ha : a < addressSpace)
    (hbytes : ∀ b, a ≤ b → b < a + size → mapping.addressable memory b = true) :
    (mapping.granuleTest a size).objects memory = false := by
  by_cases hgranule : a % mapping.granularity + size ≤ mapping.granularity
  · rw [← Bool.not_eq_true, hmemory.granuleTest_iff hmax hpos ha hgranule]
    rintro ⟨b, hab, hb, hbyte⟩
    rw [hbytes b hab hb] at hbyte
    cases hbyte
  · have hlt := Nat.mod_lt a mapping.granularity_pos
    have hzero := hmemory.eq_zero ha (hbytes _ (by omega) (by omega))
    simp [granuleTest, checkPoisoned, suspicious, hzero]

theorem pairTest_iff :
    (mapping.pairTest a).objects memory = true ↔ memory (mapping.shadowAddr a) ≠ 0 ∨
      memory (mapping.shadowAddr (a + mapping.granularity)) ≠ 0 := by
  simp [pairTest, shadowAddr_add_granularity]

/-- A test of two granules is silent if all bytes may be accessed. -/
theorem EncodesAll.pairTest_silent (hmemory : mapping.EncodesAll memory)
    (ha : a + 2 * mapping.granularity ≤ addressSpace)
    (hbytes : ∀ b, a ≤ b → b < a + 2 * mapping.granularity → mapping.addressable memory b = true) :
    (mapping.pairTest a).objects memory = false := by
  have hlt := Nat.mod_lt a mapping.granularity_pos
  have hpos := mapping.granularity_pos
  have hfirst := hmemory.eq_zero (a := a) (by omega) (hbytes _ (by omega) (by omega))
  have hsecond := hmemory.eq_zero (a := a + mapping.granularity) (by omega)
    (hbytes _ (by omega) (by omega))
  rw [← Bool.not_eq_true, pairTest_iff]
  simp [hfirst, hsecond]

/-- A test of two granules is about their bytes if it starts where they do. -/
theorem EncodesAll.pairTest_iff (hmemory : mapping.EncodesAll memory)
    (ha : a + 2 * mapping.granularity ≤ addressSpace) (hstart : a % mapping.granularity = 0) :
    (mapping.pairTest a).objects memory = true ↔
      ∃ b, a ≤ b ∧ b < a + 2 * mapping.granularity ∧ mapping.addressable memory b = false := by
  constructor
  · contrapose!
    intro hbytes
    rw [hmemory.pairTest_silent ha fun b hab hb => by simpa using hbytes b hab hb]
    exact Bool.false_ne_true
  · rintro ⟨b, hab, hb, hbyte⟩
    rw [ShadowMapping.pairTest_iff]
    have hsuspicious : memory (mapping.shadowAddr b) ≠ 0 := by
      intro hzero
      simp [addressable, hzero, byteAddressable] at hbyte
    rcases Nat.lt_or_ge b (a + mapping.granularity) with hlt | hge
    · left
      rwa [← shadowAddr_congr (div_mod_of_inGranule (by omega) hab hlt).1]
    · right
      have hnext : (a + mapping.granularity) % mapping.granularity + mapping.granularity ≤
          mapping.granularity := by
        rw [Nat.add_mod_right, hstart, Nat.zero_add]
      rwa [← shadowAddr_congr (div_mod_of_inGranule hnext hge (by omega)).1]

/-- An access that is aligned as its size stays in its granule, if it is no wider. -/
theorem inGranule_of_dvd (hfixed : EntryPoint.isFixedSize size = true)
    (hsize : size ≤ mapping.granularity) (ha : size ∣ a) :
    a % mapping.granularity + size ≤ mapping.granularity := by
  have hpower : isPowerOfTwo size = true := by
    have hsizes : size = 1 ∨ size = 2 ∨ size = 4 ∨ size = 8 ∨ size = 16 := by
      simpa [EntryPoint.isFixedSize, or_assoc] using hfixed
    rcases hsizes with rfl | rfl | rfl | rfl | rfl <;> decide
  have hdvd : size ∣ mapping.granularity :=
    dvd_of_isPowerOfTwo hpower (isPowerOfTwo_shiftLeft mapping.scale) hsize
  have hlt := Nat.mod_lt a mapping.granularity_pos
  have hle : size ≤ mapping.granularity - a % mapping.granularity :=
    Nat.le_of_dvd (Nat.sub_pos_of_lt hlt) (Nat.dvd_sub hdvd ((Nat.dvd_mod_iff hdvd).mpr ha))
  omega

/-- Tests are silent if all bytes may be accessed, wherever the access starts. -/
theorem EncodesAll.objects_eq_false (hmemory : mapping.EncodesAll memory)
    (hmin : minScale ≤ mapping.scale) (hmax : mapping.scale ≤ maxScale) (hpos : 0 < size)
    (ha : a + size ≤ addressSpace)
    (hbytes : ∀ b, a ≤ b → b < a + size → mapping.addressable memory b = true) :
    mapping.objects memory a size = false := by
  rw [objects, tests]
  split
  · rename_i hfixed
    split
    · simpa using hmemory.granuleTest_silent hmax hpos (by omega) hbytes
    · rename_i hsize
      obtain ⟨rfl, height⟩ := eq_of_not_le_granularity hmin hfixed hsize
      simpa using hmemory.pairTest_silent (by omega) (by rwa [height])
  · have hfirst := hmemory.granuleTest_silent (a := a) hmax Nat.one_pos (by omega)
      fun b hab hb => hbytes b hab (by omega)
    have hlast := hmemory.granuleTest_silent (a := a + (size - 1)) hmax Nat.one_pos (by omega)
      fun b hab hb => hbytes b (by omega) (by omega)
    simp [hfirst, hlast]

/-- Tests of an access that is aligned as its size object if and only if some byte may not be
accessed. -/
theorem EncodesAll.objects_iff (hmemory : mapping.EncodesAll memory)
    (hmin : minScale ≤ mapping.scale) (hmax : mapping.scale ≤ maxScale)
    (hfixed : EntryPoint.isFixedSize size = true) (halign : size ∣ a) (hpos : 0 < size)
    (ha : a + size ≤ addressSpace) :
    mapping.objects memory a size = true ↔
      ∃ b, a ≤ b ∧ b < a + size ∧ mapping.addressable memory b = false := by
  rw [objects, tests, if_pos hfixed]
  split
  · rename_i hsize
    simpa using hmemory.granuleTest_iff hmax hpos (by omega) (inGranule_of_dvd hfixed hsize halign)
  · rename_i hsize
    obtain ⟨rfl, height⟩ := eq_of_not_le_granularity hmin hfixed hsize
    have hstart : a % mapping.granularity = 0 := by
      rw [height]
      omega
    simpa [height] using hmemory.pairTest_iff (by omega) hstart

/-- The tests of an access agree with its bytes.  Within one granule a test objects if and only if
some byte may not be accessed, a whole granule with a shadow byte that no one writes apart.  If
memory holds no such byte, no tests object to an access all of whose bytes may be accessed, and
those of an aligned access of a size with routines of its own object if and only if some byte may
not be. -/
theorem tests_agree (hmin : minScale ≤ mapping.scale) (hmax : mapping.scale ≤ maxScale) :
    (∀ (a size : Nat) (byte : UInt8), 0 < size →
      a % mapping.granularity + size ≤ mapping.granularity →
      ((mapping.checkPoisoned a size byte = true ↔
          ∃ b, a ≤ b ∧ b < a + size ∧ mapping.byteAddressable b byte = false) ↔
        ¬ (size = mapping.granularity ∧ mapping.granularity ≤ byte.toNat ∧ byte.toNat ≤ 0x7f))) ∧
      ∀ memory, mapping.EncodesAll memory → ∀ a size, 0 < size → a + size ≤ addressSpace →
        ((∀ b, a ≤ b → b < a + size → mapping.addressable memory b = true) →
          mapping.objects memory a size = false) ∧
        (EntryPoint.isFixedSize size = true → size ∣ a →
          (mapping.objects memory a size = true ↔
            ∃ b, a ≤ b ∧ b < a + size ∧ mapping.addressable memory b = false)) :=
  ⟨fun _ _ _ hpos h => checkPoisoned_agrees_iff hmax hpos h, fun _ hmemory _ _ hpos ha =>
    ⟨hmemory.objects_eq_false hmin hmax hpos ha,
      fun hfixed halign => hmemory.objects_iff hmin hmax hfixed halign hpos ha⟩⟩

end ShadowMapping

/-- The shadow of an object of twelve bytes at `0x1000`, with redzones on both sides. -/
def tagMemory : Memory := fun addr =>
  if addr = 0x7fff8200 then 0 else if addr = 0x7fff8201 then 4 else globalRedzoneByte

theorem tests_agree_tag :
    (ShadowMapping.mk 3 0x7fff8000).EncodesAll tagMemory ∧
      (ShadowMapping.mk 3 0x7fff8000).objects tagMemory 0x1000 16 = true ∧
      (ShadowMapping.mk 3 0x7fff8000).objects tagMemory 0x1002 10 = false ∧
      ((ShadowMapping.mk 3 0x7fff8000).checkPoisoned 0x1008 4 4 = true ↔
        ∃ b, 0x1008 ≤ b ∧ b < 0x1008 + 4 ∧
          (ShadowMapping.mk 3 0x7fff8000).byteAddressable b 4 = false) := by
  have hmemory : (ShadowMapping.mk 3 0x7fff8000).EncodesAll tagMemory := by
    intro a _
    unfold tagMemory
    split
    · exact .inl (by decide)
    · split
      · exact .inl (by decide)
      · exact .inr (by decide)
  have hmin : minScale ≤ (ShadowMapping.mk 3 0x7fff8000).scale := by decide
  obtain ⟨hgranule, htests⟩ := ShadowMapping.tests_agree hmin (by decide)
  refine ⟨hmemory, ?_, ?_, (hgranule 0x1008 4 4 (by decide) (by decide)).mpr (by decide)⟩
  · exact ((htests tagMemory hmemory 0x1000 16 (by decide) (by decide)).2 (by decide)
      (by decide)).mpr ⟨0x100c, by decide, by decide, by decide +kernel⟩
  · refine (htests tagMemory hmemory 0x1002 10 (by decide) (by decide)).1 fun b hab hb => ?_
    interval_cases b <;> decide +kernel

end Redzone
