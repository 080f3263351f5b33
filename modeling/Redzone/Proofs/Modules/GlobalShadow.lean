import Redzone.Proofs.Frame.Addressable
import Redzone.Proofs.Modules.Change

/-!
# Redzones of globals and their shadow

A redzone consists of about a quarter of the global, within bounds, and of what fills the global up
to a multiple of the least redzone (`exists_quarter_fill`).  The bounds are multiples of the least
redzone, too, so that a global and its redzone end together with a granule.  Then the shadow of the
object and of what is behind it has one byte for every granule, and none of those that tell of the
object is cut off (`objectShadow_exact`).
-/

namespace Redzone

/-! ### Sizes -/

variable {granularity : Nat}

theorem isPowerOfTwo_minGlobalRedzone (hpower : isPowerOfTwo granularity = true) :
    isPowerOfTwo (minGlobalRedzone granularity) = true :=
  isPowerOfTwo_max hpower (by decide)

theorem dvd_minGlobalRedzone (hpower : isPowerOfTwo granularity = true) :
    granularity ∣ minGlobalRedzone granularity :=
  dvd_of_isPowerOfTwo hpower (isPowerOfTwo_minGlobalRedzone hpower) (le_max_left _ _)

/-- A redzone is a number of least redzones within bounds, and what the global lacks to be a number
of them. -/
theorem exists_quarter_fill (hpower : isPowerOfTwo granularity = true)
    (hbound : minGlobalRedzone granularity ≤ maxGlobalRedzone) (size : Nat) :
    ∃ quarter fill, globalRedzone size granularity = quarter + fill ∧
      minGlobalRedzone granularity ∣ quarter ∧ minGlobalRedzone granularity ≤ quarter ∧
      quarter ≤ maxGlobalRedzone ∧ minGlobalRedzone granularity ∣ size + fill ∧
      fill < minGlobalRedzone granularity := by
  have hleast := isPowerOfTwo_minGlobalRedzone hpower
  have hmost : minGlobalRedzone granularity ∣ maxGlobalRedzone :=
    dvd_of_isPowerOfTwo hleast (isPowerOfTwo_shiftLeft 18) hbound
  unfold globalRedzone
  generalize minGlobalRedzone granularity = least at *
  have hpos : 0 < least := pos_of_isPowerOfTwo hleast
  have hquarter : least ∣ min (max (size / least / 4 * least) least) maxGlobalRedzone := by
    rcases min_choice (max (size / least / 4 * least) least) maxGlobalRedzone with h | h
    · rw [h]
      rcases max_choice (size / least / 4 * least) least with h | h
      · rw [h]
        exact Nat.dvd_mul_left _ _
      · rw [h]
    · rwa [h]
  have hmod := Nat.mod_lt size hpos
  refine ⟨_, if size % least = 0 then 0 else least - size % least, ?_, hquarter, ?_,
    min_le_right _ _, ?_, ?_⟩
  · dsimp only
    split <;> rfl
  · exact le_min (le_max_right _ _) hbound
  · split
    · rename_i hzero
      exact Nat.dvd_of_mod_eq_zero hzero
    · rw [Nat.dvd_iff_mod_eq_zero, ← Nat.mod_add_mod, Nat.add_sub_cancel' hmod.le, Nat.mod_self]
  · split <;> omega

/-! ### Shadows -/

/-- The shadow of an object and a redzone lets just the bytes of the object be accessed. -/
theorem objectShadow_exact {mapping : ShadowMapping} {object total : Nat} {redzone : UInt8}
    (hscale : mapping.scale ≤ maxScale) (hobject : object ≤ total)
    (htotal : mapping.granularity ∣ total) (hredzone : 128 ≤ redzone.toNat) :
    ∃ shadow, objectShadow object total mapping.granularity redzone = .ok shadow ∧
      shadow.length = total / mapping.granularity ∧
      ∀ a < total, ∃ byte, shadow[a / mapping.granularity]? = some byte ∧
        (mapping.byteAddressable a byte = true ↔ a < object) := by
  have hpos := mapping.granularity_pos
  refine ⟨_, if_neg hpos.ne', length_resizeShadow _ _ _, fun a ha => ?_⟩
  have hlive : (liveShadow object mapping.granularity).length ≤ total / mapping.granularity := by
    refine (length_liveShadow_le hpos object).trans ((ceilDiv_le_iff hpos).mpr ?_)
    rwa [Nat.div_mul_cancel htotal]
  have hlt : a / mapping.granularity < total / mapping.granularity :=
    Nat.div_lt_div_of_lt_of_dvd htotal ha
  rw [resizeShadow_eq_append hlive, List.getElem?_append]
  split
  · rename_i hfront
    have hbyte := List.getElem?_eq_getElem hfront
    exact ⟨_, hbyte, ShadowMapping.byteAddressable_liveShadow hscale hbyte⟩
  · rename_i hbehind
    refine ⟨redzone, List.getElem?_replicate_of_lt (by omega),
      iff_of_false (ShadowMapping.not_byteAddressable_of_high hredzone) ?_⟩
    -- the object ends with the shadow that tells of it
    have hle := (Nat.le_div_iff_mul_le hpos).mp (Nat.le_of_not_lt hbehind)
    have hend := le_length_liveShadow hpos object
    omega

/-- The redzone of a global is within its bounds and ends with a granule, and the shadow of a global
with its redzone lets just the bytes of the object be accessed, even if the global had padding
before. -/
theorem globalRedzone_exact {mapping : ShadowMapping} {size object : Nat}
    (hscale : mapping.scale ≤ maxScale) (hobject : object ≤ size) :
    ∃ redzone shadow, globalRedzone? size mapping.granularity = .ok redzone ∧
      redzone = globalRedzone size mapping.granularity ∧
      minGlobalRedzone mapping.granularity ≤ redzone ∧
      redzone < maxGlobalRedzone + minGlobalRedzone mapping.granularity ∧
      minGlobalRedzone mapping.granularity ∣ size + redzone ∧
      mapping.granularity ∣ size + redzone ∧
      objectShadow object (size + redzone) mapping.granularity globalRedzoneByte = .ok shadow ∧
      shadow.length = (size + redzone) / mapping.granularity ∧
      ∀ a < size + redzone, ∃ byte, shadow[a / mapping.granularity]? = some byte ∧
        (mapping.byteAddressable a byte = true ↔ a < object) := by
  have hpower : isPowerOfTwo mapping.granularity = true := isPowerOfTwo_shiftLeft mapping.scale
  have hbound := minGlobalRedzone_le hscale
  obtain ⟨quarter, fill, hsum, hquarter, hleast, hmost, hfilled, hfill⟩ :=
    exists_quarter_fill hpower hbound size
  have hdvd : minGlobalRedzone mapping.granularity ∣
      size + globalRedzone size mapping.granularity := by
    rw [hsum, Nat.add_comm quarter, ← Nat.add_assoc]
    exact Nat.dvd_add hfilled hquarter
  have hgranules := (dvd_minGlobalRedzone hpower).trans hdvd
  have hpoison : 128 ≤ globalRedzoneByte.toNat := by decide
  obtain ⟨shadow, hshadow, hlength, hbytes⟩ :=
    objectShadow_exact hscale (hobject.trans (Nat.le_add_right _ _)) hgranules hpoison
  exact ⟨globalRedzone size mapping.granularity, shadow,
    globalRedzone?_eq_ok_iff.mpr ⟨hbound, rfl⟩, rfl,
      by omega, by omega, hdvd, hgranules, hshadow, hlength, hbytes⟩

/-- A table of a thousand bytes, the last ten of which were padding already. -/
theorem globalRedzone_exact_table :
    (ShadowMapping.mk 5 0).scale ≤ maxScale ∧ 990 ≤ 1000 ∧
      ∃ shadow, globalRedzone? 1000 32 = .ok 248 ∧
        objectShadow 990 1248 32 globalRedzoneByte = .ok shadow ∧ shadow.length = 39 ∧
        ∀ a < 1248, ∃ byte, shadow[a / 32]? = some byte ∧
          ((ShadowMapping.mk 5 0).byteAddressable a byte = true ↔ a < 990) := by
  have hscale : (ShadowMapping.mk 5 0).scale ≤ maxScale := by decide
  have hobject : 990 ≤ 1000 := by decide
  obtain ⟨redzone, shadow, hredzone, rfl, -, -, -, -, hshadow, hlength, hbytes⟩ :=
    globalRedzone_exact hscale hobject
  exact ⟨hscale, hobject, shadow, hredzone, hshadow, hlength, hbytes⟩

end Redzone
