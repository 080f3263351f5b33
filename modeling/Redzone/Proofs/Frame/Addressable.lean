import Redzone.Proofs.Frame.Spacing
import Redzone.Proofs.Progress.Frame

/-!
# What the shadow of a frame lets through

The shadow of a frame is built front to back.  At every moment it is exact as far as it goes: it
lets just the bytes of the variables placed so far be accessed (`Exact`).  Redzones keep it exact,
for they let nothing through (`Exact.extend`), and so does the shadow of a variable that starts
where it ends (`Exact.append_live`).  No variable starts before the granules of the one in front of
it end, so nothing is ever cut off (`exact_shadowFrom`), and the whole shadow of a frame is exact
(`layOut_exact`).
-/

namespace Redzone

/-- Byte `a` of a frame is one of the first `size` bytes of a variable. -/
def StackVariable.Covers (var : StackVariable) (size a : Nat) : Prop :=
  var.offset ≤ a ∧ a < var.offset + size

/-! ### Single shadow bytes -/

namespace ShadowMapping

variable {mapping : ShadowMapping} {byte : UInt8} {a : Nat}

theorem signed8_of_lt (h : byte.toNat < 128) : signed8 byte = byte.toNat := by
  refine Int.bmod_eq_of_le ?_ ?_
  all_goals omega

theorem signed8_neg (h : 128 ≤ byte.toNat) : signed8 byte < 0 := by
  have hlt := byte.toNat_lt
  calc signed8 byte = ((byte.toNat : Int) - (256 : Nat)).bmod 256 := (Int.sub_bmod_right _ _).symm
    _ = (byte.toNat : Int) - (256 : Nat) := Int.bmod_eq_of_le (by omega) (by omega)
    _ < 0 := by omega

theorem byteAddressable_iff :
    mapping.byteAddressable a byte = true ↔
      byte.toNat = 0 ∨ byte.toNat < 128 ∧ a % mapping.granularity < byte.toNat := by
  have hzero : byte = 0 ↔ byte.toNat = 0 := UInt8.toNat_inj.symm
  rw [byteAddressable, Bool.or_eq_true, Bool.and_eq_true, decide_eq_true_iff, decide_eq_true_iff,
    decide_eq_true_iff, hzero]
  rcases Nat.lt_or_ge byte.toNat 128 with hlt | hge
  · rw [signed8_of_lt hlt]
    omega
  · have hneg := signed8_neg hge
    omega

/-- A byte with the high bit set is poison. -/
theorem not_byteAddressable_of_high (h : 128 ≤ byte.toNat) :
    ¬ mapping.byteAddressable a byte = true := by
  rw [byteAddressable_iff]
  omega

theorem not_byteAddressable_of_redzone (h : byte ∈ Frame.redzones) :
    ¬ mapping.byteAddressable a byte = true := by
  have hhigh : ∀ byte ∈ Frame.redzones, 128 ≤ byte.toNat := by
    simp [Frame.redzones, stackLeftRedzone, stackMidRedzone, stackRightRedzone]
  exact not_byteAddressable_of_high (hhigh byte h)

theorem byteAddressable_ofNat {count : Nat} (hpos : 0 < count) (hlt : count < 128) :
    mapping.byteAddressable a (UInt8.ofNat count) = true ↔ a % mapping.granularity < count := by
  rw [byteAddressable_iff, UInt8.toNat_ofNat_of_lt' (hlt.trans (by decide))]
  omega

/-- The shadow of a variable lets its bytes be accessed and no others. -/
theorem byteAddressable_liveShadow {size : Nat} (hscale : mapping.scale ≤ maxScale)
    (h : (liveShadow size mapping.granularity)[a / mapping.granularity]? = some byte) :
    mapping.byteAddressable a byte = true ↔ a < size := by
  have hpos := mapping.granularity_pos
  have hle := granularity_le hscale
  have hsize := Nat.div_add_mod size mapping.granularity
  have ha := Nat.div_add_mod a mapping.granularity
  have hmod := Nat.mod_lt a hpos
  rw [liveShadow, List.getElem?_append, List.length_replicate] at h
  split at h
  · rename_i hwhole
    rw [List.getElem?_replicate_of_lt hwhole] at h
    obtain rfl := Option.some.inj h
    refine iff_of_true (by simp [byteAddressable]) ?_
    have hmul := Nat.mul_le_mul_left mapping.granularity (Nat.succ_le_of_lt hwhole)
    rw [Nat.mul_succ] at hmul
    omega
  · rename_i hlast
    split at h
    · cases h
    · rename_i hpart
      obtain ⟨hindex, rfl⟩ := List.getElem?_eq_some_iff.mp h
      -- the last granule, of which only the first bytes are the variable's
      have hsame : a / mapping.granularity = size / mapping.granularity := by
        rw [List.length_singleton] at hindex
        omega
      have hrest := Nat.mod_lt size hpos
      rw [List.getElem_singleton, byteAddressable_ofNat (Nat.pos_of_ne_zero hpart) (by omega)]
      rw [hsame] at ha
      omega

end ShadowMapping

theorem le_length_liveShadow {granularity : Nat} (hpos : 0 < granularity) (size : Nat) :
    size ≤ (liveShadow size granularity).length * granularity := by
  have hdiv := Nat.div_add_mod size granularity
  have hmod := Nat.mod_lt size hpos
  rw [liveShadow, List.length_append, List.length_replicate, Nat.add_mul, Nat.mul_comm]
  split
  · omega
  · rw [List.length_singleton, Nat.one_mul]
    omega

theorem resizeShadow_eq_append {shadow : List UInt8} {size : Nat} (hle : shadow.length ≤ size)
    (fill : UInt8) :
    resizeShadow shadow size fill = shadow ++ List.replicate (size - shadow.length) fill := by
  rw [resizeShadow, List.take_of_length_le hle]

namespace Frame

variable {mapping : ShadowMapping} {shadow : List UInt8} {before vars : List StackVariable}
  {var : StackVariable} {offset : Nat}

/-! ### Exact shadows -/

/-- As far as it goes, a shadow lets the bytes of some variables be accessed and no others, and it
goes as far as they do. -/
structure Exact (mapping : ShadowMapping) (shadow : List UInt8) (vars : List StackVariable) :
    Prop where
  reaches : ∀ var ∈ vars, var.offset + var.size ≤ shadow.length * mapping.granularity
  bytes : ∀ a byte, shadow[a / mapping.granularity]? = some byte →
    (mapping.byteAddressable a byte = true ↔ ∃ var ∈ vars, var.Covers var.size a)

namespace Exact

theorem nil (mapping : ShadowMapping) : Exact mapping [] [] := ⟨by simp, by simp⟩

/-- Nothing covers a byte behind an exact shadow. -/
theorem not_covers (h : Exact mapping shadow vars) {a : Nat}
    (ha : shadow.length ≤ a / mapping.granularity) : ¬ ∃ var ∈ vars, var.Covers var.size a := by
  rintro ⟨var, hvar, -, hlt⟩
  have hle := h.reaches var hvar
  have hfar := (Nat.le_div_iff_mul_le mapping.granularity_pos).mp ha
  omega

theorem extend (h : Exact mapping shadow vars) {fill : UInt8} (hfill : fill ∈ redzones)
    (count : Nat) : Exact mapping (shadow ++ List.replicate count fill) vars where
  reaches other hother := by
    refine (h.reaches other hother).trans (Nat.mul_le_mul_right _ ?_)
    rw [List.length_append]
    exact Nat.le_add_right _ _
  bytes a byte hbyte := by
    rw [List.getElem?_append] at hbyte
    split at hbyte
    · exact h.bytes a byte hbyte
    · rename_i hbehind
      rw [List.getElem?_replicate] at hbyte
      obtain rfl := Option.some.inj (Option.ite_none_right_eq_some.mp hbyte).2
      exact iff_of_false (ShadowMapping.not_byteAddressable_of_redzone hfill)
        (h.not_covers (Nat.le_of_not_lt hbehind))

theorem resize (h : Exact mapping shadow vars) {fill : UInt8} (hfill : fill ∈ redzones) {size : Nat}
    (hsize : shadow.length ≤ size) : Exact mapping (resizeShadow shadow size fill) vars := by
  rw [resizeShadow_eq_append hsize]
  exact h.extend hfill _

theorem append_live (h : Exact mapping shadow vars) (hscale : mapping.scale ≤ maxScale)
    (hoffset : var.offset = shadow.length * mapping.granularity) :
    Exact mapping (shadow ++ liveShadow var.size mapping.granularity) (vars ++ [var]) where
  reaches := by
    rw [List.length_append, Nat.add_mul, List.forall_mem_append, List.forall_mem_singleton]
    have hlive := le_length_liveShadow mapping.granularity_pos var.size
    exact ⟨fun other hother => (h.reaches other hother).trans (Nat.le_add_right _ _), by omega⟩
  bytes a byte hbyte := by
    have hpos := mapping.granularity_pos
    simp only [List.mem_append, List.mem_singleton, or_and_right, exists_or, exists_eq_left]
    rw [List.getElem?_append] at hbyte
    split at hbyte
    · rename_i hfront
      have hlt := (Nat.div_lt_iff_lt_mul hpos).mp hfront
      rw [h.bytes a byte hbyte, or_iff_left]
      rintro ⟨hle, -⟩
      omega
    · rename_i hbehind
      have hle := Nat.le_of_not_lt hbehind
      rw [or_iff_right (h.not_covers hle)]
      -- from the start of the variable on, granules are counted from zero again
      obtain ⟨j, rfl⟩ := Nat.exists_eq_add_of_le ((Nat.le_div_iff_mul_le hpos).mp hle)
      rw [Nat.mul_comm, Nat.mul_add_div hpos, Nat.add_sub_cancel_left] at hbyte
      have hlive := ShadowMapping.byteAddressable_liveShadow hscale hbyte
      rw [ShadowMapping.byteAddressable] at hlive
      rw [ShadowMapping.byteAddressable, Nat.mul_add_mod_self_right, hlive, StackVariable.Covers]
      omega

end Exact

/-- The shadow of variables that are placed behind an exact shadow keeps it exact, and ends before
they do. -/
theorem exact_shadowFrom (hscale : mapping.scale ≤ maxScale)
    (hvars : ∀ var ∈ vars, isPowerOfTwo var.align = true) (hexact : Exact mapping shadow before)
    (hlength : shadow.length * mapping.granularity ≤ offset)
    (hoffset : mapping.granularity ∣ offset) :
    Exact mapping
        (shadowFrom mapping.granularity shadow (placeFrom mapping.granularity offset vars))
        (before ++ placeFrom mapping.granularity offset vars) ∧
      (shadowFrom mapping.granularity shadow
          (placeFrom mapping.granularity offset vars)).length * mapping.granularity ≤
        endFrom mapping.granularity offset vars := by
  have hpos := mapping.granularity_pos
  induction vars generalizing shadow before offset with
  | nil => exact ⟨by rwa [placeFrom, List.append_nil], hlength⟩
  | cons first rest ih =>
      rw [List.forall_mem_cons] at hvars
      obtain ⟨hdvd, halign⟩ := dvd_nextAlign (isPowerOfTwo_shiftLeft mapping.scale) hvars.2
      rw [placeFrom, shadowFrom, endFrom, List.append_cons]
      apply ih hvars.2
      · refine (hexact.resize (by decide) ?_).append_live hscale ?_
        · exact (Nat.le_div_iff_mul_le hpos).mpr hlength
        · rw [length_resizeShadow, Nat.div_mul_cancel hoffset]
      · -- the granules of the first variable end before the second one starts
        have hlive := Nat.mul_le_mul_right mapping.granularity
          (length_liveShadow_le hpos first.size)
        have hstride := ceilDiv_mul_le_stride hpos hdvd halign first.size
        rw [List.length_append, length_resizeShadow, Nat.add_mul, Nat.div_mul_cancel hoffset]
        exact Nat.add_le_add_left (hlive.trans hstride) offset
      · exact Nat.dvd_add hoffset (hdvd.trans (dvd_roundUp _ _))

theorem exact_shadow {frame : Frame} (h : layOut vars mapping.granularity = .ok frame)
    (hscale : mapping.scale ≤ maxScale)
    (hvars : ∀ var ∈ vars, isPowerOfTwo var.align = true) :
    Exact mapping frame.shadow frame.vars := by
  have hpower : isPowerOfTwo mapping.granularity = true := isPowerOfTwo_shiftLeft mapping.scale
  obtain ⟨first, rest, hsorted, rfl⟩ := layOut_parts h
  have hraised : ∀ var ∈ first :: rest, isPowerOfTwo var.align = true :=
    hsorted ▸ isPowerOfTwo_of_sorted hvars
  have hheader : Exact mapping (List.replicate
      (max (max minFrameHeader mapping.granularity) first.align / mapping.granularity)
      stackLeftRedzone) [] := (Exact.nil mapping).extend (by decide) _
  have hlength : (List.replicate
      (max (max minFrameHeader mapping.granularity) first.align / mapping.granularity)
      stackLeftRedzone).length * mapping.granularity ≤
        max (max minFrameHeader mapping.granularity) first.align := by
    rw [List.length_replicate]
    exact Nat.div_mul_le_self _ _
  obtain ⟨hexact, hend⟩ := exact_shadowFrom hscale hraised hheader hlength
    (dvd_start hpower (hraised first List.mem_cons_self))
  refine hexact.resize (by decide) ?_
  exact (Nat.le_div_iff_mul_le mapping.granularity_pos).mpr (hend.trans (le_roundUp (by decide) _))

/-! ### Scopes -/

/-- The granules of the first bytes of a variable. -/
theorem reaches_iff {granularity size k : Nat} (hpos : 0 < granularity)
    (hoffset : granularity ∣ var.offset) :
    Reaches granularity var size k ↔ ∃ a, var.Covers size a ∧ a / granularity = k := by
  obtain ⟨start, hstart⟩ := hoffset
  have hdiv : var.offset / granularity = start := by rw [hstart, Nat.mul_div_cancel_left _ hpos]
  rw [Reaches, hdiv]
  constructor
  · rintro ⟨hle, hlt⟩
    obtain ⟨j, rfl⟩ := Nat.exists_eq_add_of_le hle
    have hsize : j * granularity < size := by
      rw [← Nat.not_le, ← ceilDiv_le_iff hpos]
      omega
    refine ⟨granularity * (start + j), ⟨?_, ?_⟩, Nat.mul_div_cancel_left _ hpos⟩
    · rw [hstart]
      exact Nat.mul_le_mul_left _ hle
    · rw [hstart, Nat.mul_add, Nat.mul_comm granularity j]
      omega
  · rintro ⟨a, ⟨hle, hlt⟩, rfl⟩
    have hcovers := (ceilDiv_le_iff hpos).mp (le_refl (ceilDiv size granularity))
    refine ⟨by rw [← hdiv]; exact Nat.div_le_div_right hle, ?_⟩
    rw [Nat.div_lt_iff_lt_mul hpos, Nat.add_mul, Nat.mul_comm start, ← hstart]
    omega

/-! ### Layouts -/

/-- Frames can be laid out for any variables.  The variables are sorted and spaced, just their bytes
can be accessed while they are in scope, and at function entry just the granules that lifetime
markers cover are out of scope. -/
theorem layOut_exact {vars : List StackVariable} {mapping : ShadowMapping} (hvars : vars ≠ [])
    (haligns : ∀ var ∈ vars, isPowerOfTwo var.align = true) (hscale : mapping.scale ≤ maxScale) :
    ∃ frame, layOut vars mapping.granularity = .ok frame ∧
      frame.granularity = mapping.granularity ∧ frame.Arranges vars ∧ frame.Spaced ∧
      frame.shadow.length = frame.size / mapping.granularity ∧
      (∀ a < frame.size, ∃ byte, frame.shadow[a / mapping.granularity]? = some byte ∧
        (mapping.byteAddressable a byte = true ↔ ∃ var ∈ frame.vars, var.Covers var.size a)) ∧
      ((∀ var ∈ vars, var.lifetime ≤ var.size) →
        ∃ atEntry, frame.entryShadow = .ok atEntry ∧ atEntry.length = frame.shadow.length ∧
          ∀ k,
            ((∃ var ∈ frame.vars, ∃ a, var.Covers var.lifetime a ∧ a / mapping.granularity = k) →
              atEntry[k]? = some stackUseAfterScope) ∧
            ((¬ ∃ var ∈ frame.vars, ∃ a, var.Covers var.lifetime a ∧ a / mapping.granularity = k) →
              atEntry[k]? = frame.shadow[k]?)) := by
  have hpower : isPowerOfTwo mapping.granularity = true := isPowerOfTwo_shiftLeft mapping.scale
  have hpos := mapping.granularity_pos
  obtain ⟨frame, hframe⟩ := exists_layOut hpos hvars
  have hspaced := layOut_spaced hframe hpower haligns
  obtain ⟨-, hgranularity, -⟩ := layOut_eq_ok hframe
  have hlength : frame.shadow.length = frame.size / mapping.granularity := by
    rw [length_shadow, hgranularity]
  refine ⟨frame, hframe, hgranularity, layOut_arranges hframe, hspaced, hlength, ?_, ?_⟩
  · intro a ha
    have hlt : a / mapping.granularity < frame.shadow.length := by
      rw [hlength]
      exact Nat.div_lt_div_of_lt_of_dvd (hgranularity ▸ hspaced.size.2) ha
    exact ⟨_, List.getElem?_eq_getElem hlt,
      (exact_shadow hframe hscale haligns).bytes a _ (List.getElem?_eq_getElem hlt)⟩
  · intro hlifetimes
    obtain ⟨atEntry, hentry⟩ :=
      (holds_of_layOut hframe hpower haligns hlifetimes).exists_entryShadow
    refine ⟨atEntry, hentry, length_foldlM_poisonScope hentry, fun k => ?_⟩
    have hcovered : (∃ var ∈ frame.vars, Reaches frame.granularity var var.lifetime k) ↔
        ∃ var ∈ frame.vars, ∃ a, var.Covers var.lifetime a ∧ a / mapping.granularity = k := by
      rw [hgranularity]
      exact exists_congr fun var => and_congr_right fun hvar =>
        reaches_iff hpos (hgranularity ▸ (hspaced.offset var hvar).1)
    rw [← hcovered]
    exact getElem?_foldlM_poisonScope hentry k

end Frame

/-- A counter, a buffer on a cache line of its own, and a key that is in scope only in part of its
function. -/
def readerVariables : List StackVariable :=
  [{ name := "count", size := 4, align := 4, index := 0 },
    { name := "line", size := 100, align := 64, index := 1 },
    { name := "key", size := 21, align := 8, lifetime := 21, index := 2 }]

theorem layOut_exact_reader :
    readerVariables ≠ [] ∧ (∀ var ∈ readerVariables, isPowerOfTwo var.align = true) ∧
      (∀ var ∈ readerVariables, var.lifetime ≤ var.size) ∧
      ∃ frame, Frame.layOut readerVariables 32 = .ok frame ∧ frame.Arranges readerVariables ∧
        frame.Spaced ∧ ∃ atEntry, frame.entryShadow = .ok atEntry := by
  have hvars : readerVariables ≠ [] := by decide
  have haligns : ∀ var ∈ readerVariables, isPowerOfTwo var.align = true := by decide +kernel
  have hlifetimes : ∀ var ∈ readerVariables, var.lifetime ≤ var.size := by decide
  refine ⟨hvars, haligns, hlifetimes, ?_⟩
  obtain ⟨frame, hframe, -, harranges, hspaced, -, -, hscopes⟩ :=
    @Frame.layOut_exact readerVariables ⟨5, 0⟩ hvars haligns (by decide)
  obtain ⟨atEntry, hentry, -⟩ := hscopes hlifetimes
  exact ⟨frame, hframe, harranges, hspaced, atEntry, hentry⟩

end Redzone
