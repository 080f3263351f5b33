import Redzone.Proofs.Frame.Spacing

/-!
# Redzones of a whole granule

What a frame leaves free behind a variable depends on the variable's size, on the granularity and on
the alignment of what comes next.  Up to granules of 32 bytes it is never less than a granule.  With
granules of 64 bytes it is less in one case (`Cramped`): a variable of 65 to 96 bytes and its 32
bytes of redzone fit two granules, so that both of them hold bytes of the variable, and if the next
variable may start right there, no granule is left between the two.
-/

namespace Redzone

namespace Frame

variable {granularity offset size align : Nat} {vars front back : List StackVariable}
  {var next : StackVariable}

/-- The redzone of a variable ends in the granule in which the variable does. -/
def Cramped (granularity size : Nat) : Prop := granularity = 64 ∧ 64 < size ∧ size ≤ 96

/-- The granularities that a shadow can have. -/
def granularities : List Nat := [8, 16, 32, 64]

theorem isPowerOfTwo_of_mem_granularities (h : granularity ∈ granularities) :
    isPowerOfTwo granularity = true := by
  simp only [granularities, List.mem_cons, List.not_mem_nil, or_false] at h
  rcases h with rfl | rfl | rfl | rfl <;> decide

/-! ### The bytes behind a variable -/

theorem paddedSize_of_le (hlow : 16 < size) (hhigh : size ≤ 128) : paddedSize size = size + 32 := by
  rw [paddedSize, if_neg (by omega), if_neg (by omega), if_pos hhigh]

theorem add_le_paddedSize (h : 128 < size) : size + 64 ≤ paddedSize size := by
  unfold paddedSize
  split_ifs <;> omega

theorem min_add_le_paddedSize (hlow : 4 ≤ granularity) (size : Nat) :
    size + min granularity 32 ≤ max (paddedSize size) (2 * granularity) := by
  rcases Nat.lt_or_ge 16 size with hlarge | hsmall
  · have hpadded : size + 32 ≤ paddedSize size := by
      rcases Nat.lt_or_ge 128 size with hlarger | hle
      · exact (Nat.add_le_add_left (by decide) size).trans (add_le_paddedSize hlarger)
      · exact (paddedSize_of_le hlarge hle).ge
    calc size + min granularity 32 ≤ size + 32 := Nat.add_le_add_left (min_le_right _ _) size
      _ ≤ paddedSize size := hpadded
      _ ≤ max (paddedSize size) (2 * granularity) := le_max_left _ _
  · rcases Nat.lt_or_ge granularity size with hlt | hge
    · -- the redzone is what 32 bytes have left
      have hpadded : paddedSize size = 32 := by
        rw [paddedSize, if_neg (by omega), if_pos hsmall]
      calc size + min granularity 32 ≤ 32 := by omega
        _ = paddedSize size := hpadded.symm
        _ ≤ max (paddedSize size) (2 * granularity) := le_max_left _ _
    · calc size + min granularity 32 ≤ 2 * granularity := by omega
        _ ≤ max (paddedSize size) (2 * granularity) := le_max_right _ _

theorem min_add_le_stride (hlow : 4 ≤ granularity) (halign : 0 < align) (size : Nat) :
    size + min granularity 32 ≤ stride size granularity align :=
  (min_add_le_paddedSize hlow size).trans (le_roundUp halign _)

/-- Where the next variable is aligned to no more than two granules, it starts right behind them. -/
theorem stride_of_cramped (h : Cramped granularity size) (hpower : isPowerOfTwo align = true)
    (hle : granularity ≤ align) (hsmall : align ≤ 2 * granularity) :
    stride size granularity align = 2 * granularity := by
  obtain ⟨rfl, hlow, hhigh⟩ := h
  have hpadded : max (paddedSize size) (2 * 64) = 128 := by
    rw [paddedSize_of_le (by omega) (by omega), max_eq_right (by omega)]
  rw [stride, hpadded,
    roundUp_of_dvd (pos_of_isPowerOfTwo hpower) (dvd_of_isPowerOfTwo hpower (by decide) hsmall)]

/-- With granules of 64 bytes, a variable that is not cramped has one of its own behind it. -/
theorem add_le_stride_of_wide (hdvd : 64 ∣ align) (halign : 0 < align) (hnot : ¬ Cramped 64 size) :
    size + 64 ≤ stride size 64 align := by
  have hle : max (paddedSize size) (2 * 64) ≤ stride size 64 align := le_roundUp halign _
  obtain ⟨hpadded, hgranules⟩ := max_le_iff.mp hle
  rcases Nat.lt_or_ge 64 size with hlow | hsmall
  · have hmore : 96 < size := Nat.lt_of_not_le fun hhigh => hnot ⟨rfl, hlow, hhigh⟩
    rcases Nat.lt_or_ge 128 size with hlarge | hhigh
    · exact (add_le_paddedSize hlarge).trans hpadded
    · -- with its redzone it reaches into a third granule
      obtain ⟨k, hk⟩ : 64 ∣ stride size 64 align := hdvd.trans (dvd_roundUp _ _)
      rw [paddedSize_of_le (by omega) hhigh] at hpadded
      omega
  · exact (Nat.add_le_add_right hsmall 64).trans hgranules

/-- There is a granule behind a variable unless it is cramped and the next one does not ask for
more. -/
theorem add_le_stride_iff (hmem : granularity ∈ granularities) (hpower : isPowerOfTwo align = true)
    (hle : granularity ≤ align) :
    size + granularity ≤ stride size granularity align ↔
      ¬ (Cramped granularity size ∧ align ≤ 2 * granularity) := by
  have hpos := pos_of_isPowerOfTwo hpower
  constructor
  · rintro h ⟨hcramped, hsmall⟩
    rw [stride_of_cramped hcramped hpower hle hsmall] at h
    obtain ⟨rfl, hlow, -⟩ := hcramped
    omega
  · intro hnot
    simp only [granularities, List.mem_cons, List.not_mem_nil, or_false] at hmem
    by_cases hsmall : granularity ≤ 32
    · have hmin : size + min granularity 32 ≤ stride size granularity align :=
        min_add_le_stride (by omega) hpos size
      rwa [Nat.min_eq_left hsmall] at hmin
    · obtain rfl : granularity = 64 := by omega
      by_cases hcramped : Cramped 64 size
      · -- the next variable is aligned to four granules or more
        have hlarge : 128 < align := Nat.lt_of_not_le fun hsmall => hnot ⟨hcramped, hsmall⟩
        obtain ⟨k, hk⟩ : 128 ∣ align := dvd_of_isPowerOfTwo (by decide) hpower hlarge.le
        have hstride : align ≤ stride size 64 align := by
          refine Nat.le_of_dvd ?_ (dvd_roundUp _ _)
          exact lt_of_lt_of_le (by omega) (le_roundUp hpos (max (paddedSize size) (2 * 64)))
        obtain ⟨-, -, hhigh⟩ := hcramped
        omega
      · exact add_le_stride_of_wide (dvd_of_isPowerOfTwo (by decide) hpower hle) hpos hcramped

/-! ### Neighbours in a frame -/

theorem placeFrom_next (h : placeFrom granularity offset vars = front ++ var :: next :: back) :
    next.offset = var.offset + stride var.size granularity (max granularity next.align) := by
  induction front generalizing vars offset with
  | nil =>
      rcases vars with _ | ⟨first, _ | ⟨second, rest⟩⟩
      · cases h
      · cases h
      · simp only [placeFrom, List.nil_append, List.cons.injEq] at h
        obtain ⟨rfl, rfl, -⟩ := h
        rfl
  | cons _ front ih =>
      rcases vars with _ | ⟨first, rest⟩
      · cases h
      · exact ih (List.cons.inj h).2

theorem placeFrom_last (h : placeFrom granularity offset vars = front ++ [var]) :
    endFrom granularity offset vars = var.offset + stride var.size granularity granularity := by
  induction front generalizing vars offset with
  | nil =>
      rcases vars with _ | ⟨first, _ | ⟨second, rest⟩⟩
      · cases h
      · simp only [placeFrom, List.nil_append, List.cons.injEq] at h
        obtain ⟨rfl, -⟩ := h
        rfl
      · cases (List.cons.inj h).2
  | cons _ front ih =>
      rcases vars with _ | ⟨first, rest⟩
      · cases h
      · rw [endFrom]
        exact ih (List.cons.inj h).2

theorem isPowerOfTwo_of_placeFrom (hvars : ∀ var ∈ vars, isPowerOfTwo var.align = true)
    (hvar : var ∈ placeFrom granularity offset vars) : isPowerOfTwo var.align = true := by
  have hmem := List.mem_map_of_mem (f := StackVariable.unplaced) hvar
  rw [map_unplaced_placeFrom] at hmem
  obtain ⟨old, hold, heq⟩ := List.mem_map.mp hmem
  have halign : old.unplaced.align = var.unplaced.align := by rw [heq]
  exact halign ▸ hvars old hold

section Laid

variable {frame : Frame} (h : layOut vars granularity = .ok frame)
  (hpower : isPowerOfTwo granularity = true) (hvars : ∀ var ∈ vars, isPowerOfTwo var.align = true)

include h hpower hvars

theorem layOut_next (hsplit : frame.vars = front ++ var :: next :: back) :
    next.offset = var.offset + stride var.size granularity (max granularity next.align) ∧
      isPowerOfTwo (max granularity next.align) = true := by
  obtain ⟨first, rest, hsorted, rfl⟩ := layOut_parts h
  have hraised : ∀ var ∈ first :: rest, isPowerOfTwo var.align = true :=
    hsorted ▸ isPowerOfTwo_of_sorted hvars
  have hnext : next ∈ front ++ var :: next :: back := by simp
  rw [← hsplit] at hnext
  exact ⟨placeFrom_next hsplit, isPowerOfTwo_max hpower (isPowerOfTwo_of_placeFrom hraised hnext)⟩

/-- The frame ends where the redzone of the last variable ends, or some bytes behind that if
granules are smaller than what a frame's size is a multiple of. -/
theorem layOut_last (hsplit : frame.vars = front ++ [var]) :
    var.offset + stride var.size granularity granularity ≤ frame.size ∧
      (minFrameHeader ∣ granularity →
        frame.size = var.offset + stride var.size granularity granularity) := by
  obtain ⟨first, rest, hsorted, rfl⟩ := layOut_parts h
  have hraised : ∀ var ∈ first :: rest, isPowerOfTwo var.align = true :=
    hsorted ▸ isPowerOfTwo_of_sorted hvars
  have hdvd := dvd_endFrom hpower hraised (dvd_start hpower (hraised first List.mem_cons_self))
  rw [← placeFrom_last hsplit]
  exact ⟨le_roundUp (by decide) _, fun hheader => roundUp_of_dvd (by decide) (hheader.trans hdvd)⟩

end Laid

/-- What a frame leaves free behind its variables, if it is not larger than memory.  It is a whole
granule or more, except between a variable that is cramped and a next one that is aligned to no more
than two granules, and behind a last variable that is cramped.  There it is what its two granules
have left, and no less than 32 bytes. -/
theorem layOut_gap_iff (hmem : granularity ∈ granularities) (hne : vars ≠ [])
    (hvars : ∀ var ∈ vars, isPowerOfTwo var.align = true)
    (hfits : ∀ frame, layOut vars granularity = .ok frame → frame.size < addressSpace) :
    ∃ frame, layOut vars granularity = .ok frame ∧ frame.size < addressSpace ∧
      (∀ (front back : List StackVariable) (var next : StackVariable),
          frame.vars = front ++ var :: next :: back →
        (var.offset + var.size + granularity ≤ next.offset ↔
          ¬ (Cramped granularity var.size ∧ next.align ≤ 2 * granularity)) ∧
        (Cramped granularity var.size → next.align ≤ 2 * granularity →
          next.offset = var.offset + 2 * granularity) ∧
        var.offset + var.size + min granularity 32 ≤ next.offset) ∧
      ∀ (front : List StackVariable) (var : StackVariable), frame.vars = front ++ [var] →
        (var.offset + var.size + granularity ≤ frame.size ↔ ¬ Cramped granularity var.size) ∧
        (Cramped granularity var.size → frame.size = var.offset + 2 * granularity) ∧
        var.offset + var.size + min granularity 32 ≤ frame.size := by
  have hpower := isPowerOfTwo_of_mem_granularities hmem
  have hlow : 4 ≤ granularity := by
    simp only [granularities, List.mem_cons, List.not_mem_nil, or_false] at hmem
    omega
  obtain ⟨frame, hframe⟩ := exists_layOut (pos_of_isPowerOfTwo hpower) hne
  refine ⟨frame, hframe, hfits frame hframe, fun front back var next hsplit => ?_,
    fun front var hsplit => ?_⟩
  · obtain ⟨hoffset, hwide⟩ := layOut_next hframe hpower hvars hsplit
    -- a cramped variable has granules of 64 bytes, and then the alignment decides
    have halign : Cramped granularity var.size →
        (max granularity next.align ≤ 2 * granularity ↔ next.align ≤ 2 * granularity) := by
      rintro ⟨rfl, -, -⟩
      omega
    rw [hoffset, Nat.add_assoc, Nat.add_assoc, Nat.add_le_add_iff_left, Nat.add_le_add_iff_left,
      add_le_stride_iff hmem hwide (le_max_left _ _), and_congr_right halign]
    refine ⟨Iff.rfl, fun hcramped hsmall => ?_,
      min_add_le_stride hlow (pos_of_isPowerOfTwo hwide) _⟩
    rw [stride_of_cramped hcramped hwide (le_max_left _ _) ((halign hcramped).mpr hsmall)]
  · -- behind the last variable comes the end of the frame, which is rounded up
    obtain ⟨hle, heq⟩ := layOut_last hframe hpower hvars hsplit
    have hsize : Cramped granularity var.size → frame.size = var.offset + 2 * granularity := by
      intro hcramped
      rw [heq (hcramped.1 ▸ by decide), stride_of_cramped hcramped hpower le_rfl (by omega)]
    refine ⟨⟨fun hgap hcramped => ?_, fun hnot => ?_⟩, hsize, ?_⟩
    · have hframe := hsize hcramped
      obtain ⟨rfl, hlarge, -⟩ := hcramped
      omega
    · have hgap : var.size + granularity ≤ stride var.size granularity granularity :=
        (add_le_stride_iff hmem hpower le_rfl).mpr fun hcramped => hnot hcramped.1
      omega
    · have hgap := min_add_le_stride hlow (pos_of_isPowerOfTwo hpower) var.size
      omega

/-- Two variables, the first of which is cramped if granules have 64 bytes. -/
def neighbours : List StackVariable :=
  [{ name := "a", size := 96, align := 16, index := 0 },
    { name := "b", size := 8, align := 8, index := 1 }]

/-- A frame for them is not larger than memory. -/
theorem size_lt_of_layOut_neighbours (frame : Frame) (h : layOut neighbours 64 = .ok frame) :
    frame.size < addressSpace := by
  cases h
  decide

theorem layOut_gap_neighbours :
    ∃ frame, layOut neighbours 64 = .ok frame ∧ frame.size < addressSpace ∧
      (∀ (front back : List StackVariable) (var next : StackVariable),
          frame.vars = front ++ var :: next :: back →
        Cramped 64 var.size → next.align ≤ 2 * 64 → next.offset = var.offset + 2 * 64) ∧
      ∀ (front : List StackVariable) (var : StackVariable), frame.vars = front ++ [var] →
        ¬ Cramped 64 var.size → var.offset + var.size + 64 ≤ frame.size := by
  obtain ⟨frame, hframe, hsize, hnext, hlast⟩ :=
    layOut_gap_iff (show 64 ∈ granularities by decide) (show neighbours ≠ [] by decide) (by decide)
      size_lt_of_layOut_neighbours
  exact ⟨frame, hframe, hsize,
    fun front back var next hsplit => (hnext front back var next hsplit).2.1,
    fun front var hsplit => (hlast front var hsplit).1.mpr⟩

/-- Not every variable is followed by a whole granule that belongs to none. -/
theorem not_forall_layOut_gap :
    ¬ ∀ (granularity : Nat) (vars : List StackVariable), granularity ∈ granularities → vars ≠ [] →
      (∀ var ∈ vars, 0 < var.size ∧ isPowerOfTwo var.align = true) →
      (∀ frame, layOut vars granularity = .ok frame → frame.size < addressSpace) →
      ∃ frame, layOut vars granularity = .ok frame ∧
        (∀ (front back : List StackVariable) (var next : StackVariable),
          frame.vars = front ++ var :: next :: back →
          var.offset + var.size + granularity ≤ next.offset) ∧
        ∀ (front : List StackVariable) (var : StackVariable), frame.vars = front ++ [var] →
          var.offset + var.size + granularity ≤ frame.size := by
  intro h
  obtain ⟨frame, hframe, hnext, -⟩ :=
    h 64 neighbours (by decide) (by decide) (by decide) size_lt_of_layOut_neighbours
  cases hframe
  have hgap := hnext [] [] _ _ rfl
  revert hgap
  decide

end Frame

end Redzone
