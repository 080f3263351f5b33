import Redzone.Proofs.Edits.Run

/-!
# Where the variables of a frame lie

If alignments are powers of two, every variable of a frame starts on a granule, and all its granules
are granules of the frame (`Frame.layOut_within`): the distance to the next variable is a multiple
of the next alignment, which is one of the granularity, and it is no less than the variable's size.
-/

namespace Redzone

theorem le_roundUp {step : Nat} (hstep : 0 < step) (n : Nat) : n ≤ roundUp n step := by
  have hdiv := Nat.div_add_mod (n + step - 1) step
  have hmod := Nat.mod_lt (n + step - 1) hstep
  rw [roundUp, Nat.mul_comm]
  omega

theorem dvd_roundUp (n step : Nat) : step ∣ roundUp n step := Nat.dvd_mul_left _ _

theorem roundUp_of_dvd {n step : Nat} (hstep : 0 < step) (h : step ∣ n) : roundUp n step = n := by
  obtain ⟨k, rfl⟩ := h
  rw [roundUp, Nat.add_sub_assoc hstep, Nat.mul_add_div hstep,
    Nat.div_eq_of_lt (Nat.sub_lt hstep Nat.one_pos), Nat.add_zero, Nat.mul_comm]

theorem ceilDiv_le_iff {n step k : Nat} (hstep : 0 < step) : ceilDiv n step ≤ k ↔ n ≤ k * step := by
  rw [ceilDiv, ← Nat.lt_succ_iff, Nat.div_lt_iff_lt_mul hstep, Nat.succ_mul]
  omega

theorem eq_two_pow_of_isPowerOfTwo {n : Nat} (h : isPowerOfTwo n = true) : n = 2 ^ n.log2 := by
  rw [isPowerOfTwo, beq_iff_eq, Nat.one_shiftLeft] at h
  exact h.symm

theorem dvd_of_isPowerOfTwo {a b : Nat} (ha : isPowerOfTwo a = true) (hb : isPowerOfTwo b = true)
    (hle : a ≤ b) : a ∣ b := by
  rw [eq_two_pow_of_isPowerOfTwo ha, eq_two_pow_of_isPowerOfTwo hb] at hle ⊢
  exact Nat.pow_dvd_pow 2 ((Nat.pow_le_pow_iff_right Nat.one_lt_two).mp hle)

theorem pos_of_isPowerOfTwo {n : Nat} (h : isPowerOfTwo n = true) : 0 < n := by
  rw [eq_two_pow_of_isPowerOfTwo h]
  exact Nat.two_pow_pos _

namespace Frame

variable {granularity offset : Nat} {vars : List StackVariable} {var : StackVariable}

theorem le_paddedSize (size : Nat) : size ≤ paddedSize size := by
  unfold paddedSize
  repeat' split
  all_goals omega

theorem dvd_nextAlign (hpower : isPowerOfTwo granularity = true)
    (hvars : ∀ var ∈ vars, isPowerOfTwo var.align = true) :
    granularity ∣ nextAlign granularity vars ∧ 0 < nextAlign granularity vars := by
  cases vars with
  | nil => exact ⟨Nat.dvd_refl _, pos_of_isPowerOfTwo hpower⟩
  | cons next rest =>
      have halign := isPowerOfTwo_max hpower (hvars next List.mem_cons_self)
      exact ⟨dvd_of_isPowerOfTwo hpower halign (le_max_left _ _), pos_of_isPowerOfTwo halign⟩

theorem le_endFrom : offset ≤ endFrom granularity offset vars := by
  induction vars generalizing offset with
  | nil => exact le_rfl
  | cons var rest ih => exact (Nat.le_add_right _ _).trans ih

/-- The distance to the next variable holds all granules of a variable. -/
theorem ceilDiv_mul_le_stride {nextAlign : Nat} (hpos : 0 < granularity)
    (hdvd : granularity ∣ nextAlign) (hnext : 0 < nextAlign) (size : Nat) :
    ceilDiv size granularity * granularity ≤ stride size granularity nextAlign := by
  obtain ⟨k, hk⟩ := hdvd.trans (dvd_roundUp (max (paddedSize size) (2 * granularity)) nextAlign)
  have hstride : stride size granularity nextAlign = k * granularity := by
    rw [stride, hk, Nat.mul_comm]
  have hsize : size ≤ k * granularity := by
    rw [← hstride]
    exact (le_paddedSize _).trans ((le_max_left _ _).trans (le_roundUp hnext _))
  rw [hstride]
  exact Nat.mul_le_mul_right _ ((ceilDiv_le_iff hpos).mpr hsize)

/-- Variables start on granules, and their granules end before the end of the frame. -/
theorem placeFrom_within (hpower : isPowerOfTwo granularity = true)
    (hvars : ∀ var ∈ vars, isPowerOfTwo var.align = true) (hoffset : granularity ∣ offset)
    (hvar : var ∈ placeFrom granularity offset vars) :
    granularity ∣ var.offset ∧
      var.offset + ceilDiv var.size granularity * granularity ≤
        endFrom granularity offset vars := by
  induction vars generalizing offset with
  | nil => cases hvar
  | cons first rest ih =>
      rw [List.forall_mem_cons] at hvars
      obtain ⟨hdvd, halign⟩ := dvd_nextAlign hpower hvars.2
      rcases List.mem_cons.mp hvar with rfl | hvar
      · exact ⟨hoffset, (Nat.add_le_add_left (ceilDiv_mul_le_stride (pos_of_isPowerOfTwo hpower)
          hdvd halign first.size) _).trans le_endFrom⟩
      · exact ih hvars.2 (Nat.dvd_add hoffset (hdvd.trans (dvd_roundUp _ _))) hvar

theorem isPowerOfTwo_start {align : Nat} (hpower : isPowerOfTwo granularity = true)
    (halign : isPowerOfTwo align = true) :
    isPowerOfTwo (max (max minFrameHeader granularity) align) = true :=
  isPowerOfTwo_max (isPowerOfTwo_max (by decide) hpower) halign

theorem dvd_start {align : Nat} (hpower : isPowerOfTwo granularity = true)
    (halign : isPowerOfTwo align = true) :
    granularity ∣ max (max minFrameHeader granularity) align :=
  dvd_of_isPowerOfTwo hpower (isPowerOfTwo_start hpower halign)
    ((le_max_right _ _).trans (le_max_left _ _))

theorem isPowerOfTwo_of_sorted (hvars : ∀ var ∈ vars, isPowerOfTwo var.align = true) :
    ∀ var ∈ sortByAlign (vars.map raiseAlign), isPowerOfTwo var.align = true := by
  intro var hvar
  obtain ⟨var', hvar', rfl⟩ := List.mem_map.mp ((sortByAlign_perm _).mem_iff.mp hvar)
  exact isPowerOfTwo_max (hvars var' hvar') (by decide)

/-- The granules of a variable are granules of its frame. -/
theorem layOut_within {frame : Frame} (h : layOut vars granularity = .ok frame)
    (hpower : isPowerOfTwo granularity = true)
    (hvars : ∀ var ∈ vars, isPowerOfTwo var.align = true) (hvar : var ∈ frame.vars) :
    granularity ∣ var.offset ∧
      var.offset / granularity + ceilDiv var.size granularity ≤ frame.size / granularity := by
  obtain ⟨first, rest, hsorted, rfl⟩ := layOut_parts h
  have hpos := pos_of_isPowerOfTwo hpower
  have hraised : ∀ var ∈ first :: rest, isPowerOfTwo var.align = true :=
    hsorted ▸ isPowerOfTwo_of_sorted hvars
  obtain ⟨hoffset, hend⟩ := placeFrom_within hpower hraised
    (dvd_start hpower (hraised first List.mem_cons_self)) hvar
  refine ⟨hoffset, (Nat.le_div_iff_mul_le hpos).mpr ?_⟩
  rw [Nat.add_mul, Nat.div_mul_cancel hoffset]
  exact hend.trans (le_roundUp (by decide) _)

theorem exists_layOut (hpos : 0 < granularity) (hvars : vars ≠ []) :
    ∃ frame, layOut vars granularity = .ok frame := by
  unfold layOut
  rw [if_neg hpos.ne']
  dsimp only
  split
  · rename_i hsorted
    have hlength := (sortByAlign_perm (vars.map raiseAlign)).length_eq
    rw [hsorted, List.length_nil, List.length_map] at hlength
    exact absurd (List.length_eq_zero_iff.mp hlength.symm) hvars
  · rw [endOfFrame_eq]
    exact ⟨_, rfl⟩

theorem index_lt_of_layOut {slots : List Slot} {frame : Frame}
    (h : layOut (slotVariables slots) granularity = .ok frame) (hvar : var ∈ frame.vars) :
    var.index < slots.length := by
  obtain ⟨-, -, hperm⟩ := layOut_eq_ok h
  obtain ⟨var', hvar', hnature⟩ := List.mem_map.mp (hperm.mem_iff.mp (List.mem_map_of_mem hvar))
  obtain ⟨⟨slot, index⟩, hslot, rfl⟩ := List.mem_map.mp hvar'
  simp only [nature, Prod.mk.injEq] at hnature
  exact hnature.2.2 ▸ (List.mem_zipIdx hslot).2.1.trans_eq (Nat.zero_add _)

end Frame

end Redzone
