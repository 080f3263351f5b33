import Redzone.Proofs.Frame.Layout

/-!
# Order and distance of the variables of a frame

A layout sorts its variables by alignment, and the sort is stable (`layOut_arranges`).  Widest first
is what keeps the running offset aligned: it is always a multiple of the next alignment, and so of
every later one (`placeFrom_aligned`).  Between two variables, in front of the first and behind the
last there are always bytes that belong to none (`layOut_spaced`).
-/

namespace Redzone

/-- A variable as it was before it was placed. -/
def StackVariable.unplaced (var : StackVariable) : StackVariable := { var with offset := 0 }

namespace Frame

variable {granularity offset : Nat} {vars : List StackVariable} {var : StackVariable}

/-! ### The order of the variables -/

/-- Widest alignment first. -/
def WidestFirst (vars : List StackVariable) : Prop :=
  vars.Pairwise fun var next => next.align ≤ var.align

theorem widestFirst_insertByAlign (h : WidestFirst vars) :
    WidestFirst (insertByAlign var vars) := by
  induction vars with
  | nil => exact List.pairwise_singleton _ _
  | cons other rest ih =>
      obtain ⟨hother, hrest⟩ := List.pairwise_cons.mp h
      rw [insertByAlign]
      split
      · rename_i hle
        refine List.pairwise_cons.mpr ⟨?_, h⟩
        intro next hnext
        rcases List.mem_cons.mp hnext with rfl | hnext
        · exact hle
        · exact (hother next hnext).trans hle
      · rename_i hlt
        refine List.pairwise_cons.mpr ⟨?_, ih hrest⟩
        intro next hnext
        rcases List.mem_cons.mp ((insertByAlign_perm var rest).mem_iff.mp hnext) with rfl | hnext
        · exact (Nat.lt_of_not_le hlt).le
        · exact hother next hnext

theorem widestFirst_sortByAlign (vars : List StackVariable) : WidestFirst (sortByAlign vars) := by
  induction vars with
  | nil => exact List.Pairwise.nil
  | cons var rest ih => exact widestFirst_insertByAlign ih

/-- A variable passes only such as are aligned more than it. -/
theorem filter_insertByAlign (align : Nat) (var : StackVariable) (vars : List StackVariable) :
    (insertByAlign var vars).filter (·.align = align) = (var :: vars).filter (·.align = align) := by
  induction vars with
  | nil => rfl
  | cons other rest ih =>
      rw [insertByAlign]
      split
      · rfl
      · rename_i hlt
        rw [List.filter_cons, ih]
        by_cases hother : other.align = align
        · have hvar : var.align ≠ align := by omega
          simp [hother, hvar]
        · simp [List.filter_cons, hother]

theorem filter_sortByAlign (align : Nat) (vars : List StackVariable) :
    (sortByAlign vars).filter (·.align = align) = vars.filter (·.align = align) := by
  induction vars with
  | nil => rfl
  | cons var rest ih =>
      have hcons : sortByAlign (var :: rest) = insertByAlign var (sortByAlign rest) := rfl
      rw [hcons, filter_insertByAlign, List.filter_cons, List.filter_cons, ih]

/-- A frame holds some variables with their alignments raised, the widest first and those of one
alignment as they were; nothing else about a variable is changed, its offset apart. -/
structure Arranges (frame : Frame) (vars : List StackVariable) : Prop where
  perm : (frame.vars.map StackVariable.unplaced).Perm
    (vars.map fun var => (raiseAlign var).unplaced)
  sorted : WidestFirst frame.vars
  stable : ∀ align, (frame.vars.map StackVariable.unplaced).filter (·.align = align) =
    (vars.map fun var => (raiseAlign var).unplaced).filter (·.align = align)

theorem map_unplaced_placeFrom (granularity offset : Nat) (vars : List StackVariable) :
    (placeFrom granularity offset vars).map StackVariable.unplaced =
      vars.map StackVariable.unplaced := by
  induction vars generalizing offset with
  | nil => rfl
  | cons var rest ih =>
      rw [placeFrom, List.map_cons, List.map_cons, ih]
      rfl

theorem widestFirst_of_map_unplaced {placed : List StackVariable}
    (heq : placed.map StackVariable.unplaced = vars.map StackVariable.unplaced)
    (h : WidestFirst vars) : WidestFirst placed := by
  have hmap : ((vars.map StackVariable.unplaced).Pairwise fun var next => next.align ≤ var.align) :=
    List.pairwise_map.mpr h
  rw [← heq] at hmap
  exact List.pairwise_map.mp hmap

theorem layOut_arranges {frame : Frame} (h : layOut vars granularity = .ok frame) :
    frame.Arranges vars := by
  obtain ⟨first, rest, hsorted, rfl⟩ := layOut_parts h
  have hmap := map_unplaced_placeFrom granularity
    (max (max minFrameHeader granularity) first.align) (first :: rest)
  have hraised : vars.map (fun var => (raiseAlign var).unplaced) =
      (vars.map raiseAlign).map StackVariable.unplaced := by
    rw [List.map_map]
    rfl
  refine ⟨?_, widestFirst_of_map_unplaced hmap (hsorted ▸ widestFirst_sortByAlign _), ?_⟩
  · rw [hmap, hraised, ← hsorted]
    exact (sortByAlign_perm _).map _
  · intro align
    rw [hmap, hraised, ← hsorted, List.filter_map, List.filter_map]
    exact congrArg _ (filter_sortByAlign align _)

/-! ### Offsets -/

theorem lt_paddedSize (size : Nat) : size < paddedSize size := by
  unfold paddedSize
  repeat' split
  all_goals omega

theorem lt_stride {nextAlign : Nat} (hnext : 0 < nextAlign) (size granularity : Nat) :
    size < stride size granularity nextAlign := by
  calc size < paddedSize size := lt_paddedSize size
    _ ≤ max (paddedSize size) (2 * granularity) := le_max_left _ _
    _ ≤ stride size granularity nextAlign := le_roundUp hnext _

theorem le_offset_of_placeFrom (hvar : var ∈ placeFrom granularity offset vars) :
    offset ≤ var.offset := by
  induction vars generalizing offset with
  | nil => cases hvar
  | cons first rest ih =>
      rcases List.mem_cons.mp hvar with rfl | hvar
      · exact le_rfl
      · exact (Nat.le_add_right _ _).trans (ih hvar)

section Powers

variable (hpower : isPowerOfTwo granularity = true)
  (hvars : ∀ var ∈ vars, isPowerOfTwo var.align = true)

include hpower hvars

theorem lt_endFrom (hvar : var ∈ placeFrom granularity offset vars) :
    var.offset + var.size < endFrom granularity offset vars := by
  induction vars generalizing offset with
  | nil => cases hvar
  | cons first rest ih =>
      rw [List.forall_mem_cons] at hvars
      rcases List.mem_cons.mp hvar with rfl | hvar
      · exact lt_of_lt_of_le
          (Nat.add_lt_add_left (lt_stride (dvd_nextAlign hpower hvars.2).2 _ _) _) le_endFrom
      · exact ih hvars.2 hvar

/-- Every variable ends before the next one starts, with at least a byte between them. -/
theorem pairwise_placeFrom (offset : Nat) :
    (placeFrom granularity offset vars).Pairwise fun var next =>
      var.offset + var.size < next.offset := by
  induction vars generalizing offset with
  | nil => exact List.Pairwise.nil
  | cons first rest ih =>
      rw [List.forall_mem_cons] at hvars
      refine List.pairwise_cons.mpr ⟨?_, ih hvars.2 _⟩
      intro next hnext
      exact lt_of_lt_of_le
        (Nat.add_lt_add_left (lt_stride (dvd_nextAlign hpower hvars.2).2 _ _) _)
        (le_offset_of_placeFrom hnext)

/-- From an offset that suits the first variable on, all variables are aligned. -/
theorem placeFrom_aligned (hsorted : WidestFirst vars)
    (hoffset : nextAlign granularity vars ∣ offset)
    (hvar : var ∈ placeFrom granularity offset vars) :
    granularity ∣ var.offset ∧ var.align ∣ var.offset := by
  induction vars generalizing offset with
  | nil => cases hvar
  | cons first rest ih =>
      rw [List.forall_mem_cons] at hvars
      obtain ⟨hfirst, hrest⟩ := List.pairwise_cons.mp hsorted
      have hwide := isPowerOfTwo_max hpower hvars.1
      rcases List.mem_cons.mp hvar with rfl | hvar
      · exact ⟨(dvd_of_isPowerOfTwo hpower hwide (le_max_left _ _)).trans hoffset,
          (dvd_of_isPowerOfTwo hvars.1 hwide (le_max_right _ _)).trans hoffset⟩
      · -- what comes next is aligned no more than the first variable, so the offset suits it as
        -- well
        have hnext : nextAlign granularity rest ∣ nextAlign granularity (first :: rest) := by
          cases rest with
          | nil => exact dvd_of_isPowerOfTwo hpower hwide (le_max_left _ _)
          | cons next rest =>
              exact dvd_of_isPowerOfTwo
                (isPowerOfTwo_max hpower (hvars.2 next List.mem_cons_self)) hwide
                (max_le_max le_rfl (hfirst next List.mem_cons_self))
        exact ih hvars.2 hrest (Nat.dvd_add (hnext.trans hoffset) (dvd_roundUp _ _)) hvar

theorem dvd_endFrom (hoffset : granularity ∣ offset) :
    granularity ∣ endFrom granularity offset vars := by
  induction vars generalizing offset with
  | nil => exact hoffset
  | cons first rest ih =>
      rw [List.forall_mem_cons] at hvars
      exact ih hvars.2 (Nat.dvd_add hoffset
        ((dvd_nextAlign hpower hvars.2).1.trans (dvd_roundUp _ _)))

end Powers

/-- The variables of a frame are aligned, in the order of their offsets, and with unused bytes
around each. -/
structure Spaced (frame : Frame) : Prop where
  offset : ∀ var ∈ frame.vars, frame.granularity ∣ var.offset ∧ var.align ∣ var.offset
  align : frame.granularity ∣ frame.align ∧ ∀ var ∈ frame.vars, var.align ∣ frame.align
  header : ∀ var ∈ frame.vars, minFrameHeader ≤ var.offset
  apart : frame.vars.Pairwise fun var next => var.offset + var.size < next.offset
  inside : ∀ var ∈ frame.vars, var.offset + var.size < frame.size
  size : minFrameHeader ∣ frame.size ∧ frame.granularity ∣ frame.size

/-- Rounding a multiple of one power of two up to another leaves it a multiple of the first. -/
theorem dvd_roundUp_of_dvd {n step size : Nat} (hn : isPowerOfTwo n = true)
    (hstep : isPowerOfTwo step = true) (h : n ∣ size) : n ∣ roundUp size step := by
  rcases Nat.le_total n step with hle | hle
  · exact (dvd_of_isPowerOfTwo hn hstep hle).trans (dvd_roundUp _ _)
  · rwa [roundUp_of_dvd (pos_of_isPowerOfTwo hstep) ((dvd_of_isPowerOfTwo hstep hn hle).trans h)]

theorem layOut_spaced {frame : Frame} (h : layOut vars granularity = .ok frame)
    (hpower : isPowerOfTwo granularity = true)
    (hvars : ∀ var ∈ vars, isPowerOfTwo var.align = true) : frame.Spaced := by
  obtain ⟨first, rest, hsorted, rfl⟩ := layOut_parts h
  have hraised : ∀ var ∈ first :: rest, isPowerOfTwo var.align = true :=
    hsorted ▸ isPowerOfTwo_of_sorted hvars
  have hwidest : WidestFirst (first :: rest) := hsorted ▸ widestFirst_sortByAlign _
  have hfirst := hraised first List.mem_cons_self
  have hwide := isPowerOfTwo_max hpower hfirst
  have hoffset : nextAlign granularity (first :: rest) ∣
      max (max minFrameHeader granularity) first.align :=
    dvd_of_isPowerOfTwo hwide (isPowerOfTwo_start hpower hfirst)
      (max_le_max (le_max_right _ _) le_rfl)
  refine
    { offset := fun var hvar => placeFrom_aligned hpower hraised hwidest hoffset hvar
      align := ⟨dvd_of_isPowerOfTwo hpower hwide (le_max_left _ _), ?_⟩
      header := fun var hvar =>
        ((le_max_left _ _).trans (le_max_left _ _)).trans (le_offset_of_placeFrom hvar)
      apart := pairwise_placeFrom hpower hraised _
      inside := fun var hvar =>
        (lt_endFrom hpower hraised hvar).trans_le (le_roundUp (by decide) _)
      size := ⟨dvd_roundUp _ _,
        dvd_roundUp_of_dvd hpower (by decide) (dvd_endFrom hpower hraised
          (dvd_start hpower hfirst))⟩ }
  -- alignments are those of the sorted list, of which the first is the widest
  intro placed hplaced
  have hmem := List.mem_map_of_mem (f := StackVariable.unplaced) hplaced
  rw [map_unplaced_placeFrom] at hmem
  obtain ⟨var, hvar, heq⟩ := List.mem_map.mp hmem
  have halign : var.unplaced.align = placed.unplaced.align := by rw [heq]
  change placed.unplaced.align ∣ _
  rw [← halign]
  refine dvd_of_isPowerOfTwo (hraised var hvar) hwide (le_max_of_le_right ?_)
  rcases List.mem_cons.mp hvar with rfl | hvar
  · exact le_rfl
  · exact (List.pairwise_cons.mp hwidest).1 var hvar

end Frame

end Redzone
