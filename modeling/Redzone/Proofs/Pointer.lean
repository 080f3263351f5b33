import Redzone.Proofs.Edit

/-!
# Pointers into objects

`PointsInto` says what it means that constant additions lead from one pointer to another.  The
search for the start of such a chain finds it if there is one (`baseAndOffset_eq_some_iff`).

A pointer has only one distance from the start (`Away.unique`).  So a chain that gets to a start
never comes to a pointer twice, and it has no more links than there are instructions
(`Away.le_size`): it ends long before the search gives up.
-/

namespace Redzone

namespace Func

variable {f g : Func} {base ptr : Value} {sum total : Int}

/-- Constant additions lead from `base` to `ptr`.  From `ptr` inwards the constants add up from
`sum` to `total`, and no sum on the way leaves a signed 64-bit word. -/
inductive PointsInto (f : Func) (base : Value) : (ptr : Value) → (sum total : Int) → Prop
  | base (sum : Int) : f.PointsInto base base sum sum
  | add {ptr inner distance : Value} {c sum total : Int}
      (hptr : f.defOp ptr = some (.ptrAdd inner distance))
      (hdistance : f.defOp distance = some (.iconst c))
      (hfits : -0x8000000000000000 ≤ sum + c ∧ sum + c < 0x8000000000000000)
      (hinner : f.PointsInto base inner (sum + c) total) : f.PointsInto base ptr sum total

/-- A value that is not made by an addition. -/
def IsRoot (f : Func) (v : Value) : Prop :=
  ∀ inner distance, f.defOp v ≠ some (.ptrAdd inner distance)

theorem defOp_eq_some {v : Value} {op : Op} (h : f.defOp v = some op) :
    ∃ i instruction, v = .inst i ∧ f.insts[i]? = some instruction ∧ instruction.op = op := by
  unfold defOp defInst at h
  cases v with
  | inst i =>
      obtain ⟨instruction, hinst, hop⟩ := Option.map_eq_some_iff.mp h
      exact ⟨i, instruction, rfl, hinst, hop⟩
  | arg n => cases h

theorem defOp_of_getElem? {i : InstId} {instruction : Instruction}
    (h : f.insts[i]? = some instruction) : f.defOp (.inst i) = some instruction.op := by
  simp [defOp, defInst, Value.inst?, h]

theorem fitsInt64_iff {n : Int} :
    fitsInt64 n = true ↔ -0x8000000000000000 ≤ n ∧ n < 0x8000000000000000 := by
  simp [fitsInt64]

/-! ### No chain is longer than the arena -/

/-- There are `k` additions between a value and its root. -/
inductive Away (f : Func) : Nat → Value → Prop
  | root {v : Value} (hroot : f.IsRoot v) : f.Away 0 v
  | add {k : Nat} {v inner distance : Value} (hv : f.defOp v = some (.ptrAdd inner distance))
      (hinner : f.Away k inner) : f.Away (k + 1) v

theorem Away.unique {k k' : Nat} {v : Value} (h : f.Away k v) (h' : f.Away k' v) : k = k' := by
  induction h generalizing k' with
  | root hroot =>
      cases h' with
      | root _ => rfl
      | add hv _ => exact absurd hv (hroot _ _)
  | add hv _ ih =>
      cases h' with
      | root hroot => exact absurd hv (hroot _ _)
      | add hv' hinner' =>
          cases Option.some.inj (hv.symm.trans hv')
          rw [ih hinner']

theorem Away.exists_path {k : Nat} {v : Value} (h : f.Away k v) :
    ∃ path : List InstId, path.length = k ∧ path.Nodup ∧
      ∀ i ∈ path, i < f.insts.size ∧ ∃ j ≤ k, f.Away j (.inst i) := by
  induction h with
  | root _ => exact ⟨[], rfl, List.nodup_nil, by simp⟩
  | @add k v inner distance hv hinner ih =>
      obtain ⟨path, hlength, hnodup, hpath⟩ := ih
      obtain ⟨i, instruction, rfl, hinst, -⟩ := defOp_eq_some hv
      have hhead : f.Away (k + 1) (.inst i) := .add hv hinner
      refine ⟨i :: path, by rw [List.length_cons, hlength], List.nodup_cons.mpr ⟨?_, hnodup⟩, ?_⟩
      · -- what comes later is nearer to the root
        intro hmem
        obtain ⟨-, j, hj, haway⟩ := hpath i hmem
        have := haway.unique hhead
        omega
      · rw [List.forall_mem_cons]
        refine ⟨⟨(Array.getElem?_eq_some_iff.mp hinst).1, k + 1, le_rfl, hhead⟩, ?_⟩
        intro j hj
        obtain ⟨hlt, l, hl, haway⟩ := hpath j hj
        exact ⟨hlt, l, hl.trans (Nat.le_succ k), haway⟩

theorem Away.le_size {k : Nat} {v : Value} (h : f.Away k v) : k ≤ f.insts.size := by
  obtain ⟨path, hlength, hnodup, hpath⟩ := h.exists_path
  have hsubset : path ⊆ List.range f.insts.size :=
    fun i hi => List.mem_range.mpr (hpath i hi).1
  have hle := (List.subperm_of_subset hnodup hsubset).length_le
  rwa [hlength, List.length_range] at hle

/-! ### The search -/

section

variable {inner distance : Value} {c : Int}

theorem follow_add (hptr : f.defOp ptr = some (.ptrAdd inner distance))
    (hdistance : f.defOp distance = some (.iconst c)) (hfits : fitsInt64 (sum + c) = true)
    (rounds : Nat) : f.follow (rounds + 1) ptr sum = f.follow rounds inner (sum + c) := by
  rw [follow, hptr]
  simp only [hdistance, hfits, if_true]

theorem follow_root (hroot : f.IsRoot ptr) (rounds : Nat) :
    f.follow (rounds + 1) ptr sum = some (some (ptr, sum)) := by
  rw [follow]
  split
  · rename_i inner distance hptr
    exact absurd hptr (hroot inner distance)
  · rfl

end

/-- What the search finds is the start of a chain. -/
theorem pointsInto_of_follow {rounds : Nat}
    (h : f.follow rounds ptr sum = some (some (base, total))) :
    f.PointsInto base ptr sum total ∧ f.IsRoot base := by
  induction rounds generalizing ptr sum with
  | zero => cases h
  | succ rounds ih =>
      rw [follow] at h
      split at h
      · rename_i inner distance hptr
        split at h
        · rename_i c hdistance
          split at h
          · rename_i hfits
            obtain ⟨hinner, hroot⟩ := ih h
            exact ⟨.add hptr hdistance (fitsInt64_iff.mp hfits) hinner, hroot⟩
          · cases h
        · cases h
      · rename_i hroot
        cases h
        exact ⟨.base _, fun inner distance hptr => hroot inner distance hptr⟩

/-- A chain is followed to its start, in one round for each link. -/
theorem PointsInto.exists_follow (h : f.PointsInto base ptr sum total) (hroot : f.IsRoot base) :
    ∃ k, f.Away k ptr ∧ ∀ rounds, k < rounds →
      f.follow rounds ptr sum = some (some (base, total)) := by
  induction h with
  | base sum =>
      refine ⟨0, .root hroot, fun rounds hpos => ?_⟩
      obtain ⟨rounds, rfl⟩ := Nat.exists_eq_add_of_lt hpos
      exact follow_root hroot _
  | add hptr hdistance hfits _ ih =>
      obtain ⟨k, haway, hfollow⟩ := ih
      refine ⟨k + 1, .add hptr haway, fun rounds hlt => ?_⟩
      obtain ⟨rounds, rfl⟩ := Nat.exists_eq_add_of_lt hlt
      rw [follow_add hptr hdistance (fitsInt64_iff.mpr hfits), hfollow _ (by omega)]

theorem size_lt_roundLimit (f : Func) : f.insts.size < f.roundLimit := by
  have hle : f.insts.size ≤ addressSpace * f.insts.size := Nat.le_mul_of_pos_left _ (by decide)
  unfold roundLimit
  omega

theorem baseAndOffset_eq_some_iff :
    f.baseAndOffset ptr = some (base, total) ↔ f.PointsInto base ptr 0 total ∧ f.IsRoot base := by
  rw [baseAndOffset, Option.join_eq_some_iff]
  constructor
  · exact pointsInto_of_follow
  · rintro ⟨hpoints, hroot⟩
    obtain ⟨k, haway, hfollow⟩ := hpoints.exists_follow hroot
    exact hfollow _ (haway.le_size.trans_lt f.size_lt_roundLimit)

theorem PointsInto.mono (h : f.PointsInto base ptr sum total)
    (hadd : ∀ v inner distance, f.defOp v = some (.ptrAdd inner distance) →
      g.defOp v = some (.ptrAdd inner distance))
    (hconst : ∀ v c, f.defOp v = some (.iconst c) → g.defOp v = some (.iconst c)) :
    g.PointsInto base ptr sum total := by
  induction h with
  | base sum => exact .base sum
  | add hptr hdistance hfits _ ih =>
      exact .add (hadd _ _ _ hptr) (hconst _ _ hdistance) hfits ih

end Func

end Redzone
