import Mathlib.Data.Finset.Prod
import Mathlib.Data.Int.Interval
import Redzone.Proofs.Pointer
import Redzone.Verify.Function

/-!
# Searches that have no end

The search for the start of a chain of additions follows one addition a round, and ends at a pointer
that is none, or when the sum leaves its word.  What a round does depends on the pointer and on the
sum, and there are only so many of both (`circles_of_rounds`).  So a search either comes back to a
pointer with the sum it had there, and then it goes round for ever, or it ends
(`halts_iff_not_circles`).  If it ends, `roundLimit` rounds are enough for it
(`exists_follow_roundLimit`).

A verification does not look at this: it asks of an operand only that some block lists it, and an
addition may be its own operand.  The survey of accesses, the slots with lifetime markers and the
markers themselves take one search for each pointer, and have no end if one of these has none.
-/

namespace Redzone

namespace Func

/-- One round of a search that is at a pointer, with a sum. -/
inductive Round (f : Func) : Value × Int → Value × Int → Prop
  | add {ptr inner distance : Value} {c sum : Int}
      (hptr : f.defOp ptr = some (.ptrAdd inner distance))
      (hdistance : f.defOp distance = some (.iconst c))
      (hfits : fitsInt64 (sum + c) = true) : f.Round (ptr, sum) (inner, sum + c)

/-- Rounds, one after the other. -/
inductive Rounds (f : Func) : Nat → Value × Int → Value × Int → Prop
  | zero (s : Value × Int) : f.Rounds 0 s s
  | succ {n : Nat} {s t u : Value × Int} (h : f.Round s t) (hrest : f.Rounds n t u) :
      f.Rounds (n + 1) s u

/-- There are only finitely many rounds from `s` on. -/
def Halts (f : Func) (s : Value × Int) : Prop := ∃ n, ∀ t, ¬ f.Rounds n s t

/-- From `s` on the search comes to a pointer, and later to the same pointer with the same sum. -/
def Circles (f : Func) (s : Value × Int) : Prop :=
  ∃ n k t, f.Rounds n s t ∧ f.Rounds (k + 1) t t

variable {f : Func} {s t u : Value × Int} {n k : Nat}

/-! ### Rounds -/

theorem Round.unique (h : f.Round s t) (h' : f.Round s u) : t = u := by
  cases h with
  | add hptr hdistance _ =>
      cases h' with
      | add hptr' hdistance' _ =>
          cases Option.some.inj (hptr.symm.trans hptr')
          cases Option.some.inj (hdistance.symm.trans hdistance')
          rfl

theorem Round.exists_inst (h : f.Round s t) : ∃ i < f.insts.size, s.1 = .inst i := by
  cases h with
  | add hptr _ _ =>
      obtain ⟨i, instruction, rfl, hinst, -⟩ := defOp_eq_some hptr
      exact ⟨i, (Array.getElem?_eq_some_iff.mp hinst).1, rfl⟩

theorem Round.sum_mem (h : f.Round s t) :
    t.2 ∈ Finset.Ico (-0x8000000000000000 : Int) 0x8000000000000000 := by
  cases h with
  | add _ _ hfits => exact Finset.mem_Ico.mpr (fitsInt64_iff.mp hfits)

namespace Rounds

theorem unique (h : f.Rounds n s t) (h' : f.Rounds n s u) : t = u := by
  induction h with
  | zero s =>
      cases h'
      rfl
  | succ hround _ ih =>
      cases h' with
      | succ hround' hrest' =>
          obtain rfl := hround.unique hround'
          exact ih hrest'

theorem trans {m : Nat} (h : f.Rounds n s t) (h' : f.Rounds m t u) : f.Rounds (n + m) s u := by
  induction h with
  | zero s => rwa [Nat.zero_add]
  | succ hround _ ih =>
      rw [Nat.succ_add]
      exact .succ hround (ih h')

theorem exists_split {m : Nat} (h : f.Rounds (n + m) s u) :
    ∃ t, f.Rounds n s t ∧ f.Rounds m t u := by
  induction n generalizing s with
  | zero => exact ⟨s, .zero s, by rwa [Nat.zero_add] at h⟩
  | succ n ih =>
      rw [Nat.succ_add] at h
      cases h with
      | succ hround hrest =>
          obtain ⟨t, hfirst, hsecond⟩ := ih hrest
          exact ⟨t, .succ hround hfirst, hsecond⟩

/-- A search that comes back goes round as often as one likes. -/
theorem repeat_circle (h : f.Rounds (k + 1) t t) (times : Nat) :
    f.Rounds (times * (k + 1)) t t := by
  induction times with
  | zero =>
      rw [Nat.zero_mul]
      exact .zero t
  | succ times ih =>
      rw [Nat.succ_mul]
      exact ih.trans h

theorem sum_mem (h : f.Rounds (n + 1) s t) :
    t.2 ∈ Finset.Ico (-0x8000000000000000 : Int) 0x8000000000000000 := by
  obtain ⟨u, -, hlast⟩ := h.exists_split
  cases hlast with
  | succ hround hnone =>
      cases hnone
      exact hround.sum_mem

/-- A chain that has a start is gone through link by link. -/
theorem le_of_away {v : Value} (haway : f.Away k v) {sum : Int} (h : f.Rounds n (v, sum) t) :
    n ≤ k := by
  induction haway generalizing n sum with
  | root hroot =>
      cases h with
      | zero => exact le_rfl
      | succ hround _ =>
          cases hround with
          | add hptr _ _ => exact absurd hptr (hroot _ _)
  | add hv _ ih =>
      cases h with
      | zero => exact Nat.zero_le _
      | succ hround hrest =>
          cases hround with
          | add hptr _ _ =>
              cases Option.some.inj (hv.symm.trans hptr)
              exact Nat.succ_le_succ (ih hrest)

end Rounds

/-! ### A search comes back or ends -/

/-- After more rounds than there are pointers with sums, one of them has been met twice. -/
theorem circles_of_rounds (h : f.Rounds n s t) (hn : addressSpace * f.insts.size + 1 < n) :
    f.Circles s := by
  have hparts : ∀ j, j ≤ n → ∃ u, f.Rounds j s u ∧ f.Rounds (n - j) u t := by
    intro j hj
    rw [← Nat.add_sub_cancel' hj] at h
    exact h.exists_split
  have : Nonempty (Value × Int) := ⟨s⟩
  choose! place hfrom hto using hparts
  -- all places but the first and the last one are additions, and their sums fit a word
  have hplace : ∀ j ∈ Finset.Ico 1 n, place j ∈ (Finset.range f.insts.size).image Value.inst ×ˢ
      Finset.Ico (-0x8000000000000000 : Int) 0x8000000000000000 := by
    intro j hj
    obtain ⟨hpos, hlt⟩ := Finset.mem_Ico.mp hj
    obtain ⟨i, rfl⟩ := Nat.exists_eq_add_of_le' hpos
    obtain ⟨m, hm⟩ := Nat.exists_eq_add_of_lt hlt
    have hrest := hto (i + 1) hlt.le
    rw [show n - (i + 1) = m + 1 by omega] at hrest
    cases hrest with
    | succ hround _ =>
        obtain ⟨p, hp, hinst⟩ := hround.exists_inst
        refine Finset.mem_product.mpr ⟨?_, (hfrom (i + 1) hlt.le).sum_mem⟩
        exact Finset.mem_image.mpr ⟨p, Finset.mem_range.mpr hp, hinst.symm⟩
  have hcard : ((Finset.range f.insts.size).image Value.inst ×ˢ
      Finset.Ico (-0x8000000000000000 : Int) 0x8000000000000000).card < (Finset.Ico 1 n).card := by
    rw [Finset.card_product, Int.card_Ico, Nat.card_Ico]
    have hle := Finset.card_image_le (s := Finset.range f.insts.size) (f := Value.inst)
    rw [Finset.card_range] at hle
    calc _ ≤ f.insts.size * addressSpace := Nat.mul_le_mul hle (by decide)
      _ = addressSpace * f.insts.size := Nat.mul_comm _ _
      _ < n - 1 := by omega
  obtain ⟨i, hi, j, hj, hne, hsame⟩ := Finset.exists_ne_map_eq_of_card_lt_of_maps_to hcard hplace
  wlog hij : i < j generalizing i j
  · exact this j hj i hi hne.symm hsame.symm (lt_of_le_of_ne (not_lt.mp hij) hne.symm)
  obtain ⟨k, rfl⟩ := Nat.exists_eq_add_of_lt hij
  have hjn := (Finset.mem_Ico.mp hj).2
  have hlong := hfrom _ hjn.le
  rw [← hsame, Nat.add_assoc] at hlong
  obtain ⟨u, hfirst, hcircle⟩ := hlong.exists_split
  obtain rfl := hfirst.unique (hfrom i (hij.trans hjn).le)
  exact ⟨i, k, place i, hfirst, hcircle⟩

theorem halts_iff_not_circles : f.Halts s ↔ ¬ f.Circles s := by
  constructor
  · rintro ⟨rounds, hhalts⟩ ⟨n, k, t, hfirst, hcircle⟩
    have hlong := hfirst.trans (hcircle.repeat_circle rounds)
    have hle : rounds ≤ n + rounds * (k + 1) :=
      (Nat.le_mul_of_pos_right rounds (Nat.succ_pos k)).trans (Nat.le_add_left _ _)
    obtain ⟨m, hm⟩ := Nat.exists_eq_add_of_le hle
    rw [hm] at hlong
    obtain ⟨u, hrounds, -⟩ := hlong.exists_split
    exact hhalts u hrounds
  · intro hnot
    exact ⟨f.roundLimit, fun t h => hnot (circles_of_rounds h (Nat.lt_succ_self _))⟩

/-! ### What the search finds -/

/-- The search has no result exactly as long as there are rounds to go. -/
theorem follow_eq_none_iff : f.follow n s.1 s.2 = none ↔ ∃ t, f.Rounds n s t := by
  induction n generalizing s with
  | zero => exact ⟨fun _ => ⟨s, .zero s⟩, fun _ => rfl⟩
  | succ n ih =>
      by_cases hround : ∃ t, f.Round s t
      · obtain ⟨t, hround⟩ := hround
        have hstep : f.follow (n + 1) s.1 s.2 = f.follow n t.1 t.2 := by
          cases hround with
          | add hptr hdistance hfits => exact follow_add hptr hdistance hfits n
        rw [hstep, ih]
        constructor
        · rintro ⟨u, hrest⟩
          exact ⟨u, .succ hround hrest⟩
        · rintro ⟨u, hall⟩
          cases hall with
          | succ hround' hrest => exact ⟨u, hround.unique hround' ▸ hrest⟩
      · -- without a round the search is over
        refine iff_of_false ?_ ?_
        · rw [follow]
          split
          · rename_i inner distance hptr
            split
            · rename_i c hdistance
              split
              · rename_i hfits
                exact absurd ⟨_, .add hptr hdistance hfits⟩ hround
              · exact Option.some_ne_none _
            · exact Option.some_ne_none _
          · exact Option.some_ne_none _
        · rintro ⟨u, hall⟩
          cases hall with
          | succ hround' _ => exact hround ⟨_, hround'⟩

/-- A result stays if there are more rounds. -/
theorem follow_add_rounds {ptr : Value} {sum : Int} {found : Option (Value × Int)}
    (h : f.follow n ptr sum = some found) (more : Nat) :
    f.follow (n + more) ptr sum = some found := by
  induction n generalizing ptr sum with
  | zero => cases h
  | succ n ih =>
      rw [Nat.succ_add]
      rw [follow] at h ⊢
      split at h
      · rename_i inner distance hptr
        split at h
        · rename_i c hdistance
          split at h
          · rename_i hfits
            rw [if_pos hfits]
            exact ih h
          · rename_i hfits
            rw [if_neg hfits]
            exact h
        · exact h
      · exact h

theorem halts_iff_exists_follow : f.Halts s ↔ ∃ n found, f.follow n s.1 s.2 = some found := by
  constructor
  · rintro ⟨n, hhalts⟩
    refine ⟨n, Option.ne_none_iff_exists'.mp fun hnone => ?_⟩
    obtain ⟨t, hrounds⟩ := follow_eq_none_iff.mp hnone
    exact hhalts t hrounds
  · rintro ⟨n, found, hfound⟩
    refine ⟨n, fun t hrounds => ?_⟩
    cases hfound.symm.trans (follow_eq_none_iff.mpr ⟨t, hrounds⟩)

theorem exists_follow_roundLimit (h : f.Halts s) :
    ∃ found, f.follow f.roundLimit s.1 s.2 = some found := by
  refine Option.ne_none_iff_exists'.mp fun hnone => ?_
  obtain ⟨t, hrounds⟩ := follow_eq_none_iff.mp hnone
  exact halts_iff_not_circles.mp h (circles_of_rounds hrounds (Nat.lt_succ_self _))

theorem baseAndOffset_of_follow {v : Value} {found : Option (Value × Int)}
    (h : f.follow n v 0 = some found) : f.baseAndOffset v = found := by
  have hhalts : f.Halts (v, 0) := halts_iff_exists_follow.mpr ⟨n, found, h⟩
  obtain ⟨found', hlimit⟩ := exists_follow_roundLimit hhalts
  have hmore := follow_add_rounds h f.roundLimit
  rw [Nat.add_comm, follow_add_rounds hlimit n] at hmore
  rw [baseAndOffset, hlimit, Option.join_some]
  exact Option.some.inj hmore

/-- The search from a pointer ends if and only if it does not come back to a pointer with the sum it
had there.  If it ends after some number of rounds, what it finds then is what `baseAndOffset`
gives.  It takes no more rounds than there are pointers with sums, and no more than there are
instructions if the chain of additions has a start. -/
theorem search_halts_iff (f : Func) (v : Value) :
    (f.Halts (v, 0) ↔ ¬ f.Circles (v, 0)) ∧
      (f.Halts (v, 0) ↔ ∃ n found, f.follow n v 0 = some found) ∧
      (∀ n found, f.follow n v 0 = some found → f.baseAndOffset v = found) ∧
      (f.Halts (v, 0) → ∀ n s, f.Rounds n (v, 0) s → n ≤ addressSpace * f.insts.size + 1) ∧
      ∀ k, f.Away k v → ∀ n s, f.Rounds n (v, 0) s → n ≤ f.insts.size := by
  refine ⟨halts_iff_not_circles, halts_iff_exists_follow, fun n found => baseAndOffset_of_follow,
    fun hhalts n s hrounds => ?_, fun k haway n s hrounds => ?_⟩
  · by_contra hlt
    exact halts_iff_not_circles.mp hhalts (circles_of_rounds hrounds (Nat.lt_of_not_le hlt))
  · exact (hrounds.le_of_away haway).trans haway.le_size

end Func

/-- A function that loads through a pointer that was made from itself. -/
def ringFunction : Func where
  name := 0
  params := []
  ret := none
  insts := #[⟨.iconst 0, .int, [], false⟩, ⟨.ptrAdd (.inst 1) (.inst 0), .ptr 0, [], false⟩,
    ⟨.load (.inst 1) 4 none, .int, [], false⟩, ⟨.ret none, .unit, [], false⟩]
  blocks := #[{ argStart := 0, insts := [0, 1, 2, 3] }]

/-- Not every search in a function without findings ends. -/
theorem not_forall_search_halts :
    ¬ ∀ (f : Func) (symbols : SymbolTable), f.verify symbols = .ok [] →
      ∀ i ∈ f.listed, f.Halts (.inst i, 0) := by
  intro h
  have hhalts := h ringFunction (SymbolTable.empty.intern "ring").1 (by decide +kernel) 1
    (by decide)
  have hround : ringFunction.Round (.inst 1, 0) (.inst 1, 0) :=
    .add (c := 0) (show ringFunction.defOp (.inst 1) = some (.ptrAdd (.inst 1) (.inst 0)) from rfl)
      rfl rfl
  exact Func.halts_iff_not_circles.mp hhalts ⟨0, 0, _, .zero _, .succ hround (.zero _)⟩

end Redzone
