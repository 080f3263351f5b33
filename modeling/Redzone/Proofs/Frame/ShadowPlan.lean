import Redzone.Proofs.Edit

/-!
# Plans for writing shadow bytes

A plan for some places has to write each byte that is wanted, and every byte that it writes has to
be the one it was given for that place (`Plans`).  Then the order of the writes does not matter, and
no place outside the range is touched.

## Strategy

Plans for neighbouring ranges make a plan for both of them (`Plans.append`), so a loop that goes
from place to place is about one range in front and one behind.  The loops read and subtract; that
this never fails is proved together with what they plan, since both need the same facts.

* **Stores** (`exists_stores`).  A store is as wide as the window that it was chosen in allows, and
  narrower if the last bytes of the window are not wanted.  In both cases it ends within the range:
  what lies in a window is covered by a store that does (`coverWidth_le_windowWidth`).  What follows
  the store is planned from its end on, which is why the loop is told how much is `done`.
* **Runs** (`exists_runEnd`, `exists_copy`).  A run is filled by a routine or left for later; in the
  second case it is stored with what comes behind it.  The range in front of the run is what is not
  done yet, from `done` to the run.

It remains that a plan for a range within a mask and bytes of one length can be made
(`exists_plan`).
-/

namespace Redzone

namespace ShadowWrite

/-- Where a write starts. -/
def start : ShadowWrite → Nat
  | store offset _ => offset
  | fill offset _ _ => offset

def bytes : ShadowWrite → List UInt8
  | store _ bytes => bytes
  | fill _ length value => List.replicate length value

/-- The byte that a write puts at place `k`. -/
def byteAt? (write : ShadowWrite) (k : Nat) : Option UInt8 :=
  if write.start ≤ k then write.bytes[k - write.start]? else none

theorem byteAt?_eq_some_iff {write : ShadowWrite} {k : Nat} {byte : UInt8} :
    write.byteAt? k = some byte ↔ ∃ j, k = write.start + j ∧ write.bytes[j]? = some byte := by
  unfold byteAt?
  by_cases hle : write.start ≤ k
  · obtain ⟨j, rfl⟩ := Nat.exists_eq_add_of_le hle
    simp
  · rw [if_neg hle]
    refine iff_of_false (by simp) ?_
    rintro ⟨j, rfl, -⟩
    exact hle (Nat.le_add_right _ j)

/-- A write for which there is code: a store of some bytes but no more than a word, or a routine
that exists. -/
def Codable : ShadowWrite → Prop
  | store _ bytes => bytes ≠ [] ∧ bytes.length ≤ 8
  | fill _ _ value => value ∈ EntryPoint.setShadowValues

/-- A write to some places from `first` to `last`; a store has a width that there are stores of. -/
def Fits (first last : Nat) : ShadowWrite → Prop
  | store offset bytes =>
      bytes.length ∈ [1, 2, 4, 8] ∧ first ≤ offset ∧ offset + bytes.length ≤ last
  | fill offset length _ => first ≤ offset ∧ offset + length ≤ last

variable {mask given : List UInt8} {first first' middle last last' k : Nat} {write : ShadowWrite}
  {writes writes' : List ShadowWrite}

theorem Fits.mono (h : write.Fits first last) (hfirst : first' ≤ first) (hlast : last ≤ last') :
    write.Fits first' last' := by
  cases write with
  | store offset bytes => exact ⟨h.1, hfirst.trans h.2.1, h.2.2.trans hlast⟩
  | fill offset length value => exact ⟨hfirst.trans h.1, h.2.trans hlast⟩

theorem Fits.bounds (h : write.Fits first last) {byte : UInt8}
    (hbyte : write.byteAt? k = some byte) : first ≤ k ∧ k < last := by
  obtain ⟨j, rfl, hj⟩ := byteAt?_eq_some_iff.mp hbyte
  have hlt := (List.getElem?_eq_some_iff.mp hj).1
  cases write with
  | store offset bytes =>
      simp only [start, ShadowWrite.bytes] at hlt ⊢
      obtain ⟨-, hfirst, hlast⟩ := h
      omega
  | fill offset length value =>
      simp only [start, ShadowWrite.bytes, List.length_replicate] at hlt ⊢
      obtain ⟨hfirst, hlast⟩ := h
      omega

/-! ### Plans and their parts -/

/-- What a plan promises about the places from `first` to `last`. -/
structure Plans (mask given : List UInt8) (first last : Nat)
    (writes : List ShadowWrite) : Prop where
  codable : ∀ write ∈ writes, write.Codable
  fits : ∀ write ∈ writes, write.Fits first last
  agrees : ∀ write ∈ writes, ∀ k byte, write.byteAt? k = some byte → given[k]? = some byte
  covers : ∀ k, first ≤ k → k < last → mask[k]? ≠ some 0 →
    ∃ write ∈ writes, write.byteAt? k ≠ none

namespace Plans

theorem within (h : Plans mask given first last writes) :
    ∀ write ∈ writes, ∀ k byte, write.byteAt? k = some byte →
      first ≤ k ∧ k < last ∧ given[k]? = some byte := by
  intro write hwrite k byte hbyte
  obtain ⟨hfirst, hlast⟩ := (h.fits write hwrite).bounds hbyte
  exact ⟨hfirst, hlast, h.agrees write hwrite k byte hbyte⟩

theorem nil (h : last ≤ first) : Plans mask given first last [] :=
  ⟨by simp, by simp, by simp, by omega⟩

theorem skip (h : Plans mask given (first + 1) last writes) (hmask : mask[first]? = some 0) :
    Plans mask given first last writes where
  codable := h.codable
  fits write hwrite := (h.fits write hwrite).mono (Nat.le_succ first) le_rfl
  agrees := h.agrees
  covers k hfirst hlast hk := by
    rcases Nat.eq_or_lt_of_le hfirst with rfl | hlt
    · exact absurd hmask hk
    · exact h.covers k hlt hlast hk

theorem append (h : Plans mask given first middle writes)
    (h' : Plans mask given middle last writes') (hfirst : first ≤ middle) (hlast : middle ≤ last) :
    Plans mask given first last (writes ++ writes') where
  codable := by
    rw [List.forall_mem_append]
    exact ⟨h.codable, h'.codable⟩
  fits := by
    rw [List.forall_mem_append]
    exact ⟨fun write hwrite => (h.fits write hwrite).mono le_rfl hlast,
      fun write hwrite => (h'.fits write hwrite).mono hfirst le_rfl⟩
  agrees := by
    rw [List.forall_mem_append]
    exact ⟨h.agrees, h'.agrees⟩
  covers k hk hk' hmask := by
    rcases Nat.lt_or_ge k middle with hlt | hge
    · obtain ⟨write, hwrite, hsome⟩ := h.covers k hk hlt hmask
      exact ⟨write, List.mem_append_left _ hwrite, hsome⟩
    · obtain ⟨write, hwrite, hsome⟩ := h'.covers k hge hk' hmask
      exact ⟨write, List.mem_append_right _ hwrite, hsome⟩

/-- One store of the bytes that were given. -/
theorem store {i width : Nat} (hwidth : width ∈ [1, 2, 4, 8]) (hend : i + width ≤ given.length) :
    Plans mask given i (i + width) [.store i ((given.drop i).take width)] := by
  have hlength : ((given.drop i).take width).length = width := by
    rw [List.length_take, List.length_drop]
    omega
  have hbyte : ∀ j < width, ((given.drop i).take width)[j]? = given[i + j]? := by
    intro j hj
    rw [List.getElem?_take_of_lt hj, List.getElem?_drop]
  simp only [List.mem_cons, List.not_mem_nil, or_false] at hwidth
  refine ⟨?_, ?_, ?_, ?_⟩
  · rw [List.forall_mem_singleton, Codable, ← List.length_pos_iff, hlength]
    omega
  · rw [List.forall_mem_singleton, Fits, hlength]
    exact ⟨by simpa using hwidth, le_rfl, le_rfl⟩
  · rw [List.forall_mem_singleton]
    intro k byte hk
    obtain ⟨j, rfl, hj⟩ := byteAt?_eq_some_iff.mp hk
    have hlt := (List.getElem?_eq_some_iff.mp hj).1
    rw [ShadowWrite.bytes, hlength] at hlt
    rwa [ShadowWrite.bytes, hbyte j hlt] at hj
  · intro k hfirst hlast _
    obtain ⟨j, rfl⟩ := Nat.exists_eq_add_of_le hfirst
    have hlt : i + j < given.length := by omega
    refine ⟨_, List.mem_singleton_self _, Option.ne_none_iff_exists'.mpr ⟨given[i + j], ?_⟩⟩
    rw [byteAt?_eq_some_iff]
    exact ⟨j, rfl, (hbyte j (by omega)).trans (List.getElem?_eq_getElem hlt)⟩

/-- One routine for a run of equal bytes. -/
theorem fill {i count : Nat} {value : UInt8} (hvalue : value ∈ EntryPoint.setShadowValues)
    (hrun : ∀ k, i ≤ k → k < i + count → given[k]? = some value) :
    Plans mask given i (i + count) [.fill i count value] where
  codable := by simpa [Codable] using hvalue
  fits := by simp [Fits]
  agrees := by
    rw [List.forall_mem_singleton]
    intro k byte hk
    obtain ⟨j, rfl, hj⟩ := byteAt?_eq_some_iff.mp hk
    rw [ShadowWrite.bytes, List.getElem?_replicate] at hj
    obtain ⟨hlt, heq⟩ := Option.ite_none_right_eq_some.mp hj
    rw [← heq]
    exact hrun _ (Nat.le_add_right _ _) (Nat.add_lt_add_left hlt i)
  covers k hfirst hlast _ := by
    obtain ⟨j, rfl⟩ := Nat.exists_eq_add_of_le hfirst
    have hlt : j < count := by omega
    exact ⟨_, List.mem_singleton_self _, by simp [byteAt?, start, ShadowWrite.bytes, hlt]⟩

end Plans

/-! ### Stores -/

theorem byteAt_toArray {i : Nat} (h : i < given.length) :
    byteAt given.toArray i = .ok given[i] := by
  rw [byteAt, List.getElem?_toArray, List.getElem?_eq_getElem h]
  rfl

theorem bytesAt_toArray {i width : Nat} (h : i + width ≤ given.length) :
    bytesAt given.toArray i width = .ok ((given.drop i).take width) := by
  rw [bytesAt, require_of (by simpa using h)]
  simp

theorem coverWidth_mem (used : Nat) : coverWidth used ∈ [1, 2, 4, 8] := by
  unfold coverWidth
  split_ifs <;> decide

theorem coverWidth_pos (used : Nat) : 1 ≤ coverWidth used := by
  unfold coverWidth
  split_ifs <;> decide

theorem windowWidth_le (available : Nat) : windowWidth available ≤ available := by
  unfold windowWidth
  split_ifs <;> omega

theorem windowWidth_pos {available : Nat} (h : 1 ≤ available) : 1 ≤ windowWidth available := by
  unfold windowWidth
  split_ifs <;> omega

theorem coverWidth_le_windowWidth {used available : Nat} (hpos : 1 ≤ used)
    (h : used ≤ windowWidth available) : coverWidth used ≤ windowWidth available := by
  unfold windowWidth at h ⊢
  unfold coverWidth
  split_ifs at h ⊢ <;> omega

theorem exists_lastWanted {i farthest : Nat} (h : i + farthest < mask.length) :
    ∃ found ≤ farthest, lastWanted mask.toArray i farthest = .ok found := by
  induction farthest with
  | zero => exact ⟨0, le_rfl, rfl⟩
  | succ farthest ih =>
      rw [lastWanted, byteAt_toArray h, ok_bind]
      split
      · obtain ⟨found, hle, hfound⟩ := ih (by omega)
        exact ⟨found, hle.trans (Nat.le_succ _), hfound⟩
      · exact ⟨farthest + 1, le_rfl, rfl⟩

section Loops

variable {stop : Nat} (hlength : mask.length = given.length) (hstop : stop ≤ mask.length)

include hlength hstop

/-- One store can be chosen, and it ends within the range. -/
theorem exists_store {i : Nat} (hi : i < stop) :
    ∃ farthest found, checkedSub (windowWidth (stop - i)) 1 = .ok farthest ∧
      lastWanted mask.toArray i farthest = .ok found ∧ i + coverWidth (found + 1) ≤ stop ∧
      bytesAt given.toArray i (coverWidth (found + 1)) =
        .ok ((given.drop i).take (coverWidth (found + 1))) := by
  have hpos := windowWidth_pos (show 1 ≤ stop - i by omega)
  have hle := windowWidth_le (stop - i)
  obtain ⟨found, hfound, hlast⟩ := exists_lastWanted
    (show i + (windowWidth (stop - i) - 1) < mask.length by omega)
  have hcover : coverWidth (found + 1) ≤ windowWidth (stop - i) :=
    coverWidth_le_windowWidth (Nat.le_add_left 1 found) (by omega)
  exact ⟨_, found, checkedSub_of_le hpos, hlast, by omega, bytesAt_toArray (by omega)⟩

theorem exists_stores (left i done : Nat) (hleft : i + left = stop) (hdone : done ≤ stop) :
    ∃ writes, stores mask.toArray given.toArray stop left i done = .ok writes ∧
      Plans mask given (max i done) stop writes := by
  induction left generalizing i done with
  | zero => exact ⟨[], rfl, .nil (by omega)⟩
  | succ left ih =>
      rw [stores]
      by_cases hwritten : i < done
      · obtain ⟨writes, hwrites, hplans⟩ := ih (i + 1) done (by omega) hdone
        rw [if_pos hwritten]
        refine ⟨writes, hwrites, ?_⟩
        rwa [max_eq_right (by omega)] at hplans ⊢
      · have hi : i < mask.length := by omega
        rw [if_neg hwritten, byteAt_toArray hi, ok_bind, max_eq_left (by omega)]
        by_cases hunwanted : mask[i] = 0
        · obtain ⟨writes, hwrites, hplans⟩ := ih (i + 1) done (by omega) hdone
          rw [if_pos hunwanted]
          rw [max_eq_left (by omega)] at hplans
          exact ⟨writes, hwrites, hplans.skip (by rw [List.getElem?_eq_getElem hi, hunwanted])⟩
        · obtain ⟨farthest, found, hfarthest, hfound, hend, hdata⟩ :=
            exists_store hlength hstop (show i < stop by omega)
          have hwidth := coverWidth_pos (found + 1)
          -- the rest is planned from the end of this store on
          obtain ⟨rest, hrest, hplans⟩ := ih (i + 1) (i + coverWidth (found + 1)) (by omega) hend
          rw [max_eq_right (by omega)] at hplans
          rw [if_neg hunwanted, checkedSub_of_le (show i ≤ stop by omega), ok_bind, hfarthest,
            ok_bind, hfound, ok_bind, hdata, ok_bind, hrest, ok_bind]
          refine ⟨_, rfl, ?_⟩
          exact (Plans.store (coverWidth_mem _) (by omega)).append hplans (Nat.le_add_right _ _)
            hend

/-- The stores for what is not done yet. -/
theorem exists_pending {done : Nat} (hdone : done ≤ stop) :
    ∃ writes, stores mask.toArray given.toArray stop (stop - done) done done = .ok writes ∧
      Plans mask given done stop writes := by
  have hstores := exists_stores hlength hstop (stop - done) done done (by omega) hdone
  rwa [max_self] at hstores

/-! ### Runs -/

omit hlength in
theorem exists_runEnd (hgiven : stop ≤ given.length) (value : UInt8) (left j : Nat)
    (hleft : j + left = stop) :
    ∃ runStop, runEnd mask.toArray given.toArray value left j = .ok runStop ∧ j ≤ runStop ∧
      runStop ≤ stop ∧ ∀ k, j ≤ k → k < runStop → given[k]? = some value := by
  induction left generalizing j with
  | zero => exact ⟨j, rfl, le_rfl, by omega, by omega⟩
  | succ left ih =>
      have hj : j < given.length := by omega
      rw [runEnd, byteAt_toArray (show j < mask.length by omega), ok_bind, byteAt_toArray hj,
        ok_bind]
      split
      · rename_i hsame
        obtain ⟨runStop, hrunStop, hle, hstop, hrun⟩ := ih (j + 1) (by omega)
        refine ⟨runStop, hrunStop, by omega, hstop, fun k hk hk' => ?_⟩
        rcases Nat.eq_or_lt_of_le hk with rfl | hlt
        · rw [List.getElem?_eq_getElem hj, hsame.2]
        · exact hrun k hlt hk'
      · exact ⟨j, rfl, le_rfl, by omega, by omega⟩

theorem exists_copy (maxInline left i next done : Nat) (hleft : i + left = stop)
    (hnext : next ≤ stop) (hdone : done ≤ max i next) :
    ∃ writes, copy maxInline mask.toArray given.toArray stop left i next done = .ok writes ∧
      Plans mask given done stop writes := by
  induction left generalizing i next done with
  | zero => exact exists_pending hlength hstop (by omega)
  | succ left ih =>
      rw [copy]
      by_cases hpassed : i < next
      · rw [if_pos hpassed]
        exact ih (i + 1) next done (by omega) hnext (by omega)
      · have hi : i < mask.length := by omega
        rw [if_neg hpassed, byteAt_toArray hi, ok_bind]
        by_cases hunwanted : mask[i] = 0
        · rw [if_pos hunwanted]
          exact ih (i + 1) next done (by omega) hnext (by omega)
        · have hi' : i < given.length := by omega
          obtain ⟨j, hj, hle, hjstop, hrun⟩ :=
            exists_runEnd hstop (hstop.trans_eq hlength) given[i] left (i + 1) (by omega)
          rw [if_neg hunwanted, byteAt_toArray hi', ok_bind, hj, ok_bind,
            checkedSub_of_le (show i ≤ j by omega), ok_bind]
          split
          · -- what is not done yet is stored in front of the run, and the rest is planned behind it
            rename_i hfilled
            obtain ⟨pending, hpending, hbefore⟩ :=
              exists_pending hlength (show i ≤ mask.length by omega) (show done ≤ i by omega)
            obtain ⟨rest, hrest, hbehind⟩ := ih (i + 1) j j (by omega) hjstop (by omega)
            have hfill : Plans mask given i (i + (j - i)) [.fill i (j - i) given[i]] := by
              refine .fill hfilled.2 fun k hk hk' => ?_
              rcases Nat.eq_or_lt_of_le hk with rfl | hlt
              · exact List.getElem?_eq_getElem hi'
              · exact hrun k hlt (by omega)
            rw [Nat.add_sub_cancel' (show i ≤ j by omega)] at hfill
            rw [hpending, ok_bind, hrest, ok_bind]
            exact ⟨_, rfl, hbefore.append (hfill.append hbehind (by omega) hjstop) (by omega)
              (by omega)⟩
          · exact ih (i + 1) j done (by omega) hjstop (by omega)

end Loops

/-! ### The whole range -/

variable {maxInline : Nat}

/-- A range within a mask and bytes of one length can be planned. -/
theorem exists_plan (maxInline first : Nat) (hlength : mask.length = given.length)
    (hlast : last ≤ mask.length) :
    ∃ writes, plan maxInline mask given first last = .ok writes ∧
      Plans mask given first last writes := by
  rw [plan, require_of hlength, ok_bind]
  split
  · rename_i hle
    exact ⟨[], rfl, .nil hle⟩
  · rw [require_of hlast, ok_bind]
    exact exists_copy hlength hlast maxInline (last - first) first first first (by omega) (by omega)
      (by omega)

theorem length_of_plan (h : plan maxInline mask given first last = .ok writes) :
    mask.length = given.length ∧ (first < last → last ≤ mask.length) := by
  obtain ⟨hlength, h⟩ := require_bind_eq_ok h
  refine ⟨hlength, fun hlt => ?_⟩
  rw [if_neg (Nat.not_le.mpr hlt)] at h
  exact (require_bind_eq_ok h).1

theorem plans_of_plan (h : plan maxInline mask given first last = .ok writes) :
    Plans mask given first last writes := by
  obtain ⟨hlength, hlast⟩ := length_of_plan h
  rcases Nat.lt_or_ge first last with hlt | hge
  · obtain ⟨writes', hplan, hplans⟩ := exists_plan maxInline first hlength (hlast hlt)
    exact Except.ok.inj (h.symm.trans hplan) ▸ hplans
  · rw [plan, require_of hlength, ok_bind, if_pos hge] at h
    cases h
    exact .nil hge

end ShadowWrite

end Redzone
