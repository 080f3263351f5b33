import Redzone.Proofs.Edit

/-!
# The shadow of a frame

With all variables in scope, the shadow of a frame is a redzone wherever there is no variable
(`shadow_cases`).  At function entry it differs from that only in variables with lifetime markers,
where it says that they are out of scope (`entryShadow_eq_ok`).  So what is clean at function entry
is clean with all variables in scope, too, and redzones are the same.
-/

namespace Redzone

theorem length_resizeShadow (shadow : List UInt8) (size : Nat) (fill : UInt8) :
    (resizeShadow shadow size fill).length = size := by
  rw [resizeShadow, List.length_append, List.length_take, List.length_replicate]
  omega

theorem resizeShadow_cases {shadow : List UInt8} {size k : Nat} {fill byte : UInt8}
    (h : (resizeShadow shadow size fill)[k]? = some byte) :
    shadow[k]? = some byte ∨ byte = fill := by
  rw [resizeShadow, List.getElem?_append] at h
  split at h
  · rw [List.getElem?_take] at h
    exact .inl (Option.ite_none_right_eq_some.mp h).2
  · rw [List.getElem?_replicate] at h
    exact .inr (Option.some.inj (Option.ite_none_right_eq_some.mp h).2).symm

theorem length_liveShadow_le {granularity : Nat} (hpos : 0 < granularity) (size : Nat) :
    (liveShadow size granularity).length ≤ ceilDiv size granularity := by
  have hdiv := Nat.div_add_mod size granularity
  rw [liveShadow, List.length_append, List.length_replicate, ceilDiv, Nat.le_div_iff_mul_le hpos]
  split
  · rw [List.length_nil, Nat.add_zero, Nat.mul_comm]
    omega
  · rw [List.length_singleton, Nat.add_mul, Nat.mul_comm, Nat.one_mul]
    omega

namespace Frame

variable {frame : Frame} {k : Nat} {byte : UInt8}

/-- The values of redzones. -/
def redzones : List UInt8 := [stackLeftRedzone, stackMidRedzone, stackRightRedzone]

/-- Granule `k` of a frame is one of the first `size` bytes of a variable. -/
def Reaches (granularity : Nat) (var : StackVariable) (size k : Nat) : Prop :=
  var.offset / granularity ≤ k ∧ k < var.offset / granularity + ceilDiv size granularity

/-- Granule `k` of a frame belongs to a variable. -/
def InVariable (frame : Frame) (k : Nat) : Prop :=
  ∃ var ∈ frame.vars, Reaches frame.granularity var var.size k

/-! ### All variables in scope -/

theorem shadowFrom_cases {granularity : Nat} (hpos : 0 < granularity) {vars : List StackVariable}
    {shadow : List UInt8} (h : (shadowFrom granularity shadow vars)[k]? = some byte) :
    shadow[k]? = some byte ∨ byte ∈ redzones ∨
      ∃ var ∈ vars, Reaches granularity var var.size k := by
  induction vars generalizing shadow with
  | nil => exact .inl h
  | cons var rest ih =>
      rcases ih h with h | h | ⟨other, hother, hreaches⟩
      · rw [List.getElem?_append, length_resizeShadow] at h
        split at h
        · rcases resizeShadow_cases h with h | rfl
          · exact .inl h
          · exact .inr (.inl (by decide))
        · rename_i hge
          have hlt := (List.getElem?_eq_some_iff.mp h).1
          have hle := length_liveShadow_le hpos var.size
          exact .inr (.inr ⟨var, List.mem_cons_self, Nat.not_lt.mp hge, by omega⟩)
      · exact .inr (.inl h)
      · exact .inr (.inr ⟨other, List.mem_cons_of_mem var hother, hreaches⟩)

theorem length_shadow (frame : Frame) :
    frame.shadow.length = frame.size / frame.granularity :=
  length_resizeShadow _ _ _

/-- A granule of a frame is in a redzone or in a variable. -/
theorem shadow_cases (hpos : 0 < frame.granularity) (h : frame.shadow[k]? = some byte) :
    byte ∈ redzones ∨ frame.InVariable k := by
  rcases resizeShadow_cases h with h | rfl
  · rcases shadowFrom_cases hpos h with h | h | h
    · left
      cases hvars : frame.vars with
      | nil => simp [hvars] at h
      | cons first rest =>
          simp only [hvars, List.getElem?_replicate] at h
          rw [← Option.some.inj (Option.ite_none_right_eq_some.mp h).2]
          decide
    · exact .inl h
    · exact .inr h
  · exact .inl (by decide)

/-! ### Function entry -/

theorem fillShadow_parts {shadow filled : List UInt8} {start count : Nat} {fill : UInt8}
    (h : fillShadow shadow start count fill = .ok filled) :
    start + count ≤ shadow.length ∧
      filled = shadow.take start ++ List.replicate count fill ++ shadow.drop (start + count) := by
  unfold fillShadow at h
  split at h
  · rename_i hle
    cases h
    exact ⟨hle, rfl⟩
  · cases h

theorem length_fillShadow {shadow filled : List UInt8} {start count : Nat} {fill : UInt8}
    (h : fillShadow shadow start count fill = .ok filled) : filled.length = shadow.length := by
  obtain ⟨hle, rfl⟩ := fillShadow_parts h
  simp
  omega

theorem getElem?_fillShadow {shadow filled : List UInt8} {start count : Nat} {fill : UInt8}
    (h : fillShadow shadow start count fill = .ok filled) (k : Nat) :
    filled[k]? = if start ≤ k ∧ k < start + count then some fill else shadow[k]? := by
  obtain ⟨hle, rfl⟩ := fillShadow_parts h
  have hstart : (shadow.take start).length = start := by
    rw [List.length_take, Nat.min_eq_left (by omega)]
  rw [List.append_assoc, List.getElem?_append, hstart]
  by_cases hbefore : k < start
  · rw [if_pos hbefore, List.getElem?_take_of_lt hbefore, if_neg (by omega)]
  · rw [if_neg hbefore, List.getElem?_append, List.length_replicate, List.getElem?_replicate]
    by_cases hinside : k - start < count
    · rw [if_pos hinside, if_pos hinside, if_pos (by omega)]
    · rw [if_neg hinside, List.getElem?_drop, if_neg (by omega)]
      congr 1
      omega

theorem poisonScope_eq_ok {granularity : Nat} {shadow filled : List UInt8} {var : StackVariable}
    (h : poisonScope granularity shadow var = .ok filled) :
    var.lifetime ≤ var.size ∧ fillShadow shadow (var.offset / granularity)
      (ceilDiv var.lifetime granularity) stackUseAfterScope = .ok filled :=
  require_bind_eq_ok h

/-- What lifetime markers cover is out of scope, and the rest is as it was. -/
theorem getElem?_foldlM_poisonScope {granularity : Nat} {vars : List StackVariable}
    {shadow atEntry : List UInt8} (h : vars.foldlM (poisonScope granularity) shadow = .ok atEntry)
    (k : Nat) :
    ((∃ var ∈ vars, Reaches granularity var var.lifetime k) →
        atEntry[k]? = some stackUseAfterScope) ∧
      ((¬ ∃ var ∈ vars, Reaches granularity var var.lifetime k) → atEntry[k]? = shadow[k]?) := by
  induction vars generalizing shadow with
  | nil =>
      cases h
      refine ⟨?_, fun _ => rfl⟩
      rintro ⟨_, hvar, -⟩
      cases hvar
  | cons var rest ih =>
      obtain ⟨filled, hfilled, h⟩ := foldlM_cons_eq_ok h
      have hbyte := getElem?_fillShadow (poisonScope_eq_ok hfilled).2 k
      obtain ⟨hcovered, huncovered⟩ := ih h
      rw [List.exists_mem_cons_iff]
      by_cases hrest : ∃ var ∈ rest, Reaches granularity var var.lifetime k
      · exact ⟨fun _ => hcovered hrest, fun hnone => absurd (.inr hrest) hnone⟩
      · rw [huncovered hrest, hbyte]
        refine ⟨fun hsome => if_pos ?_, fun hnone => if_neg fun hvar => hnone (.inl hvar)⟩
        exact hsome.resolve_right hrest

theorem length_foldlM_poisonScope {granularity : Nat} {vars : List StackVariable}
    {shadow atEntry : List UInt8} (h : vars.foldlM (poisonScope granularity) shadow = .ok atEntry) :
    atEntry.length = shadow.length := by
  refine foldlM_keeps (fun filled => filled.length = shadow.length) ?_ rfl h
  exact fun _ _ _ _ hlength hfilled =>
    (length_fillShadow (poisonScope_eq_ok hfilled).2).trans hlength

/-- At function entry the shadow is the one with all variables in scope, variables that lifetime
markers cover apart. -/
theorem entryShadow_eq_ok {atEntry : List UInt8} (h : frame.entryShadow = .ok atEntry) :
    atEntry.length = frame.shadow.length ∧ ∀ k byte, atEntry[k]? = some byte →
      frame.shadow[k]? = some byte ∨ byte = stackUseAfterScope ∧
        ∃ var ∈ frame.vars, Reaches frame.granularity var var.lifetime k := by
  refine ⟨length_foldlM_poisonScope h, fun k byte hbyte => ?_⟩
  obtain ⟨hcovered, huncovered⟩ := getElem?_foldlM_poisonScope h k
  by_cases hreached : ∃ var ∈ frame.vars, Reaches frame.granularity var var.lifetime k
  · rw [hcovered hreached] at hbyte
    exact .inr ⟨(Option.some.inj hbyte).symm, hreached⟩
  · exact .inl (huncovered hreached ▸ hbyte)

/-! ### The variables of a frame -/

theorem insertByAlign_perm (var : StackVariable) (vars : List StackVariable) :
    (insertByAlign var vars).Perm (var :: vars) := by
  induction vars with
  | nil => exact .refl _
  | cons other rest ih =>
      rw [insertByAlign]
      split
      · exact .refl _
      · exact (ih.cons other).trans (.swap var other rest)

theorem sortByAlign_perm (vars : List StackVariable) : (sortByAlign vars).Perm vars := by
  induction vars with
  | nil => exact .refl _
  | cons var rest ih => exact (insertByAlign_perm var _).trans (ih.cons var)

/-- What a layout does not change of a variable. -/
def nature (var : StackVariable) : Nat × Nat × Nat := (var.size, var.lifetime, var.index)

theorem map_nature_placeFrom (granularity offset : Nat) (vars : List StackVariable) :
    (placeFrom granularity offset vars).map nature = vars.map nature := by
  induction vars generalizing offset with
  | nil => rfl
  | cons var rest ih => rw [placeFrom, List.map_cons, List.map_cons, ih, nature, nature]

/-- The end of a frame is rounded up to a multiple of its header. -/
theorem endOfFrame_eq (offset : Nat) : endOfFrame offset = .ok (roundUp offset minFrameHeader) := by
  unfold endOfFrame roundUp minFrameHeader
  split_ifs with hdvd
  · congr 1
    omega
  · rw [checkedSub_of_le (Nat.mod_lt _ (by decide)).le, ok_bind]
    congr 1
    omega

/-- What a layout is made of. -/
theorem layOut_parts {vars : List StackVariable} {granularity : Nat}
    (h : layOut vars granularity = .ok frame) :
    ∃ first rest, sortByAlign (vars.map raiseAlign) = first :: rest ∧
      frame =
        { granularity := granularity
          vars := placeFrom granularity (max (max minFrameHeader granularity) first.align)
            (first :: rest)
          size := roundUp (endFrom granularity (max (max minFrameHeader granularity) first.align)
            (first :: rest)) minFrameHeader
          align := max granularity first.align } := by
  unfold layOut at h
  split at h
  · cases h
  · dsimp only at h
    split at h
    · cases h
    · rename_i first rest hsorted
      rw [endOfFrame_eq, ok_bind] at h
      cases h
      rw [hsorted]
      exact ⟨first, rest, rfl, rfl⟩

theorem pos_of_layOut {vars : List StackVariable} {granularity : Nat}
    (h : layOut vars granularity = .ok frame) : 0 < granularity := by
  by_contra hzero
  rw [layOut, if_pos (Nat.eq_zero_of_not_pos hzero)] at h
  cases h

theorem layOut_eq_ok {vars : List StackVariable} {granularity : Nat}
    (h : layOut vars granularity = .ok frame) :
    0 < granularity ∧ frame.granularity = granularity ∧
      (frame.vars.map nature).Perm (vars.map nature) := by
  obtain ⟨first, rest, hsorted, rfl⟩ := layOut_parts h
  refine ⟨pos_of_layOut h, rfl, ?_⟩
  rw [map_nature_placeFrom, ← hsorted]
  refine ((sortByAlign_perm _).map nature).trans ?_
  rw [List.map_map]
  exact .refl _

end Frame

end Redzone
