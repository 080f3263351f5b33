import Redzone.Proofs.Frame.Steps

/-!
# The slots of a frame

The slots that are moved into a frame are instructions of the entry that make stack slots
(`Func.slots_eq_ok`).  The visits of the sites leave them as they are (`Draft.Visits.keeps`), so
that the frame can be added behind the visits (`Draft.Visits.frameSteps`).
-/

namespace Redzone

/-! ### Slots -/

namespace Func

variable {f : Func} {config : Config}

theorem slot?_eq_some {marked : List InstId} {i : InstId} {slot : Slot}
    (h : f.slot? config marked i = .ok (some slot)) :
    slot.inst = i ∧ ∃ instruction, f.insts[i]? = some instruction ∧
      instruction.op = .stackSlot slot.size slot.align := by
  unfold slot? at h
  obtain ⟨instruction, hinst, h⟩ := bind_eq_ok h
  split at h
  · rename_i size align hop
    split at h
    · cases h
    · simp only at h
      split at h
      all_goals
        obtain ⟨promotable, -, h⟩ := bind_eq_ok h
        split at h <;> cases h
        exact ⟨rfl, instruction, inst_eq_ok hinst, hop⟩
  · cases h

/-- The slots of a frame are listed, in this order. -/
theorem frameSlots_eq_ok {slots : List Slot} (h : f.frameSlots config = .ok slots) :
    (slots.map Slot.inst).Sublist f.listed ∧
      ∀ slot ∈ slots, ∃ instruction, f.insts[slot.inst]? = some instruction ∧
        instruction.op = .stackSlot slot.size slot.align := by
  unfold frameSlots at h
  simp only at h
  split at h
  all_goals
    obtain ⟨marked, -, h⟩ := bind_eq_ok h
    obtain ⟨entry, hentry, h⟩ := bind_eq_ok h
    obtain ⟨found, hfound, h⟩ := bind_eq_ok h
    cases h
    have hsublist : entry.insts.Sublist f.listed := by
      have hmem := Array.mem_of_getElem? (block_eq_ok hentry)
      exact List.sublist_flatten_of_mem (List.mem_map_of_mem (Array.mem_toList_iff.mpr hmem))
    refine ⟨(keys_sublist_of_mapM hfound fun i slot hslot => (slot?_eq_some hslot).1).trans
      hsublist, fun slot hslot => ?_⟩
    obtain ⟨slot', hmem, hsome⟩ := List.mem_filterMap.mp hslot
    obtain rfl : slot' = some slot := hsome
    obtain ⟨i, -, hslot'⟩ := exists_of_mem_mapM hfound _ hmem
    obtain ⟨hi, hmade⟩ := slot?_eq_some hslot'
    rwa [hi]

theorem slots_eq_ok {slots : List Slot}
    (h : (if config.stack then f.frameSlots config else .ok []) = .ok slots) :
    (slots.map Slot.inst).Sublist f.listed ∧
      ∀ slot ∈ slots, ∃ instruction, f.insts[slot.inst]? = some instruction ∧
        instruction.op = .stackSlot slot.size slot.align := by
  split at h
  · exact frameSlots_eq_ok h
  · cases h
    exact ⟨List.nil_sublist _, by simp⟩

theorem isSlot_of_slots {slots : List Slot}
    (h : (if config.stack then f.frameSlots config else .ok []) = .ok slots) :
    ∀ slot ∈ slots, ∃ instruction, f.insts[slot.inst]? = some instruction ∧
      instruction.op.isSlot = true := by
  intro slot hslot
  obtain ⟨instruction, hinst, hop⟩ := (slots_eq_ok h).2 slot hslot
  exact ⟨instruction, hinst, by rw [hop]; rfl⟩

end Func

/-! ### Behind the visits -/

theorem Op.isBulk_of_access {op : Op} {access : MemAccess} (h : op.access? = some access) :
    op.isBulk = false := by
  cases op <;> first | rfl | cases h

theorem Op.isBulk_of_isSlot {op : Op} (h : op.isSlot = true) : op.isBulk = false := by
  cases op <;> first | rfl | cases h

/-- Visits change bulk operations only. -/
theorem Draft.Visits.keeps {config : Config} {outlined : Bool} {d d' : Draft} {sites : List Site}
    (h : Visits config outlined d sites d') {i : InstId} {instruction : Instruction}
    (hinst : d.func.insts[i]? = some instruction) (hop : instruction.op.isBulk = false) :
    d'.func.insts[i]? = some instruction := by
  induction h with
  | nil => exact hinst
  | cons _ _ hvisited _ ih =>
      have hlt := (Array.getElem?_eq_some_iff.mp hinst).1
      refine ih ?_
      cases hvisited with
      | check _ _ _ _ _ hturns _ => rw [hturns.getElem?_insts hlt, hinst]
      | bulk _ hbulk hop' _ _ hturns _ _ hfunc =>
          rw [hfunc, Func.getElem?_insts_setInst_of_ne ?_, hturns.getElem?_insts hlt, hinst]
          rintro rfl
          obtain rfl := Option.some.inj (hinst.symm.trans hbulk)
          simp [hop', Op.isBulk] at hop

/-- A frame that is added behind visits is added step by step. -/
theorem Draft.Visits.frameSteps {config : Config} {outlined : Bool} {f : Func}
    {symbols : SymbolTable} {sites : List Site} {slots : List Slot} {name : String} {frame : Frame}
    {d d' : Draft} {description : Global}
    (h : Visits config outlined { func := f, symbols := symbols } sites d)
    (hslots : (if config.stack then f.frameSlots config else .ok []) = .ok slots)
    (hnodup : d.func.listed.Nodup)
    (hframe : d.addFrame config name slots frame = .ok (d', description)) :
    FrameSteps d.func f.insts.size d d' := by
  refine addFrame_steps hframe (fun slot hslot => ?_) hnodup
  obtain ⟨instruction, hinst, hslot⟩ := Func.isSlot_of_slots hslots slot hslot
  exact ⟨(Array.getElem?_eq_some_iff.mp hinst).1, instruction,
    h.keeps hinst (Op.isBulk_of_isSlot hslot), hslot⟩

end Redzone
