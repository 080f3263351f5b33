import Redzone.Proofs.Edits.Run
import Redzone.Proofs.Escape
import Redzone.Proofs.Modules.FunctionRun

/-!
# Surveys of well-formed functions

What an instruction of a well-formed function reads is made by an instruction that some block lists,
and so is the start of every pointer.  So nothing that is looked up in the course of a survey is
missing, and since an access that was verified has a size, a survey of a well-formed function always
comes to its end (`Judge.exists_survey`).
-/

namespace Redzone

/-! ### Sequences of steps that can be taken -/

theorem exists_mapM {ε α β : Type} {next : α → Except ε β} {l : List α}
    (h : ∀ a ∈ l, ∃ b, next a = .ok b) : ∃ bs, l.mapM next = .ok bs := by
  induction l with
  | nil => exact ⟨[], rfl⟩
  | cons a rest ih =>
      rw [List.forall_mem_cons] at h
      obtain ⟨b, hb⟩ := h.1
      obtain ⟨bs, hbs⟩ := ih h.2
      exact ⟨b :: bs, by rw [List.mapM_cons, hb, ok_bind, hbs]; rfl⟩

/-- Steps can be taken one after the other if each of them leaves what the next ones need. -/
theorem exists_foldlM {ε α β : Type} {next : β → α → Except ε β} (P : β → List α → Prop)
    (hstep : ∀ b a rest, P b (a :: rest) → ∃ b', next b a = .ok b' ∧ P b' rest) {l : List α} {b : β}
    (h : P b l) : ∃ b', l.foldlM next b = .ok b' ∧ P b' [] := by
  induction l generalizing b with
  | nil => exact ⟨b, rfl, h⟩
  | cons a rest ih =>
      obtain ⟨b₁, hb₁, hrest⟩ := hstep b a rest h
      obtain ⟨b', hb', hend⟩ := ih hrest
      exact ⟨b', by rw [List.foldlM_cons, hb₁]; exact hb', hend⟩

/-! ### Pointers -/

namespace Func

variable {f : Func} {symbols : SymbolTable} {i : InstId} {instruction : Instruction}

/-- A value is the result of an instruction that some block lists, or of none. -/
def Listed (f : Func) (v : Value) : Prop := ∀ i, v = .inst i → i ∈ f.listed

theorem inst_of_getElem? (hinst : f.insts[i]? = some instruction) : f.inst i = .ok instruction := by
  unfold inst
  rw [hinst]

theorem block_of_getElem? {b : BlockId} {blk : Block} (hblk : f.blocks[b]? = some blk) :
    f.block b = .ok blk := by
  unfold block
  rw [hblk]

namespace Sound

theorem exists_inst (hsound : f.Sound symbols) (hi : i ∈ f.listed) :
    ∃ instruction, f.inst i = .ok instruction := by
  obtain ⟨instruction, hinst, -⟩ := hsound.flawless i hi
  exact ⟨instruction, inst_of_getElem? hinst⟩

/-- An instruction reads only what is listed. -/
theorem listed_operand (hsound : f.Sound symbols) (hi : i ∈ f.listed)
    (hinst : f.insts[i]? = some instruction) (hplain : instruction.op.isTerminator = false)
    {v : Value} (hv : v ∈ instruction.op.operands) : f.Listed v := by
  obtain ⟨b, pos, hat⟩ := exists_at_of_mem_listed hi
  obtain ⟨t, hlisted, -⟩ := (shape_of_instruction (hsound.instruction hat hinst) hplain).1 v hv
  exact hlisted

theorem listed_base (hsound : f.Sound symbols) {base ptr : Value} {sum total : Int}
    (h : f.PointsInto base ptr sum total) (hptr : f.Listed ptr) : f.Listed base := by
  induction h with
  | base => exact hptr
  | add hadd _ _ _ ih =>
      obtain ⟨i, instruction, rfl, hinst, hop⟩ := defOp_eq_some hadd
      refine ih (hsound.listed_operand (hptr i rfl) hinst (by rw [hop]; rfl) ?_)
      rw [hop]
      exact List.mem_cons_self

theorem exists_base (hsound : f.Sound symbols) {ptr : Value} {base : InstId} {offset : Int}
    (hptr : f.Listed ptr) (h : f.baseAndOffset ptr = some (.inst base, offset)) :
    ∃ target, f.inst base = .ok target :=
  hsound.exists_inst (hsound.listed_base (baseAndOffset_eq_some_iff.mp h).1 hptr base rfl)

theorem exists_markedSlot (hsound : f.Sound symbols) (hi : i ∈ f.listed)
    (hinst : f.insts[i]? = some instruction) : ∃ slot, f.markedSlot instruction = .ok slot := by
  unfold markedSlot
  split
  · rename_i edge ptr size hop
    split
    · rename_i base offset hbase
      have hptr : f.Listed ptr :=
        hsound.listed_operand hi hinst (by rw [hop]; rfl) (by rw [hop]; exact List.mem_cons_self)
      obtain ⟨target, htarget⟩ := hsound.exists_base hptr hbase
      rw [htarget, ok_bind]
      split <;> exact ⟨_, rfl⟩
    · exact ⟨none, rfl⟩
  · exact ⟨none, rfl⟩

theorem exists_scopedSlots (hsound : f.Sound symbols) : ∃ marked, f.scopedSlots = .ok marked := by
  have hsteps : ∀ i ∈ f.listed, ∃ slot, (do
      let instruction ← f.inst i
      f.markedSlot instruction) = .ok slot := by
    intro i hi
    obtain ⟨instruction, hinst⟩ := hsound.exists_inst hi
    rw [hinst, ok_bind]
    exact hsound.exists_markedSlot hi (inst_eq_ok hinst)
  obtain ⟨slots, hslots⟩ := exists_mapM hsteps
  exact ⟨slots.filterMap id, by rw [scopedSlots, hslots, ok_bind]⟩

/-! ### Slots -/

theorem exists_useWhole (hsound : f.Sound symbols) (slot : Value) (size : Nat) {ids : List InstId}
    (hids : ∀ i ∈ ids, i ∈ f.listed) : ∃ whole, f.useWhole slot size ids = .ok whole := by
  induction ids with
  | nil => exact ⟨true, rfl⟩
  | cons i rest ih =>
      rw [List.forall_mem_cons] at hids
      obtain ⟨instruction, hinst⟩ := hsound.exists_inst hids.1
      rw [useWhole, hinst, ok_bind]
      split
      · exact ⟨false, rfl⟩
      · exact ih hids.2

theorem exists_slot? (hsound : f.Sound symbols) (config : Config) (marked : List InstId)
    (hi : i ∈ f.listed) : ∃ slot, f.slot? config marked i = .ok slot := by
  obtain ⟨instruction, hinst⟩ := hsound.exists_inst hi
  unfold slot?
  rw [hinst, ok_bind]
  split
  · rename_i size align hop
    split
    · exact ⟨none, rfl⟩
    · obtain ⟨whole, hwhole⟩ : ∃ whole, f.useWhole (.inst i) size f.listed = .ok whole :=
        hsound.exists_useWhole _ _ fun _ hj => hj
      dsimp only
      unfold isPromotable
      rw [hwhole]
      by_cases hskip : config.skipPromotable = true
      · rw [if_pos hskip, ok_bind]
        split <;> exact ⟨_, rfl⟩
      · rw [if_neg hskip, ok_bind]
        exact ⟨_, rfl⟩
  · exact ⟨none, rfl⟩

/-- The slots of a function that has a body can be found. -/
theorem exists_frameSlots (hsound : f.Sound symbols) (config : Config)
    (hbody : f.isDeclaration = false) : ∃ slots, f.frameSlots config = .ok slots := by
  have hsize : 0 < f.blocks.size := by
    rw [isDeclaration, Array.isEmpty_eq_false_iff] at hbody
    exact Array.size_pos_iff.mpr hbody
  have hentry : f.blocks[0]? = some f.blocks[0] := Array.getElem?_eq_getElem hsize
  have hfound : ∀ marked, ∃ slots, f.blocks[0].insts.mapM (f.slot? config marked) = .ok slots :=
    fun marked => exists_mapM fun i hi => hsound.exists_slot? config marked (mem_listed hentry hi)
  unfold frameSlots
  simp only [block_of_getElem? hentry, ok_bind]
  split
  · obtain ⟨marked, hmarked⟩ := hsound.exists_scopedSlots
    obtain ⟨slots, hslots⟩ := hfound marked
    exact ⟨slots.filterMap id, by rw [hmarked, ok_bind, hslots, ok_bind]⟩
  · obtain ⟨slots, hslots⟩ := hfound []
    exact ⟨slots.filterMap id, by rw [hslots, ok_bind]⟩

end Sound

/-! ### Accesses -/

/-- A verified access has a size and reads its pointer. -/
theorem access_of_shape {access : MemAccess} (h : instruction.op.access? = some access)
    (hshape : (f.scope symbols).shape instruction = []) :
    access.size ≠ 0 ∧ access.ptr ∈ instruction.op.operands := by
  cases hop : instruction.op with
  | load | store | rmw | cmpxchg =>
      rw [hop] at h
      cases h
      simp only [Scope.shape, hop, List.append_eq_nil_iff, Scope.width, ite_eq_right_iff,
        List.cons_ne_nil, imp_false] at hshape
      simp_all [Op.operands]
  | _ =>
      rw [hop] at h
      cases h

theorem Sound.listed_access (hsound : f.Sound symbols) (hi : i ∈ f.listed)
    (hinst : f.insts[i]? = some instruction) {access : MemAccess}
    (h : instruction.op.access? = some access) : access.size ≠ 0 ∧ f.Listed access.ptr := by
  have hplain := (Op.proceeds_of_access h).1
  obtain ⟨b, pos, hat⟩ := exists_at_of_mem_listed hi
  obtain ⟨hsize, hptr⟩ :=
    access_of_shape h (shape_of_instruction (hsound.instruction hat hinst) hplain).2
  exact ⟨hsize, hsound.listed_operand hi hinst hplain hptr⟩

end Func

namespace Judge

variable {judge : Judge} {symbols : SymbolTable}

section

variable (hglobals : ∀ g ∈ judge.globals, g.padding ≤ g.size)

include hglobals

theorem exists_covers (base : InstId) (stop : Nat) (op : Op) :
    ∃ covered, judge.covers base stop op = .ok covered := by
  unfold covers
  split
  · exact ⟨_, rfl⟩
  · split
    · split
      · exact ⟨false, rfl⟩
      · rename_i id g hlast
        have hpadding := hglobals g (List.mem_of_getElem? (names_iff.mpr hlast).1)
        exact ⟨_, by rw [Global.objectSize?, checkedSub_of_le hpadding, ok_bind]⟩
    · exact ⟨false, rfl⟩
  · exact ⟨false, rfl⟩

theorem exists_isSafe (hsound : judge.func.Sound symbols) {access : MemAccess}
    (hptr : judge.func.Listed access.ptr) : ∃ safe, judge.isSafe access = .ok safe := by
  unfold isSafe
  split
  · rename_i base offset hbase
    obtain ⟨target, htarget⟩ := hsound.exists_base hptr hbase
    split
    · rw [htarget, ok_bind]
      exact exists_covers hglobals _ _ _
    · exact ⟨false, rfl⟩
  · exact ⟨false, rfl⟩

theorem exists_verdict (hsound : judge.func.Sound symbols) (checked : List (Value × Nat))
    {inst : InstId} {i : Instruction} (hinst : inst ∈ judge.func.listed)
    (hi : judge.func.insts[inst]? = some i) :
    ∃ verdict, judge.instruction checked inst i = .ok verdict := by
  unfold instruction
  split
  · exact ⟨.barrier, rfl⟩
  · exact ⟨.barrier, rfl⟩
  · exact ⟨_, rfl⟩
  · split
    · exact ⟨.unrelated, rfl⟩
    · rename_i found hfound
      obtain ⟨hsize, hptr⟩ := hsound.listed_access hinst hi hfound
      obtain ⟨safe, hsafe⟩ := exists_isSafe hglobals hsound hptr
      unfold access
      rw [hsafe, if_neg hsize]
      split
      · exact ⟨.skip, rfl⟩
      · split <;> exact ⟨_, rfl⟩

theorem exists_surveyFrom (hsound : judge.func.Sound symbols) (b : BlockId) (pos : Nat)
    (checked : List (Value × Nat)) {insts : List InstId}
    (hinsts : ∀ i ∈ insts, i ∈ judge.func.listed) :
    ∃ survey, judge.surveyFrom b pos checked insts = .ok survey := by
  induction insts generalizing pos checked with
  | nil => exact ⟨{}, rfl⟩
  | cons inst rest ih =>
      rw [List.forall_mem_cons] at hinsts
      obtain ⟨i, hi⟩ := hsound.exists_inst hinsts.1
      obtain ⟨verdict, hverdict⟩ :=
        exists_verdict hglobals hsound checked hinsts.1 (Func.inst_eq_ok hi)
      rw [surveyFrom, hi]
      dsimp only [Failure.lift]
      rw [ok_bind, hverdict, ok_bind]
      -- whatever the verdict is, the rest of the block is surveyed
      cases verdict with
      | unrelated => exact ih _ _ hinsts.2
      | barrier => exact ih _ _ hinsts.2
      | replace =>
          obtain ⟨survey, hsurvey⟩ := ih (pos + 1) [] hinsts.2
          exact ⟨_, by dsimp only; rw [hsurvey, ok_bind]⟩
      | skip =>
          obtain ⟨survey, hsurvey⟩ := ih (pos + 1) checked hinsts.2
          exact ⟨_, by dsimp only; rw [hsurvey, ok_bind]⟩
      | check access =>
          obtain ⟨survey, hsurvey⟩ := ih (pos + 1) ((access.ptr, access.size) :: checked) hinsts.2
          exact ⟨_, by dsimp only; rw [hsurvey, ok_bind]⟩

/-- A survey of a well-formed function comes to its end. -/
theorem exists_survey (hsound : judge.func.Sound symbols) :
    ∃ survey, judge.survey = .ok survey := by
  unfold survey
  have hblocks : ∀ blk ∈ judge.func.blocks.toList, ∀ i ∈ blk.insts, i ∈ judge.func.listed :=
    fun blk hblk i hi => List.mem_flatMap.mpr ⟨blk, hblk, hi⟩
  generalize 0 = b, judge.func.blocks.toList = blocks at hblocks
  induction blocks generalizing b with
  | nil => exact ⟨{}, rfl⟩
  | cons blk rest ih =>
      rw [List.forall_mem_cons] at hblocks
      obtain ⟨first, hfirst⟩ := exists_surveyFrom hglobals hsound b 0 [] hblocks.1
      obtain ⟨others, hothers⟩ := ih (b + 1) hblocks.2
      exact ⟨_, by rw [surveyBlocks, hfirst, ok_bind, hothers, ok_bind]⟩

end

end Judge

end Redzone
