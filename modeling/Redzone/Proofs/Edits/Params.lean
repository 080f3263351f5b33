import Redzone.Proofs.Edits.Chain

/-!
# Parameters stay in front

A check moves the code behind it to another block, where parameters must not be.  So edits keep
parameters in the entry block if these come first there: an edit is made in front of an instruction
that is no parameter, and then there is none behind it (`Edit.paramsLead`).
-/

namespace Redzone

namespace Func

/-- An instruction is a parameter. -/
def IsParam (f : Func) (i : InstId) : Prop :=
  ∃ instruction, f.insts[i]? = some instruction ∧ instruction.op.isParam = true

/-- Parameters stand in the entry block, in front of everything else. -/
def ParamsLead (f : Func) : Prop :=
  ∀ (b : BlockId) (pos : Nat) (i : InstId), f.At b pos i → f.IsParam i →
    b = 0 ∧ ∀ q < pos, ∀ j, f.At 0 q j → f.IsParam j

variable {ordered : Prop} {f g : Func} {n : Nat} {mapping : ShadowMapping}
  {symbols : SymbolTable} {b pos i : Nat}

/-- Whether an instruction is a parameter. -/
def isParamAt (f : Func) (i : InstId) : Bool :=
  f.insts[i]?.any fun instruction => instruction.op.isParam

theorem isParamAt_iff : f.isParamAt i = true ↔ f.IsParam i := by
  simp [isParamAt, IsParam, Option.any_eq_true]

/-- Whether no parameter stands behind another instruction or in another block than the first. -/
def leads (f : Func) : Bool :=
  match f.blocks.toList with
  | [] => true
  | entry :: others =>
      (entry.insts.dropWhile f.isParamAt ++ others.flatMap Block.insts).all fun i => !f.isParamAt i

theorem paramsLead_of_leads (h : f.leads = true) : f.ParamsLead := by
  rintro b pos i ⟨blk, hblk, hget⟩ hparam
  unfold leads at h
  rw [← Array.getElem?_toList] at hblk
  cases hblocks : f.blocks.toList with
  | nil =>
      rw [hblocks] at hblk
      cases hblk
  | cons entry others =>
      rw [hblocks] at h hblk
      simp only [List.all_append, Bool.and_eq_true, List.all_eq_true, Bool.not_eq_true',
        ← Bool.not_eq_true, isParamAt_iff] at h
      cases b with
      | succ b =>
          rw [List.getElem?_cons_succ] at hblk
          have hmem := List.mem_flatMap.mpr ⟨blk, List.mem_of_getElem? hblk,
            List.mem_of_getElem? hget⟩
          exact absurd hparam (h.2 i hmem)
      | zero =>
          obtain rfl := Option.some.inj hblk
          refine ⟨rfl, fun q hq j ⟨blk, hblk, hget'⟩ => ?_⟩
          rw [← Array.getElem?_toList, hblocks] at hblk
          obtain rfl := Option.some.inj hblk
          -- the entry block starts with parameters, and behind them there is none
          have hsplit := List.takeWhile_append_dropWhile (p := f.isParamAt) (l := entry.insts)
          rw [← hsplit] at hget hget'
          by_cases hpos : pos < (entry.insts.takeWhile f.isParamAt).length
          · rw [List.getElem?_append_left (hq.trans hpos)] at hget'
            exact isParamAt_iff.mp (List.mem_takeWhile_imp (List.mem_of_getElem? hget'))
          · rw [List.getElem?_append_right (Nat.le_of_not_lt hpos)] at hget
            exact absurd hparam (h.1 i (List.mem_of_getElem? hget))

theorem NoParam.not_isParam (h : f.NoParam i) : ¬ f.IsParam i := by
  rintro ⟨instruction, hinst, hparam⟩
  obtain ⟨instruction', hinst', hplain⟩ := h
  rw [Option.some.inj (hinst.symm.trans hinst'), hplain] at hparam
  cases hparam

namespace ParamsLead

theorem paramsInEntry (h : f.ParamsLead) : f.ParamsInEntry :=
  fun b pos i instruction hat hinst hparam => (h b pos i hat ⟨instruction, hinst, hparam⟩).1

/-- Behind an instruction that is no parameter there is none. -/
theorem not_isParam_behind (h : f.ParamsLead) (hat : f.At b pos i) (hplain : f.NoParam i)
    {p j : Nat} (hp : pos ≤ p) (hat' : f.At b p j) : ¬ f.IsParam j := by
  intro hparam
  obtain ⟨rfl, hfront⟩ := h b p j hat' hparam
  rcases hp.lt_or_eq with hlt | rfl
  · exact hplain.not_isParam (hfront pos hlt i hat)
  · obtain ⟨blk, hblk, hget⟩ := hat
    rw [at_iff hblk, hget] at hat'
    exact hplain.not_isParam (Option.some.inj hat' ▸ hparam)

/-- What an edit in front of place `pos` of block `b` has to leave alone: parameters may only be
found where they were, and in front of this place nothing is new. -/
theorem of_places (h : f.ParamsLead) (hat : f.At b pos i) (hplain : f.NoParam i)
    (hparam : ∀ c q j, g.At c q j → g.IsParam j →
      f.IsParam j ∧ ((c = b → q < pos) ∧ f.At c q j ∨ ∃ p, pos ≤ p ∧ f.At b p j))
    (hfront : ∀ q j, (0 = b → q < pos) → g.At 0 q j → f.At 0 q j)
    (hkept : ∀ j, f.IsParam j → g.IsParam j) : g.ParamsLead := by
  intro c q j hat' hisParam
  obtain ⟨hisParam, ⟨hbefore, hold⟩ | ⟨p, hp, hold⟩⟩ := hparam c q j hat' hisParam
  · obtain ⟨rfl, hlead⟩ := h c q j hold hisParam
    refine ⟨rfl, fun q' hq' j' hat'' => hkept j' (hlead q' hq' j' ?_)⟩
    exact hfront q' j' (fun hb => hq'.trans (hbefore hb)) hat''
  · exact absurd hisParam (h.not_isParam_behind hat hplain hp hold)

end ParamsLead

/-- What is added to the arena is no parameter. -/
theorem isParam_graft_iff {insts : List InstId} {code : List Instruction} {fresh : List Block}
    (hcode : ∀ instruction ∈ code, instruction.op.isParam = false) :
    (f.graft b insts code fresh).IsParam i ↔ f.IsParam i := by
  rcases Nat.lt_or_ge i f.insts.size with hi | hi
  · simp only [IsParam, getElem?_insts_graft_of_lt hi]
  · obtain ⟨k, rfl⟩ := Nat.exists_eq_add_of_le hi
    simp only [IsParam, getElem?_insts_graft_add]
    constructor
    · rintro ⟨instruction, hinst, hparam⟩
      rw [hcode instruction (List.mem_of_getElem? hinst)] at hparam
      cases hparam
    · rintro ⟨instruction, hinst, -⟩
      exact absurd (Array.getElem?_eq_some_iff.mp hinst).1 (Nat.not_lt.mpr hi)

theorem isParam_checkOps (c : Check) (addr : Value) (size cont : Nat) :
    ∀ instruction ∈ addedCode c.origin (c.ops n addr size cont),
      instruction.op.isParam = false := by
  simp only [addedCode, List.forall_mem_map, Check.ops, List.forall_mem_append,
    List.forall_mem_cons]
  refine ⟨?_, rfl, ?_, ?_⟩
  · simp [probeCode, shadowAddrCode, Op.isParam]
  · simp only [Check.slowPart, slowCode]
    split
    · split <;> simp [Op.isParam]
    · simp
  · simp only [Check.reportPart, reportCode]
    split <;> simp [Op.isParam]

/-- An edit neither makes nor removes parameters. -/
theorem Edit.isParam_iff (h : Edit ordered n mapping symbols f g) : g.IsParam i ↔ f.IsParam i := by
  cases h with
  | line _ _ hcode hinsert =>
      obtain ⟨blk, -, -, rfl⟩ := insertCode_eq_ok hinsert
      refine isParam_graft_iff fun instruction hmem => ?_
      obtain ⟨k, hk⟩ := List.getElem?_of_mem hmem
      exact (hcode.get hk).proceeds.2.2
  | @check c _ _ _ size _ addr _ _ _ _ _ _ hinsert =>
      obtain ⟨blk, -, -, -, rfl⟩ := Check.insert_eq_ok hinsert
      exact isParam_graft_iff (isParam_checkOps c addr size _)
  | @replace _ _ j instruction op _ _ hinst hold hop hg =>
      subst hg
      by_cases hij : i = j
      · subst hij
        simp only [IsParam, getElem?_insts_setInst_self (Array.getElem?_eq_some_iff.mp hinst).1,
          hinst, Option.some.injEq, exists_eq_left', hop.proceeds.2.2, hold.2]
      · simp only [IsParam, getElem?_insts_setInst_of_ne hij]

theorem Edits.isParam_iff (h : Edits ordered n mapping symbols f g) :
    g.IsParam i ↔ f.IsParam i := by
  induction h with
  | refl => exact Iff.rfl
  | tail _ hedit ih => exact hedit.isParam_iff.trans ih

/-- An edit keeps parameters in front. -/
theorem Edit.paramsLead (h : Edit ordered n mapping symbols f g) (hlead : f.ParamsLead) :
    g.ParamsLead := by
  have hparam : ∀ j, g.IsParam j ↔ f.IsParam j := fun j => h.isParam_iff
  cases h with
  | @line b pos i code hat hplain hcode hinsert =>
      refine hlead.of_places hat hplain (fun c q j hat' hisParam => ?_) (fun q j hq hat' => ?_)
        fun j => (hparam j).mpr
      · have hisParam := (hparam j).mp hisParam
        refine ⟨hisParam, ?_⟩
        rcases (at_insertCode hinsert).mp hat' with
          hold | ⟨k, hk, rfl, rfl, rfl⟩ | ⟨p, hp, rfl, rfl, hold⟩
        · exact .inl hold
        · -- new code has no parameters: it is not in the old arena
          obtain ⟨instruction, hinst, -⟩ := hisParam
          exact absurd (Array.getElem?_eq_some_iff.mp hinst).1 (by omega)
        · exact .inr ⟨p, hp, hold⟩
      · rcases (at_insertCode hinsert).mp hat' with
          ⟨-, hold⟩ | ⟨k, hk, rfl, rfl, rfl⟩ | ⟨p, hp, rfl, rfl, hold⟩
        · exact hold
        · exact absurd (hq rfl) (by omega)
        · exact absurd (hq rfl) (by omega)
  | @check c b cont pos size i addr hat hplain hmapping hroutine haddr hargs hinsert =>
      obtain ⟨hb, rfl⟩ := Check.insert_places hinsert
      refine hlead.of_places hat hplain (fun c' q j hat' hisParam => ?_) (fun q j hq hat' => ?_)
        fun j => (hparam j).mpr
      · have hisParam := (hparam j).mp hisParam
        refine ⟨hisParam, ?_⟩
        rcases Check.at_insert_cases hinsert hat' with
          hold | ⟨rfl, hold⟩ | ⟨s, hs, k, hk, rfl, rfl, rfl⟩
        · exact .inl hold
        · exact .inr ⟨pos + q, Nat.le_add_right _ _, hold⟩
        · obtain ⟨instruction, hinst, -⟩ := hisParam
          have hstart := Check.le_segment_start s hs
          exact absurd (Array.getElem?_eq_some_iff.mp hinst).1 (by omega)
      · -- in front of the check there is nothing but what was there
        rcases Check.at_insert_cases hinsert hat' with
          ⟨-, hold⟩ | ⟨hcont, hold⟩ | ⟨s, hs, k, hk, hblock, rfl, rfl⟩
        · exact hold
        · omega
        · rcases Check.segment_place s hs with ⟨hsb, hspos, -⟩ | ⟨hsb, -⟩
          · exact absurd (hq (hblock.trans hsb)) (by omega)
          · omega
  | replace hat _ hinst hold hop hg =>
      subst hg
      intro c q j hat' hisParam
      obtain ⟨hc, hfront⟩ := hlead c q j hat' ((hparam j).mp hisParam)
      exact ⟨hc, fun q' hq' j' hat'' => (hparam j').mpr (hfront q' hq' j' hat'')⟩

theorem Edits.paramsLead (h : Edits ordered n mapping symbols f g) (hlead : f.ParamsLead) :
    g.ParamsLead := by
  induction h with
  | refl => exact hlead
  | tail _ hedit ih => exact hedit.paramsLead ih

end Func

end Redzone
