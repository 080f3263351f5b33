import Redzone.Proofs.Modules.Draft

/-!
# Edits and the flow of control

Whether a run adds a block is seen by counting blocks.  As long as there are no more of them than
before, every block still ends in the instruction that ended it, since all other code is put in
front of an instruction or, behind the parameters, into a block that has no terminator.
`Func.GrowsInto` says this of a function `g` that `f` has become, and it is kept by every edit,
whatever function one starts from.
-/

namespace Redzone

namespace Func

variable {f g h : Func} {b : BlockId} {blk blk' : Block} {pos : Nat} {code : List Instruction}

/-- Two functions have the same blocks but for what stands inside them: they have as many, and each
of them ends in the same terminator, which does the same. -/
structure SameFlow (f g : Func) : Prop where
  size : g.blocks.size = f.blocks.size
  terminator : ∀ b, g.terminator b = f.terminator b
  op : ∀ b last, f.terminator b = .ok (some last) →
    (g.insts[last]?).map Instruction.op = (f.insts[last]?).map Instruction.op

theorem SameFlow.refl (f : Func) : f.SameFlow f := ⟨rfl, fun _ => rfl, fun _ _ _ => rfl⟩

theorem SameFlow.trans (hfg : f.SameFlow g) (hgh : g.SameFlow h) : f.SameFlow h where
  size := hgh.size.trans hfg.size
  terminator b := (hgh.terminator b).trans (hfg.terminator b)
  op b last hlast :=
    (hgh.op b last ((hfg.terminator b).trans hlast)).trans (hfg.op b last hlast)

/-- All that a function lists is in its arena. -/
def InArena (f : Func) : Prop := ∀ i ∈ f.listed, i < f.insts.size

/-- A terminator depends on what a block lists last. -/
theorem terminator_congr (hblk : f.blocks[b]? = some blk) (hblk' : g.blocks[b]? = some blk')
    (hlast : blk'.insts.getLast? = blk.insts.getLast?)
    (hends : ∀ last, blk.insts.getLast? = some last →
      (g.insts[last]?).map (·.op.isTerminator) = (f.insts[last]?).map (·.op.isTerminator)) :
    g.terminator b = f.terminator b := by
  unfold terminator block
  rw [hblk, hblk', ok_bind, ok_bind, hlast]
  cases hfound : blk.insts.getLast? with
  | none => rfl
  | some last =>
      have hsame := hends last hfound
      dsimp only [inst]
      cases hf : f.insts[last]? with
      | none =>
          rw [hf, Option.map_none, Option.map_eq_none_iff] at hsame
          rw [hsame]
      | some instruction =>
          rw [hf, Option.map_some, Option.map_eq_some_iff] at hsame
          obtain ⟨instruction', hg, hop⟩ := hsame
          rw [hg, ok_bind, ok_bind, hop]

theorem terminator_of_none (hblk : f.blocks[b]? = none) : f.terminator b = .error (.noBlock b) := by
  unfold terminator block
  rw [hblk]
  rfl

/-- A block without terminators ends in none. -/
theorem terminator_eq_none (hblk : f.blocks[b]? = some blk)
    (hplain : ∀ i ∈ blk.insts, ∃ instruction, f.insts[i]? = some instruction ∧
      instruction.op.isTerminator = false) : f.terminator b = .ok none := by
  unfold terminator block
  rw [hblk, ok_bind]
  cases hlast : blk.insts.getLast? with
  | none => rfl
  | some last =>
      obtain ⟨instruction, hinst, hop⟩ := hplain last (List.mem_of_getLast? hlast)
      dsimp only [inst]
      rw [hinst, ok_bind, hop]
      rfl

/-- A terminator is in the arena, and it is one. -/
theorem exists_of_terminator {last : InstId} (hlast : f.terminator b = .ok (some last)) :
    ∃ instruction, f.insts[last]? = some instruction ∧ instruction.op.isTerminator = true := by
  obtain ⟨blk, -, hlast⟩ := bind_eq_ok hlast
  split at hlast
  · cases hlast
  · obtain ⟨instruction, hinst, hlast⟩ := bind_eq_ok hlast
    by_cases hop : instruction.op.isTerminator = true
    · rw [if_pos hop] at hlast
      cases hlast
      exact ⟨instruction, inst_eq_ok hinst, hop⟩
    · rw [if_neg hop] at hlast
      cases hlast

/-! ### Functions that follow another one -/

/-- What is the same in a function with as many blocks. -/
structure Unbroken (f g : Func) : Prop where
  inArena : g.InArena
  terminator : ∀ b, g.terminator b = f.terminator b
  longer : ∀ (b : BlockId) (blk : Block), f.blocks[b]? = some blk →
    ∃ blk', g.blocks[b]? = some blk' ∧ blk.insts.length ≤ blk'.insts.length

/-- A function is left when code has been added to another one: no terminator is replaced, none is
made of another instruction, and if there is no new block, all blocks end as they did. -/
structure GrowsInto (f g : Func) : Prop where
  arena : ∀ (i : InstId) (instruction : Instruction), f.insts[i]? = some instruction →
    ∃ instruction', g.insts[i]? = some instruction' ∧
      instruction'.op.isTerminator = instruction.op.isTerminator ∧
      (instruction.op.isTerminator = true → instruction'.op = instruction.op)
  size : f.blocks.size ≤ g.blocks.size
  unbroken : g.blocks.size = f.blocks.size → f.Unbroken g

namespace GrowsInto

theorem refl (hf : f.InArena) : f.GrowsInto f where
  arena _ instruction hi := ⟨instruction, hi, rfl, fun _ => rfl⟩
  size := le_rfl
  unbroken _ := ⟨hf, fun _ => rfl, fun _ blk hblk => ⟨blk, hblk, le_rfl⟩⟩

theorem sameFlow (hgrown : f.GrowsInto g) (hsize : g.blocks.size = f.blocks.size) :
    f.SameFlow g where
  size := hsize
  terminator := (hgrown.unbroken hsize).terminator
  op b last hlast := by
    obtain ⟨instruction, hinst, hop⟩ := exists_of_terminator hlast
    obtain ⟨instruction', hinst', -, hsame⟩ := hgrown.arena last instruction hinst
    rw [hinst, hinst', Option.map_some, Option.map_some, hsame hop]

/-- What is no terminator never becomes one. -/
theorem isTerminator_eq_false {i : InstId} {instruction instruction' : Instruction}
    (hgrown : f.GrowsInto g) (hf : f.insts[i]? = some instruction)
    (hop : instruction.op.isTerminator = false) (hg : g.insts[i]? = some instruction') :
    instruction'.op.isTerminator = false := by
  obtain ⟨found, hfound, hsame, -⟩ := hgrown.arena i instruction hf
  obtain rfl := Option.some.inj (hfound.symm.trans hg)
  exact hsame.trans hop

end GrowsInto

theorem mem_listed_insert {i : InstId} (hblk : f.blocks[b]? = some blk) :
    i ∈ (f.graft b (blk.insts.take pos ++ List.range' f.insts.size code.length ++
        blk.insts.drop pos) code []).listed ↔
      i ∈ f.listed ∨ i ∈ List.range' f.insts.size code.length := by
  have hperm : (blk.insts.take pos ++ List.range' f.insts.size code.length ++
      blk.insts.drop pos ++ ([] : List Block).flatMap Block.insts).Perm
      (blk.insts ++ List.range' f.insts.size code.length) := by
    rw [List.flatMap_nil, List.append_nil, List.append_assoc]
    refine (List.perm_append_comm.append_left _).trans ?_
    rw [← List.append_assoc, List.take_append_drop]
  rw [(listed_graft_perm hblk hperm).mem_iff, List.mem_append]

/-- Where code may be put without touching the end of a block: in front of an instruction, or where
there is no terminator and none is put there. -/
def Inner (f : Func) (b : BlockId) (pos : Nat) (code : List Instruction) : Prop :=
  ∀ blk, f.blocks[b]? = some blk → pos < blk.insts.length ∨
    (∀ instruction ∈ code, instruction.op.isTerminator = false) ∧
      ∀ i ∈ blk.insts, ∃ instruction, f.insts[i]? = some instruction ∧
        instruction.op.isTerminator = false

/-- Code inside of blocks leaves their ends alone. -/
theorem terminator_insertCode (harena : f.InArena) (hinner : f.Inner b pos code)
    (hinsert : f.insertCode b pos code = .ok g) (c : BlockId) :
    g.terminator c = f.terminator c := by
  have hkept : ∀ i ∈ f.listed, g.insts[i]? = f.insts[i]? := by
    intro i hi
    obtain ⟨blk, -, -, rfl⟩ := insertCode_eq_ok hinsert
    exact getElem?_insts_graft_of_lt (harena i hi)
  obtain ⟨blk, hblk, hpos, rfl⟩ := insertCode_eq_ok hinsert
  by_cases hc : c = b
  · subst hc
    have hblk' : (f.graft c (blk.insts.take pos ++ List.range' f.insts.size code.length ++
        blk.insts.drop pos) code []).blocks[c]? =
          some { blk with
            insts := blk.insts.take pos ++ List.range' f.insts.size code.length ++
              blk.insts.drop pos } := getElem?_blocks_graft_self hblk
    -- the code is in front of the terminator, or there is none in the block and in the code
    rcases hinner blk hblk with hlt | ⟨hcode, hplain⟩
    · refine terminator_congr hblk hblk' ?_ fun last hlast => ?_
      · rw [List.getLast?_append, List.getLast?_drop, if_neg (Nat.not_le.mpr hlt)]
        have hne : blk.insts ≠ [] := List.ne_nil_of_length_pos (Nat.zero_lt_of_lt hlt)
        rw [List.getLast?_eq_some_getLast hne, Option.some_or]
      · rw [hkept last (mem_listed hblk (List.mem_of_getLast? hlast))]
    · rw [terminator_eq_none hblk hplain]
      refine terminator_eq_none hblk' fun i hi => ?_
      rcases (mem_listed_insert hblk).mp (mem_listed hblk' hi) with hold | hnew
      · have hmem : i ∈ blk.insts := by
          simp only [List.mem_append] at hi
          rcases hi with (hi | hi) | hi
          · exact List.mem_of_mem_take hi
          · exact absurd (harena i hold) (Nat.not_lt.mpr (List.mem_range'_1.mp hi).1)
          · exact List.mem_of_mem_drop hi
        rw [hkept i hold]
        exact hplain i hmem
      · obtain ⟨k, hk, rfl⟩ := List.mem_range'.mp hnew
        rw [Nat.one_mul, getElem?_insts_graft_add, List.getElem?_eq_getElem hk]
        exact ⟨_, rfl, hcode _ (List.getElem_mem hk)⟩
  · -- another block is as it was
    cases hother : f.blocks[c]? with
    | none =>
        have hnone : (f.graft b (blk.insts.take pos ++ List.range' f.insts.size code.length ++
            blk.insts.drop pos) code []).blocks[c]? = none := by
          rw [Array.getElem?_eq_none_iff, size_blocks_graft]
          exact Array.getElem?_eq_none_iff.mp hother
        rw [terminator_of_none hother, terminator_of_none hnone]
    | some other =>
        refine terminator_congr hother ?_ rfl fun last hlast => ?_
        · rw [getElem?_blocks_graft_of_ne hc (lt_size_of_getElem? hother), hother]
        · rw [hkept last (mem_listed hother (List.mem_of_getLast? hlast))]

theorem inArena_insertCode (harena : f.InArena) (hinsert : f.insertCode b pos code = .ok g) :
    g.InArena := by
  obtain ⟨blk, hblk, -, rfl⟩ := insertCode_eq_ok hinsert
  intro i hi
  rw [size_insts_graft]
  rcases (mem_listed_insert hblk).mp hi with hi | hi
  · exact (harena i hi).trans_le (Nat.le_add_right _ _)
  · exact (List.mem_range'_1.mp hi).2

namespace GrowsInto

/-- Code is put inside of a block. -/
theorem insertCode (hgrown : f.GrowsInto g) (hinsert : g.insertCode b pos code = .ok h)
    (hinner : g.blocks.size = f.blocks.size → g.Inner b pos code) : f.GrowsInto h where
  arena i instruction hi := by
    obtain ⟨instruction', hg, hsame⟩ := hgrown.arena i instruction hi
    exact ⟨instruction', getElem?_insts_insertCode hg hinsert, hsame⟩
  size := by
    obtain ⟨blk, -, -, rfl⟩ := insertCode_eq_ok hinsert
    simpa using hgrown.size
  unbroken hsize := by
    have hsize' : g.blocks.size = f.blocks.size := by
      obtain ⟨blk, -, -, rfl⟩ := insertCode_eq_ok hinsert
      simpa using hsize
    obtain ⟨harena, hterminator, hlonger⟩ := hgrown.unbroken hsize'
    refine ⟨inArena_insertCode harena hinsert, fun c => ?_, fun c old hold => ?_⟩
    · rw [terminator_insertCode harena (hinner hsize') hinsert c, hterminator c]
    · obtain ⟨now, hnow, hle⟩ := hlonger c old hold
      obtain ⟨blk, hblk, hpos, rfl⟩ := insertCode_eq_ok hinsert
      by_cases hc : c = b
      · subst hc
        obtain rfl := Option.some.inj (hblk.symm.trans hnow)
        refine ⟨_, getElem?_blocks_graft_self hblk, ?_⟩
        simp only [List.length_append, List.length_take, List.length_drop, List.length_range']
        omega
      · exact ⟨now, by rw [getElem?_blocks_graft_of_ne hc (lt_size_of_getElem? hnow), hnow], hle⟩

/-- An instruction that is no terminator is replaced by another one. -/
theorem setInst {i : InstId} {old new : Instruction} (hgrown : f.GrowsInto g)
    (hi : g.insts[i]? = some old) (hold : old.op.isTerminator = false)
    (hnew : new.op.isTerminator = false) : f.GrowsInto (g.setInst i new) where
  arena j instruction hj := by
    obtain ⟨instruction', hg, hsame, hop⟩ := hgrown.arena j instruction hj
    by_cases hji : j = i
    · subst hji
      obtain rfl := Option.some.inj (hi.symm.trans hg)
      refine ⟨new, getElem?_insts_setInst_self (Array.getElem?_eq_some_iff.mp hi).1 new,
        (hnew.trans hold.symm).trans hsame, fun hterminator => ?_⟩
      rw [← hsame, hold] at hterminator
      cases hterminator
    · exact ⟨instruction', by rw [getElem?_insts_setInst_of_ne hji, hg], hsame, hop⟩
  size := hgrown.size
  unbroken hsize := by
    obtain ⟨harena, hterminator, hlonger⟩ := hgrown.unbroken hsize
    refine ⟨fun j hj => ?_, fun c => ?_, hlonger⟩
    · rw [size_insts_setInst]
      exact harena j hj
    · rw [← hterminator c]
      cases hblk : g.blocks[c]? with
      | none => rw [terminator_of_none hblk, terminator_of_none (f := g.setInst i new) hblk]
      | some blk =>
          refine terminator_congr hblk hblk rfl fun last hlast => ?_
          by_cases heq : last = i
          · subst heq
            rw [getElem?_insts_setInst_self (Array.getElem?_eq_some_iff.mp hi).1 new, hi,
              Option.map_some, Option.map_some, hold, hnew]
          · rw [getElem?_insts_setInst_of_ne heq]

/-- A check adds blocks. -/
theorem check {c : Check} {addr : Value} {bytes : Nat} {cont : BlockId} (hgrown : f.GrowsInto g)
    (hinsert : c.insert g b pos addr bytes = .ok (h, cont)) :
    f.GrowsInto h ∧ f.blocks.size < h.blocks.size := by
  obtain ⟨blk, -, -, -, rfl⟩ := Check.insert_eq_ok hinsert
  have hlt : f.blocks.size < (g.graft b (blk.insts.take pos ++ List.range' g.insts.size 9)
      (addedCode c.origin (c.ops g.insts.size addr bytes g.blocks.size))
      (c.fresh g.blockArgs.size g.insts.size addr bytes g.blocks.size
        (blk.insts.drop pos))).blocks.size := by
    rw [size_blocks_graft, Check.fresh, List.length_cons]
    have := hgrown.size
    omega
  refine ⟨⟨fun i instruction hi => ?_, hlt.le, fun hsize => absurd hsize hlt.ne'⟩, hlt⟩
  obtain ⟨instruction', hg, hsame⟩ := hgrown.arena i instruction hi
  refine ⟨instruction', ?_, hsame⟩
  rw [getElem?_insts_graft_of_lt (Array.getElem?_eq_some_iff.mp hg).1, hg]

theorem inner_of_inPlace {site : Site} (hgrown : f.GrowsInto g) (hplace : site.InPlace f)
    (hsize : g.blocks.size = f.blocks.size) : g.Inner site.block site.pos code := by
  intro blk hblk
  obtain ⟨old, hold, hget⟩ := hplace
  obtain ⟨now, hnow, hle⟩ := (hgrown.unbroken hsize).longer _ _ hold
  obtain rfl := Option.some.inj (hblk.symm.trans hnow)
  exact .inl ((List.getElem?_eq_some_iff.mp hget).1.trans_le hle)

theorem inner_of_getElem? {i : InstId} (hblk : g.blocks[b]? = some blk)
    (hget : blk.insts[pos]? = some i) : g.Inner b pos code := by
  intro blk' hblk'
  obtain rfl := Option.some.inj (hblk.symm.trans hblk')
  exact .inl (List.getElem?_eq_some_iff.mp hget).1

end GrowsInto

end Func

/-! ### Checks -/

namespace Draft

variable {config : Config} {outlined : Bool} {d d' : Draft} {f : Func} {site : Site}

theorem visit_growsInto (hgrown : f.GrowsInto d.func) (hplace : site.InPlace f)
    (h : d.visit config outlined site = .ok d') : f.GrowsInto d'.func := by
  have hinner : ∀ {code : List Instruction}, d.func.blocks.size = f.blocks.size →
      d.func.Inner site.block site.pos code := hgrown.inner_of_inPlace hplace
  -- a check, by a call or by added code, or a bulk operation
  replace h := (require_bind_eq_ok h).2
  unfold handle at h
  split at h
  · split at h
    · obtain ⟨i, -, h⟩ := bind_eq_ok h
      obtain ⟨g, hg, h⟩ := bind_eq_ok h
      cases h
      exact hgrown.insertCode hg hinner
    · obtain ⟨i, -, h⟩ := bind_eq_ok h
      dsimp only at h
      split at h
      · obtain ⟨g, hg, h⟩ := bind_eq_ok h
        obtain ⟨⟨g₁, cont⟩, hg₁, h⟩ := bind_eq_ok h
        cases h
        exact ((hgrown.insertCode hg hinner).check hg₁).1
      · obtain ⟨g, hg, h⟩ := bind_eq_ok h
        obtain ⟨⟨g₁, cont⟩, hg₁, h⟩ := bind_eq_ok h
        obtain ⟨⟨g₂, cont'⟩, hg₂, h⟩ := bind_eq_ok h
        cases h
        exact (((hgrown.insertCode hg hinner).check hg₁).1.check hg₂).1
  · obtain ⟨i, hi, h⟩ := bind_eq_ok h
    split at h
    · rename_i kind dest source length hop
      obtain ⟨g, hg, h⟩ := bind_eq_ok h
      obtain ⟨g₁, hg₁, h⟩ := bind_eq_ok h
      cases h
      obtain ⟨instruction, hinst, rfl⟩ := Func.setOp_eq_ok hg₁
      obtain rfl := Option.some.inj
        ((Func.getElem?_insts_insertCode (Func.inst_eq_ok hi) hg).symm.trans hinst)
      exact (hgrown.insertCode hg hinner).setInst hinst (by rw [hop]; rfl) rfl
    · cases h
      exact hgrown

theorem visitAll_growsInto {sites : List Site} (hgrown : f.GrowsInto d.func)
    (hplace : ∀ site ∈ sites, site.InPlace f) (h : d.visitAll config outlined sites = .ok d') :
    f.GrowsInto d'.func := by
  refine foldlM_keeps (fun d : Draft => f.GrowsInto d.func) ?_ hgrown h
  intro d d' site hsite hgrown hvisit
  exact visit_growsInto hgrown (hplace site (List.mem_reverse.mp hsite)) hvisit

/-! ### Frames -/

theorem isTerminator_of_writesCoded {symbols : SymbolTable} {base : Value} {n : InstId}
    {writes : List ShadowWrite} {ops : List Op} (h : WritesCoded symbols base n writes ops) :
    ∀ op ∈ ops, op.isTerminator = false := by
  induction h with
  | nil n => simp
  | cons hfirst _ ih =>
      rw [List.forall_mem_append]
      refine ⟨?_, ih⟩
      cases hfirst <;> simp [Op.isTerminator]

theorem isTerminator_prologueCode (mapping : ShadowMapping) (n : InstId) (size align : Nat)
    (description function : SymbolId) :
    ∀ op ∈ prologueCode mapping n size align description function, op.isTerminator = false := by
  simp [prologueCode, shadowAddrCode, Op.isTerminator]

theorem length_prologueCode (mapping : ShadowMapping) (n : InstId) (size align : Nat)
    (description function : SymbolId) :
    (prologueCode mapping n size align description function).length = 16 := rfl

/-- Behind the parameters there is an instruction, or there is no terminator. -/
theorem prologue_growsInto {frame : Frame} {inScope atEntry : List UInt8} {description : SymbolId}
    {code : FrameCode} (hgrown : f.GrowsInto d.func)
    (h : FrameCode.prologue config frame inScope atEntry description d = .ok (d', code)) :
    f.GrowsInto d'.func := by
  obtain ⟨-, -, blk, pos, writes, ops, hblk, hparams, -, hcoded, hinsert⟩ :=
    FrameCode.prologue_eq_ok h
  refine hgrown.insertCode hinsert fun _ blk' hblk' => ?_
  obtain rfl := Option.some.inj (hblk.symm.trans hblk')
  by_cases hlt : pos < blk.insts.length
  · exact .inl hlt
  · refine .inr ⟨fun instruction hinstruction => ?_, fun i hi => ?_⟩
    · obtain ⟨op, hop, rfl⟩ := List.mem_map.mp hinstruction
      rcases List.mem_append.mp hop with hop | hop
      · exact isTerminator_prologueCode _ _ _ _ _ _ op hop
      · exact isTerminator_of_writesCoded hcoded op hop
    · rw [← List.take_of_length_le (Nat.le_of_not_lt hlt)] at hi
      obtain ⟨instruction, hinst, hparam⟩ := Func.leadingParams_eq_ok hparams i hi
      exact ⟨instruction, hinst, (Op.proceeds_of_isParam hparam).1⟩

theorem placeSlots_growsInto {code : FrameCode} {slots : List Slot} {vars : List StackVariable}
    {g h : Func} (hgrown : f.GrowsInto g)
    (hslots : ∀ slot ∈ slots, ∃ instruction, f.insts[slot.inst]? = some instruction ∧
      instruction.op.isSlot = true)
    (hplaced : vars.foldlM (code.placeSlot slots) g = .ok h) : f.GrowsInto h := by
  refine foldlM_keeps (fun g => f.GrowsInto g) (fun g h var _ hgrown hplace => ?_) hgrown hplaced
  rcases FrameCode.placeSlot_cases hplace with
    ⟨rfl, -⟩ | ⟨slot, b, blk, pos, g', instruction, hslot, hblk, hget, hinsert, hinst, rfl⟩
  · exact hgrown
  · have hgrown' := hgrown.insertCode hinsert fun _ => Func.GrowsInto.inner_of_getElem? hblk hget
    obtain ⟨old, hold, hop⟩ := hslots slot (List.mem_of_getElem? hslot)
    have hplain : old.op.isTerminator = false := by
      cases hold : old.op <;> rw [hold] at hop <;> first | rfl | cases hop
    exact hgrown'.setInst hinst (hgrown'.isTerminator_eq_false hold hplain hinst) rfl

theorem placeMarkers_growsInto {code : FrameCode} {markers : List Marker}
    (hgrown : f.GrowsInto d.func)
    (h : markers.foldlM code.placeMarker d = .ok d') : f.GrowsInto d'.func := by
  refine foldlM_keeps (fun d : Draft => f.GrowsInto d.func) ?_ hgrown h
  intro d d' marker _ hgrown hmarker
  rcases FrameCode.placeMarker_cases hmarker with
    ⟨rfl, -⟩ | ⟨writes, -, b, blk, pos, origin, ops, -, hblk, hget, -, hinsert⟩
  · exact hgrown
  · exact hgrown.insertCode hinsert fun _ => Func.GrowsInto.inner_of_getElem? hblk hget

theorem placeExits_growsInto {code : FrameCode} {exits : List (BlockId × Nat)}
    (hgrown : f.GrowsInto d.func) (hnodup : (exits.map Prod.fst).Nodup)
    (hexits : ∀ exit ∈ exits, ∃ last, d.func.ExitAt exit.1 exit.2 last)
    (h : exits.foldlM code.placeExit d = .ok d') : f.GrowsInto d'.func := by
  induction exits generalizing d with
  | nil =>
      cases h
      exact hgrown
  | cons exit rest ih =>
      obtain ⟨d₁, hd₁, h⟩ := foldlM_cons_eq_ok h
      rw [List.forall_mem_cons] at hexits
      rw [List.map_cons, List.nodup_cons] at hnodup
      obtain ⟨⟨last, blk, instruction, hblk, -, hget, -⟩, hexits⟩ := hexits
      obtain ⟨-, writes, ops, -, -, hinsert⟩ := FrameCode.placeExit_eq_ok hd₁
      refine ih (hgrown.insertCode hinsert fun _ => Func.GrowsInto.inner_of_getElem? hblk hget)
        hnodup.2 (fun other hother => ?_) h
      obtain ⟨last', hother'⟩ := hexits other hother
      refine ⟨last', exitAt_of_placeExit hother' (fun heq => hnodup.1 ?_) hd₁⟩
      exact heq ▸ List.mem_map_of_mem hother

theorem addFrame_growsInto {name : String} {slots : List Slot} {frame : Frame}
    {description : Global} (hgrown : f.GrowsInto d.func)
    (hslots : ∀ slot ∈ slots, ∃ instruction, f.insts[slot.inst]? = some instruction ∧
      instruction.op.isSlot = true)
    (h : d.addFrame config name slots frame = .ok (d', description)) :
    f.GrowsInto d'.func ∧ d.func.insts.size < d'.func.insts.size := by
  obtain ⟨atEntry, markers, symbol, symbols, d₁, code, f₂, d₃, exits, -, -, -, -, hprologue,
    hplaced, hmarked, hexits, hleft, -⟩ := addFrame_eq_ok h
  obtain ⟨hnodup, hplaces⟩ := Func.exitAt_of_mem_exits hexits
  have hfirst : f.GrowsInto d₁.func :=
    prologue_growsInto (d := { d with symbols := symbols }) hgrown hprologue
  have hthird := placeMarkers_growsInto (d := { d₁ with func := f₂ })
    (placeSlots_growsInto hfirst hslots hplaced) hmarked
  refine ⟨placeExits_growsInto hthird hnodup hplaces hleft, ?_⟩
  obtain ⟨-, -, -, pos, -, ops, -, -, -, -, hinsert⟩ := FrameCode.prologue_eq_ok hprologue
  have hgrows : d.func.insts.size < d₁.func.insts.size := by
    rw [(Func.insertCode_extends hinsert).2, Check.length_addedCode, List.length_append,
      length_prologueCode]
    exact Nat.lt_add_of_pos_right (Nat.add_pos_left (Nat.succ_pos 15) _)
  have hrest : d₁.Extends d' :=
    (placeSlots_extends hplaced).trans <|
      (Extends.of_foldlM (fun hmarker => placeMarker_extends hmarker) hmarked).trans <|
      .of_foldlM (fun hexit => placeExit_extends hexit) hleft
  exact hgrows.trans_le hrest.size

end Draft

end Redzone
