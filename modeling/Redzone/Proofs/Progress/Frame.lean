import Redzone.Proofs.Frame.Layout
import Redzone.Proofs.Frame.Path
import Redzone.Proofs.Modules.Flow
import Redzone.Proofs.Modules.OwnCode
import Redzone.Proofs.Progress.Survey

/-!
# Frames can always be added

Code is put behind the parameters and in front of instructions that have just been found, so that
there is a place for it.  What is written of a shadow lies within the granules of a variable, and
these are granules of the frame.  So a frame that was laid out for the slots of a function can be
added to it (`Draft.exists_addFrame`), as long as the function has an entry block and lists only
what is in its arena.
-/

namespace Redzone

namespace Func

variable {f : Func} {b : BlockId} {blk : Block} {pos : Nat} {i : InstId}

/-- Code may be put before position `pos` of block `b`. -/
def HasPlace (f : Func) (b : BlockId) (pos : Nat) : Prop :=
  ∃ blk, f.blocks[b]? = some blk ∧ pos ≤ blk.insts.length

namespace HasPlace

theorem exists_insertCode (hplace : f.HasPlace b pos) (code : List Instruction) :
    ∃ g, f.insertCode b pos code = .ok g := by
  obtain ⟨blk, hblk, hpos⟩ := hplace
  exact ⟨_, insertCode_eq_graft hblk hpos⟩

/-- Blocks only get longer. -/
theorem insertCode {g : Func} {c : BlockId} {pos' : Nat} {code : List Instruction}
    (hplace : f.HasPlace b pos) (hinsert : f.insertCode c pos' code = .ok g) :
    g.HasPlace b pos := by
  obtain ⟨blk, hblk, hpos⟩ := hplace
  obtain ⟨blk', hblk', hpos', rfl⟩ := insertCode_eq_ok hinsert
  by_cases hbc : b = c
  · subst hbc
    obtain rfl := Option.some.inj (hblk.symm.trans hblk')
    refine ⟨_, getElem?_blocks_graft_self hblk, ?_⟩
    simp only [List.length_append, List.length_take, List.length_drop, List.length_range']
    omega
  · exact ⟨blk, by rw [getElem?_blocks_graft_of_ne hbc (lt_size_of_getElem? hblk), hblk], hpos⟩

theorem of_getElem? (hblk : f.blocks[b]? = some blk) (hget : blk.insts[pos]? = some i) :
    f.HasPlace b pos := ⟨blk, hblk, (List.getElem?_eq_some_iff.mp hget).1.le⟩

theorem of_mem_exits {leaves : Op → Bool} {exits : List (BlockId × Nat)} {exit : BlockId × Nat}
    (h : f.exits leaves = .ok exits) (hexit : exit ∈ exits) : f.HasPlace exit.1 exit.2 := by
  obtain ⟨last, blk, -, hblk, -, hget, -⟩ := (exits_eq_ok h).2 exit hexit
  exact .of_getElem? hblk hget

end HasPlace

namespace InArena

theorem exists_inst (harena : f.InArena) (hi : i ∈ f.listed) :
    ∃ instruction, f.inst i = .ok instruction :=
  ⟨_, inst_of_getElem? (Array.getElem?_eq_getElem (harena i hi))⟩

theorem setInst (harena : f.InArena) (instruction : Instruction) :
    (f.setInst i instruction).InArena := by
  intro j hj
  rw [size_insts_setInst]
  exact harena j hj

theorem exists_leadingParams (harena : f.InArena) {insts : List InstId}
    (hinsts : ∀ i ∈ insts, i ∈ f.listed) : ∃ count, f.leadingParams insts = .ok count := by
  induction insts with
  | nil => exact ⟨0, rfl⟩
  | cons i rest ih =>
      rw [List.forall_mem_cons] at hinsts
      obtain ⟨instruction, hinst⟩ := harena.exists_inst hinsts.1
      obtain ⟨count, hcount⟩ := ih hinsts.2
      rw [leadingParams, hinst, ok_bind]
      split
      · exact ⟨count + 1, by rw [hcount, ok_bind]⟩
      · exact ⟨0, rfl⟩

theorem exists_prologueLength (harena : f.InArena) (hblk : f.blocks[0]? = some blk) :
    ∃ pos, f.prologueLength = .ok pos ∧ f.HasPlace 0 pos := by
  obtain ⟨pos, hpos⟩ :=
    harena.exists_leadingParams fun i (hi : i ∈ blk.insts) => mem_listed hblk hi
  exact ⟨pos, by rw [prologueLength, hblk]; exact hpos, blk, hblk, le_length_of_leadingParams hpos⟩

theorem exists_markers (harena : f.InArena) (slots : List Slot) :
    ∃ markers, f.markers slots = .ok markers := by
  have hsteps : ∀ i ∈ f.listed, ∃ marker, f.marker? slots i = .ok marker := by
    intro i hi
    obtain ⟨instruction, hinst⟩ := harena.exists_inst hi
    unfold marker?
    rw [hinst, ok_bind]
    repeat' split
    all_goals exact ⟨_, rfl⟩
  obtain ⟨markers, hmarkers⟩ := exists_mapM hsteps
  exact ⟨markers.filterMap id, by rw [Func.markers, hmarkers, ok_bind]⟩

theorem exists_exits (harena : f.InArena) (leaves : Op → Bool) :
    ∃ exits, f.exits leaves = .ok exits := by
  have hsteps : ∀ b ∈ f.blockIds, ∃ exit, f.exit? leaves b = .ok exit := by
    intro b hb
    have hlt : b < f.blocks.size := List.mem_range.mp hb
    have hblk : f.blocks[b]? = some f.blocks[b] := Array.getElem?_eq_getElem hlt
    unfold exit? terminator
    rw [block_of_getElem? hblk, ok_bind]
    cases hlast : f.blocks[b].insts.getLast? with
    | none => exact ⟨none, rfl⟩
    | some last =>
        obtain ⟨instruction, hinst⟩ :=
          harena.exists_inst (mem_listed hblk (List.mem_of_getLast? hlast))
        dsimp only
        rw [hinst, ok_bind]
        by_cases hop : instruction.op.isTerminator = true
        · rw [if_pos hop, ok_bind]
          dsimp only
          rw [hinst, ok_bind, ok_bind]
          split
          · -- a block that ends in an instruction lists one
            have hpos : 1 ≤ f.blocks[b].insts.length := by
              rw [Nat.one_le_iff_ne_zero, ne_eq, List.length_eq_zero_iff]
              rintro hnil
              rw [hnil] at hlast
              cases hlast
            rw [checkedSub_of_le hpos]
            exact ⟨_, rfl⟩
          · exact ⟨none, rfl⟩
        · rw [if_neg hop]
          exact ⟨none, rfl⟩
  obtain ⟨exits, hexits⟩ := exists_mapM hsteps
  exact ⟨exits.filterMap id, by rw [Func.exits, hexits, ok_bind]⟩

end InArena

end Func

/-! ### Shadows -/

namespace Frame

variable {frame : Frame}

/-- The granules of every variable are granules of the frame, and lifetimes are no longer than
variables. -/
structure Holds (frame : Frame) : Prop where
  pos : 0 < frame.granularity
  lifetime : ∀ var ∈ frame.vars, var.lifetime ≤ var.size
  offset : ∀ var ∈ frame.vars, frame.granularity ∣ var.offset
  within : ∀ var ∈ frame.vars, var.offset / frame.granularity + ceilDiv var.size frame.granularity ≤
    frame.size / frame.granularity

theorem holds_of_layOut {vars : List StackVariable} {granularity : Nat}
    (h : layOut vars granularity = .ok frame) (hpower : isPowerOfTwo granularity = true)
    (haligns : ∀ var ∈ vars, isPowerOfTwo var.align = true)
    (hlifetimes : ∀ var ∈ vars, var.lifetime ≤ var.size) : frame.Holds := by
  obtain ⟨hpos, rfl, hperm⟩ := layOut_eq_ok h
  refine ⟨hpos, fun var hvar => ?_, fun var hvar => ?_, fun var hvar => ?_⟩
  · obtain ⟨var', hvar', hnature⟩ := List.mem_map.mp (hperm.mem_iff.mp (List.mem_map_of_mem hvar))
    have hle := hlifetimes var' hvar'
    simp only [nature, Prod.mk.injEq] at hnature
    omega
  · exact (layOut_within h hpower haligns hvar).1
  · exact (layOut_within h hpower haligns hvar).2

theorem holds_of_slotVariables {slots : List Slot} {granularity : Nat}
    (h : layOut (slotVariables slots) granularity = .ok frame)
    (hpower : isPowerOfTwo granularity = true)
    (hslots : ∀ slot ∈ slots, isPowerOfTwo slot.align = true) : frame.Holds :=
  holds_of_layOut h hpower (isPowerOfTwo_of_slotVariables hslots) fun _ hvar =>
    lifetime_le_of_slotVariables hvar

/-- The granules in front of a place within a variable are granules of the frame. -/
theorem Holds.ceilDiv_le (hholds : frame.Holds) {var : StackVariable} (hvar : var ∈ frame.vars)
    {size : Nat} (hsize : size ≤ var.size) :
    ceilDiv (var.offset + size) frame.granularity ≤ frame.size / frame.granularity := by
  refine le_trans ?_ (hholds.within var hvar)
  rw [ceilDiv_le_iff hholds.pos, Nat.add_mul, Nat.div_mul_cancel (hholds.offset var hvar)]
  have hcovers := (ceilDiv_le_iff hholds.pos).mp (le_refl (ceilDiv var.size frame.granularity))
  omega

theorem Holds.markedGranules_le (hholds : frame.Holds) {var : StackVariable}
    (hvar : var ∈ frame.vars) {marker : Marker} {start stop : Nat}
    (h : FrameCode.markedGranules frame.granularity var marker = .ok (some (start, stop))) :
    stop ≤ frame.size / frame.granularity := by
  obtain ⟨hlt, -, rfl⟩ := FrameCode.markedGranules_eq_some h
  rw [Nat.add_assoc]
  exact hholds.ceilDiv_le hvar (by omega)

theorem Holds.exists_entryShadow (hholds : frame.Holds) :
    ∃ atEntry, frame.entryShadow = .ok atEntry := by
  -- the shadow keeps its length while scopes are poisoned
  obtain ⟨atEntry, hentry, -⟩ := exists_foldlM
    (fun (shadow : List UInt8) (rest : List StackVariable) =>
      shadow.length = frame.size / frame.granularity ∧ ∀ var ∈ rest, var ∈ frame.vars)
    (fun shadow var rest ⟨hlength, hrest⟩ => by
      rw [List.forall_mem_cons] at hrest
      have hfits : var.offset / frame.granularity + ceilDiv var.lifetime frame.granularity ≤
          shadow.length := by
        rw [hlength]
        refine le_trans (Nat.add_le_add_left ?_ _) (hholds.within var hrest.1)
        rw [ceilDiv_le_iff hholds.pos]
        exact (hholds.lifetime var hrest.1).trans ((ceilDiv_le_iff hholds.pos).mp le_rfl)
      obtain ⟨filled, hfilled⟩ : ∃ filled, poisonScope frame.granularity shadow var =
          .ok filled := by
        rw [poisonScope, require_of (hholds.lifetime var hrest.1), ok_bind, fillShadow,
          if_pos hfits]
        exact ⟨_, rfl⟩
      exact ⟨filled, hfilled, (length_fillShadow (poisonScope_eq_ok hfilled).2).trans hlength,
        hrest.2⟩)
    (⟨length_shadow frame, fun _ hvar => hvar⟩ :
      frame.shadow.length = frame.size / frame.granularity ∧ ∀ var ∈ frame.vars, var ∈ frame.vars)
  exact ⟨atEntry, hentry⟩

end Frame

/-! ### The parts of a frame -/

namespace FrameCode

variable {code : FrameCode} {d : Draft}

theorem exists_prologue (config : Config) (frame : Frame) (inScope atEntry : List UInt8)
    (description : SymbolId) {blk : Block} (harena : d.func.InArena)
    (hblk : d.func.blocks[0]? = some blk) :
    ∃ d' code, prologue config frame inScope atEntry description d = .ok (d', code) ∧
      d'.func.InArena := by
  obtain ⟨pos, hpos, hplace⟩ := harena.exists_prologueLength hblk
  obtain ⟨writes, hwrites, -⟩ := ShadowWrite.exists_plan config.maxInlinePoisoning 0
    (Eq.refl atEntry.length) le_rfl
  have hfunc := (d.writesCode_spec (d.func.insts.size + (prologueCode config.mapping
    d.func.insts.size frame.size frame.align description d.func.name).length)
    (.inst (d.func.insts.size + 15)) writes).1
  unfold prologue
  rw [hpos, ok_bind]
  dsimp only
  rw [hwrites, ok_bind, hfunc]
  obtain ⟨g, hg⟩ := hplace.exists_insertCode (addedCode [] (prologueCode config.mapping
    d.func.insts.size frame.size frame.align description d.func.name ++ (d.writesCode
      (d.func.insts.size + (prologueCode config.mapping d.func.insts.size frame.size frame.align
        description d.func.name).length) (.inst (d.func.insts.size + 15)) writes).2))
  rw [hg]
  exact ⟨_, _, rfl, Func.inArena_insertCode harena hg⟩

theorem exists_placeSlot (code : FrameCode) (slots : List Slot) {f : Func} (var : StackVariable)
    (harena : f.InArena) : ∃ f', code.placeSlot slots f var = .ok f' ∧ f'.InArena := by
  unfold placeSlot
  split
  · exact ⟨f, rfl, harena⟩
  · rename_i slot hslot
    split
    · exact ⟨f, rfl, harena⟩
    · rename_i b pos hlocate
      obtain ⟨blk, hblk, hget⟩ := Func.locate_eq_some hlocate
      obtain ⟨g, hg⟩ := (Func.HasPlace.of_getElem? hblk hget).exists_insertCode
        [{ op := .iconst var.offset, ty := .int }]
      obtain ⟨instruction, hinst⟩ :=
        harena.exists_inst (Func.mem_listed hblk (List.mem_of_getElem? hget))
      have hinst' := Func.getElem?_insts_insertCode (Func.inst_eq_ok hinst) hg
      dsimp only
      rw [hg, ok_bind, Func.setOp, Func.inst_of_getElem? hinst', ok_bind]
      exact ⟨_, rfl, (Func.inArena_insertCode harena hg).setInst _⟩

/-- The shadows of a frame that is added are as long as the frame. -/
structure Fits (code : FrameCode) : Prop where
  holds : code.frame.Holds
  atEntry : code.atEntry.length = code.frame.size / code.frame.granularity
  inScope : code.inScope.length = code.frame.size / code.frame.granularity

theorem fits_of_prologue {config : Config} {frame : Frame} {atEntry : List UInt8}
    {description : SymbolId}
    {d' : Draft} (hholds : frame.Holds) (hentry : frame.entryShadow = .ok atEntry)
    (h : prologue config frame frame.shadow atEntry description d = .ok (d', code)) :
    code.Fits := by
  obtain ⟨rfl, -⟩ := prologue_eq_ok h
  exact ⟨hholds, (Frame.entryShadow_eq_ok hentry).1.trans frame.length_shadow, frame.length_shadow⟩

theorem exists_markedGranules (granularity : Nat) (var : StackVariable) (marker : Marker) :
    ∃ granules, markedGranules granularity var marker = .ok granules := by
  unfold markedGranules
  split
  · exact ⟨none, rfl⟩
  · rename_i hlt
    exact ⟨_, by rw [checkedSub_of_le (Nat.le_of_not_le hlt), ok_bind]⟩

theorem exists_placeMarker (hfits : code.Fits) (marker : Marker) (harena : d.func.InArena) :
    ∃ d', code.placeMarker d marker = .ok d' ∧ d'.func.InArena := by
  unfold placeMarker
  split
  · rename_i var b pos hvar hlocate
    obtain ⟨granules, hgranules⟩ := exists_markedGranules code.frame.granularity var marker
    rw [hgranules, ok_bind]
    rcases granules with _ | ⟨start, stop⟩
    · exact ⟨d, rfl, harena⟩
    · obtain ⟨blk, hblk, hget⟩ := Func.locate_eq_some hlocate
      obtain ⟨instruction, hinst⟩ :=
        harena.exists_inst (Func.mem_listed hblk (List.mem_of_getElem? hget))
      have hstop := hfits.holds.markedGranules_le (List.mem_of_find?_eq_some hvar) hgranules
      -- either shadow of a variable can be written: both are as long as the frame
      have hwritten : ∀ bytes : List UInt8,
          bytes.length = code.frame.size / code.frame.granularity → ∃ d', (do
            let writes ← ShadowWrite.plan code.maxInline code.atEntry bytes start stop
            let written := d.writesCode d.func.insts.size code.shadowBase writes
            let f ← written.1.func.insertCode b pos (addedCode instruction.origin written.2)
            Except.ok { written.1 with func := f }) = .ok d' ∧ d'.func.InArena := by
        intro bytes hbytes
        obtain ⟨writes, hwrites, -⟩ := ShadowWrite.exists_plan code.maxInline start
          (hfits.atEntry.trans hbytes.symm) (hstop.trans_eq hfits.atEntry.symm)
        have hfunc := (d.writesCode_spec d.func.insts.size code.shadowBase writes).1
        obtain ⟨g, hg⟩ := (Func.HasPlace.of_getElem? hblk hget).exists_insertCode
          (addedCode instruction.origin (d.writesCode d.func.insts.size code.shadowBase writes).2)
        rw [hwrites, ok_bind]
        dsimp only
        rw [hfunc, hg]
        exact ⟨_, rfl, Func.inArena_insertCode harena hg⟩
      dsimp only
      rw [hinst, ok_bind]
      cases marker.edge with
      | enter => exact hwritten _ hfits.inScope
      | leave => exact hwritten _ hfits.atEntry
  · exact ⟨d, rfl, harena⟩

theorem exists_placeExit (code : FrameCode) {exit : BlockId × Nat}
    (hplace : d.func.HasPlace exit.1 exit.2) : ∃ d', code.placeExit d exit = .ok d' := by
  have hclean : (List.replicate code.atEntry.length (0 : UInt8)).length = code.atEntry.length :=
    List.length_replicate
  obtain ⟨writes, hwrites, -⟩ := ShadowWrite.exists_plan code.maxInline 0 hclean.symm hclean.le
  unfold placeExit
  dsimp only
  rw [hwrites, ok_bind, (d.writesCode_spec _ _ _).1]
  obtain ⟨g, hg⟩ := hplace.exists_insertCode
    (addedCode [] (code.retireOps d.func.insts.size ++ (d.writesCode
      (d.func.insts.size + (code.retireOps d.func.insts.size).length) code.shadowBase writes).2))
  unfold retireOps at hg
  rw [hg]
  exact ⟨_, rfl⟩

/-- The code in front of an exit leaves a place in front of every other one. -/
theorem exists_placeExits (code : FrameCode) {exits : List (BlockId × Nat)}
    (hplaces : ∀ exit ∈ exits, d.func.HasPlace exit.1 exit.2) :
    ∃ d', exits.foldlM code.placeExit d = .ok d' := by
  obtain ⟨d', hd', -⟩ := exists_foldlM
    (fun d rest => ∀ exit ∈ rest, (Draft.func d).HasPlace (Prod.fst exit) (Prod.snd exit))
    (fun d exit rest hrest => by
      rw [List.forall_mem_cons] at hrest
      obtain ⟨d₁, hd₁⟩ := exists_placeExit code hrest.1
      obtain ⟨-, writes, ops, -, -, hinsert⟩ := placeExit_eq_ok hd₁
      exact ⟨d₁, hd₁, fun other hother => (hrest.2 other hother).insertCode hinsert⟩) hplaces
  exact ⟨d', hd'⟩

end FrameCode

/-- A frame that holds its variables can be added to a function with an entry block. -/
theorem Draft.exists_addFrame {config : Config} {name : String} {slots : List Slot} {frame : Frame}
    {d : Draft} {blk : Block} (hholds : frame.Holds) (harena : d.func.InArena)
    (hblk : d.func.blocks[0]? = some blk) :
    ∃ d' description, d.addFrame config name slots frame = .ok (d', description) := by
  obtain ⟨atEntry, hentry⟩ := hholds.exists_entryShadow
  obtain ⟨markers, hmarkers⟩ : ∃ markers,
      (if config.useAfterScope then d.func.markers slots else .ok []) = .ok markers := by
    split
    · exact harena.exists_markers slots
    · exact ⟨[], rfl⟩
  -- stage by stage; all that a stage needs is that listed code is in the arena
  obtain ⟨d₁, code, hprologue, harena₁⟩ := FrameCode.exists_prologue config frame frame.shadow
    atEntry (d.symbols.intern (EntryPoint.stackDescription name)).2
    (d := { d with symbols := (d.symbols.intern (EntryPoint.stackDescription name)).1 }) harena hblk
  have hfits := FrameCode.fits_of_prologue hholds hentry hprologue
  obtain ⟨f₂, hslots, harena₂⟩ : ∃ f₂, frame.vars.foldlM (code.placeSlot slots) d₁.func = .ok f₂ ∧
      f₂.InArena :=
    exists_foldlM (fun f _ => Func.InArena f)
      (fun f var _ hf => code.exists_placeSlot slots var hf) harena₁
  obtain ⟨d₃, hmarked, harena₃⟩ : ∃ d₃, markers.foldlM code.placeMarker { d₁ with func := f₂ } =
      .ok d₃ ∧ d₃.func.InArena :=
    exists_foldlM (fun d _ => (Draft.func d).InArena)
      (fun d marker _ hd => FrameCode.exists_placeMarker hfits marker hd) harena₂
  obtain ⟨exits, hexits⟩ := harena₃.exists_exits Op.isExit
  obtain ⟨d₄, hleft⟩ := code.exists_placeExits fun exit hexit => .of_mem_exits hexits hexit
  unfold addFrame
  rw [hentry, ok_bind]
  dsimp only
  split at hmarkers
  · rename_i hscope
    rw [if_pos hscope, hmarkers]
    simp only [ok_bind, hprologue, hslots, hmarked, hexits, hleft]
    exact ⟨_, _, rfl⟩
  · rename_i hscope
    cases hmarkers
    rw [if_neg hscope]
    simp only [ok_bind, hprologue, hslots, hmarked, hexits, hleft]
    exact ⟨_, _, rfl⟩

end Redzone
