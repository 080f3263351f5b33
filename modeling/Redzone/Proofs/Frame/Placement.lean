import Redzone.Proofs.Frame.Steps

/-!
# Where the code of a frame stands

A frame has three kinds of code: one piece behind the parameters, one in front of every lifetime
marker that counts, and one in front of every exit.  `FrameCode.Placed` says of the finished
function that each piece is where it belongs.

Each piece is put there by one stage, and has to stay while the later stages put theirs.

* The prologue stays behind parameters (`FrameEdits.keeps_behindParams`), as every later edit is in
  front of something else than a parameter.
* The code of a marker stays in front of it (`FrameEdits.keeps_inFront`) because no other marker is
  the same instruction (`nodup_markers`) and no exit is a marker.
* The code of an exit is put last.  No block that ends in an exit is left out: the edits neither
  make exits nor move them to other blocks (`exitAt_of_exits_exitAt`), and every exit that there is
  has been found (`Func.mem_exits`).
-/

namespace Redzone

/-! ### Pieces of code -/

namespace FrameCode

variable {code : FrameCode} {mapping : ShadowMapping} {symbols symbols' : SymbolTable} {n : InstId}
  {ops : List Op} {marker : Marker}

/-- Code from `n` on that makes the frame and poisons it. -/
structure IsPrologue (code : FrameCode) (mapping : ShadowMapping) (symbols : SymbolTable)
    (n : InstId) (ops : List Op) : Prop where
  base : code.base = .inst n
  shadowBase : code.shadowBase = .inst (n + 15)
  parts : ∃ description function name name' writes poison,
    symbols.names[description]? = some name ∧ symbols.names[function]? = some name' ∧
    ShadowWrite.plan code.maxInline code.atEntry code.atEntry 0 code.atEntry.length =
      .ok writes ∧
    WritesCoded symbols code.shadowBase (n + 16) writes poison ∧
    ops = prologueCode mapping n code.frame.size code.frame.align description function ++ poison

/-- Code from `n` on that does what a lifetime marker asks for. -/
structure IsMarker (code : FrameCode) (symbols : SymbolTable) (marker : Marker) (n : InstId)
    (ops : List Op) : Prop where
  below : code.base.Below n ∧ code.shadowBase.Below n
  parts : ∃ writes, code.MarkerPlan marker writes ∧
    WritesCoded symbols code.shadowBase n writes ops

/-- Code from `n` on that tears the frame down. -/
structure IsExit (code : FrameCode) (symbols : SymbolTable) (n : InstId) (ops : List Op) :
    Prop where
  below : code.base.Below n ∧ code.shadowBase.Below n
  parts : ∃ writes clearing,
    ShadowWrite.plan code.maxInline code.atEntry (List.replicate code.atEntry.length 0) 0
      code.atEntry.length = .ok writes ∧
    WritesCoded symbols code.shadowBase (n + 2) writes clearing ∧
    ops = code.retireOps n ++ clearing

theorem IsPrologue.mono (h : code.IsPrologue mapping symbols n ops)
    (hgrows : symbols.GrowsTo symbols') : code.IsPrologue mapping symbols' n ops := by
  obtain ⟨description, function, name, name', writes, poison, hname, hname', hplan, hcoded, hops⟩ :=
    h.parts
  exact ⟨h.base, h.shadowBase, description, function, name, name', writes, poison,
    hgrows _ _ hname, hgrows _ _ hname', hplan, hcoded.mono hgrows, hops⟩

theorem IsMarker.mono (h : code.IsMarker symbols marker n ops)
    (hgrows : symbols.GrowsTo symbols') : code.IsMarker symbols' marker n ops := by
  obtain ⟨writes, hplan, hcoded⟩ := h.parts
  exact ⟨h.below, writes, hplan, hcoded.mono hgrows⟩

theorem IsExit.mono (h : code.IsExit symbols n ops) (hgrows : symbols.GrowsTo symbols') :
    code.IsExit symbols' n ops := by
  obtain ⟨writes, clearing, hplan, hcoded, hops⟩ := h.parts
  exact ⟨h.below, writes, clearing, hplan, hcoded.mono hgrows, hops⟩

theorem IsPrologue.isLandmark (h : code.IsPrologue mapping symbols n ops) :
    ∀ op ∈ ops, op.isLandmark = false := by
  obtain ⟨description, function, name, name', writes, poison, -, -, -, hcoded, rfl⟩ := h.parts
  rw [List.forall_mem_append]
  exact ⟨by simp [prologueCode, shadowAddrCode, Op.isLandmark], hcoded.isLandmark⟩

theorem IsMarker.isLandmark (h : code.IsMarker symbols marker n ops) :
    ∀ op ∈ ops, op.isLandmark = false := by
  obtain ⟨writes, -, hcoded⟩ := h.parts
  exact hcoded.isLandmark

end FrameCode

/-! ### Code that was put stays -/

section

variable {f : Func} {n : Nat} {P : InstId → Prop} {i : InstId} {d d' : Draft} {m : InstId}
  {ops : List Op}

theorem FrameEdits.keeps_inFront {inst : InstId} (h : FrameEdits f n P d d')
    (hP : ∀ i, P i → i ≠ inst) (hm : n ≤ m) (hops : ∀ op ∈ ops, op.isLandmark = false)
    (hfront : d.func.InFront m ops inst) : d'.func.InFront m ops inst := by
  induction h with
  | refl => exact hfront
  | tail _ hedit ih =>
      obtain ⟨i, hi, hedit⟩ := hedit
      obtain ⟨b, blk, pos, hblk, hget, hcut, hapart⟩ := hedit.exists_cut
      exact ih.cut hcut hblk (.before hget (hP i hi) hapart) hm hops

/-- The code `ops` from place `m` on is listed behind parameters, which were parameters in `f`,
too. -/
def Func.BehindParams (f g : Func) (m : InstId) (ops : List Op) : Prop :=
  g.Holds m ops ∧ ∃ (blk : Block) (pre rest : List InstId), g.blocks[0]? = some blk ∧
    blk.insts = pre ++ (List.range' m ops.length ++ rest) ∧
    ∀ i ∈ pre, ∃ instruction, f.insts[i]? = some instruction ∧ g.insts[i]? = some instruction ∧
      instruction.op.isParam = true

theorem FrameEdit.keeps_behindParams (h : FrameEdit f n i d d') (hm : n ≤ m)
    (hops : ∀ op ∈ ops, op.isLandmark = false) (hentry : f.BehindParams d.func m ops) :
    f.BehindParams d'.func m ops := by
  obtain ⟨hholds, blk', pre, rest, hblk', hinsts, hparams⟩ := hentry
  obtain ⟨b, blk, pos, hblk, hget, hcut, hapart⟩ := h.exists_cut
  have hkept : ∀ j ∈ pre, i ≠ j ∧ ∃ instruction, f.insts[j]? = some instruction ∧
      d'.func.insts[j]? = some instruction ∧ instruction.op.isParam = true := by
    intro j hj
    obtain ⟨instruction, hf, hd, hparam⟩ := hparams j hj
    have hslot : instruction.op.isSlot = false := Op.isSlot_of_isParam hparam
    exact ⟨h.ne hf hd hslot fun _ => hparam, instruction, hf, h.keeps hf hslot hd, hparam⟩
  refine ⟨hcut.holds hm hholds, ?_⟩
  rw [← List.append_assoc] at hinsts
  obtain ⟨blk'', rest', hblk'', hinsts'⟩ := hcut.exists_start hblk hblk' hinsts fun hb => by
    subst hb
    obtain rfl : blk = blk' := Option.some.inj (hblk.symm.trans hblk')
    -- the instruction at the cut is neither a parameter nor part of the code
    by_contra hlt
    rw [hinsts, List.getElem?_append_left (Nat.not_le.mp hlt)] at hget
    rcases List.mem_append.mp (List.mem_of_getElem? hget) with hmem | hmem
    · exact (hkept i hmem).1 rfl
    · exact hapart.not_mem_range' hm hholds hops hmem
  exact ⟨blk'', pre, rest', hblk'', by rw [hinsts', List.append_assoc],
    fun j hj => (hkept j hj).2⟩

theorem FrameEdits.keeps_behindParams (h : FrameEdits f n P d d') (hm : n ≤ m)
    (hops : ∀ op ∈ ops, op.isLandmark = false) (hentry : f.BehindParams d.func m ops) :
    f.BehindParams d'.func m ops := by
  induction h with
  | refl => exact hentry
  | tail _ hedit ih =>
      obtain ⟨i, -, hedit⟩ := hedit
      exact hedit.keeps_behindParams hm hops ih

/-! ### Listings -/

/-- Whatever a function lists is in its arena. -/
def Func.Dense (f : Func) : Prop := ∀ i ∈ f.listed, i < f.insts.size

theorem Func.Dense.insertCode {f g : Func} {b : BlockId} {pos : Nat} {code : List Instruction}
    (h : f.Dense) (hinsert : f.insertCode b pos code = .ok g) : g.Dense := by
  intro i hi
  obtain ⟨blk, hblk, -, rfl⟩ := insertCode_eq_ok hinsert
  have hperm : ((blk.insts.take pos ++ List.range' f.insts.size code.length ++
      blk.insts.drop pos) ++ ([] : List Block).flatMap Block.insts).Perm
        (blk.insts ++ List.range' f.insts.size code.length) := by
    rw [List.flatMap_nil, List.append_nil]
    refine (List.perm_append_right_iff _ |>.mpr List.perm_append_comm).trans ?_
    rw [List.append_assoc, List.take_append_drop]
    exact List.perm_append_comm
  rw [size_insts_graft]
  rcases List.mem_append.mp ((listed_graft_perm hblk hperm).mem_iff.mp hi) with hi | hi
  · exact (h i hi).trans_le (Nat.le_add_right _ _)
  · exact (List.mem_range'_1.mp hi).2

theorem FrameEdit.dense (h : FrameEdit f n i d d') (hdense : d.func.Dense) : d'.func.Dense := by
  cases h with
  | landmark _ _ _ _ _ _ hinsert => exact hdense.insertCode hinsert
  | @slot slot instruction b blk pos code g _ _ _ _ _ _ hinsert hfunc =>
      intro j hj
      rw [hfunc] at hj ⊢
      rw [Func.size_insts_setInst]
      exact hdense.insertCode hinsert j hj

theorem FrameEdit.size_le (h : FrameEdit f n i d d') : d.func.insts.size ≤ d'.func.insts.size := by
  have hinserted : ∀ {b : BlockId} {pos : Nat} {code : List Instruction} {g : Func},
      d.func.insertCode b pos code = .ok g → d.func.insts.size ≤ g.insts.size := by
    intro b pos code g hg
    obtain ⟨blk, -, -, rfl⟩ := Func.insertCode_eq_ok hg
    simp
  cases h with
  | landmark _ _ _ _ _ _ hinsert => exact hinserted hinsert
  | slot _ _ _ _ _ _ hinsert hfunc =>
      rw [hfunc, Func.size_insts_setInst]
      exact hinserted hinsert

/-- What edits keep of a function's listings. -/
theorem FrameEdits.keeps_listed (h : FrameEdits f n P d d') :
    (d.func.Dense → d'.func.Dense) ∧ d.func.insts.size ≤ d'.func.insts.size ∧
      ∀ i ∈ d.func.listed, i ∈ d'.func.listed := by
  induction h with
  | refl => exact ⟨id, le_rfl, fun _ => id⟩
  | tail _ hedit ih =>
      obtain ⟨i, -, hedit⟩ := hedit
      obtain ⟨b, blk, pos, hblk, -, hcut, -⟩ := hedit.exists_cut
      exact ⟨hedit.dense ∘ ih.1, ih.2.1.trans hedit.size_le,
        fun j hj => hcut.mem_listed hblk (ih.2.2 j hj)⟩

theorem Func.exists_locate {f : Func} {i : InstId} (hi : i ∈ f.listed) : f.locate i ≠ none := by
  have hfrom : ∀ (b : BlockId) (blocks : List Block), i ∈ blocks.flatMap Block.insts →
      locateFrom i b blocks ≠ none := by
    intro b blocks
    induction blocks generalizing b with
    | nil => simp
    | cons blk rest ih =>
        intro hmem
        rw [locateFrom]
        split
        · simp
        · rename_i hnone
          rw [List.flatMap_cons, List.mem_append] at hmem
          exact ih (b + 1) (hmem.resolve_left (by simpa using hnone))
  exact hfrom 0 f.blocks.toList hi

end

/-! ### Markers -/

section

variable {f : Func} {n : Nat} {code : FrameCode} {d d' : Draft}

theorem Func.listed_of_insertCode {f g : Func} {b : BlockId} {blk : Block} {pos : Nat}
    {origin : Origin} {ops : List Op} (hblk : f.blocks[b]? = some blk)
    (h : f.insertCode b pos (addedCode origin ops) = .ok g) :
    g.Holds f.insts.size ops ∧ ∃ blk', g.blocks[b]? = some blk' ∧ blk'.insts =
      blk.insts.take pos ++ (List.range' f.insts.size ops.length ++ blk.insts.drop pos) := by
  obtain ⟨blk', hblk', -, rfl⟩ := insertCode_eq_ok h
  obtain rfl : blk = blk' := Option.some.inj (hblk.symm.trans hblk')
  refine ⟨holds_graft, _, getElem?_blocks_graft_self hblk, ?_⟩
  rw [Check.length_addedCode, List.append_assoc]

theorem Func.inFront_of_insertCode {f g : Func} {b : BlockId} {blk : Block} {pos : Nat}
    {inst : InstId} {origin : Origin} {ops : List Op} (hblk : f.blocks[b]? = some blk)
    (hget : blk.insts[pos]? = some inst)
    (h : f.insertCode b pos (addedCode origin ops) = .ok g) :
    g.InFront f.insts.size ops inst := by
  obtain ⟨hholds, blk', hblk', hinsts⟩ := listed_of_insertCode hblk h
  obtain ⟨hlt, hhead⟩ := List.getElem?_eq_some_iff.mp hget
  rw [List.drop_eq_getElem_cons hlt, hhead] at hinsts
  exact ⟨hholds, b, blk', _, _, hblk', hinsts⟩

/-- Every marker that is about a byte of its variable has its code in front of it. -/
theorem inFront_of_markers {markers : List Marker} (hnodup : (markers.map Marker.inst).Nodup)
    (hmarkers : ∀ marker ∈ markers, marker.Kept f d.func ∧ marker.inst ∈ d.func.listed)
    (hn : n ≤ d.func.insts.size)
    (hbelow : code.base.Below d.func.insts.size ∧ code.shadowBase.Below d.func.insts.size)
    (h : markers.foldlM code.placeMarker d = .ok d') :
    ∀ marker ∈ markers, ∀ var,
      code.frame.vars.find? (fun var => var.index = marker.slot) = some var →
      FrameCode.markedGranules code.frame.granularity var marker ≠ .ok none →
      ∃ m ops, n ≤ m ∧ code.IsMarker d'.symbols marker m ops ∧
        d'.func.InFront m ops marker.inst := by
  induction markers generalizing d with
  | nil => simp
  | cons marker rest ih =>
      obtain ⟨d₁, hd₁, h⟩ := foldlM_cons_eq_ok h
      rw [List.map_cons, List.nodup_cons] at hnodup
      rw [List.forall_mem_cons] at hmarkers ⊢
      obtain ⟨⟨hkept, hlisted⟩, hrest⟩ := hmarkers
      have hfirst := frameEdits_of_marker (n := n) (P := fun _ => True) trivial hkept hd₁
      obtain ⟨-, hsize, hlists⟩ := hfirst.keeps_listed
      have hrest' : ∀ other ∈ rest, other.Kept f d₁.func ∧ other.inst ∈ d₁.func.listed := by
        intro other hother
        obtain ⟨hkept', hlisted'⟩ := hrest other hother
        exact ⟨hkept'.steps hfirst.steps, hlists _ hlisted'⟩
      refine ⟨fun var hvar hgranules => ?_,
        ih hnodup.2 hrest' (hn.trans hsize) ⟨hbelow.1.mono hsize, hbelow.2.mono hsize⟩ h⟩
      rcases FrameCode.placeMarker_cases hd₁ with
        ⟨-, hnone⟩ | ⟨writes, hplan, b, blk, pos, origin, ops, -, hblk, hget, hcoded, hinsert⟩
      · exact ((hnone var hvar).elim (Func.exists_locate hlisted) hgranules).elim
      · -- the code of the other markers is put elsewhere
        have hlater := frameEdits_of_markers (f := f) (n := n) (P := fun i => i ≠ marker.inst)
          (fun other hother => ⟨fun heq => hnodup.1 (heq ▸ List.mem_map_of_mem hother),
            (hrest' other hother).1⟩) h
        have hmarker : code.IsMarker d₁.symbols marker d.func.insts.size ops :=
          ⟨hbelow, writes, hplan, hcoded⟩
        exact ⟨_, ops, hn, hmarker.mono hlater.steps.growsTo,
          hlater.keeps_inFront (fun _ => id) hn hmarker.isLandmark
            (Func.inFront_of_insertCode hblk hget hinsert)⟩

/-! ### Exits -/

/-- The frame is torn down in front of `last`, which ends block `b`. -/
def FrameCode.ClearedAt (code : FrameCode) (symbols : SymbolTable) (g : Func) (b : BlockId)
    (last : InstId) : Prop :=
  ∃ (m : InstId) (ops : List Op) (blk : Block) (pre : List InstId), code.IsExit symbols m ops ∧
    g.Holds m ops ∧ g.blocks[b]? = some blk ∧
    blk.insts = pre ++ (List.range' m ops.length ++ [last])

theorem clearedAt_of_placeExit {exit : BlockId × Nat} {last : InstId}
    (hexit : d.func.ExitAt exit.1 exit.2 last)
    (hbelow : code.base.Below d.func.insts.size ∧ code.shadowBase.Below d.func.insts.size)
    (h : code.placeExit d exit = .ok d') : code.ClearedAt d'.symbols d'.func exit.1 last := by
  obtain ⟨-, writes, ops, hplan, hcoded, hinsert⟩ := FrameCode.placeExit_eq_ok h
  obtain ⟨blk, instruction, hblk, hlength, hget, -, -⟩ := hexit
  obtain ⟨hholds, blk', hblk', hinsts⟩ := Func.listed_of_insertCode hblk hinsert
  obtain ⟨hlt, hlast⟩ := List.getElem?_eq_some_iff.mp hget
  rw [List.drop_eq_getElem_cons hlt, hlast, List.drop_of_length_le (by omega)] at hinsts
  exact ⟨_, _, blk', _, ⟨hbelow, writes, ops, hplan, hcoded, rfl⟩, hholds, hblk', hinsts⟩

theorem FrameCode.ClearedAt.placeExit {exit : BlockId × Nat} {b : BlockId} {last : InstId}
    (hcleared : code.ClearedAt d.symbols d.func b last) (hne : b ≠ exit.1)
    (h : code.placeExit d exit = .ok d') : code.ClearedAt d'.symbols d'.func b last := by
  obtain ⟨m, ops, blk, pre, hexit, hholds, hblk, hinsts⟩ := hcleared
  obtain ⟨hgrows, writes, ops', -, -, hinsert⟩ := FrameCode.placeExit_eq_ok h
  refine ⟨m, ops, blk, pre, hexit.mono hgrows, ?_, ?_, hinsts⟩
  · intro k op hop
    obtain ⟨origin, hinst⟩ := hholds k op hop
    exact ⟨origin, Func.getElem?_insts_insertCode hinst hinsert⟩
  · obtain ⟨blk', -, -, hfunc⟩ := Func.insertCode_eq_ok hinsert
    rw [hfunc, Func.getElem?_blocks_graft_of_ne hne (Func.lt_size_of_getElem? hblk), hblk]

theorem clearedAt_of_exits {exits : List (BlockId × Nat)} (hnodup : (exits.map Prod.fst).Nodup)
    (hexits : ∀ exit ∈ exits, ∃ last, d.func.ExitAt exit.1 exit.2 last)
    (hbelow : code.base.Below d.func.insts.size ∧ code.shadowBase.Below d.func.insts.size)
    (h : exits.foldlM code.placeExit d = .ok d') :
    (∀ b last, b ∉ exits.map Prod.fst → code.ClearedAt d.symbols d.func b last →
      code.ClearedAt d'.symbols d'.func b last) ∧
    ∀ exit ∈ exits, ∀ last, d.func.ExitAt exit.1 exit.2 last →
      code.ClearedAt d'.symbols d'.func exit.1 last := by
  induction exits generalizing d with
  | nil =>
      cases h
      exact ⟨fun _ _ _ => id, by simp⟩
  | cons exit rest ih =>
      obtain ⟨d₁, hd₁, h⟩ := foldlM_cons_eq_ok h
      rw [List.map_cons, List.nodup_cons] at hnodup
      rw [List.forall_mem_cons] at hexits ⊢
      have hne : ∀ other ∈ rest, other.1 ≠ exit.1 :=
        fun other hother heq => hnodup.1 (heq ▸ List.mem_map_of_mem hother)
      obtain ⟨last, hexit⟩ := hexits.1
      have hsize := (frameEdit_of_exit (f := d.func) (n := 0) hexit hd₁).size_le
      obtain ⟨hkept, hcleared⟩ := ih hnodup.2
        (fun other hother => (hexits.2 other hother).imp fun _ hat =>
          exitAt_of_placeExit hat (hne other hother) hd₁)
        ⟨hbelow.1.mono hsize, hbelow.2.mono hsize⟩ h
      refine ⟨fun b last hb hold => ?_, fun last hat => ?_, fun other hother last hat => ?_⟩
      · rw [List.map_cons, List.mem_cons, not_or] at hb
        exact hkept b last hb.2 (hold.placeExit hb.1 hd₁)
      · exact hkept exit.1 last hnodup.1 (clearedAt_of_placeExit hat hbelow hd₁)
      · exact hcleared other hother last (exitAt_of_placeExit hat (hne other hother) hd₁)

/-- Code in front of an exit makes no exit and moves none to another block. -/
theorem exitAt_of_placeExit_exitAt {exit : BlockId × Nat} {last last' : InstId} {b : BlockId}
    {pos : Nat} (hexit : d.func.ExitAt exit.1 exit.2 last) (hdense : d.func.Dense)
    (h : code.placeExit d exit = .ok d') (hat : d'.func.ExitAt b pos last') :
    ∃ pos', d.func.ExitAt b pos' last' := by
  obtain ⟨-, writes, ops, -, -, hinsert⟩ := FrameCode.placeExit_eq_ok h
  obtain ⟨blk', instruction', hblk', hlength', hget', hinst', hleaves'⟩ := hat
  by_cases hb : b = exit.1
  · subst hb
    obtain ⟨blk, instruction, hblk, hlength, hget, hinst, hleaves⟩ := hexit
    obtain ⟨-, blk'', hblk'', hinsts⟩ := Func.listed_of_insertCode hblk hinsert
    obtain rfl : blk' = blk'' := Option.some.inj (hblk'.symm.trans hblk'')
    obtain ⟨hlt, hlast⟩ := List.getElem?_eq_some_iff.mp hget
    rw [List.drop_eq_getElem_cons hlt, hlast, List.drop_of_length_le (by omega),
      ← List.append_assoc] at hinsts
    -- both instructions end the block
    have hend : blk'.insts.getLast? = some last' := by
      rw [List.getLast?_eq_getElem?, hlength']
      exact hget'
    rw [hinsts, List.getLast?_append] at hend
    obtain rfl : last = last' := by simpa using hend
    exact ⟨exit.2, blk, instruction, hblk, hlength, hget, hinst, hleaves⟩
  · obtain ⟨blk, -, -, hfunc⟩ := Func.insertCode_eq_ok hinsert
    rw [hfunc] at hblk' hinst'
    have hsize : b < d.func.blocks.size := by
      simpa using Func.lt_size_of_getElem? hblk'
    rw [Func.getElem?_blocks_graft_of_ne hb hsize] at hblk'
    have hlt := hdense last' (Func.mem_listed hblk' (List.mem_of_getElem? hget'))
    rw [Func.getElem?_insts_graft_of_lt hlt] at hinst'
    exact ⟨pos, blk', instruction', hblk', hlength', hget', hinst', hleaves'⟩

theorem exitAt_of_exits_exitAt {exits : List (BlockId × Nat)} {b : BlockId} {pos : Nat}
    {last : InstId} (hnodup : (exits.map Prod.fst).Nodup)
    (hexits : ∀ exit ∈ exits, ∃ last, d.func.ExitAt exit.1 exit.2 last) (hdense : d.func.Dense)
    (h : exits.foldlM code.placeExit d = .ok d') (hat : d'.func.ExitAt b pos last) :
    ∃ pos', d.func.ExitAt b pos' last := by
  induction exits generalizing d with
  | nil =>
      cases h
      exact ⟨pos, hat⟩
  | cons exit rest ih =>
      obtain ⟨d₁, hd₁, h⟩ := foldlM_cons_eq_ok h
      rw [List.map_cons, List.nodup_cons] at hnodup
      rw [List.forall_mem_cons] at hexits
      obtain ⟨⟨last', hexit⟩, hexits⟩ := hexits
      have hrest : ∀ other ∈ rest, ∃ last, d₁.func.ExitAt other.1 other.2 last := by
        intro other hother
        obtain ⟨last'', hother'⟩ := hexits other hother
        refine ⟨last'', exitAt_of_placeExit hother' ?_ hd₁⟩
        rintro heq
        exact hnodup.1 (heq ▸ List.mem_map_of_mem hother)
      have hdense' := (frameEdit_of_exit (f := d.func) (n := 0) hexit hd₁).dense hdense
      obtain ⟨pos', hat'⟩ := ih hnodup.2 hrest hdense' h
      exact exitAt_of_placeExit_exitAt hexit hdense hd₁ hat'

/-- Every exit is found. -/
theorem Func.mem_exits {g : Func} {exits : List (BlockId × Nat)} {b : BlockId} {pos : Nat}
    {last : InstId} (h : g.exits Op.isExit = .ok exits) (hat : g.ExitAt b pos last) :
    (b, pos) ∈ exits := by
  obtain ⟨blk, instruction, hblk, hlength, hget, hinst, hleaves⟩ := hat
  unfold Func.exits at h
  obtain ⟨found, hfound, h⟩ := bind_eq_ok h
  cases h
  obtain ⟨exit, hmem, hexit⟩ := mapM_eq_ok hfound b
    (List.mem_range.mpr (lt_size_of_getElem? hblk))
  have hlast : blk.insts.getLast? = some last := by
    rw [List.getLast?_eq_getElem?, hlength]
    exact hget
  have hterminator : g.terminator b = .ok (some last) := by
    simp [terminator, block, hblk, hlast, inst, hinst, Op.isTerminator_of_isExit hleaves]
  have hvalue : g.exit? Op.isExit b = .ok (some (b, pos)) := by
    simp [exit?, hterminator, inst, hinst, block, hblk, hleaves, hlength, checkedSub]
  rw [Except.ok.inj (hexit.symm.trans hvalue)] at hmem
  exact List.mem_filterMap.mpr ⟨_, hmem, rfl⟩

end

/-! ### The whole frame -/

/-- The pieces of a frame's code are where they belong. -/
structure FrameCode.Placed (code : FrameCode) (mapping : ShadowMapping) (symbols : SymbolTable)
    (markers : List Marker) (g : Func) : Prop where
  prologue : ∃ (n : InstId) (ops : List Op) (blk : Block) (pre rest : List InstId),
    code.IsPrologue mapping symbols n ops ∧ g.Holds n ops ∧ g.blocks[0]? = some blk ∧
    blk.insts = pre ++ (List.range' n ops.length ++ rest) ∧
    ∀ i ∈ pre, ∃ instruction, g.insts[i]? = some instruction ∧ instruction.op.isParam = true
  marker : ∀ marker ∈ markers, ∀ var,
    code.frame.vars.find? (fun var => var.index = marker.slot) = some var →
    markedGranules code.frame.granularity var marker ≠ .ok none →
    ∃ n ops, code.IsMarker symbols marker n ops ∧ g.InFront n ops marker.inst
  exit : ∀ b pos last, g.ExitAt b pos last → code.ClearedAt symbols g b last

theorem FrameCode.prologue_placed {config : Config} {frame : Frame} {inScope atEntry : List UInt8}
    {description : SymbolId} {name name' : String} {d d' : Draft} {code : FrameCode}
    (h : prologue config frame inScope atEntry description d = .ok (d', code))
    (hdescription : d.symbols.names[description]? = some name)
    (hname : d.symbols.names[d.func.name]? = some name') :
    ∃ ops, code.IsPrologue config.mapping d'.symbols d.func.insts.size ops ∧
      d.func.BehindParams d'.func d.func.insts.size ops ∧
      d.func.insts.size + ops.length ≤ d'.func.insts.size ∧ 16 ≤ ops.length := by
  obtain ⟨rfl, hgrows, blk, pos, writes, ops, hblk, hparams, hplan, hcoded, hinsert⟩ :=
    prologue_eq_ok h
  obtain ⟨hholds, blk', hblk', hinsts⟩ := Func.listed_of_insertCode hblk hinsert
  refine ⟨_, ⟨rfl, rfl, description, d.func.name, name, name', writes, ops,
    hgrows _ _ hdescription, hgrows _ _ hname, hplan, hcoded, rfl⟩,
    ⟨hholds, blk', _, _, hblk', hinsts, fun i hi => ?_⟩, ?_, ?_⟩
  · obtain ⟨instruction, hinst, hparam⟩ := Func.leadingParams_eq_ok hparams i hi
    exact ⟨instruction, hinst, Func.getElem?_insts_insertCode hinst hinsert, hparam⟩
  · obtain ⟨blk'', -, -, heq⟩ := Func.insertCode_eq_ok hinsert
    rw [heq, Func.size_insts_graft, Check.length_addedCode]
  · rw [List.length_append]
    exact Nat.le_add_right 16 _

theorem Draft.addFrame_placed {config : Config} {name name' : String} {slots : List Slot}
    {frame : Frame} {d d' : Draft} {description : Global}
    (h : d.addFrame config name slots frame = .ok (d', description))
    (hslots : ∀ slot ∈ slots, slot.inst < d.func.insts.size ∧
      ∃ instruction, d.func.insts[slot.inst]? = some instruction ∧ instruction.op.isSlot = true)
    (hdense : d.func.Dense) (hnodup : d.func.listed.Nodup)
    (hname : d.symbols.names[d.func.name]? = some name') :
    ∃ (code : FrameCode) (markers : List Marker), code.frame = frame ∧
      code.inScope = frame.shadow ∧ frame.entryShadow = .ok code.atEntry ∧
      (if config.useAfterScope then d.func.markers slots else .ok []) = .ok markers ∧
      code.Placed config.mapping d'.symbols markers d'.func := by
  obtain ⟨atEntry, markers, symbol, symbols, d₁, code, f₂, d₃, exits, hentry, hmarkers, hgrows,
    hsymbol, hprologue, hplaced, hmarked, hexits, hleft, -⟩ := addFrame_eq_ok h
  obtain ⟨hcode, hgrows', blk, pos, writes, poison, hblk, hparams, -, -, hinsert⟩ :=
    FrameCode.prologue_eq_ok hprologue
  obtain ⟨ops, hmade, hbehind, hsize, hlength⟩ :=
    FrameCode.prologue_placed hprologue hsymbol (hgrows _ _ hname)
  -- the edits behind the prologue
  obtain ⟨hdistinct, hmarkers'⟩ := markers_spec hmarkers hnodup
  have hfirst : FrameSteps d.func d.func.insts.size d d₁ :=
    .single (.prologue (hgrows.trans hgrows') hblk (Func.leadingParams_eq_ok hparams) hinsert)
  have hsecond := frameEdits_of_slots (f := d.func) (n := d.func.insts.size) (P := fun _ => True)
    (d := d₁) (fun slot hslot => ⟨trivial, hslots slot hslot⟩) hplaced
  obtain ⟨hdense₂, hsize₂, hlists₂⟩ := hsecond.keeps_listed
  have hkept₂ : ∀ marker ∈ markers, marker.Kept d.func f₂ ∧ marker.inst ∈ f₂.listed := by
    intro marker hmarker
    obtain ⟨hkept, hlisted⟩ := hmarkers' marker hmarker
    exact ⟨(hkept.steps hfirst).steps hsecond.steps,
      hlists₂ _ ((Func.Cut.of_insertCode (n := 0) hblk hinsert).mem_listed hblk hlisted)⟩
  have hthird := frameEdits_of_markers (f := d.func) (n := d.func.insts.size) (P := fun _ => True)
    (fun marker hmarker => ⟨trivial, (hkept₂ marker hmarker).1⟩) hmarked
  obtain ⟨hdense₃, hsize₃, -⟩ := hthird.keeps_listed
  obtain ⟨hblocks, hplaces⟩ := Func.exitAt_of_mem_exits hexits
  have hfourth := frameEdits_of_exits (f := d.func) (n := d.func.insts.size)
    (P := fun i => ∃ instruction, d₃.func.insts[i]? = some instruction ∧
      instruction.op.isExit = true) hblocks
    (fun exit hexit => (hplaces exit hexit).imp fun last hat => by
      obtain ⟨blk, instruction, -, -, -, hinst, hleaves⟩ := id hat
      exact ⟨⟨instruction, hinst, hleaves⟩, hat⟩) hleft
  -- what the later code refers to is in front of it
  have hbelow : code.base.Below f₂.insts.size ∧ code.shadowBase.Below f₂.insts.size := by
    rw [hmade.base, hmade.shadowBase]
    have hle : d.func.insts.size + 16 ≤ f₂.insts.size :=
      (Nat.add_le_add_left hlength _).trans (hsize.trans hsize₂)
    exact ⟨(Nat.lt_add_of_pos_right (show 0 < 16 by decide)).trans_le hle,
      (Nat.add_lt_add_left (show 15 < 16 by decide) _).trans_le hle⟩
  refine ⟨code, markers, by rw [hcode], by rw [hcode], by rw [hcode]; exact hentry, hmarkers,
    ?_, ?_, ?_⟩
  · have hops := hmade.isLandmark
    obtain ⟨hholds, blk', pre, rest, hblk', hinsts, hpre⟩ :=
      hfourth.keeps_behindParams le_rfl hops (hthird.keeps_behindParams le_rfl hops
        (hsecond.keeps_behindParams le_rfl hops hbehind))
    refine ⟨_, ops, blk', pre, rest, hmade.mono ?_, hholds, hblk', hinsts, fun i hi => ?_⟩
    · exact hsecond.steps.growsTo.trans (hthird.steps.growsTo.trans hfourth.steps.growsTo)
    · obtain ⟨instruction, -, hinst, hparam⟩ := hpre i hi
      exact ⟨instruction, hinst, hparam⟩
  · intro marker hmarker var hvar hgranules
    obtain ⟨m, ops', hm, hcoded, hfront⟩ := inFront_of_markers (f := d.func)
      (n := d.func.insts.size) hdistinct hkept₂
      ((Nat.le_add_right _ _).trans (hsize.trans hsize₂)) hbelow hmarked marker hmarker var hvar
      hgranules
    refine ⟨m, ops', hcoded.mono hfourth.steps.growsTo,
      hfourth.keeps_inFront ?_ hm hcoded.isLandmark hfront⟩
    rintro i ⟨instruction, hinst, hleaves⟩ rfl
    obtain ⟨instruction', edge, ptr, size, -, hinst', hop⟩ :=
      (hkept₂ marker hmarker).1.steps hthird.steps
    obtain rfl := Option.some.inj (hinst.symm.trans hinst')
    rw [hop] at hleaves
    cases hleaves
  · intro b pos last hat
    obtain ⟨pos', hat'⟩ := exitAt_of_exits_exitAt hblocks hplaces
      (hdense₃ (hdense₂ (hdense.insertCode hinsert))) hleft hat
    exact (clearedAt_of_exits hblocks hplaces
      ⟨hbelow.1.mono hsize₃, hbelow.2.mono hsize₃⟩ hleft).2 _ (Func.mem_exits hexits hat') last hat'

end Redzone
