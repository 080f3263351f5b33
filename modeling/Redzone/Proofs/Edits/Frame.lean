import Redzone.Proofs.Edits.Visits

/-!
# The addition of a frame is a sequence of edits

All that is added for a frame is lines of code, and slots are replaced by addresses within the
frame.  What this code reads is the frame and the address of its shadow.  Both are computed by the
prologue, which stands behind the parameters of the entry block, and so they are there at every
place that the prologue is not in front of: `Framed` is this invariant.  `Draft.Edited.addFrame`
says that the whole addition of a frame consists of edits.
-/

namespace Redzone

/-! ### Instructions that are in the way -/

namespace Func

variable {ordered : Prop} {f g : Func} {n : Nat} {mapping : ShadowMapping} {symbols : SymbolTable}
  {b pos i : Nat}

/-- An edit changes no terminator, and makes none of other instructions. -/
theorem Edit.terminates (h : Edit ordered n mapping symbols f g) {terminates : Bool}
    (hi : f.Terminates i terminates) : g.Terminates i terminates := by
  cases h with
  | line _ _ _ hinsert =>
      obtain ⟨blk, -, -, rfl⟩ := insertCode_eq_ok hinsert
      exact hi.graft
  | check _ _ _ _ _ _ hinsert =>
      obtain ⟨blk, -, -, -, rfl⟩ := Check.insert_eq_ok hinsert
      exact hi.graft
  | @replace _ _ j instruction op _ _ hinst hold hop hg =>
      subst hg
      obtain ⟨other, hother, rfl⟩ := hi
      by_cases hij : i = j
      · subst hij
        obtain rfl := Option.some.inj (hinst.symm.trans hother)
        exact ⟨_, getElem?_insts_setInst_self (Array.getElem?_eq_some_iff.mp hinst).1 _,
          hop.proceeds.2.1.trans hold.1.symm⟩
      · exact ⟨other, by rwa [getElem?_insts_setInst_of_ne hij], rfl⟩

/-- An edit makes no parameter of another instruction. -/
theorem Edit.noParam (h : Edit ordered n mapping symbols f g) (hi : f.NoParam i) : g.NoParam i := by
  cases h with
  | line _ _ _ hinsert => exact hi.line hinsert
  | check _ _ _ _ _ _ hinsert => exact hi.check hinsert
  | @replace _ _ j instruction op _ _ hinst hold hop hg =>
      subst hg
      obtain ⟨other, hother, hplain⟩ := hi
      by_cases hij : i = j
      · subst hij
        exact ⟨_, getElem?_insts_setInst_self (Array.getElem?_eq_some_iff.mp hinst).1 _,
          hop.proceeds.2.2⟩
      · exact ⟨other, by rwa [getElem?_insts_setInst_of_ne hij], hplain⟩

theorem Edits.terminates (h : Edits ordered n mapping symbols f g) {terminates : Bool}
    (hi : f.Terminates i terminates) : g.Terminates i terminates := by
  induction h with
  | refl => exact hi
  | tail _ hedit ih => exact hedit.terminates ih

theorem Edits.noParam (h : Edits ordered n mapping symbols f g) (hi : f.NoParam i) :
    g.NoParam i := by
  induction h with
  | refl => exact hi
  | tail _ hedit ih => exact hedit.noParam ih

/-- Behind the leading parameters stands an instruction that is none. -/
theorem noParam_of_leadingParams {insts : List InstId} {count : Nat}
    (h : f.leadingParams insts = .ok count) {i : InstId} (hi : insts[count]? = some i) :
    f.NoParam i := by
  induction insts generalizing count with
  | nil => simp at hi
  | cons first rest ih =>
      rw [leadingParams] at h
      obtain ⟨instruction, hinst, h⟩ := bind_eq_ok h
      split at h
      · obtain ⟨count', hcount, h⟩ := bind_eq_ok h
        cases h
        exact ih hcount (by simpa using hi)
      · rename_i hparam
        cases h
        obtain rfl : first = i := by simpa using hi
        exact ⟨instruction, inst_eq_ok hinst, by simpa using hparam⟩

/-- Parameters do not fill a block. -/
theorem lt_length_of_leadingParams {insts : List InstId} {count : Nat}
    (h : f.leadingParams insts = .ok count) (hends : f.Ends insts) (hle : count ≤ insts.length) :
    count < insts.length := by
  refine hle.lt_of_ne ?_
  rintro rfl
  obtain ⟨front, last, rfl, -, instruction, hinst, hterminator⟩ := hends
  obtain ⟨other, hother, hparam⟩ := leadingParams_eq_ok h last (by rw [List.take_length]; simp)
  obtain rfl := Option.some.inj (hinst.symm.trans hother)
  rw [(Op.proceeds_of_isParam hparam).1] at hterminator
  cases hterminator

/-- What a line behind the parameters computes can be read at every place that it is not in front
of. -/
theorem available_behind_params {c q k : Nat} {blk : Block} {code : List Instruction}
    (hclosed : f.Closed) (hcode : ∀ instruction ∈ code, instruction.op.successors = [])
    (hblk : f.blocks[0]? = some blk) (hparams : f.leadingParams blk.insts = .ok pos)
    (hinsert : f.insertCode 0 pos code = .ok g) (hat : g.At c q i)
    (hi : i ∉ blk.insts.take pos ++ List.range' f.insts.size code.length) (hk : k < code.length) :
    g.Available c q (.inst (f.insts.size + k)) := by
  rw [List.mem_append, not_or] at hi
  let retrace := Retrace.ofLine hclosed hinsert hcode (List.range' f.insts.size code.length)
    (List.Subset.refl _) fun _ => ⟨rfl, fun p hp j instruction hj hinst => by
      have hmem : j ∈ blk.insts.take pos := by
        refine List.mem_of_getElem? ?_ (i := p)
        rw [List.getElem?_take, if_pos hp]
        exact (at_iff hblk).mp hj
      obtain ⟨other, hother, hparam⟩ := leadingParams_eq_ok hparams j hmem
      obtain rfl := Option.some.inj (hinst.symm.trans hother)
      exact (Op.proceeds_of_isParam hparam).2⟩
  apply retrace.available_fresh
  simp only [retrace, Retrace.ofLine]
  split
  · rename_i hc
    subst hc
    -- the place is neither among the parameters nor in the line
    have hq : pos + code.length ≤ q := by
      rcases (at_insertCode hinsert).mp hat with
        ⟨hbefore, hold⟩ | ⟨m, hm, -, -, rfl⟩ | ⟨p, hp, -, rfl, -⟩
      · refine absurd (List.mem_of_getElem? (i := q) ?_) hi.1
        rw [List.getElem?_take, if_pos (hbefore rfl)]
        exact (at_iff hblk).mp hold
      · refine absurd (List.mem_range'_1.mpr ?_) hi.2
        omega
      · omega
    rw [List.mem_range'_1]
    omega
  · rw [List.mem_range'_1]
    omega

end Func

/-! ### Frames -/

/-- A function that was made by edits and has a frame.  The frame and the address of its shadow can
be read at every place that does not belong to `front`, the parameters and the prologue. -/
structure Draft.Framed (ordered : Prop) (mapping : ShadowMapping) (before : Func) (code : FrameCode)
    (front : List InstId) (d : Draft) : Prop where
  edited : d.Edited ordered mapping before
  base : d.func.Has code.base (.ptr 0)
  shadowBase : d.func.Has code.shadowBase .int
  available : ∀ (b : BlockId) (pos : Nat) (i : InstId), d.func.At b pos i → i ∉ front →
    d.func.Available b pos code.base ∧ d.func.Available b pos code.shadowBase
  front : ∀ i ∈ front, d.func.Terminates i false

namespace Draft.Framed

variable {ordered : Prop} {mapping : ShadowMapping} {before g : Func} {code : FrameCode}
  {front : List InstId} {d d' : Draft} {b pos i : Nat} {added : List Instruction}

theorem offers_base (h : d.Framed ordered mapping before code front) (hat : d.func.At b pos i)
    (hi : i ∉ front) : d.func.Offers ordered b pos code.base (.ptr 0) :=
  ⟨h.base, fun _ => (h.available b pos i hat hi).1⟩

theorem offers_shadowBase (h : d.Framed ordered mapping before code front)
    (hat : d.func.At b pos i) (hi : i ∉ front) :
    d.func.Offers ordered b pos code.shadowBase .int :=
  ⟨h.shadowBase, fun _ => (h.available b pos i hat hi).2⟩

/-- A line in front of an instruction behind the prologue. -/
theorem line (h : d.Framed ordered mapping before code front) (hat : d.func.At b pos i)
    (hi : i ∉ front) (hplain : d.func.NoParam i) (hgrows : d.symbols.GrowsTo d'.symbols)
    (hcode : CodeTyped d'.symbols (d.func.Offers ordered b pos) d.func.insts.size added)
    (hinsert : d.func.insertCode b pos added = .ok d'.func) :
    d'.Framed ordered mapping before code front := by
  have hclosed := h.edited.sound.closed
  have hedit : Func.Edit ordered before.insts.size mapping d'.symbols d.func d'.func :=
    .line hat hplain hcode hinsert
  refine ⟨h.edited.step hgrows hedit, hedit.extended.has h.base, hedit.extended.has h.shadowBase,
    fun c q j hat' hj => ?_, fun j hj => hedit.terminates (h.front j hj)⟩
  -- the place that this one belongs to is no place of the front either
  have hback : d.func.Available (Func.lineBack b pos added.length c q).1
        (Func.lineBack b pos added.length c q).2 code.base ∧
      d.func.Available (Func.lineBack b pos added.length c q).1
        (Func.lineBack b pos added.length c q).2 code.shadowBase := by
    rcases (Func.at_insertCode hinsert).mp hat' with
      ⟨hbefore, hold⟩ | ⟨k, hk, rfl, rfl, rfl⟩ | ⟨p, hp, rfl, rfl, hold⟩
    · rw [Func.lineBack_before fun hc => (hbefore hc).le]
      exact h.available c q j hold hj
    · rw [Func.lineBack_within hk.le]
      exact h.available _ pos i hat hi
    · rw [Func.lineBack_behind hp]
      exact h.available _ p j hold hj
  exact ⟨hback.1.line hclosed hcode.successors hinsert,
    hback.2.line hclosed hcode.successors hinsert⟩

/-- The replacement of an instruction behind the prologue. -/
theorem replace {instruction : Instruction} {op : Op}
    (h : d.Framed ordered mapping before code front) (hat : d.func.At b pos i)
    (hlt : i < before.insts.size) (hinst : d.func.insts[i]? = some instruction)
    (hold : instruction.op.isTerminator = false ∧ instruction.op.isParam = false)
    (hop : ({ instruction with op := op } : Instruction).Typed d.symbols
      (d.func.Offers ordered b pos)) :
    Draft.Framed ordered mapping before code front
      { d with func := d.func.setInst i { instruction with op := op } } := by
  have hedit : Func.Edit ordered before.insts.size mapping d.symbols d.func
      (d.func.setInst i { instruction with op := op }) := .replace hat hlt hinst hold hop rfl
  refine ⟨h.edited.edit hedit, hedit.extended.has h.base, hedit.extended.has h.shadowBase,
    fun c q j hat' hj => ?_, fun j hj => hedit.terminates (h.front j hj)⟩
  have hpos : 0 < d.func.blocks.size := Nat.zero_lt_of_lt hat.lt_size
  obtain ⟨hbase, hshadow⟩ := h.available c q j hat' hj
  let retrace := Func.Retrace.ofReplace h.edited.sound.closed hinst hpos hop.proceeds.1
  exact ⟨retrace.available hbase, retrace.available hshadow⟩

/-- A slot becomes an address within the frame. -/
theorem placeSlot {slots : List Slot} {var : StackVariable}
    (h : d.Framed ordered mapping before code front)
    (hslots : ∀ slot ∈ slots, slot.inst ∉ front ∧ slot.inst < before.insts.size ∧
      d.func.NoParam slot.inst ∧ d.func.Terminates slot.inst false)
    (hplace : code.placeSlot slots d.func var = .ok g) :
    Draft.Framed ordered mapping before code front { d with func := g } ∧
      Func.Edits ordered before.insts.size mapping d.symbols d.func g := by
  rcases FrameCode.placeSlot_cases hplace with
    ⟨rfl, -⟩ | ⟨slot, c, blk, q, g', instruction, hslot, hblk, hget, hinsert, hinst, rfl⟩
  · exact ⟨h, .refl⟩
  · obtain ⟨hfront, hlt, hplain, hterminates⟩ := hslots slot (List.mem_of_getElem? hslot)
    have hat : d.func.At c q slot.inst := ⟨blk, hblk, hget⟩
    have hcode : CodeTyped d.symbols (d.func.Offers ordered c q) d.func.insts.size
        [{ op := .iconst var.offset, ty := .int }] := ⟨rfl, trivial⟩
    have hline : Func.Edit ordered before.insts.size mapping d.symbols d.func g' :=
      .line hat hplain hcode hinsert
    have hframed : Draft.Framed ordered mapping before code front { d with func := g' } :=
      h.line hat hfront hplain (.refl _) hcode hinsert
    have hat' := Func.at_behind_line hat hinsert
    have hold : instruction.op.isTerminator = false ∧ instruction.op.isParam = false := by
      obtain ⟨other, hother, hop⟩ := hline.terminates hterminates
      obtain ⟨other', hother', hop'⟩ := hline.noParam hplain
      obtain rfl := Option.some.inj (hinst.symm.trans hother)
      obtain rfl := Option.some.inj (hinst.symm.trans hother')
      exact ⟨hop, hop'⟩
    have hop : ({ instruction with op := .ptrAdd code.base (.inst d.func.insts.size) } :
        Instruction).Typed d.symbols (g'.Offers ordered c (q + 1)) :=
      ⟨⟨_, hframed.offers_base hat' hfront, rfl⟩,
        Func.offers_result h.edited.sound.closed hcode.successors hinsert (k := 0) rfl ordered⟩
    have hreplace : Func.Edit ordered before.insts.size mapping d.symbols g' (g'.setInst slot.inst
        { instruction with op := .ptrAdd code.base (.inst d.func.insts.size) }) :=
      .replace hat' hlt hinst hold hop rfl
    exact ⟨hframed.replace hat' hlt hinst hold hop, .tail (.single hline) hreplace⟩

theorem placeSlots {slots : List Slot} {vars : List StackVariable}
    (h : d.Framed ordered mapping before code front)
    (hslots : ∀ slot ∈ slots, slot.inst ∉ front ∧ slot.inst < before.insts.size ∧
      d.func.NoParam slot.inst ∧ d.func.Terminates slot.inst false)
    (hplace : vars.foldlM (code.placeSlot slots) d.func = .ok g) :
    Draft.Framed ordered mapping before code front { d with func := g } ∧
      Func.Edits ordered before.insts.size mapping d.symbols d.func g := by
  induction vars generalizing d with
  | nil =>
      cases hplace
      exact ⟨h, .refl⟩
  | cons var rest ih =>
      obtain ⟨g₁, hg₁, hplace⟩ := foldlM_cons_eq_ok hplace
      obtain ⟨hframed, hedits⟩ := h.placeSlot hslots hg₁
      obtain ⟨hframed', hedits'⟩ := ih (d := { d with func := g₁ }) hframed (fun slot hslot => by
        obtain ⟨hfront, hlt, hplain, hterminates⟩ := hslots slot hslot
        exact ⟨hfront, hlt, hedits.noParam hplain, hedits.terminates hterminates⟩) hplace
      exact ⟨hframed', hedits.trans hedits'⟩

/-- The code in front of a lifetime marker. -/
theorem placeMarker {marker : Marker} (h : d.Framed ordered mapping before code front)
    (hfront : marker.inst ∉ front) (hplain : d.func.NoParam marker.inst)
    (hplace : code.placeMarker d marker = .ok d') :
    d'.Framed ordered mapping before code front ∧ ∀ i, d.func.NoParam i → d'.func.NoParam i := by
  rcases FrameCode.placeMarker_cases hplace with
    ⟨rfl, -⟩ | ⟨writes, hplan, c, blk, q, origin, ops, hgrows, hblk, hget, hcoded, hinsert⟩
  · exact ⟨h, fun i hi => hi⟩
  · have hat : d.func.At c q marker.inst := ⟨blk, hblk, hget⟩
    obtain ⟨var, start, stop, -, -, hplan⟩ := hplan.planned
    have hcode := typed_writesCoded origin hcoded (ShadowWrite.plans_of_plan hplan).codable
      (h.offers_shadowBase hat hfront)
    exact ⟨h.line hat hfront hplain hgrows hcode hinsert, fun i hi => hi.line hinsert⟩

theorem placeMarkers {markers : List Marker} (h : d.Framed ordered mapping before code front)
    (hmarkers : ∀ marker ∈ markers, marker.inst ∉ front ∧ d.func.NoParam marker.inst)
    (hplace : markers.foldlM code.placeMarker d = .ok d') :
    d'.Framed ordered mapping before code front := by
  induction markers generalizing d with
  | nil =>
      cases hplace
      exact h
  | cons marker rest ih =>
      obtain ⟨d₁, hd₁, hplace⟩ := foldlM_cons_eq_ok hplace
      rw [List.forall_mem_cons] at hmarkers
      obtain ⟨hframed, hkept⟩ := h.placeMarker hmarkers.1.1 hmarkers.1.2 hd₁
      exact ih hframed (fun other hother => ⟨(hmarkers.2 other hother).1,
        hkept _ (hmarkers.2 other hother).2⟩) hplace

/-- The code in front of an exit. -/
theorem placeExit {exit : BlockId × Nat} {last : InstId}
    (h : d.Framed ordered mapping before code front) (hexit : d.func.ExitAt exit.1 exit.2 last)
    (hplace : code.placeExit d exit = .ok d') : d'.Framed ordered mapping before code front := by
  obtain ⟨hgrows, writes, ops, hplan, hcoded, hinsert⟩ := FrameCode.placeExit_eq_ok hplace
  obtain ⟨blk, instruction, hblk, -, hget, hinst, hleaves⟩ := hexit
  have hat : d.func.At exit.1 exit.2 last := ⟨blk, hblk, hget⟩
  have hfront : last ∉ front := by
    intro hlast
    have hterminates : d.func.Terminates last true :=
      ⟨instruction, hinst, Op.isTerminator_of_isExit hleaves⟩
    cases (h.front last hlast).unique hterminates
  refine h.line hat hfront ⟨instruction, hinst, (Op.isLandmark_of_isExit hleaves).2⟩ hgrows ?_
    hinsert
  rw [Check.addedCode_append]
  refine (typed_retireOps [] ⟨_, h.offers_base hat hfront, rfl⟩).append ?_
  exact typed_writesCoded [] hcoded (ShadowWrite.plans_of_plan hplan).codable
    (.inl (h.offers_shadowBase hat hfront))

theorem placeExits {exits : List (BlockId × Nat)} (h : d.Framed ordered mapping before code front)
    (hnodup : (exits.map Prod.fst).Nodup)
    (hexits : ∀ exit ∈ exits, ∃ last, d.func.ExitAt exit.1 exit.2 last)
    (hplace : exits.foldlM code.placeExit d = .ok d') :
    d'.Framed ordered mapping before code front := by
  induction exits generalizing d with
  | nil =>
      cases hplace
      exact h
  | cons exit rest ih =>
      obtain ⟨d₁, hd₁, hplace⟩ := foldlM_cons_eq_ok hplace
      rw [List.forall_mem_cons] at hexits
      rw [List.map_cons, List.nodup_cons] at hnodup
      obtain ⟨⟨last, hexit⟩, hexits⟩ := hexits
      refine ih (h.placeExit hexit hd₁) hnodup.2 (fun other hother => ?_) hplace
      obtain ⟨last', hother'⟩ := hexits other hother
      refine ⟨last', exitAt_of_placeExit hother' ?_ hd₁⟩
      rintro heq
      exact hnodup.1 (heq ▸ List.mem_map_of_mem hother)

end Draft.Framed

/-! ### The whole frame -/

section

variable {ordered : Prop} {before : Func} {config : Config} {d d' : Draft}

/-- The prologue stands behind the parameters, and all other code stands behind the prologue. -/
theorem Draft.Edited.prologue {frame : Frame} {inScope atEntry : List UInt8}
    {description : SymbolId} {code : FrameCode} (h : d.Edited ordered config.mapping before)
    (halign : isPowerOfTwo frame.align = true)
    (hdescription : d.symbols.contains description = true)
    (hname : d.symbols.contains d.func.name = true)
    (hprologue : FrameCode.prologue config frame inScope atEntry description d = .ok (d', code)) :
    ∃ front, d'.Framed ordered config.mapping before code front ∧
      (∀ i ∈ front, d.func.NoParam i → d.func.insts.size ≤ i) ∧
      Func.Edit ordered before.insts.size config.mapping d'.symbols d.func d'.func := by
  obtain ⟨rfl, hgrows, blk, pos, writes, ops, hblk, hparams, hplan, hcoded, hinsert⟩ :=
    FrameCode.prologue_eq_ok hprologue
  have hclosed := h.sound.closed
  have hfirst := Func.leadingParams_eq_ok hparams
  have hcontains : ∀ symbol, d.symbols.contains symbol = true →
      d'.symbols.contains symbol = true := by
    intro symbol hsymbol
    simp only [SymbolTable.contains, decide_eq_true_eq] at hsymbol ⊢
    exact hsymbol.trans_le hgrows.size_le
  have hcode : CodeTyped d'.symbols (d.func.Offers ordered 0 pos) d.func.insts.size
      (addedCode [] (prologueCode config.mapping d.func.insts.size frame.size frame.align
        description d.func.name ++ ops)) := by
    rw [Check.addedCode_append]
    refine (typed_prologueCode [] _ _ halign (hcontains _ hdescription)
      (hcontains _ hname)).append ?_
    exact typed_writesCoded [] hcoded (ShadowWrite.plans_of_plan hplan).codable
      (.inr ⟨15, _, Nat.lt_succ_self 15, rfl, rfl, rfl⟩)
  -- the prologue is a line in front of the first instruction that is no parameter
  obtain ⟨blk', hblk', hle, -⟩ := Func.insertCode_eq_ok hinsert
  obtain rfl := Option.some.inj (hblk.symm.trans hblk')
  have hpos := Func.lt_length_of_leadingParams hparams (h.sound.ends 0 blk hblk) hle
  have hat : d.func.At 0 pos blk.insts[pos] := ⟨blk, hblk, List.getElem?_eq_getElem hpos⟩
  have hplain := Func.noParam_of_leadingParams hparams (List.getElem?_eq_getElem hpos)
  have hedit : Func.Edit ordered before.insts.size config.mapping d'.symbols d.func d'.func :=
    .line hat hplain hcode hinsert
  refine ⟨blk.insts.take pos ++ List.range' d.func.insts.size (addedCode [] (prologueCode
      config.mapping d.func.insts.size frame.size frame.align description d.func.name ++
        ops)).length, ⟨h.step hgrows hedit, ?_, ?_, ?_, ?_⟩, ?_, hedit⟩
  · exact (Func.offers_result hclosed hcode.successors hinsert (k := 0) rfl ordered).has
  · exact (Func.offers_result hclosed hcode.successors hinsert (k := 15) rfl ordered).has
  · -- base and shadow are results 0 and 15 of the prologue, available wherever control has passed
    -- it
    intro c q i hat' hi
    have havailable := fun {k : Nat} => Func.available_behind_params (k := k) hclosed
      hcode.successors hblk hparams hinsert hat' hi
    exact ⟨havailable (k := 0) (Nat.succ_pos _), havailable (k := 15) (Nat.le_add_left 16 _)⟩
  · intro i hi
    rcases List.mem_append.mp hi with hi | hi
    · obtain ⟨instruction, hinst, hparam⟩ := hfirst i hi
      exact hedit.terminates ⟨instruction, hinst, (Op.proceeds_of_isParam hparam).1⟩
    · obtain ⟨k, hk, rfl⟩ := List.mem_range'.mp hi
      have hget := List.getElem?_eq_getElem hk
      refine ⟨_, ?_, (hcode.get hget).proceeds.2.1⟩
      rw [Nat.one_mul, Func.getElem?_insts_insertCode_add hinsert, hget]
  · intro i hi hplain'
    rcases List.mem_append.mp hi with hi | hi
    · obtain ⟨instruction, hinst, hparam⟩ := hfirst i hi
      obtain ⟨other, hother, hnot⟩ := hplain'
      obtain rfl := Option.some.inj (hinst.symm.trans hother)
      rw [hparam] at hnot
      cases hnot
    · exact (List.mem_range'_1.mp hi).1

/-- The whole addition of a frame consists of edits. -/
theorem Draft.Edited.addFrame {name : String} {slots : List Slot} {frame : Frame}
    {description : Global} (h : d.Edited ordered config.mapping before)
    (halign : isPowerOfTwo frame.align = true) (hname : d.symbols.contains d.func.name = true)
    (hslots : ∀ slot ∈ slots, slot.inst < before.insts.size ∧ d.func.NoParam slot.inst ∧
      d.func.Terminates slot.inst false)
    (hframe : d.addFrame config name slots frame = .ok (d', description)) :
    d'.Edited ordered config.mapping before := by
  obtain ⟨atEntry, markers, symbol, symbols, d₁, code, f₂, d₃, exits, -, hmarkers, hgrows, hsymbol,
    hprologue, hplaced, hmarked, hexits, hleft, -⟩ := Draft.addFrame_eq_ok hframe
  have hgrown : Draft.Edited ordered config.mapping before { d with symbols := symbols } :=
    h.grow hgrows rfl
  have hlt := (Array.getElem?_eq_some_iff.mp hsymbol).1
  obtain ⟨front, hframed, hfront, hedit⟩ := hgrown.prologue halign (decide_eq_true hlt)
    (decide_eq_true ((of_decide_eq_true hname).trans_le hgrows.size_le)) hprologue
  have hbehind : ∀ i, d.func.NoParam i → i ∉ front := by
    intro i hplain hi
    have hle := hfront i hi hplain
    obtain ⟨instruction, hinst, -⟩ := hplain
    exact absurd hle (Nat.not_le.mpr (Array.getElem?_eq_some_iff.mp hinst).1)
  obtain ⟨hframed₂, hedits⟩ := hframed.placeSlots (fun slot hslot => by
    obtain ⟨hlt, hplain, hterminates⟩ := hslots slot hslot
    exact ⟨hbehind _ hplain, hlt, hedit.noParam hplain, hedit.terminates hterminates⟩) hplaced
  have hframed₃ := hframed₂.placeMarkers (fun marker hmarker => by
    obtain ⟨instruction, edge, ptr, size, hinst, -, hop⟩ :=
      ((markers_spec hmarkers h.sound.nodup).2 marker hmarker).1
    have hplain : d.func.NoParam marker.inst := ⟨instruction, hinst, by rw [hop]; rfl⟩
    exact ⟨hbehind _ hplain, hedits.noParam (hedit.noParam hplain)⟩) hmarked
  obtain ⟨hnodup, hplaces⟩ := Func.exitAt_of_mem_exits hexits
  exact (hframed₃.placeExits hnodup hplaces hleft).edited

end

end Redzone
