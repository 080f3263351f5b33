import Redzone.Proofs.Check.Lasting

/-!
# How a frame is put into a function

A frame is added by a sequence of edits: the prologue behind the parameters, a distance in front of
every slot, which then becomes an address within the frame, writes in front of lifetime markers and
in front of exits.

* The first sections invert the program, one stage each: what a stage adds, where, and of which
  shape (`prologue_eq_ok`, `placeSlot_cases`, `placeMarker_cases`, `placeExit_eq_ok`).  For the code
  of writes the shape is a relation, `WritesCoded`, since the plan behind it is of no concern here.
* `FrameStep` is one edit, seen from the function `f` that was there before.  It keeps whatever is
  no slot (`FrameStep.keeps`) and it is a cut of a block (`FrameStep.exists_cut`), never in front of
  an access: slots, markers and exits are none.
* `Draft.addFrame_steps` says that the frame is added by these edits alone, so that what one edit
  keeps is kept by all.

Later stages look for their places in the function that the earlier ones have left.  That they find
what `f` had there is carried along by `Marker.Kept` for markers and by `Func.ExitAt` for exits:
code in front of one exit moves that one, and the exits of other blocks stay where they are.
-/

namespace Redzone

/-! ### Places -/

namespace Func

variable {f : Func}

theorem locateFrom_eq_some {i : InstId} {b c : BlockId} {blocks : List Block} {pos : Nat}
    (h : locateFrom i b blocks = some (c, pos)) :
    b ≤ c ∧ ∃ blk, blocks[c - b]? = some blk ∧ blk.insts[pos]? = some i := by
  induction blocks generalizing b with
  | nil => cases h
  | cons blk rest ih =>
      rw [locateFrom] at h
      split at h
      · rename_i pos' hpos
        cases h
        obtain ⟨hlt, hget, -⟩ := List.idxOf?_eq_some_iff.mp hpos
        exact ⟨le_rfl, blk, by simp, by rw [List.getElem?_eq_getElem hlt, hget]⟩
      · obtain ⟨hle, blk', hblk', hget⟩ := ih h
        refine ⟨Nat.le_of_succ_le hle, blk', ?_, hget⟩
        rwa [← Nat.succ_sub_succ, Nat.succ_sub hle, List.getElem?_cons_succ]

theorem locate_eq_some {i : InstId} {b : BlockId} {pos : Nat} (h : f.locate i = some (b, pos)) :
    ∃ blk, f.blocks[b]? = some blk ∧ blk.insts[pos]? = some i := by
  obtain ⟨-, blk, hblk, hget⟩ := locateFrom_eq_some h
  exact ⟨blk, by simpa using hblk, hget⟩

theorem leadingParams_eq_ok {insts : List InstId} {count : Nat}
    (h : f.leadingParams insts = .ok count) : ∀ i ∈ insts.take count,
      ∃ instruction, f.insts[i]? = some instruction ∧ instruction.op.isParam = true := by
  induction insts generalizing count with
  | nil =>
      cases h
      simp
  | cons i rest ih =>
      rw [leadingParams] at h
      obtain ⟨instruction, hinst, h⟩ := bind_eq_ok h
      split at h
      · rename_i hparam
        obtain ⟨count', hcount, h⟩ := bind_eq_ok h
        cases h
        rw [List.take_succ_cons, List.forall_mem_cons]
        exact ⟨⟨instruction, inst_eq_ok hinst, hparam⟩, ih hcount⟩
      · cases h
        simp

end Func

/-! ### The code of writes -/

/-- The operations that make one write, for code that starts at `n`. -/
inductive ShadowWrite.Coded (symbols : SymbolTable) (base : Value) (n : InstId) :
    ShadowWrite → List Op → Prop
  | store (offset : Nat) (bytes : List UInt8) :
      Coded symbols base n (.store offset bytes)
        [ .iconst offset, .arith .add base (.inst n), .intToPtr (.inst (n + 1)),
          .iconst (signed64 (Draft.littleEndian bytes)),
          .store (.inst (n + 3)) (.inst (n + 2)) bytes.length none ]
  | fill (offset length : Nat) (value : UInt8) {routine : SymbolId}
      (hroutine : symbols.names[routine]? = some (EntryPoint.setShadow value)) :
      Coded symbols base n (.fill offset length value)
        [ .iconst offset, .arith .add base (.inst n), .iconst length,
          .symbolAddr routine, .call (.inst (n + 3)) [.inst (n + 1), .inst (n + 2)] ]

/-- The operations that make some writes, one after the other. -/
inductive WritesCoded (symbols : SymbolTable) (base : Value) :
    InstId → List ShadowWrite → List Op → Prop
  | nil (n : InstId) : WritesCoded symbols base n [] []
  | cons {n : InstId} {write : ShadowWrite} {writes : List ShadowWrite} {ops others : List Op}
      (hfirst : write.Coded symbols base n ops)
      (hrest : WritesCoded symbols base (n + ops.length) writes others) :
      WritesCoded symbols base n (write :: writes) (ops ++ others)

section

variable {symbols symbols' : SymbolTable} {base : Value} {n : InstId} {write : ShadowWrite}
  {writes : List ShadowWrite} {ops : List Op}

theorem ShadowWrite.Coded.mono (h : write.Coded symbols base n ops)
    (hgrows : symbols.GrowsTo symbols') : write.Coded symbols' base n ops := by
  cases h with
  | store offset bytes => exact .store offset bytes
  | fill offset length value hroutine => exact .fill offset length value (hgrows _ _ hroutine)

theorem WritesCoded.mono (h : WritesCoded symbols base n writes ops)
    (hgrows : symbols.GrowsTo symbols') : WritesCoded symbols' base n writes ops := by
  induction h with
  | nil n => exact .nil n
  | cons hfirst _ ih => exact .cons (hfirst.mono hgrows) ih

theorem WritesCoded.isLandmark (h : WritesCoded symbols base n writes ops) :
    ∀ op ∈ ops, op.isLandmark = false := by
  induction h with
  | nil n => simp
  | cons hfirst _ ih =>
      rw [List.forall_mem_append]
      refine ⟨?_, ih⟩
      cases hfirst <;> simp [Op.isLandmark]

theorem Draft.writeCode_spec (d : Draft) (n : InstId) (base : Value) (write : ShadowWrite) :
    (d.writeCode n base write).1.func = d.func ∧
      d.symbols.GrowsTo (d.writeCode n base write).1.symbols ∧
      write.Coded (d.writeCode n base write).1.symbols base n (d.writeCode n base write).2 := by
  cases write with
  | store offset bytes => exact ⟨rfl, .refl _, .store offset bytes⟩
  | fill offset length value =>
      exact ⟨rfl, d.symbols.growsTo_intern _, .fill offset length value (d.symbols.names_intern _)⟩

theorem Draft.writesCode_spec (d : Draft) (n : InstId) (base : Value)
    (writes : List ShadowWrite) :
    (d.writesCode n base writes).1.func = d.func ∧
      d.symbols.GrowsTo (d.writesCode n base writes).1.symbols ∧
      WritesCoded (d.writesCode n base writes).1.symbols base n writes
        (d.writesCode n base writes).2 := by
  induction writes generalizing d n with
  | nil => exact ⟨rfl, .refl _, .nil n⟩
  | cons write writes ih =>
      obtain ⟨hfunc, hgrows, hcoded⟩ := d.writeCode_spec n base write
      obtain ⟨hfunc', hgrows', hcoded'⟩ := ih (d.writeCode n base write).1
        (n + (d.writeCode n base write).2.length)
      exact ⟨hfunc'.trans hfunc, hgrows.trans hgrows', .cons (hcoded.mono hgrows') hcoded'⟩

end

/-! ### What the edits do -/

namespace FrameCode

/-- The code that is put behind the parameters. -/
theorem prologue_eq_ok {config : Config} {frame : Frame} {inScope atEntry : List UInt8}
    {description : SymbolId} {d d' : Draft} {code : FrameCode}
    (h : prologue config frame inScope atEntry description d = .ok (d', code)) :
    code = ⟨frame, inScope, atEntry, .inst d.func.insts.size, .inst (d.func.insts.size + 15),
        config.maxInlinePoisoning⟩ ∧
      d.symbols.GrowsTo d'.symbols ∧
      ∃ blk pos writes ops, d.func.blocks[0]? = some blk ∧
        d.func.leadingParams blk.insts = .ok pos ∧
        ShadowWrite.plan code.maxInline atEntry atEntry 0 atEntry.length = .ok writes ∧
        WritesCoded d'.symbols code.shadowBase (d.func.insts.size + 16) writes ops ∧
        d.func.insertCode 0 pos (addedCode [] (prologueCode config.mapping d.func.insts.size
          frame.size frame.align description d.func.name ++ ops)) = .ok d'.func := by
  unfold prologue at h
  obtain ⟨pos, hpos, h⟩ := bind_eq_ok h
  obtain ⟨writes, hwrites, h⟩ := bind_eq_ok h
  obtain ⟨f, hf, h⟩ := bind_eq_ok h
  cases h
  obtain ⟨hfunc, hgrows, hcoded⟩ := d.writesCode_spec (d.func.insts.size + (prologueCode
    config.mapping d.func.insts.size frame.size frame.align description d.func.name).length)
    (.inst (d.func.insts.size + 15)) writes
  rw [hfunc] at hf
  obtain ⟨blk, hblk, -, -⟩ := Func.insertCode_eq_ok hf
  rw [Func.prologueLength, hblk] at hpos
  exact ⟨rfl, hgrows, blk, pos, writes, _, hblk, hpos, hwrites, hcoded, hf⟩

/-- A slot becomes an address within the frame, or nothing happens. -/
theorem placeSlot_cases {code : FrameCode} {slots : List Slot} {f f' : Func}
    {var : StackVariable} (h : code.placeSlot slots f var = .ok f') :
    f' = f ∧ (∀ slot, slots[var.index]? = some slot → f.locate slot.inst = none) ∨
      ∃ slot b blk pos g instruction, slots[var.index]? = some slot ∧ f.blocks[b]? = some blk ∧
        blk.insts[pos]? = some slot.inst ∧
        f.insertCode b pos [{ op := .iconst var.offset, ty := .int }] = .ok g ∧
        g.insts[slot.inst]? = some instruction ∧
        f' = g.setInst slot.inst
          { instruction with op := .ptrAdd code.base (.inst f.insts.size) } := by
  unfold placeSlot at h
  split at h
  · rename_i hslot
    cases h
    exact .inl ⟨rfl, by simp [hslot]⟩
  · rename_i slot hslot
    split at h
    · rename_i hlocate
      cases h
      exact .inl ⟨rfl, by simpa [hslot] using hlocate⟩
    · rename_i b pos hlocate
      obtain ⟨g, hg, h⟩ := bind_eq_ok h
      obtain ⟨instruction, hinst, rfl⟩ := Func.setOp_eq_ok h
      obtain ⟨blk, hblk, hget⟩ := Func.locate_eq_some hlocate
      exact .inr ⟨slot, b, blk, pos, g, instruction, hslot, hblk, hget, hg, hinst, rfl⟩

theorem markedGranules_eq_some {granularity first last : Nat} {var : StackVariable}
    {marker : Marker} (h : markedGranules granularity var marker = .ok (some (first, last))) :
    marker.offset < var.size ∧ first = (var.offset + marker.offset) / granularity ∧
      last = ceilDiv (var.offset + marker.offset + min marker.size (var.size - marker.offset))
        granularity := by
  unfold markedGranules at h
  split at h
  · cases h
  · rename_i hlt
    obtain ⟨room, hroom, h⟩ := bind_eq_ok h
    obtain ⟨-, rfl⟩ := checkedSub_eq_ok_iff.mp hroom
    cases h
    exact ⟨Nat.lt_of_not_le hlt, rfl, rfl⟩

/-- What a lifetime marker asks for. -/
structure MarkerPlan (code : FrameCode) (marker : Marker) (writes : List ShadowWrite) : Prop where
  planned : ∃ var start stop,
    code.frame.vars.find? (fun var => var.index = marker.slot) = some var ∧
    markedGranules code.frame.granularity var marker = .ok (some (start, stop)) ∧
    ShadowWrite.plan code.maxInline code.atEntry
      (match marker.edge with | .leave => code.atEntry | .enter => code.inScope) start stop =
        .ok writes

/-- Code is put in front of a lifetime marker, or nothing happens. -/
theorem placeMarker_cases {code : FrameCode} {d d' : Draft} {marker : Marker}
    (h : code.placeMarker d marker = .ok d') :
    (d' = d ∧ ∀ var, code.frame.vars.find? (fun var => var.index = marker.slot) = some var →
      d.func.locate marker.inst = none ∨
        markedGranules code.frame.granularity var marker = .ok none) ∨
    ∃ writes, code.MarkerPlan marker writes ∧ ∃ b blk pos origin ops,
      d.symbols.GrowsTo d'.symbols ∧
      d.func.blocks[b]? = some blk ∧ blk.insts[pos]? = some marker.inst ∧
      WritesCoded d'.symbols code.shadowBase d.func.insts.size writes ops ∧
      d.func.insertCode b pos (addedCode origin ops) = .ok d'.func := by
  unfold placeMarker at h
  split at h
  · rename_i var b pos hvar hlocate
    obtain ⟨granules, hgranules, h⟩ := bind_eq_ok h
    rcases granules with _ | ⟨start, stop⟩
    · cases h
      refine .inl ⟨rfl, fun var' hvar' => .inr ?_⟩
      rwa [← Option.some.inj (hvar.symm.trans hvar')]
    · obtain ⟨i, -, h⟩ := bind_eq_ok h
      obtain ⟨writes, hwrites, h⟩ := bind_eq_ok h
      obtain ⟨f, hf, h⟩ := bind_eq_ok h
      cases h
      obtain ⟨hfunc, hgrows, hcoded⟩ :=
        d.writesCode_spec d.func.insts.size code.shadowBase writes
      obtain ⟨blk, hblk, hget⟩ := Func.locate_eq_some hlocate
      rw [hfunc] at hf
      exact .inr ⟨writes, ⟨var, start, stop, hvar, hgranules, hwrites⟩, b, blk, pos, i.origin, _,
        hgrows, hblk, hget, hcoded, hf⟩
  · rename_i hnone
    cases h
    refine .inl ⟨rfl, fun var hvar => .inl ?_⟩
    by_contra hlocate
    obtain ⟨⟨b, pos⟩, hlocate⟩ := Option.ne_none_iff_exists'.mp hlocate
    exact hnone var b pos hvar hlocate

/-- The code that retires the frame's header. -/
def retireOps (code : FrameCode) (n : InstId) : List Op :=
  [.iconst retiredFrameMagic, .store (.inst n) code.base 8 none]

/-- Code is put in front of an exit. -/
theorem placeExit_eq_ok {code : FrameCode} {d d' : Draft} {exit : BlockId × Nat}
    (h : code.placeExit d exit = .ok d') :
    d.symbols.GrowsTo d'.symbols ∧ ∃ writes ops,
      ShadowWrite.plan code.maxInline code.atEntry (List.replicate code.atEntry.length 0) 0
        code.atEntry.length = .ok writes ∧
      WritesCoded d'.symbols code.shadowBase (d.func.insts.size + 2) writes ops ∧
      d.func.insertCode exit.1 exit.2
        (addedCode [] (code.retireOps d.func.insts.size ++ ops)) = .ok d'.func := by
  unfold placeExit at h
  obtain ⟨writes, hwrites, h⟩ := bind_eq_ok h
  obtain ⟨f, hf, h⟩ := bind_eq_ok h
  cases h
  obtain ⟨hfunc, hgrows, hcoded⟩ := d.writesCode_spec
    (d.func.insts.size + (code.retireOps d.func.insts.size).length) code.shadowBase writes
  rw [List.length_replicate] at hwrites
  unfold retireOps at hfunc
  rw [hfunc] at hf
  exact ⟨hgrows, writes, _, hwrites, hcoded, hf⟩

end FrameCode

/-! ### Steps -/

/-- Whether an operation makes a stack slot. -/
def Op.isSlot : Op → Bool
  | .stackSlot .. => true
  | _ => false

theorem Op.isSlot_of_access {op : Op} {access : MemAccess} (h : op.access? = some access) :
    op.isSlot = false ∧ op.isLandmark = false := by
  cases op <;> first | exact ⟨rfl, rfl⟩ | cases h

theorem Op.proceeds_of_access {op : Op} {access : MemAccess} (h : op.access? = some access) :
    op.isTerminator = false ∧ op.isParam = false := by
  cases op <;> first | exact ⟨rfl, rfl⟩ | cases h

theorem Op.isSlot_of_isParam {op : Op} (h : op.isParam = true) : op.isSlot = false := by
  cases op <;> first | rfl | cases h

theorem Op.isLandmark_of_isParam {op : Op} (h : op.isParam = true) : op.isLandmark = true := by
  cases op <;> first | rfl | cases h

theorem Op.proceeds_of_isParam {op : Op} (h : op.isParam = true) :
    op.isTerminator = false ∧ op.successors = [] := by
  cases op <;> first | exact ⟨rfl, rfl⟩ | cases h

theorem Op.isTerminator_of_isExit {op : Op} (h : op.isExit = true) : op.isTerminator = true := by
  cases op <;> first | rfl | cases h

theorem Op.isLandmark_of_isExit {op : Op} (h : op.isExit = true) :
    op.isLandmark = true ∧ op.isParam = false := by
  cases op <;> first | exact ⟨rfl, rfl⟩ | cases h

/-- Code that is put into a block leaves the instructions alone. -/
theorem Func.getElem?_insts_insertCode {f g : Func} {b : BlockId} {pos : Nat}
    {code : List Instruction} {i : InstId} {instruction : Instruction}
    (hi : f.insts[i]? = some instruction) (h : f.insertCode b pos code = .ok g) :
    g.insts[i]? = some instruction := by
  obtain ⟨blk, -, -, rfl⟩ := insertCode_eq_ok h
  rw [getElem?_insts_graft_of_lt (Array.getElem?_eq_some_iff.mp hi).1, hi]

/-- One edit that adds a part of a frame to the function `f`, which had `n` instructions once: code
is put in front of the instruction `i`. -/
inductive FrameEdit (f : Func) (n : Nat) (i : InstId) (d d' : Draft) : Prop
  | slot {slot instruction : Instruction} {b : BlockId} {blk : Block} {pos : Nat}
      {code : List Instruction} {g : Func} (hgrows : d.symbols.GrowsTo d'.symbols) (hi : i < n)
      (hslot : f.insts[i]? = some slot) (hop : slot.op.isSlot = true)
      (hblk : d.func.blocks[b]? = some blk) (hget : blk.insts[pos]? = some i)
      (hinsert : d.func.insertCode b pos code = .ok g) (hfunc : d'.func = g.setInst i instruction)
  | landmark {instruction : Instruction} {b : BlockId} {blk : Block} {pos : Nat}
      {code : List Instruction} (hgrows : d.symbols.GrowsTo d'.symbols)
      (hinst : d.func.insts[i]? = some instruction) (hop : instruction.op.isLandmark = true)
      (hparam : instruction.op.isParam = false)
      (hblk : d.func.blocks[b]? = some blk) (hget : blk.insts[pos]? = some i)
      (hinsert : d.func.insertCode b pos code = .ok d'.func)

namespace FrameEdit

variable {f : Func} {n : Nat} {i : InstId} {d d' : Draft}

theorem growsTo (h : FrameEdit f n i d d') : d.symbols.GrowsTo d'.symbols := by
  cases h <;> assumption

/-- The edit is not in front of what is neither a slot nor a landmark, nor in front of a
parameter. -/
theorem ne (h : FrameEdit f n i d d') {inst : InstId} {instruction : Instruction}
    (hf : f.insts[inst]? = some instruction) (hd : d.func.insts[inst]? = some instruction)
    (hslot : instruction.op.isSlot = false)
    (hplain : instruction.op.isLandmark = true → instruction.op.isParam = true) : i ≠ inst := by
  rintro rfl
  cases h with
  | slot _ _ hslot' hop _ _ _ _ =>
      obtain rfl := Option.some.inj (hf.symm.trans hslot')
      rw [hslot] at hop
      cases hop
  | landmark _ hinst hop hparam _ _ _ =>
      obtain rfl := Option.some.inj (hd.symm.trans hinst)
      rw [hplain hop] at hparam
      cases hparam

/-- What makes no slot is kept. -/
theorem keeps (h : FrameEdit f n i d d') {j : InstId} {instruction : Instruction}
    (hf : f.insts[j]? = some instruction) (hop : instruction.op.isSlot = false)
    (hd : d.func.insts[j]? = some instruction) : d'.func.insts[j]? = some instruction := by
  cases h with
  | landmark _ _ _ _ _ _ hinsert => exact Func.getElem?_insts_insertCode hd hinsert
  | slot _ _ hslot hop' _ _ hinsert hfunc =>
      rw [hfunc, Func.getElem?_insts_setInst_of_ne ?_, Func.getElem?_insts_insertCode hd hinsert]
      rintro rfl
      obtain rfl := Option.some.inj (hf.symm.trans hslot)
      rw [hop] at hop'
      cases hop'

theorem exists_cut (h : FrameEdit f n i d d') :
    ∃ b blk pos, d.func.blocks[b]? = some blk ∧ blk.insts[pos]? = some i ∧
      d.func.Cut n d'.func b blk pos ∧ d.func.Apart n i := by
  cases h with
  | @slot slot instruction b blk pos code g _ hi _ _ hblk hget hinsert hfunc =>
      exact ⟨b, blk, pos, hblk, hget, hfunc ▸ (Func.Cut.of_insertCode hblk hinsert).setInst hi _,
        .inl hi⟩
  | @landmark instruction b blk pos code _ hinst hop _ hblk hget hinsert =>
      exact ⟨b, blk, pos, hblk, hget, .of_insertCode hblk hinsert, .inr ⟨instruction, hinst, hop⟩⟩

end FrameEdit

/-- One step of adding a frame. -/
inductive FrameStep (f : Func) (n : Nat) (d d' : Draft) : Prop
  | prologue {blk : Block} {pos : Nat} {code : List Instruction}
      (hgrows : d.symbols.GrowsTo d'.symbols) (hblk : d.func.blocks[0]? = some blk)
      (hparams : ∀ i ∈ blk.insts.take pos,
        ∃ instruction, d.func.insts[i]? = some instruction ∧ instruction.op.isParam = true)
      (hinsert : d.func.insertCode 0 pos code = .ok d'.func)
  | edit {i : InstId} (h : FrameEdit f n i d d')

namespace FrameStep

variable {f : Func} {n : Nat} {d d' : Draft}

theorem growsTo (h : FrameStep f n d d') : d.symbols.GrowsTo d'.symbols := by
  cases h with
  | prologue hgrows _ _ _ => exact hgrows
  | edit h => exact h.growsTo

theorem keeps (h : FrameStep f n d d') {i : InstId} {instruction : Instruction}
    (hf : f.insts[i]? = some instruction) (hop : instruction.op.isSlot = false)
    (hd : d.func.insts[i]? = some instruction) : d'.func.insts[i]? = some instruction := by
  cases h with
  | prologue _ _ _ hinsert => exact Func.getElem?_insts_insertCode hd hinsert
  | edit h => exact h.keeps hf hop hd

/-- Every step is a cut that leaves accesses together with what is in front of them. -/
theorem exists_cut (h : FrameStep f n d d') :
    ∃ b blk pos, d.func.blocks[b]? = some blk ∧ d.func.Cut n d'.func b blk pos ∧
      ∀ (inst : InstId) (i : Instruction) (access : MemAccess), f.insts[inst]? = some i →
        d.func.insts[inst]? = some i → i.op.access? = some access →
        d.func.CutPoint n inst b blk pos := by
  cases h with
  | @prologue blk pos code _ hblk hparams hinsert =>
      refine ⟨0, blk, pos, hblk, .of_insertCode hblk hinsert, fun _ _ _ _ _ _ => .prologue rfl ?_⟩
      intro j hj
      obtain ⟨instruction, hinst, hparam⟩ := hparams j hj
      exact .inr ⟨instruction, hinst, Op.isLandmark_of_isParam hparam⟩
  | @edit j h =>
      obtain ⟨b, blk, pos, hblk, hget, hcut, hapart⟩ := h.exists_cut
      refine ⟨b, blk, pos, hblk, hcut, fun inst i access hf hd haccess => ?_⟩
      obtain ⟨hslot, hlandmark⟩ := Op.isSlot_of_access haccess
      exact .before hget (h.ne hf hd hslot (by simp [hlandmark])) hapart

end FrameStep

/-- Steps, one after the other. -/
abbrev FrameSteps (f : Func) (n : Nat) : Draft → Draft → Prop :=
  Relation.ReflTransGen (FrameStep f n)

namespace FrameSteps

variable {f : Func} {n : Nat} {d d' : Draft}

theorem growsTo (h : FrameSteps f n d d') : d.symbols.GrowsTo d'.symbols := by
  induction h with
  | refl => exact .refl _
  | tail _ hstep ih => exact ih.trans hstep.growsTo

theorem keeps (h : FrameSteps f n d d') {i : InstId} {instruction : Instruction}
    (hf : f.insts[i]? = some instruction) (hop : instruction.op.isSlot = false)
    (hd : d.func.insts[i]? = some instruction) : d'.func.insts[i]? = some instruction := by
  induction h with
  | refl => exact hd
  | tail _ hstep ih => exact hstep.keeps hf hop ih

/-- A frame leaves accesses together with their guards. -/
theorem cuts {access : MemAccess} {inst : InstId} {i : Instruction} (h : FrameSteps f n d d')
    (hf : f.insts[inst]? = some i) (haccess : i.op.access? = some access)
    (hd : d.func.insts[inst]? = some i) : d.func.Cuts n inst d'.func := by
  induction h with
  | refl => exact .refl
  | tail hsteps hstep ih =>
      obtain ⟨b, blk, pos, hblk, hcut, hpoint⟩ := hstep.exists_cut
      have hcurrent := FrameSteps.keeps hsteps hf (Op.isSlot_of_access haccess).1 hd
      exact ih.tail ⟨b, blk, pos, hblk, hcut, hpoint inst i access hf hcurrent haccess⟩

end FrameSteps

/-- Edits in front of instructions of which `P` holds, one after the other. -/
abbrev FrameEdits (f : Func) (n : Nat) (P : InstId → Prop) : Draft → Draft → Prop :=
  Relation.ReflTransGen fun d d' => ∃ i, P i ∧ FrameEdit f n i d d'

theorem FrameEdits.steps {f : Func} {n : Nat} {P : InstId → Prop} {d d' : Draft}
    (h : FrameEdits f n P d d') : FrameSteps f n d d' := by
  induction h with
  | refl => exact .refl
  | tail _ hedit ih =>
      obtain ⟨i, -, hedit⟩ := hedit
      exact ih.tail (.edit hedit)

/-! ### The whole frame -/

namespace Func

/-- A marker is a lifetime operation on a pointer into one of the slots. -/
theorem marker?_eq_some_iff {f : Func} {slots : List Slot} {i : InstId} {marker : Marker} :
    f.marker? slots i = .ok (some marker) ↔ ∃ instruction edge ptr size base offset slot,
      f.insts[i]? = some instruction ∧ instruction.op = .lifetime edge ptr size ∧
      f.baseAndOffset ptr = some (.inst base, offset) ∧ 0 ≤ offset ∧
      slots.findIdx? (fun slot => slot.inst = base) = some slot ∧
      marker = ⟨i, slot, offset.toNat, size, edge⟩ := by
  constructor
  · intro h
    unfold marker? at h
    obtain ⟨instruction, hinst, h⟩ := bind_eq_ok h
    split at h
    · rename_i edge ptr size hop
      split at h
      · rename_i base offset hptr
        split at h
        · rename_i hoffset
          split at h <;> cases h
          rename_i slot hslot
          exact ⟨instruction, edge, ptr, size, base, offset, slot, inst_eq_ok hinst, hop, hptr,
            hoffset, hslot, rfl⟩
        · cases h
      · cases h
    · cases h
  · rintro ⟨instruction, edge, ptr, size, base, offset, slot, hinst, hop, hptr, hoffset, hslot, rfl⟩
    simp [marker?, inst, hinst, hop, hptr, hoffset, hslot]

theorem inst_of_marker? {f : Func} {slots : List Slot} {i : InstId} {marker : Marker}
    (h : f.marker? slots i = .ok (some marker)) : marker.inst = i := by
  obtain ⟨-, -, -, -, -, -, -, -, -, -, -, -, rfl⟩ := marker?_eq_some_iff.mp h
  rfl

theorem marker_of_mem_markers {f : Func} {slots : List Slot} {all : List Marker}
    (h : f.markers slots = .ok all) {marker : Marker} (hmarker : marker ∈ all) :
    marker.inst ∈ f.listed ∧ f.marker? slots marker.inst = .ok (some marker) := by
  unfold markers at h
  obtain ⟨found, hfound, h⟩ := bind_eq_ok h
  cases h
  obtain ⟨marker', hmem, hsome⟩ := List.mem_filterMap.mp hmarker
  obtain rfl : marker' = some marker := hsome
  obtain ⟨i, hi, hmarker⟩ := exists_of_mem_mapM hfound _ hmem
  obtain rfl := inst_of_marker? hmarker
  exact ⟨hi, hmarker⟩

theorem nodup_markers {f : Func} {slots : List Slot} {all : List Marker}
    (h : f.markers slots = .ok all) (hnodup : f.listed.Nodup) :
    (all.map Marker.inst).Nodup := by
  unfold markers at h
  obtain ⟨found, hfound, h⟩ := bind_eq_ok h
  cases h
  exact (keys_sublist_of_mapM hfound fun i marker => inst_of_marker?).nodup hnodup

/-- Control leaves the function at `last`, which is at place `pos` of block `b` and ends it. -/
def ExitAt (f : Func) (b : BlockId) (pos : Nat) (last : InstId) : Prop :=
  ∃ blk instruction, f.blocks[b]? = some blk ∧ blk.insts.length = pos + 1 ∧
    blk.insts[pos]? = some last ∧ f.insts[last]? = some instruction ∧
    instruction.op.isExit = true

theorem exit?_eq_some {f : Func} {leaves : Op → Bool} {b c : BlockId} {pos : Nat}
    (h : f.exit? leaves b = .ok (some (c, pos))) :
    c = b ∧ ∃ last blk instruction, f.blocks[b]? = some blk ∧ blk.insts.length = pos + 1 ∧
      blk.insts[pos]? = some last ∧ f.insts[last]? = some instruction ∧
      leaves instruction.op = true := by
  unfold exit? at h
  obtain ⟨last, hlast, h⟩ := bind_eq_ok h
  cases last with
  | none => cases h
  | some last =>
      obtain ⟨instruction, hinst, h⟩ := bind_eq_ok h
      obtain ⟨blk, hblk, h⟩ := bind_eq_ok h
      have hleaves : leaves instruction.op = true := by
        by_contra hstays
        rw [if_neg hstays] at h
        cases h
      rw [if_pos hleaves] at h
      obtain ⟨pos', hpos, h⟩ := bind_eq_ok h
      cases h
      obtain ⟨hpos, rfl⟩ := checkedSub_eq_ok_iff.mp hpos
      refine ⟨rfl, last, blk, instruction, block_eq_ok hblk, ?_⟩
      unfold terminator at hlast
      obtain ⟨blk', hblk', hlast⟩ := bind_eq_ok hlast
      obtain rfl : blk = blk' := Except.ok.inj (hblk.symm.trans hblk')
      split at hlast
      · cases hlast
      · rename_i last' hlast'
        obtain ⟨instruction', -, hlast⟩ := bind_eq_ok hlast
        replace hlast := Except.ok.inj hlast
        split at hlast <;> cases hlast
        rw [List.getLast?_eq_getElem?] at hlast'
        exact ⟨by omega, hlast', inst_eq_ok hinst, hleaves⟩

/-- Control leaves the function at the last places of blocks. -/
theorem exits_eq_ok {f : Func} {leaves : Op → Bool} {all : List (BlockId × Nat)}
    (h : f.exits leaves = .ok all) :
    (all.map Prod.fst).Nodup ∧ ∀ exit ∈ all, ∃ last blk instruction,
      f.blocks[exit.1]? = some blk ∧ blk.insts.length = exit.2 + 1 ∧
      blk.insts[exit.2]? = some last ∧ f.insts[last]? = some instruction ∧
      leaves instruction.op = true := by
  unfold exits at h
  obtain ⟨found, hfound, h⟩ := bind_eq_ok h
  cases h
  refine ⟨(keys_sublist_of_mapM hfound fun b exit hexit => ?_).nodup List.nodup_range, ?_⟩
  · exact (exit?_eq_some hexit).1
  · intro exit hexit
    obtain ⟨exit', hmem, hsome⟩ := List.mem_filterMap.mp hexit
    obtain rfl : exit' = some exit := hsome
    obtain ⟨b, -, hexit⟩ := exists_of_mem_mapM hfound _ hmem
    obtain ⟨hb, hplace⟩ := exit?_eq_some hexit
    rwa [hb]

theorem exitAt_of_mem_exits {f : Func} {all : List (BlockId × Nat)}
    (h : f.exits Op.isExit = .ok all) :
    (all.map Prod.fst).Nodup ∧ ∀ exit ∈ all, ∃ last, f.ExitAt exit.1 exit.2 last :=
  exits_eq_ok h

theorem ExitAt.insertCode {f g : Func} {b c : BlockId} {pos pos' : Nat} {last : InstId}
    {code : List Instruction} (h : f.ExitAt b pos last) (hne : b ≠ c)
    (hinsert : f.insertCode c pos' code = .ok g) : g.ExitAt b pos last := by
  obtain ⟨blk, instruction, hblk, hlength, hget, hinst, hexit⟩ := h
  refine ⟨blk, instruction, ?_, hlength, hget, getElem?_insts_insertCode hinst hinsert, hexit⟩
  obtain ⟨blk', hblk', -, rfl⟩ := insertCode_eq_ok hinsert
  rw [getElem?_blocks_graft_of_ne hne (lt_size_of_getElem? hblk), hblk]

end Func

/-- The parts of which the addition of a frame consists. -/
theorem Draft.addFrame_stages {config : Config} {name : String} {slots : List Slot} {frame : Frame}
    {d d' : Draft} {description : Global}
    (h : d.addFrame config name slots frame = .ok (d', description)) :
    ∃ atEntry markers d₁ code f₂ d₃ exits, frame.entryShadow = .ok atEntry ∧
      (if config.useAfterScope then d.func.markers slots else .ok []) = .ok markers ∧
      FrameCode.prologue config frame frame.shadow atEntry
        (d.symbols.intern (EntryPoint.stackDescription name)).2
        { d with symbols := (d.symbols.intern (EntryPoint.stackDescription name)).1 } =
        .ok (d₁, code) ∧
      frame.vars.foldlM (code.placeSlot slots) d₁.func = .ok f₂ ∧
      markers.foldlM code.placeMarker { d₁ with func := f₂ } = .ok d₃ ∧
      d₃.func.exits Op.isExit = .ok exits ∧ exits.foldlM code.placeExit d₃ = .ok d' ∧
      description = descriptionGlobal (d.symbols.intern (EntryPoint.stackDescription name)).2
        frame.description := by
  unfold addFrame at h
  obtain ⟨atEntry, hentry, h⟩ := bind_eq_ok h
  simp only at h
  split at h
  all_goals
    rename_i hscope
    obtain ⟨markers, hmarkers, h⟩ := bind_eq_ok h
    obtain ⟨⟨d₁, code⟩, hprologue, h⟩ := bind_eq_ok h
    obtain ⟨f₂, hslots, h⟩ := bind_eq_ok h
    obtain ⟨d₃, hplaced, h⟩ := bind_eq_ok h
    obtain ⟨exits, hexits, h⟩ := bind_eq_ok h
    obtain ⟨d₄, hleft, h⟩ := bind_eq_ok h
    cases h
    exact ⟨atEntry, markers, d₁, code, f₂, d₃, exits, hentry, by simpa [hscope] using hmarkers,
      hprologue, hslots, hplaced, hexits, hleft, rfl⟩

/-- Of the symbol for the description it only matters what it is called. -/
theorem Draft.addFrame_eq_ok {config : Config} {name : String} {slots : List Slot} {frame : Frame}
    {d d' : Draft} {description : Global}
    (h : d.addFrame config name slots frame = .ok (d', description)) :
    ∃ atEntry markers symbol symbols d₁ code f₂ d₃ exits, frame.entryShadow = .ok atEntry ∧
      (if config.useAfterScope then d.func.markers slots else .ok []) = .ok markers ∧
      d.symbols.GrowsTo symbols ∧
      symbols.names[symbol]? = some (EntryPoint.stackDescription name) ∧
      FrameCode.prologue config frame frame.shadow atEntry symbol { d with symbols := symbols } =
        .ok (d₁, code) ∧
      frame.vars.foldlM (code.placeSlot slots) d₁.func = .ok f₂ ∧
      markers.foldlM code.placeMarker { d₁ with func := f₂ } = .ok d₃ ∧
      d₃.func.exits Op.isExit = .ok exits ∧ exits.foldlM code.placeExit d₃ = .ok d' ∧
      description = descriptionGlobal symbol frame.description := by
  obtain ⟨atEntry, markers, d₁, code, f₂, d₃, exits, hentry, hmarkers, hprologue, hrest⟩ :=
    addFrame_stages h
  exact ⟨atEntry, markers, _, _, d₁, code, f₂, d₃, exits, hentry, hmarkers,
    d.symbols.growsTo_intern _, d.symbols.names_intern _, hprologue, hrest⟩

section

variable {f : Func} {n : Nat} {code : FrameCode} {P : InstId → Prop} {d d' : Draft}

theorem frameEdits_of_slots {slots : List Slot} {vars : List StackVariable} {g : Func}
    (hslots : ∀ slot ∈ slots, P slot.inst ∧ slot.inst < n ∧
      ∃ instruction, f.insts[slot.inst]? = some instruction ∧ instruction.op.isSlot = true)
    (h : vars.foldlM (code.placeSlot slots) d.func = .ok g) :
    FrameEdits f n P d { d with func := g } := by
  induction vars generalizing d with
  | nil =>
      cases h
      exact .refl
  | cons var rest ih =>
      obtain ⟨g₁, hg₁, h⟩ := foldlM_cons_eq_ok h
      refine Relation.ReflTransGen.trans ?_ (ih (d := { d with func := g₁ }) h)
      rcases FrameCode.placeSlot_cases hg₁ with
        ⟨rfl, -⟩ | ⟨slot, b, blk, pos, g', instruction, hslot, hblk, hget, hinsert, -, hfunc⟩
      · exact .refl
      · obtain ⟨hP, hlt, slot', hinst, hop⟩ := hslots slot (List.mem_of_getElem? hslot)
        exact .single ⟨slot.inst, hP, .slot (.refl _) hlt hinst hop hblk hget hinsert hfunc⟩

/-- The instruction of a marker is a lifetime operation, and has always been one. -/
def Marker.Kept (f g : Func) (marker : Marker) : Prop :=
  ∃ instruction edge ptr size, f.insts[marker.inst]? = some instruction ∧
    g.insts[marker.inst]? = some instruction ∧ instruction.op = .lifetime edge ptr size

theorem frameEdits_of_marker {marker : Marker} (hP : P marker.inst) (hkept : marker.Kept f d.func)
    (h : code.placeMarker d marker = .ok d') : FrameEdits f n P d d' := by
  rcases FrameCode.placeMarker_cases h with
    ⟨rfl, -⟩ | ⟨writes, -, b, blk, pos, origin, ops, hgrows, hblk, hget, -, hinsert⟩
  · exact .refl
  · obtain ⟨instruction, edge, ptr, size, -, hinst, hop⟩ := hkept
    have hlifetime : instruction.op.isLandmark = true ∧ instruction.op.isParam = false := by
      rw [hop]
      exact ⟨rfl, rfl⟩
    exact .single ⟨marker.inst, hP,
      .landmark hgrows hinst hlifetime.1 hlifetime.2 hblk hget hinsert⟩

theorem Marker.Kept.steps {marker : Marker} (h : marker.Kept f d.func)
    (hsteps : FrameSteps f n d d') : marker.Kept f d'.func := by
  obtain ⟨instruction, edge, ptr, size, hf, hd, hop⟩ := h
  exact ⟨instruction, edge, ptr, size, hf, hsteps.keeps hf (by rw [hop]; rfl) hd, hop⟩

theorem frameEdits_of_markers {markers : List Marker}
    (hmarkers : ∀ marker ∈ markers, P marker.inst ∧ marker.Kept f d.func)
    (h : markers.foldlM code.placeMarker d = .ok d') : FrameEdits f n P d d' := by
  induction markers generalizing d with
  | nil =>
      cases h
      exact .refl
  | cons marker rest ih =>
      obtain ⟨d₁, hd₁, h⟩ := foldlM_cons_eq_ok h
      rw [List.forall_mem_cons] at hmarkers
      have hfirst := frameEdits_of_marker (n := n) hmarkers.1.1 hmarkers.1.2 hd₁
      refine hfirst.trans (ih (fun other hother => ?_) h)
      exact ⟨(hmarkers.2 other hother).1, (hmarkers.2 other hother).2.steps hfirst.steps⟩

theorem frameEdit_of_exit {exit : BlockId × Nat} {last : InstId}
    (hexit : d.func.ExitAt exit.1 exit.2 last) (h : code.placeExit d exit = .ok d') :
    FrameEdit f n last d d' := by
  obtain ⟨hgrows, writes, ops, -, -, hinsert⟩ := FrameCode.placeExit_eq_ok h
  obtain ⟨blk, instruction, hblk, -, hget, hinst, hexit⟩ := hexit
  have hlandmark := Op.isLandmark_of_isExit hexit
  exact .landmark hgrows hinst hlandmark.1 hlandmark.2 hblk hget hinsert

/-- The exits of other blocks stay where they are. -/
theorem exitAt_of_placeExit {exit other : BlockId × Nat} {last : InstId}
    (hother : d.func.ExitAt other.1 other.2 last) (hne : other.1 ≠ exit.1)
    (h : code.placeExit d exit = .ok d') : d'.func.ExitAt other.1 other.2 last := by
  obtain ⟨-, writes, ops, -, -, hinsert⟩ := FrameCode.placeExit_eq_ok h
  exact hother.insertCode hne hinsert

theorem frameEdits_of_exits {exits : List (BlockId × Nat)} (hnodup : (exits.map Prod.fst).Nodup)
    (hexits : ∀ exit ∈ exits, ∃ last, P last ∧ d.func.ExitAt exit.1 exit.2 last)
    (h : exits.foldlM code.placeExit d = .ok d') : FrameEdits f n P d d' := by
  induction exits generalizing d with
  | nil =>
      cases h
      exact .refl
  | cons exit rest ih =>
      obtain ⟨d₁, hd₁, h⟩ := foldlM_cons_eq_ok h
      rw [List.forall_mem_cons] at hexits
      rw [List.map_cons, List.nodup_cons] at hnodup
      obtain ⟨⟨last, hP, hexit⟩, hexits⟩ := hexits
      refine .head ⟨last, hP, frameEdit_of_exit hexit hd₁⟩ (ih hnodup.2 (fun other hother => ?_) h)
      obtain ⟨last', hP', hother'⟩ := hexits other hother
      refine ⟨last', hP', exitAt_of_placeExit hother' ?_ hd₁⟩
      rintro heq
      exact hnodup.1 (heq ▸ List.mem_map_of_mem hother)

/-- What is known of the markers of a function, whether they count or not. -/
theorem markers_spec {g : Func} {slots : List Slot} {useAfterScope : Bool} {markers : List Marker}
    (h : (if useAfterScope then g.markers slots else .ok []) = .ok markers)
    (hnodup : g.listed.Nodup) :
    (markers.map Marker.inst).Nodup ∧
      ∀ marker ∈ markers, marker.Kept g g ∧ marker.inst ∈ g.listed := by
  split at h
  · refine ⟨Func.nodup_markers h hnodup, fun marker hmarker => ?_⟩
    obtain ⟨hlisted, hmarker'⟩ := Func.marker_of_mem_markers h hmarker
    obtain ⟨instruction, edge, ptr, size, -, -, -, hinst, hop, -⟩ :=
      Func.marker?_eq_some_iff.mp hmarker'
    exact ⟨⟨instruction, edge, ptr, size, hinst, hinst, hop⟩, hlisted⟩
  · cases h
    exact ⟨List.nodup_nil, by simp⟩

/-- A frame is added step by step. -/
theorem Draft.addFrame_steps {config : Config} {name : String} {slots : List Slot} {frame : Frame}
    {description : Global} {n : Nat}
    (h : d.addFrame config name slots frame = .ok (d', description))
    (hslots : ∀ slot ∈ slots, slot.inst < n ∧
      ∃ instruction, d.func.insts[slot.inst]? = some instruction ∧ instruction.op.isSlot = true)
    (hlisted : d.func.listed.Nodup) : FrameSteps d.func n d d' := by
  obtain ⟨atEntry, markers, symbol, symbols, d₁, code, f₂, d₃, exits, -, hmarkers, hgrows, -,
    hprologue, hplaced, hmarked, hexits, hleft, -⟩ := addFrame_eq_ok h
  obtain ⟨-, hgrows', blk, pos, writes, ops, hblk, hparams, -, -, hinsert⟩ :=
    FrameCode.prologue_eq_ok hprologue
  have hfirst : FrameSteps d.func n d d₁ :=
    .single (.prologue (hgrows.trans hgrows') hblk (Func.leadingParams_eq_ok hparams) hinsert)
  have hsecond := frameEdits_of_slots (f := d.func) (n := n) (P := fun _ => True) (d := d₁)
    (fun slot hslot => ⟨trivial, hslots slot hslot⟩) hplaced
  have hthird := frameEdits_of_markers (f := d.func) (n := n) (P := fun _ => True)
    (fun marker hmarker => ⟨trivial,
      (((markers_spec hmarkers hlisted).2 marker hmarker).1.steps hfirst).steps hsecond.steps⟩)
    hmarked
  obtain ⟨hnodup, hplaces⟩ := Func.exitAt_of_mem_exits hexits
  have hfourth := frameEdits_of_exits (f := d.func) (n := n) (P := fun _ => True) hnodup
    (fun exit hexit => (hplaces exit hexit).imp fun _ hat => ⟨trivial, hat⟩) hleft
  exact hfirst.trans (hsecond.steps.trans (hthird.steps.trans hfourth.steps))

end

end Redzone
