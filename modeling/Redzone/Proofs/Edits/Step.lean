import Redzone.Proofs.Edits.Sound

/-!
# One edit of a function

All that an instrumentation does to the body of a function comes down to three edits, the
constructors of `Func.Edit`: a line of code is put in front of an instruction, a check is put in
front of an instruction, an instruction is replaced.  Each may rely on the values that it reads
being offered at its place (`Func.Offers`).  What an edit keeps is shown here, once and for all that
is built of edits.

* `Edit.extended`: nothing is taken away.
* `Edit.sound`: a sound function stays sound.
* `Edit.definedBeforeUse`: definitions still come before uses.

## Obstacles

* **Positions move.**  Code that is put into a block moves what stands behind it, and a check moves
  it to another block.  What is listed is only rearranged (`insertCode_perm`, `Check.insert_perm`),
  so that soundness can be stated without places, and for availability `Retrace` leads the new
  places back to the old ones.
* **A check has several blocks.**  Its code is taken apart into segments, and whatever is to be
  shown of it is shown of one segment: its line is well typed (`Check.segment_typed`), it ends with
  a branch without defects (`Check.last_eq_nil`), and it reads what it has computed on the way or
  what was there in front of it (`Check.segment_reads`).
* **The order of definitions is not verified.**  A function that passes its verification may use a
  value before it is defined.  So `Offers` asks for availability only under the assumption
  `ordered`; whoever does not care for the order takes it to be `False`.
-/

namespace Redzone

namespace Func

/-- The value `v` of type `t` can be read at place `pos` of block `b`.  It is defined there on every
path, as far as definitions come before uses at all, which is what `ordered` stands for. -/
structure Offers (ordered : Prop) (f : Func) (b : BlockId) (pos : Nat) (v : Value)
    (t : Ty) : Prop where
  has : f.Has v t
  available : ordered → f.Available b pos v

/-- An instruction that is no parameter. -/
def NoParam (f : Func) (i : InstId) : Prop :=
  ∃ instruction, f.insts[i]? = some instruction ∧ instruction.op.isParam = false

/-- One edit of a function whose first `n` instructions were there from the start. -/
inductive Edit (ordered : Prop) (n : Nat) (mapping : ShadowMapping) (symbols : SymbolTable)
    (f g : Func) : Prop
  /-- Code is put in front of an instruction. -/
  | line {b : BlockId} {pos : Nat} {i : InstId} {code : List Instruction} (hat : f.At b pos i)
      (hplain : f.NoParam i)
      (hcode : CodeTyped symbols (f.Offers ordered b pos) f.insts.size code)
      (hinsert : f.insertCode b pos code = .ok g)
  /-- A check is put in front of an instruction. -/
  | check {c : Check} {b cont : BlockId} {pos size : Nat} {i : InstId} {addr : Value}
      (hat : f.At b pos i) (hplain : f.NoParam i) (hmapping : c.mapping = mapping)
      (hroutine : symbols.contains c.routine = true) (haddr : f.Offers ordered b pos addr .int)
      (hargs : ∀ v ∈ c.args, Typing.Knows (f.Offers ordered b pos) v)
      (hinsert : c.insert f b pos addr size = .ok (g, cont))
  /-- An instruction of the first `n` is replaced. -/
  | replace {b : BlockId} {pos : Nat} {i : InstId} {instruction : Instruction} {op : Op}
      (hat : f.At b pos i) (hi : i < n) (hinst : f.insts[i]? = some instruction)
      (hold : instruction.op.isTerminator = false ∧ instruction.op.isParam = false)
      (hop : ({ instruction with op := op } : Instruction).Typed symbols (f.Offers ordered b pos))
      (hg : g = f.setInst i { instruction with op := op })

/-- Edits, one after the other. -/
abbrev Edits (ordered : Prop) (n : Nat) (mapping : ShadowMapping) (symbols : SymbolTable) :
    Func → Func → Prop :=
  Relation.ReflTransGen (Edit ordered n mapping symbols)

variable {ordered : Prop} {f g : Func} {n : Nat} {symbols : SymbolTable} {b c : Nat} {blk : Block}
  {pos i : Nat} {code : List Instruction}

/-! ### Code that is there -/

/-- Straight-line code that a function holds and lists has no defects, and nothing of it is a
terminator. -/
theorem flawless_of_typed {has : Typing} (hcode : CodeTyped symbols has n code)
    (hhas : ∀ v t, has v t → g.Has v t)
    (hholds : ∀ k < code.length, g.insts[n + k]? = code[k]? ∧ n + k ∈ g.listed) :
    ∀ k < code.length, g.Flawless symbols (n + k) ∧ g.Terminates (n + k) false := by
  intro k hk
  have hget := List.getElem?_eq_getElem hk
  have htyped := hcode.get hget
  have hinst := (hholds k hk).1.trans hget
  refine ⟨⟨_, hinst, instruction_of_typed (htyped.mono le_rfl ?_)⟩, _, hinst,
    htyped.proceeds.2.1⟩
  rintro v t (hv | ⟨j, i, hj, hi, rfl, rfl⟩)
  · exact hhas v t hv
  · obtain ⟨hinst', hlisted⟩ := hholds j (hj.trans hk)
    exact has_inst_iff.mpr ⟨hlisted, i, hinst'.trans hi, rfl⟩

theorem target_eq_nil (hblk : g.blocks[c]? = some blk) (hcount : blk.argCount = 0)
    (hstart : blk.argStart ≤ g.blockArgs.size) (hc : c ≠ 0) :
    (g.scope symbols).target { block := c } = .ok [] := by
  have hblock : g.block c = .ok blk := by rw [block, hblk]
  simp [Scope.target, argTys, hblock, hblk, hcount, hstart, hc]

theorem Ends.cut {insts : List InstId} (h : f.Ends insts) (hpos : pos < insts.length) :
    (∀ i ∈ insts.take pos, f.Terminates i false) ∧ f.Ends (insts.drop pos) := by
  obtain ⟨front, last, rfl, hfront, hlast⟩ := h
  rw [List.length_append, List.length_singleton] at hpos
  have hle : pos ≤ front.length := by omega
  rw [List.take_append_of_le_length hle, List.drop_append_of_le_length hle]
  exact ⟨fun i hi => hfront i (List.mem_of_mem_take hi), front.drop pos, last, rfl,
    fun i hi => hfront i (List.mem_of_mem_drop hi), hlast⟩

theorem Ends.prepend {front insts : List InstId} (h : f.Ends insts)
    (hfront : ∀ i ∈ front, f.Terminates i false) : f.Ends (front ++ insts) := by
  obtain ⟨middle, last, rfl, hmiddle, hlast⟩ := h
  refine ⟨front ++ middle, last, by rw [List.append_assoc], ?_, hlast⟩
  rw [List.forall_mem_append]
  exact ⟨hfront, hmiddle⟩

/-! ### Lines -/

theorem insertCode_perm (f : Func) (blk : Block) (pos : Nat) (code : List Instruction) :
    (blk.insts.take pos ++ List.range' f.insts.size code.length ++ blk.insts.drop pos ++
        ([] : List Block).flatMap Block.insts).Perm
      (blk.insts ++ List.range' f.insts.size code.length) := by
  conv => rhs; rw [← List.take_append_drop pos blk.insts]
  rw [List.flatMap_nil, List.append_nil, List.append_assoc, List.append_assoc]
  exact List.perm_append_comm.append_left _

theorem extends_insertCode (hinsert : f.insertCode b pos code = .ok g) : f.Extends g := by
  obtain ⟨blk, hblk, hpos, rfl⟩ := insertCode_eq_ok hinsert
  exact extends_graft hblk (insertCode_perm f blk pos code)

theorem Sound.insertCode (h : f.Sound symbols) (hat : f.At b pos i)
    (hcode : CodeTyped symbols f.Has f.insts.size code)
    (hinsert : f.insertCode b pos code = .ok g) : g.Sound symbols := by
  have hextends := extends_insertCode hinsert
  obtain ⟨blk, hblk, hpos, rfl⟩ := insertCode_eq_ok hinsert
  have hperm := insertCode_perm f blk pos code
  have hlt := (List.getElem?_eq_some_iff.mp ((at_iff hblk).mp hat)).1
  obtain ⟨hfront, hback⟩ := (h.ends b blk hblk).cut hlt
  have hnew := flawless_of_typed hcode (fun v t => hextends.has) fun k hk =>
    ⟨getElem?_insts_graft_add k, (listed_graft_perm hblk hperm).mem_iff.mpr
      (List.mem_append_right _ (List.mem_range'_1.mpr ⟨by omega, by omega⟩))⟩
  refine h.graft hblk hperm ?_ (by simp) fun k hk => (hnew k hk).1
  refine hback.graft.prepend ?_
  rw [List.forall_mem_append]
  refine ⟨fun i hi => (hfront i hi).graft, fun i hi => ?_⟩
  obtain ⟨k, hk, rfl⟩ := List.mem_range'.mp hi
  rw [Nat.one_mul]
  exact (hnew k hk).2

end Func

/-! ### Checks -/

namespace Check

variable {c : Check} {f g : Func} {symbols : SymbolTable} {n b cont pos size : Nat} {addr : Value}

/-- The lines of a check are well typed.  What stands in other blocks than the probe may read the
shadow that the probe has loaded. -/
theorem segment_typed {has : Typing} (hb : b < cont)
    (hroutine : symbols.contains c.routine = true) (haddr : has addr .int)
    (hargs : ∀ v ∈ c.args, has.Knows v) : ∀ s ∈ c.segments n addr size cont b pos,
      CodeTyped symbols (fun v t => has v t ∨ s.block ≠ b ∧ v = .inst (n + 5) ∧ t = .int) s.start
        (addedCode c.origin s.line) := by
  apply forall_segment
  · exact typed_probeCode c.origin c.mapping size (.inl haddr)
  · exact typed_reportLine c.origin hroutine fun v hv => (hargs v hv).imp fun t => .inl
  · intro _
    have hne : cont + 2 ≠ b := by omega
    exact typed_slowLine c.origin c.mapping size (.inl haddr) (.inr ⟨hne, rfl, rfl⟩)

/-- All of the code of a check belongs to its segments. -/
theorem exists_segment {k : Nat} (hk : k < (c.ops n addr size cont).length) (b pos : Nat) :
    ∃ s ∈ c.segments n addr size cont b pos, ∃ m < s.code.length, n + k = s.start + m := by
  rw [length_ops] at hk
  rcases Nat.lt_or_ge k 9 with hprobe | hprobe
  · exact ⟨_, List.mem_cons_self, k, by simpa [Segment.code] using hprobe, rfl⟩
  · rcases Nat.lt_or_ge k (9 + (c.slowPart n addr size cont).length) with hslow | hslow
    · have hneeds : c.mapping.needsSlowPath size = true := by
        by_contra hno
        rw [slowPart, if_neg hno, List.length_nil] at hslow
        omega
      refine ⟨_, List.mem_cons_of_mem _ (List.mem_cons_of_mem _
        (by rw [if_pos hneeds]; exact List.mem_cons_self)), k - 9, ?_, ?_⟩
      · rw [Segment.code, ← slowPart_eq hneeds]
        omega
      · simp only
        omega
    · refine ⟨_, List.mem_cons_of_mem _ List.mem_cons_self,
        k - (9 + (c.slowPart n addr size cont).length), ?_, ?_⟩
      · simp only [Segment.code, List.length_append, List.length_cons, List.length_nil]
        omega
      · simp only [reportStart]
        omega

/-- The blocks of a check hold what was behind it and its segments. -/
theorem mem_fresh_cases {argStart : Nat} {tail : List InstId} {blk : Block} (b pos : Nat)
    (h : blk ∈ c.fresh argStart n addr size cont tail) :
    blk.insts = tail ∨ ∃ s ∈ c.segments n addr size cont b pos,
      blk.insts = List.range' s.start s.code.length := by
  rw [fresh, List.mem_cons, List.mem_cons] at h
  rcases h with rfl | rfl | h
  · exact .inl rfl
  · exact .inr ⟨_, List.mem_cons_of_mem _ List.mem_cons_self, rfl⟩
  · split at h
    · rename_i hneeds
      rw [List.mem_singleton] at h
      subst h
      refine .inr ⟨_, List.mem_cons_of_mem _ (List.mem_cons_of_mem _
        (by rw [if_pos hneeds]; exact List.mem_cons_self)), ?_⟩
      rw [Segment.code, ← slowPart_eq hneeds]
    · simp at h

theorem insert_perm (c : Check) (f : Func) (blk : Block) (pos : Nat) (addr : Value) (size : Nat) :
    (blk.insts.take pos ++ List.range' f.insts.size 9 ++
        (c.fresh f.blockArgs.size f.insts.size addr size f.blocks.size
          (blk.insts.drop pos)).flatMap Block.insts).Perm
      (blk.insts ++ List.range' f.insts.size
        (addedCode c.origin (c.ops f.insts.size addr size f.blocks.size)).length) := by
  conv => rhs; rw [← List.take_append_drop pos blk.insts]
  rw [length_addedCode, List.append_assoc, List.append_assoc]
  exact (fresh_listed_perm c f.insts.size addr size f.blocks.size _ _).append_left _

theorem extends_insert (h : c.insert f b pos addr size = .ok (g, cont)) : f.Extends g := by
  obtain ⟨blk, hblk, -, -, rfl⟩ := insert_eq_ok h
  exact Func.extends_graft hblk (insert_perm c f blk pos addr size)

theorem le_segment_start : ∀ s ∈ c.segments n addr size cont b pos, n ≤ s.start := by
  apply forall_segment
  · exact le_rfl
  · exact Nat.le_add_right_of_le (Nat.le_add_right n 9)
  · exact fun _ => Nat.le_add_right n 9

/-- The code of a check is listed. -/
theorem listed_segment (h : c.insert f b pos addr size = .ok (g, cont)) :
    ∀ s ∈ c.segments f.insts.size addr size cont b pos, ∀ k < s.code.length,
      s.start + k ∈ g.listed := by
  intro s hs k hk
  have hstart := le_segment_start s hs
  have hinst := holds_segment h s hs k _ (List.getElem?_eq_getElem hk)
  have hlt := (Array.getElem?_eq_some_iff.mp hinst).1
  obtain ⟨blk, hblk, -, -, rfl⟩ := insert_eq_ok h
  rw [(Func.listed_graft_perm hblk (insert_perm c f blk pos addr size)).mem_iff]
  rw [Func.size_insts_graft] at hlt
  exact List.mem_append_right _ (List.mem_range'_1.mpr ⟨by omega, hlt⟩)

theorem has_segment (h : c.insert f b pos addr size = .ok (g, cont)) {s : Segment}
    (hs : s ∈ c.segments f.insts.size addr size cont b pos) {k : Nat} {op : Op}
    (hop : s.code[k]? = some op) : g.Has (.inst (s.start + k)) op.addedTy :=
  Func.has_inst_iff.mpr ⟨listed_segment h s hs k (List.getElem?_eq_some_iff.mp hop).1, _,
    holds_segment h s hs k op hop, rfl⟩

/-- A branch of a check leads to blocks of the check. -/
theorem target_insert (h : c.insert f b pos addr size = .ok (g, cont)) {t : Nat} (ht : cont ≤ t)
    (hlt : t < g.blocks.size) : (g.scope symbols).target { block := t } = .ok [] := by
  obtain ⟨hb, rfl⟩ := insert_places h
  obtain ⟨blk, hblk, -, -, rfl⟩ := insert_eq_ok h
  obtain ⟨k, rfl⟩ := Nat.exists_eq_add_of_le ht
  have hblk' := Array.getElem?_eq_getElem hlt
  have hfresh := hblk'
  rw [Func.getElem?_blocks_graft_add] at hfresh
  have hargs : ∀ blk' ∈ c.fresh f.blockArgs.size f.insts.size addr size f.blocks.size
      (blk.insts.drop pos), blk'.argCount = 0 ∧ blk'.argStart = f.blockArgs.size := by
    unfold fresh
    split <;> simp
  obtain ⟨hcount, hstart⟩ := hargs _ (List.mem_of_getElem? hfresh)
  refine Func.target_eq_nil hblk' hcount (by rw [hstart, Func.blockArgs_graft]) ?_
  exact (Nat.add_pos_left (Nat.zero_lt_of_lt hb) k).ne'

/-- The lines of a check have no defects. -/
theorem flawless_line (h : c.insert f b pos addr size = .ok (g, cont))
    (hroutine : symbols.contains c.routine = true) (haddr : f.Has addr .int)
    (hargs : ∀ v ∈ c.args, f.Has.Knows v) :
    ∀ s ∈ c.segments f.insts.size addr size cont b pos, ∀ k < s.line.length,
      g.Flawless symbols (s.start + k) ∧ g.Terminates (s.start + k) false := by
  obtain ⟨hb, hcont⟩ := insert_places h
  intro s hs k hk
  refine Func.flawless_of_typed
    (segment_typed (hcont ▸ hb) hroutine haddr hargs s hs) ?_ ?_ k (by simpa using hk)
  · rintro v t (hv | ⟨-, rfl, rfl⟩)
    · exact (extends_insert h).has hv
    · exact has_segment h List.mem_cons_self (k := 5) rfl
  · intro j hj
    rw [length_addedCode] at hj
    have hop : s.code[j]? = some s.line[j] := by
      rw [Segment.code, List.getElem?_append_left hj, List.getElem?_eq_getElem hj]
    refine ⟨?_, listed_segment h s hs j (List.getElem?_eq_some_iff.mp hop).1⟩
    rw [holds_segment h s hs j _ hop, addedCode, List.getElem?_map, List.getElem?_eq_getElem hj]
    rfl

theorem brif_eq_nil {cond : Value} {ifTrue ifFalse : Target} {i : Instruction}
    (hop : i.op = .brif cond ifTrue ifFalse) (hcond : g.Has cond .bool)
    (htrue : (g.scope symbols).target ifTrue = .ok [])
    (hfalse : (g.scope symbols).target ifFalse = .ok []) :
    (g.scope symbols).instruction i = .ok [] := by
  rw [Scope.instruction, hop]
  simp only [htrue, hfalse, ok_bind, Func.operand_eq_nil_iff.mpr ⟨_, hcond⟩,
    Func.hasTy_eq_nil _ hcond, List.append_nil]

theorem size_blocks_insert (h : c.insert f b pos addr size = .ok (g, cont)) :
    g.blocks.size = cont + (if c.mapping.needsSlowPath size then 3 else 2) := by
  obtain ⟨blk, hblk, -, rfl, rfl⟩ := insert_eq_ok h
  rw [Func.size_blocks_graft, fresh]
  split <;> rfl

/-- The segments of a check end with branches that have no defects. -/
theorem last_eq_nil (symbols : SymbolTable)
    (h : c.insert f b pos addr size = .ok (g, cont)) :
    ∀ s ∈ c.segments f.insts.size addr size cont b pos, s.last.isTerminator = true ∧
      ∀ i : Instruction, i.op = s.last → (g.scope symbols).instruction i = .ok [] := by
  have hblocks := size_blocks_insert h
  -- the blocks of a check: what was behind it, the report, and perhaps the slow path
  have hcont : (g.scope symbols).target { block := cont } = .ok [] :=
    target_insert h le_rfl (by split at hblocks <;> omega)
  have hreport : (g.scope symbols).target { block := cont + 1 } = .ok [] :=
    target_insert h (Nat.le_add_right cont 1) (by split at hblocks <;> omega)
  have hslow (hneeds : c.mapping.needsSlowPath size = true) :
      (g.scope symbols).target { block := cont + 2 } = .ok [] := by
    rw [if_pos hneeds] at hblocks
    exact target_insert h (Nat.le_add_right cont 2) (by omega)
  have hprobe : g.Has (.inst (f.insts.size + 7)) .bool :=
    has_segment h List.mem_cons_self (k := 7) rfl
  apply forall_segment
  · refine ⟨rfl, fun i hi => brif_eq_nil hi hprobe ?_ hcont⟩
    by_cases hneeds : c.mapping.needsSlowPath size = true
    · rw [if_pos hneeds]
      exact hslow hneeds
    · rw [if_neg hneeds]
      exact hreport
  · by_cases hrecover : c.recover = true
    · rw [if_pos hrecover]
      refine ⟨rfl, fun i hi => ?_⟩
      rw [Scope.instruction, hi]
      exact hcont
    · rw [if_neg hrecover]
      refine ⟨rfl, fun i hi => ?_⟩
      simp [Scope.instruction, hi, Op.operands, Scope.shape]
  · intro hneeds
    refine ⟨rfl, fun i hi => brif_eq_nil hi ?_ hreport hcont⟩
    have hslowest : _ ∈ c.segments f.insts.size addr size cont b pos :=
      List.mem_cons_of_mem _ (List.mem_cons_of_mem _
        (by rw [if_pos hneeds]; exact List.mem_cons_self))
    by_cases hsize : size > 1
    · have hhas := has_segment h hslowest (k := 5) (by simp [Segment.code, slowLine, hsize]; rfl)
      simpa [slowLine, hsize, Op.addedTy, Op.resultTy?] using hhas
    · have hhas := has_segment h hslowest (k := 3) (by simp [Segment.code, slowLine, hsize]; rfl)
      simpa [slowLine, hsize, Op.addedTy, Op.resultTy?] using hhas

theorem flawless_last (symbols : SymbolTable) (h : c.insert f b pos addr size = .ok (g, cont)) :
    ∀ s ∈ c.segments f.insts.size addr size cont b pos,
      g.Flawless symbols (s.start + s.line.length) ∧
        g.Terminates (s.start + s.line.length) true := by
  intro s hs
  have hinst := holds_segment h s hs s.line.length s.last (by simp [Segment.code])
  obtain ⟨hterminator, hflawless⟩ := last_eq_nil symbols h s hs
  exact ⟨⟨_, hinst, hflawless _ rfl⟩, _, hinst, hterminator⟩

open Func in
/-- A check leaves a function sound. -/
theorem sound_insert {i : InstId} (hsound : f.Sound symbols) (hat : f.At b pos i)
    (hroutine : symbols.contains c.routine = true) (haddr : f.Has addr .int)
    (hargs : ∀ v ∈ c.args, f.Has.Knows v) (h : c.insert f b pos addr size = .ok (g, cont)) :
    g.Sound symbols := by
  have hlines := flawless_line h hroutine haddr hargs
  have hlasts := flawless_last symbols h
  -- each segment ends as a block should, whichever block it is in
  have hcodes : ∀ s ∈ c.segments f.insts.size addr size cont b pos,
      g.Ends (List.range' s.start s.code.length) := by
    intro s hs
    rw [Segment.code, List.length_append, List.length_singleton, List.range'_1_concat]
    refine ⟨_, _, rfl, fun i hi => ?_, (hlasts s hs).2⟩
    obtain ⟨k, hk, rfl⟩ := List.mem_range'.mp hi
    rw [Nat.one_mul]
    exact (hlines s hs k hk).2
  obtain ⟨blk, hblk, -, hcont, hg⟩ := insert_eq_ok h
  subst hcont
  have hlt := (List.getElem?_eq_some_iff.mp ((at_iff hblk).mp hat)).1
  obtain ⟨hfront, hback⟩ := (hsound.ends b blk hblk).cut hlt
  rw [hg]
  refine hsound.graft hblk (insert_perm c f blk pos addr size) ?_ ?_ ?_
  · rw [hg] at hcodes
    exact (hcodes _ List.mem_cons_self).prepend fun i hi => (hfront i hi).graft
  · intro blk' hblk'
    rcases mem_fresh_cases b pos hblk' with htail | ⟨s, hs, hcode⟩
    · rw [htail]
      exact hback.graft
    · rw [hcode, ← hg]
      exact hcodes s hs
  · intro k hk
    rw [length_addedCode] at hk
    obtain ⟨s, hs, m, hm, heq⟩ := exists_segment hk b pos
    rw [heq, ← hg]
    rw [Segment.code, List.length_append, List.length_singleton] at hm
    rcases Nat.lt_succ_iff_lt_or_eq.mp hm with hm | rfl
    · exact (hlines s hs m hm).1
    · exact (hlasts s hs).1

/-- A segment branches on its last result. -/
theorem segment_operands : ∀ s ∈ c.segments n addr size cont b pos, ∀ v ∈ s.last.operands,
    ∃ m < s.line.length, v = .inst (s.start + m) := by
  apply forall_segment
  · simp only [branch, Op.operands, List.append_nil, List.mem_singleton]
    exact fun v hv => ⟨7, by simp, hv⟩
  · split <;> simp [Op.operands]
  · intro _ v hv
    simp only [Op.operands, List.append_nil, List.mem_singleton] at hv
    have hpos : 0 < (slowLine c.mapping (n + 9) addr (.inst (n + 5)) size).length := by
      unfold slowLine
      split <;> simp
    refine ⟨_, Nat.sub_one_lt_of_lt hpos, ?_⟩
    rw [hv, Nat.add_sub_assoc hpos]

/-- The code of a check reads what it has computed on the way, and what can be read in front of
it. -/
theorem segment_reads {has : Typing} (hb : b < cont) (hroutine : symbols.contains c.routine = true)
    (haddr : has addr .int) (hargs : ∀ v ∈ c.args, has.Knows v) {s : Segment}
    (hs : s ∈ c.segments n addr size cont b pos) {k : Nat} {op : Op} (hop : s.code[k]? = some op)
    {v : Value} (hv : v ∈ op.operands) :
    (∃ j ∈ c.passed n addr size cont b pos s.block (s.pos + k), v = .inst j) ∨ has.Knows v := by
  rcases Segment.code_cases hop with hline | ⟨rfl, rfl⟩
  · have hcode : (addedCode c.origin s.line)[k]? = some ⟨op, op.addedTy, c.origin, true⟩ := by
      rw [addedCode, List.getElem?_map, hline]
      rfl
    obtain ⟨t, (ht | ⟨hne, rfl, -⟩) | ⟨j, i, hj, -, rfl, -⟩⟩ :=
      ((segment_typed hb hroutine haddr hargs s hs).get hcode).operand v hv
    · exact .inr ⟨t, ht⟩
    · refine .inl ⟨n + 5, List.mem_append_left _ ?_, rfl⟩
      rcases segment_place s hs with ⟨hblock, -⟩ | ⟨hblock, -⟩
      · exact absurd hblock hne
      · rw [if_pos hblock.le, List.mem_range'_1]
        omega
    · exact .inl ⟨s.start + j, mem_passed_of_segment hs hj, rfl⟩
  · obtain ⟨m, hm, rfl⟩ := segment_operands s hs v hv
    exact .inl ⟨s.start + m, mem_passed_of_segment hs hm, rfl⟩

end Check

/-! ### Edits -/

namespace Func

variable {ordered : Prop} {f g : Func} {n : Nat} {mapping : ShadowMapping}
  {symbols symbols' : SymbolTable}

/-- A function with an instruction replaced has the paths it had before. -/
def Retrace.ofReplace {i : InstId} {instruction : Instruction} (hclosed : f.Closed)
    (hinst : f.insts[i]? = some instruction) (hnonempty : 0 < f.blocks.size) {op : Op}
    (hop : op.successors = []) : Retrace f (f.setInst i { instruction with op := op }) where
  back b pos := (b, pos)
  fresh _ _ := []
  entry := ⟨rfl, rfl⟩
  next hat := .inl ⟨hat, rfl⟩
  jump := by
    intro b pos j c other hat hother hc
    have hji : j ≠ i := by
      rintro rfl
      rw [getElem?_insts_setInst_self (Array.getElem?_eq_some_iff.mp hinst).1] at hother
      obtain rfl := Option.some.inj hother
      rw [hop] at hc
      simp at hc
    rw [getElem?_insts_setInst_of_ne hji] at hother
    exact .inl ⟨hat, other, hother, hc, hclosed.target hat hother hc, rfl⟩
  fresh_next _ := List.nil_subset _
  fresh_jump _ _ _ := List.nil_subset _
  args hblk _ := ⟨_, hblk, rfl⟩
  nonempty := hnonempty

namespace Edit

theorem mono (h : Edit ordered n mapping symbols f g) (hsymbols : symbols.size ≤ symbols'.size) :
    Edit ordered n mapping symbols' f g := by
  cases h with
  | line hat hplain hcode hinsert =>
      exact .line hat hplain (hcode.mono hsymbols fun v t hv => hv) hinsert
  | check hat hplain hmapping hroutine haddr hargs hinsert =>
      refine .check hat hplain hmapping ?_ haddr hargs hinsert
      simp only [SymbolTable.contains, decide_eq_true_eq] at hroutine ⊢
      exact hroutine.trans_le hsymbols
  | replace hat hi hinst hold hop hg =>
      exact .replace hat hi hinst hold (hop.mono hsymbols fun v t hv => hv) hg

/-- An edit takes nothing away. -/
theorem extended (h : Edit ordered n mapping symbols f g) : f.Extends g := by
  cases h with
  | line _ _ _ hinsert => exact extends_insertCode hinsert
  | check _ _ _ _ _ _ hinsert => exact Check.extends_insert hinsert
  | @replace _ _ _ _ op _ _ hinst _ _ hg => exact hg ▸ extends_setInst hinst op

/-- An edit leaves a function sound. -/
theorem sound (h : Edit ordered n mapping symbols f g) (hsound : f.Sound symbols) :
    g.Sound symbols := by
  cases h with
  | line hat _ hcode hinsert =>
      exact hsound.insertCode hat (hcode.mono le_rfl fun v t hv => hv.has) hinsert
  | check hat _ _ hroutine haddr hargs hinsert =>
      exact Check.sound_insert hsound hat hroutine haddr.has
        (fun v hv => (hargs v hv).imp fun t => Offers.has) hinsert
  | @replace _ _ _ instruction op _ _ hinst hold hop hg =>
      have hextends := extends_setInst hinst op
      subst hg
      exact hsound.setInst hinst hold.1 hop.proceeds.2.1
        (instruction_of_typed (hop.mono le_rfl fun v t hv => hextends.has hv.has))

/-- An edit keeps definitions in front of uses. -/
theorem definedBeforeUse (h : Edit ordered n mapping symbols f g) (hsound : f.Sound symbols)
    (hordered : ordered) (hdefined : f.DefinedBeforeUse) : g.DefinedBeforeUse := by
  have hclosed := hsound.closed
  cases h with
  | @line b pos i code hat hplain hcode hinsert =>
      apply (Retrace.ofLine hclosed hinsert hcode.successors [] (by simp)
        (by simp)).definedBeforeUse
      intro c q j instruction hat' hinst v hv
      simp only [Retrace.ofLine]
      -- in front of the line, in it, behind it
      rcases (at_insertCode hinsert).mp hat' with
        ⟨hbefore, hold⟩ | ⟨k, hk, rfl, rfl, rfl⟩ | ⟨p, hp, rfl, rfl, hold⟩
      · rw [getElem?_insts_of_insertCode hclosed hinsert hold] at hinst
        rw [lineBack_before fun hc => (hbefore hc).le]
        exact .inr (hdefined c q j instruction hold hinst v hv)
      · rw [getElem?_insts_insertCode_add hinsert] at hinst
        rw [lineBack_within hk.le, if_pos rfl]
        -- an operand was offered in front of the line, or the line has computed it
        obtain ⟨t, ht | ⟨m, i', hm, -, rfl, -⟩⟩ := (hcode.get hinst).operand v hv
        · exact .inr (ht.available hordered)
        · refine .inl ⟨_, ?_, rfl⟩
          rw [List.mem_range'_1]
          omega
      · rw [getElem?_insts_of_insertCode hclosed hinsert hold] at hinst
        rw [lineBack_behind hp]
        exact .inr (hdefined _ p j instruction hold hinst v hv)
  | @check c b cont pos size i addr hat hplain hmapping hroutine haddr hargs hinsert =>
      obtain ⟨hb, rfl⟩ := Check.insert_places hinsert
      apply (Retrace.ofCheck hclosed hinsert).definedBeforeUse
      intro j q i' instruction hat' hinst v hv
      simp only [Retrace.ofCheck]
      -- in front of the check, behind it, in one of its segments
      rcases Check.at_insert_cases hinsert hat' with
        ⟨hbefore, hold⟩ | ⟨rfl, hold⟩ | ⟨s, hs, k, hk, rfl, rfl, rfl⟩
      · rw [Check.getElem?_insts_of_insert hclosed hinsert hold] at hinst
        rw [Check.backOf_before hold.lt_size fun hj => (hbefore hj).le]
        exact .inr (hdefined j q i' instruction hold hinst v hv)
      · rw [Check.getElem?_insts_of_insert hclosed hinsert hold] at hinst
        rw [Check.backOf_cont hb]
        exact .inr (hdefined b _ i' instruction hold hinst v hv)
      · have hop := List.getElem?_eq_getElem hk
        rw [Check.holds_segment hinsert s hs k _ hop] at hinst
        obtain rfl := Option.some.inj hinst
        rw [Check.backOf_segment hb hs]
        refine (Check.segment_reads hb hroutine haddr hargs hs hop hv).imp_right ?_
        rintro ⟨t, ht⟩
        exact ht.available hordered
  | @replace b pos i instruction op hat _ hinst _ hop hg =>
      subst hg
      have hpos : 0 < f.blocks.size := Nat.zero_lt_of_lt hat.lt_size
      apply (Retrace.ofReplace hclosed hinst hpos hop.proceeds.1).definedBeforeUse
      intro c q j other hat' hother v hv
      right
      by_cases hji : j = i
      · subst hji
        rw [getElem?_insts_setInst_self (Array.getElem?_eq_some_iff.mp hinst).1] at hother
        obtain rfl := Option.some.inj hother
        obtain ⟨t, ht⟩ := hop.operand v hv
        obtain ⟨blk, hblk, hget⟩ := hat
        obtain ⟨blk', hblk', hget'⟩ := hat'
        -- its operands were offered at the only place where it is listed
        obtain ⟨rfl, rfl⟩ := place_unique hsound.nodup hblk' hget' hblk hget
        exact ht.available hordered
      · rw [getElem?_insts_setInst_of_ne hji] at hother
        exact hdefined c q j other hat' hother v hv

end Edit

theorem Edits.sound {mapping : ShadowMapping} (h : Edits ordered n mapping symbols f g)
    (hsound : f.Sound symbols) : g.Sound symbols := by
  induction h with
  | refl => exact hsound
  | tail _ hedit ih => exact hedit.sound ih

end Func

end Redzone
