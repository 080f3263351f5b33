import Redzone.Proofs.Check.Code
import Redzone.Proofs.Edits.Paths

/-!
# Where things are after an edit

Code that is put into a block moves what stands behind it, and a check moves it to another block.
For either edit this module lists the places of the new function and leads them back to the places
of the old one.

* A line has three kinds of places: in front of it, in it and behind it (`Func.at_insertCode`).
  Those in the line belong to the place in front of which it was put (`lineBack`).
* A check is cut into segments, that is the probe, the report and, for the sizes that have one, the
  slow path.  Its places are in front of it, behind it, which is in another block, or in one of its
  segments (`Check.at_insert_cases`).  These all belong to the place of the check (`Check.backOf`).

`Func.Retrace.ofLine` and `Func.Retrace.ofCheck` say that a step in the new function is a step in
the old one or stays at its place.  The second one also has to know which part of a check control
has passed: the slow path and the report read what the probe has computed, although they are in
other blocks.  This is what `Check.passed` says, block by block.
-/

namespace Redzone

namespace Func

variable {f g : Func} {b c : Nat} {blk : Block} {pos q i : Nat}
  {insts : List InstId} {code : List Instruction} {fresh : List Block}

theorem At.mem_listed (h : f.At b pos i) : i ∈ f.listed := by
  obtain ⟨blk, hblk, hget⟩ := h
  exact Func.mem_listed hblk (List.mem_of_getElem? hget)

theorem exists_at_of_mem_listed (h : i ∈ f.listed) : ∃ b pos, f.At b pos i := by
  obtain ⟨b, blk, hblk, hi⟩ := exists_of_mem_listed h
  obtain ⟨pos, hpos⟩ := List.getElem?_of_mem hi
  exact ⟨b, pos, blk, hblk, hpos⟩

theorem At.lt_size (h : f.At b pos i) : b < f.blocks.size := by
  obtain ⟨blk, hblk, -⟩ := h
  exact lt_size_of_getElem? hblk

theorem at_iff (hblk : f.blocks[b]? = some blk) : f.At b pos i ↔ blk.insts[pos]? = some i := by
  constructor
  · rintro ⟨blk', hblk', hget⟩
    rwa [Option.some.inj (hblk.symm.trans hblk')]
  · exact fun hget => ⟨blk, hblk, hget⟩

/-- The places of a graft: in the block that it was made on, in the other blocks, in the new
ones. -/
theorem at_graft (hblk : f.blocks[b]? = some blk) :
    (f.graft b insts code fresh).At c q i ↔
      c = b ∧ insts[q]? = some i ∨ c ≠ b ∧ f.At c q i ∨
        ∃ k blk', c = f.blocks.size + k ∧ fresh[k]? = some blk' ∧ blk'.insts[q]? = some i := by
  have hb : b < f.blocks.size := lt_size_of_getElem? hblk
  rcases Nat.lt_or_ge c f.blocks.size with hc | hc
  · have hold : ¬ ∃ k blk', c = f.blocks.size + k ∧ fresh[k]? = some blk' ∧
        blk'.insts[q]? = some i := by
      rintro ⟨k, blk', hk, -⟩
      omega
    by_cases hcb : c = b
    · subst hcb
      rw [at_iff (getElem?_blocks_graft_self hblk), or_iff_left hold]
      simp
    · rw [At, getElem?_blocks_graft_of_ne hcb hc, or_iff_left hold]
      simp [hcb, At]
  · obtain ⟨k, rfl⟩ := Nat.exists_eq_add_of_le hc
    have hne : f.blocks.size + k ≠ b := by omega
    have hold : ¬ f.At (f.blocks.size + k) q i := fun hat => absurd hat.lt_size (by omega)
    rw [At, getElem?_blocks_graft_add]
    simp [hne, hold]

/-- A graft leaves the arguments of blocks alone. -/
theorem args_graft {blk' : Block} (hc : c < f.blocks.size)
    (hblk' : (f.graft b insts code fresh).blocks[c]? = some blk') :
    ∃ blk, f.blocks[c]? = some blk ∧ blk'.argStart = blk.argStart ∧
      blk'.argCount = blk.argCount := by
  have hblk := Array.getElem?_eq_getElem hc
  by_cases hcb : c = b
  · subst hcb
    rw [getElem?_blocks_graft_self hblk] at hblk'
    obtain rfl := Option.some.inj hblk'
    exact ⟨_, hblk, rfl, rfl⟩
  · rw [getElem?_blocks_graft_of_ne hcb hc] at hblk'
    exact ⟨blk', hblk', rfl, rfl⟩

/-! ### A line in a block -/

/-- The places of a list into which a line was put: in front of it, in it and behind it. -/
theorem getElem?_splice_eq_some_iff {rest : List InstId} {start count : Nat}
    (hpos : pos ≤ insts.length) :
    (insts.take pos ++ List.range' start count ++ rest)[q]? = some i ↔
      q < pos ∧ insts[q]? = some i ∨ (∃ k < count, q = pos + k ∧ i = start + k) ∨
        ∃ k, q = pos + count + k ∧ rest[k]? = some i := by
  have hfront : (insts.take pos ++ List.range' start count).length = pos + count := by
    simp [hpos]
  rcases Nat.lt_or_ge q pos with hq | hq
  · rw [List.append_assoc, List.getElem?_append_left (by simp; omega), List.getElem?_take,
      if_pos hq]
    constructor
    · exact fun h => .inl ⟨hq, h⟩
    · rintro (h | ⟨k, -, rfl, -⟩ | ⟨k, rfl, -⟩)
      · exact h.2
      · omega
      · omega
  · obtain ⟨k, rfl⟩ := Nat.exists_eq_add_of_le hq
    rcases Nat.lt_or_ge k count with hk | hk
    · rw [List.getElem?_append_left (by omega), List.getElem?_append_right (by simp [hpos]),
        List.length_take, Nat.min_eq_left hpos, Nat.add_sub_cancel_left,
        List.getElem?_range' hk, Nat.one_mul, Option.some.injEq]
      constructor
      · exact fun h => .inr (.inl ⟨k, hk, rfl, h.symm⟩)
      · rintro (h | ⟨k', -, heq, rfl⟩ | ⟨k', heq, -⟩)
        · omega
        · rw [Nat.add_left_cancel heq]
        · omega
    · obtain ⟨j, rfl⟩ := Nat.exists_eq_add_of_le hk
      rw [List.getElem?_append_right (by omega), hfront, ← Nat.add_assoc, Nat.add_sub_cancel_left]
      constructor
      · exact fun h => .inr (.inr ⟨j, rfl, h⟩)
      · rintro (h | ⟨k', hk', heq, -⟩ | ⟨k', heq, h⟩)
        · omega
        · omega
        · rwa [Nat.add_left_cancel heq]

/-- The places of a function into which code was put: in front of it, in it and behind it. -/
theorem at_insertCode (hinsert : f.insertCode b pos code = .ok g) :
    g.At c q i ↔ (c = b → q < pos) ∧ f.At c q i ∨
      (∃ k, k < code.length ∧ c = b ∧ q = pos + k ∧ i = f.insts.size + k) ∨
      ∃ p, pos ≤ p ∧ c = b ∧ q = p + code.length ∧ f.At b p i := by
  obtain ⟨blk, hblk, hpos, rfl⟩ := insertCode_eq_ok hinsert
  rw [at_graft hblk]
  by_cases hc : c = b
  · subst hc
    have hbehind : (∃ k, q = pos + code.length + k ∧ (blk.insts.drop pos)[k]? = some i) ↔
        ∃ p, pos ≤ p ∧ q = p + code.length ∧ blk.insts[p]? = some i := by
      constructor
      · rintro ⟨k, rfl, hget⟩
        exact ⟨pos + k, Nat.le_add_right _ _, by omega, by rwa [List.getElem?_drop] at hget⟩
      · rintro ⟨p, hp, rfl, hget⟩
        obtain ⟨k, rfl⟩ := Nat.exists_eq_add_of_le hp
        exact ⟨k, by omega, by rwa [List.getElem?_drop]⟩
    rw [getElem?_splice_eq_some_iff hpos, hbehind]
    simp [at_iff hblk]
  · simp [hc]

theorem Closed.target {instruction : Instruction} {t : Nat} (hclosed : f.Closed)
    (hat : f.At b pos i) (hinst : f.insts[i]? = some instruction)
    (ht : t ∈ instruction.op.successors) : t < f.blocks.size := by
  obtain ⟨instruction', hinst', hrefers⟩ := hclosed i hat.mem_listed
  obtain rfl := Option.some.inj (hinst.symm.trans hinst')
  exact hrefers.target t ht

theorem getElem?_insts_of_insertCode (hclosed : f.Closed)
    (hinsert : f.insertCode b pos code = .ok g) (hat : f.At c q i) : g.insts[i]? = f.insts[i]? := by
  obtain ⟨blk, -, -, rfl⟩ := insertCode_eq_ok hinsert
  exact getElem?_insts_graft_of_lt (hclosed.lt_size hat.mem_listed)

theorem getElem?_insts_insertCode_add (hinsert : f.insertCode b pos code = .ok g) (k : Nat) :
    g.insts[f.insts.size + k]? = code[k]? := by
  obtain ⟨blk, -, -, rfl⟩ := insertCode_eq_ok hinsert
  exact getElem?_insts_graft_add k

/-- The place to which a place belongs after a line of `length` instructions has been put at place
`pos` of block `b`. -/
def lineBack (b pos length : Nat) (c q : Nat) : Nat × Nat :=
  if c = b ∧ pos < q then (b, max pos (q - length)) else (c, q)

theorem lineBack_before {length : Nat} (h : c = b → q ≤ pos) :
    lineBack b pos length c q = (c, q) := by
  rw [lineBack, if_neg]
  rintro ⟨hc, hq⟩
  exact absurd (h hc) (Nat.not_le.mpr hq)

theorem lineBack_within {length k : Nat} (hk : k ≤ length) :
    lineBack b pos length b (pos + k) = (b, pos) := by
  unfold lineBack
  split
  · rw [Nat.max_eq_left (by omega)]
  · rw [show pos + k = pos by omega]

theorem lineBack_behind {length p : Nat} (hp : pos ≤ p) :
    lineBack b pos length b (p + length) = (b, p) := by
  unfold lineBack
  split
  · rw [Nat.add_sub_cancel, Nat.max_eq_right hp]
  · rw [show p + length = p by omega]

/-- Every place of a function into which a line of code was put belongs to the same place without
it, or, within the line, to the place in front of which it was put.

The results of the line are there behind it, and `elsewhere` in other blocks.  Nothing can be said
about other blocks in general, but whatever stands in the entry block behind no branch is passed on
every path. -/
def Retrace.ofLine (hclosed : f.Closed) (hinsert : f.insertCode b pos code = .ok g)
    (hcode : ∀ instruction ∈ code, instruction.op.successors = []) (elsewhere : List InstId)
    (hnew : elsewhere ⊆ List.range' f.insts.size code.length)
    (hentry : elsewhere ≠ [] → b = 0 ∧ ∀ q < pos, ∀ i instruction, f.At 0 q i →
      f.insts[i]? = some instruction → instruction.op.successors = []) : Retrace f g where
  back := lineBack b pos code.length
  fresh c q :=
    if c = b then List.range' f.insts.size (min (q - pos) code.length) else elsewhere
  entry := by
    refine ⟨lineBack_before fun _ => Nat.zero_le pos, ?_⟩
    split
    · simp
    · rename_i hb
      by_contra hne
      exact hb (hentry hne).1.symm
  next := by
    intro c q i hat
    rcases (at_insertCode hinsert).mp hat with
      ⟨hbefore, hold⟩ | ⟨k, hk, rfl, rfl, rfl⟩ | ⟨p, hp, rfl, rfl, hold⟩
    · rw [lineBack_before fun hc => (hbefore hc).le, lineBack_before hbefore]
      exact .inl ⟨hold, rfl⟩
    · rw [Nat.add_assoc, lineBack_within hk, lineBack_within hk.le]
      exact .inr rfl
    · rw [Nat.add_right_comm, lineBack_behind hp, lineBack_behind (hp.trans (Nat.le_succ p))]
      exact .inl ⟨hold, rfl⟩
  jump := by
    intro c q i t instruction hat hinst ht
    have hstart : lineBack b pos code.length t 0 = (t, 0) :=
      lineBack_before fun _ => Nat.zero_le pos
    rcases (at_insertCode hinsert).mp hat with
      ⟨hbefore, hold⟩ | ⟨k, hk, rfl, rfl, rfl⟩ | ⟨p, hp, rfl, rfl, hold⟩
    · rw [lineBack_before fun hc => (hbefore hc).le]
      rw [getElem?_insts_of_insertCode hclosed hinsert hold] at hinst
      exact .inl ⟨hold, instruction, hinst, ht, hclosed.target hold hinst ht, hstart⟩
    · rw [getElem?_insts_insertCode_add hinsert, List.getElem?_eq_getElem hk] at hinst
      rw [← Option.some.inj hinst, hcode _ (List.getElem_mem hk)] at ht
      simp at ht
    · rw [lineBack_behind hp]
      rw [getElem?_insts_of_insertCode hclosed hinsert hold] at hinst
      exact .inl ⟨hold, instruction, hinst, ht, hclosed.target hold hinst ht, hstart⟩
  fresh_next := by
    intro c q i hat
    rcases (at_insertCode hinsert).mp hat with
      ⟨hbefore, hold⟩ | ⟨k, hk, rfl, rfl, rfl⟩ | ⟨p, hp, rfl, rfl, hold⟩
    · split
      · rename_i hc
        have hq := hbefore hc
        rw [show q + 1 - pos = 0 by omega]
        simp
      · exact List.subset_cons_self _ _
    · rw [if_pos rfl, if_pos rfl]
      intro j hj
      rw [List.mem_range'_1] at hj
      rw [List.mem_cons, List.mem_range'_1]
      omega
    · rw [if_pos rfl, if_pos rfl]
      intro j hj
      rw [List.mem_range'_1] at hj
      rw [List.mem_cons, List.mem_range'_1]
      omega
  fresh_jump := by
    intro c q i t instruction hat hinst ht
    split
    · simp
    · intro j hj
      obtain ⟨hb, hfront⟩ := hentry (List.ne_nil_of_mem hj)
      refine List.mem_cons_of_mem _ ?_
      rcases (at_insertCode hinsert).mp hat with
        ⟨hbefore, hold⟩ | ⟨k, hk, rfl, rfl, rfl⟩ | ⟨p, hp, rfl, rfl, hold⟩
      · rw [getElem?_insts_of_insertCode hclosed hinsert hold] at hinst
        by_cases hc : c = b
        · rw [hc, hb] at hold
          rw [hfront q (hbefore hc) i instruction hold hinst] at ht
          simp at ht
        · rwa [if_neg hc]
      · rw [getElem?_insts_insertCode_add hinsert, List.getElem?_eq_getElem hk] at hinst
        rw [← Option.some.inj hinst, hcode _ (List.getElem_mem hk)] at ht
        simp at ht
      · rw [if_pos rfl]
        have hlt := List.mem_range'_1.mp (hnew hj)
        rw [List.mem_range'_1]
        omega
  args := by
    intro c blk' hblk' hc
    obtain ⟨blk, hblk, -, rfl⟩ := insertCode_eq_ok hinsert
    obtain ⟨blk, hblk, hstart, hcount⟩ := args_graft hc hblk'
    exact ⟨blk, hblk, by rw [Block.argValues, Block.argValues, hstart, hcount]⟩
  nonempty := by
    obtain ⟨blk, hblk, -, -⟩ := insertCode_eq_ok hinsert
    exact Nat.zero_lt_of_lt (lt_size_of_getElem? hblk)

end Func

/-! ### The segments of a check -/

/-- A straight line of new code and the branch that ends it, as they stand in the arena from `start`
on and in a block from place `pos` on. -/
structure Segment where
  block : Nat
  pos : Nat
  start : Nat
  line : List Op
  last : Op

def Segment.code (s : Segment) : List Op := s.line ++ [s.last]

/-- An operation of a segment belongs to its line or ends it. -/
theorem Segment.code_cases {s : Segment} {k : Nat} {op : Op} (h : s.code[k]? = some op) :
    s.line[k]? = some op ∨ k = s.line.length ∧ op = s.last := by
  rw [code] at h
  rcases Nat.lt_or_ge k s.line.length with hk | hk
  · exact .inl (by rwa [List.getElem?_append_left hk] at h)
  · rw [List.getElem?_append_right hk] at h
    obtain ⟨hlt, rfl⟩ := List.getElem?_eq_some_iff.mp h
    rw [List.length_singleton] at hlt
    exact .inr ⟨by omega, by simp⟩

namespace Check

variable {c : Check} {f g : Func} {b j : Nat} {blk : Block} {pos q i : Nat} {addr : Value}
  {size : Nat} {cont : Nat}

/-- The code of a check that starts at `n` and is put at place `pos` of block `b`: the probe, the
report and, for the sizes that have one, the slow path. -/
def segments (c : Check) (n : InstId) (addr : Value) (size : Nat) (cont b pos : Nat) :
    List Segment :=
  { block := b, pos := pos, start := n, line := probeCode c.mapping n addr size
    last := c.branch n size cont } ::
  { block := cont + 1, pos := 0, start := c.reportStart n addr size cont
    line := [.symbolAddr c.routine, .call (.inst (c.reportStart n addr size cont)) c.args]
    last := if c.recover then .br { block := cont } else .unreachable } ::
  if c.mapping.needsSlowPath size then
    [{ block := cont + 2, pos := 0, start := n + 9
       line := slowLine c.mapping (n + 9) addr (.inst (n + 5)) size
       last := .brif
        (.inst (n + 9 + (slowLine c.mapping (n + 9) addr (.inst (n + 5)) size).length - 1))
        { block := cont + 1 } { block := cont } }]
  else []

theorem insert_eq_ok (h : c.insert f b pos addr size = .ok (g, cont)) :
    ∃ blk, f.blocks[b]? = some blk ∧ pos ≤ blk.insts.length ∧ cont = f.blocks.size ∧
      g = f.graft b (blk.insts.take pos ++ List.range' f.insts.size 9)
          (addedCode c.origin (c.ops f.insts.size addr size f.blocks.size))
          (c.fresh f.blockArgs.size f.insts.size addr size f.blocks.size
            (blk.insts.drop pos)) := by
  obtain ⟨f', hf', -⟩ := bind_eq_ok h
  obtain ⟨blk, hblk, hpos, -⟩ := Func.insertCode_eq_ok hf'
  rw [insert_eq_graft hblk hpos] at h
  obtain ⟨rfl, rfl⟩ := Prod.mk.inj (Except.ok.inj h)
  exact ⟨blk, hblk, hpos, rfl, rfl⟩

/-- The block that a check is put into, and the one in which the code behind it is found. -/
theorem insert_places (h : c.insert f b pos addr size = .ok (g, cont)) :
    b < f.blocks.size ∧ cont = f.blocks.size := by
  obtain ⟨blk, hblk, -, hcont, -⟩ := insert_eq_ok h
  exact ⟨Func.lt_size_of_getElem? hblk, hcont⟩

theorem getElem?_insts_of_insert (hclosed : f.Closed)
    (h : c.insert f b pos addr size = .ok (g, cont)) (hat : f.At j q i) :
    g.insts[i]? = f.insts[i]? := by
  obtain ⟨blk, -, -, -, rfl⟩ := insert_eq_ok h
  exact Func.getElem?_insts_graft_of_lt (hclosed.lt_size hat.mem_listed)

theorem slowPart_eq (hslow : c.mapping.needsSlowPath size = true) (n : InstId) :
    c.slowPart n addr size cont =
      slowLine c.mapping (n + 9) addr (.inst (n + 5)) size ++
        [.brif (.inst (n + 9 + (slowLine c.mapping (n + 9) addr (.inst (n + 5)) size).length - 1))
          { block := cont + 1 } { block := cont }] := by
  rw [slowPart, if_pos hslow, slowCode_eq]

/-- What is shown of all segments is shown of the probe, of the report and of the slow path. -/
theorem forall_segment {P : Segment → Prop} {n : InstId}
    (hprobe : P
      { block := b, pos := pos, start := n, line := probeCode c.mapping n addr size
        last := c.branch n size cont })
    (hreport : P
      { block := cont + 1, pos := 0, start := c.reportStart n addr size cont
        line := [.symbolAddr c.routine, .call (.inst (c.reportStart n addr size cont)) c.args]
        last := if c.recover then .br { block := cont } else .unreachable })
    (hslow : c.mapping.needsSlowPath size = true → P
      { block := cont + 2, pos := 0, start := n + 9
        line := slowLine c.mapping (n + 9) addr (.inst (n + 5)) size
        last := .brif
          (.inst (n + 9 + (slowLine c.mapping (n + 9) addr (.inst (n + 5)) size).length - 1))
          { block := cont + 1 } { block := cont } }) :
    ∀ s ∈ c.segments n addr size cont b pos, P s := by
  unfold segments
  rw [List.forall_mem_cons, List.forall_mem_cons]
  refine ⟨hprobe, hreport, ?_⟩
  split
  · rename_i hneeds
    rw [List.forall_mem_singleton]
    exact hslow hneeds
  · simp

/-- The code of every segment is in the arena. -/
theorem holds_segment (h : c.insert f b pos addr size = .ok (g, cont)) :
    ∀ s ∈ c.segments f.insts.size addr size cont b pos, ∀ k op, s.code[k]? = some op →
      g.insts[s.start + k]? = some ⟨op, op.addedTy, c.origin, true⟩ := by
  obtain ⟨blk, hblk, hpos, rfl, rfl⟩ := insert_eq_ok h
  have hget : ∀ k op, (c.ops f.insts.size addr size f.blocks.size)[k]? = some op →
      (f.graft b (blk.insts.take pos ++ List.range' f.insts.size 9)
        (addedCode c.origin (c.ops f.insts.size addr size f.blocks.size))
        (c.fresh f.blockArgs.size f.insts.size addr size f.blocks.size
          (blk.insts.drop pos))).insts[f.insts.size + k]? =
        some ⟨op, op.addedTy, c.origin, true⟩ := by
    intro k op hop
    rw [Func.getElem?_insts_graft_add, addedCode, List.getElem?_map, hop]
    rfl
  -- in the arena the report comes last, although its block is in front of the slow path
  have hops : c.ops f.insts.size addr size f.blocks.size =
      (probeCode c.mapping f.insts.size addr size ++ [c.branch f.insts.size size f.blocks.size]) ++
        (c.slowPart f.insts.size addr size f.blocks.size ++
          c.reportPart f.insts.size addr size f.blocks.size) := by
    rw [ops, List.append_cons]
  apply forall_segment
  · intro k op hop
    rw [Segment.code] at hop
    apply hget
    rw [hops, List.getElem?_append_left (List.getElem?_eq_some_iff.mp hop).1]
    exact hop
  · intro k op hop
    simp only [reportStart, Nat.add_assoc]
    apply hget
    have hk (length : Nat) : 9 + (length + k) - 9 - length = k := by omega
    rw [hops, List.getElem?_append_right (by simp), List.getElem?_append_right (by simp)]
    simpa [Segment.code, reportPart, reportCode, reportStart, hk] using hop
  · intro hneeds k op hop
    rw [Segment.code, ← slowPart_eq hneeds] at hop
    simp only [Nat.add_assoc]
    apply hget
    rw [hops, List.getElem?_append_right (by simp)]
    simp only [List.length_append, length_probeCode, List.length_singleton,
      Nat.add_sub_cancel_left]
    rwa [List.getElem?_append_left (List.getElem?_eq_some_iff.mp hop).1]

theorem getElem?_range'_eq_some {start length : Nat}
    (h : (List.range' start length)[q]? = some i) : q < length ∧ i = start + q := by
  obtain ⟨hlt, heq⟩ := List.getElem?_eq_some_iff.mp h
  rw [List.getElem_range', Nat.one_mul] at heq
  exact ⟨by simpa using hlt, heq.symm⟩

/-- The places of a function into which a check was put: in front of it, behind it and in its
code. -/
theorem at_insert_cases (h : c.insert f b pos addr size = .ok (g, cont)) (hat : g.At j q i) :
    (j = b → q < pos) ∧ f.At j q i ∨ j = cont ∧ f.At b (pos + q) i ∨
      ∃ s ∈ c.segments f.insts.size addr size cont b pos, ∃ k < s.code.length,
        j = s.block ∧ q = s.pos + k ∧ i = s.start + k := by
  obtain ⟨blk, hblk, hpos, rfl, rfl⟩ := insert_eq_ok h
  have htake : (blk.insts.take pos).length = pos := by simp [hpos]
  -- the block of the check holds the probe; the new blocks hold the rest, the report and the slow
  -- path
  rcases (Func.at_graft hblk).mp hat with ⟨rfl, hget⟩ | ⟨hne, hold⟩ | ⟨k, blk', rfl, hfresh, hget⟩
  · rcases Nat.lt_or_ge q pos with hq | hq
    · rw [List.getElem?_append_left (by omega), List.getElem?_take, if_pos hq] at hget
      exact .inl ⟨fun _ => hq, blk, hblk, hget⟩
    · obtain ⟨k, rfl⟩ := Nat.exists_eq_add_of_le hq
      rw [List.getElem?_append_right (by omega), htake, Nat.add_sub_cancel_left] at hget
      obtain ⟨hk, rfl⟩ := getElem?_range'_eq_some hget
      exact .inr (.inr ⟨_, List.mem_cons_self, k, by simpa [Segment.code] using hk, rfl, rfl, rfl⟩)
  · exact .inl ⟨fun heq => absurd heq hne, hold⟩
  · rcases k with _ | _ | k
    · obtain rfl := Option.some.inj hfresh
      rw [List.getElem?_drop] at hget
      exact .inr (.inl ⟨rfl, blk, hblk, hget⟩)
    · obtain rfl := Option.some.inj hfresh
      obtain ⟨hq, rfl⟩ := getElem?_range'_eq_some hget
      exact .inr (.inr ⟨_, List.mem_cons_of_mem _ List.mem_cons_self, q, hq, rfl,
        (Nat.zero_add q).symm, rfl⟩)
    · rw [fresh, List.getElem?_cons_succ, List.getElem?_cons_succ] at hfresh
      split at hfresh
      · rename_i hneeds
        cases k with
        | zero =>
            obtain rfl := Option.some.inj hfresh
            obtain ⟨hq, rfl⟩ := getElem?_range'_eq_some hget
            refine .inr (.inr ⟨_, List.mem_cons_of_mem _ (List.mem_cons_of_mem _
              (by rw [if_pos hneeds]; exact List.mem_cons_self)), q, ?_, rfl,
              (Nat.zero_add q).symm, rfl⟩)
            rwa [Segment.code, ← slowPart_eq hneeds]
        | succ k => simp at hfresh
      · simp at hfresh

/-- Only the last operation of a segment is a branch, and it leads to the blocks of the check. -/
theorem segment_successors {n : InstId} :
    ∀ s ∈ c.segments n addr size cont b pos, ∀ (k : Nat) (op : Op) (t : Nat),
      s.code[k]? = some op → t ∈ op.successors → k = s.line.length ∧ cont ≤ t := by
  have hends : ∀ (s : Segment), (∀ op ∈ s.line, op.successors = []) →
      (∀ t : Nat, t ∈ s.last.successors → cont ≤ t) → ∀ (k : Nat) (op : Op) (t : Nat),
      s.code[k]? = some op → t ∈ op.successors → k = s.line.length ∧ cont ≤ t := by
    intro s hline hlast k op t hop ht
    rcases Segment.code_cases hop with hop | ⟨hk, rfl⟩
    · rw [hline op (List.mem_of_getElem? hop)] at ht
      simp at ht
    · exact ⟨hk, hlast t ht⟩
  apply forall_segment
  · apply hends
    · simp [probeCode, shadowAddrCode, Op.successors]
    · cases hneeds : c.mapping.needsSlowPath size <;> simp [branch, Op.successors, hneeds]
  · apply hends
    · simp [Op.successors]
    · cases c.recover <;> simp [Op.successors]
  · intro _
    apply hends
    · unfold slowLine
      split <;> simp [Op.successors]
    · simp [Op.successors]

theorem segment_place {n : InstId} : ∀ s ∈ c.segments n addr size cont b pos,
    s.block = b ∧ s.pos = pos ∧ s.start = n ∧ s.line.length = 8 ∨
      cont < s.block ∧ s.pos = 0 := by
  apply forall_segment
  · exact .inl ⟨rfl, rfl, rfl, rfl⟩
  · exact .inr ⟨Nat.lt_succ_self cont, rfl⟩
  · exact fun _ => .inr ⟨Nat.lt_add_of_pos_right (by decide), rfl⟩

theorem segment_unique {n : InstId} {s s' : Segment} (hb : b < cont)
    (hs : s ∈ c.segments n addr size cont b pos) (hs' : s' ∈ c.segments n addr size cont b pos)
    (h : s'.block = s.block) : s = s' := by
  have hnodup : ((c.segments n addr size cont b pos).map Segment.block).Nodup := by
    have hne : b ≠ cont + 1 ∧ cont + 2 ≠ b := by omega
    cases hneeds : c.mapping.needsSlowPath size <;> simp [segments, hneeds, hne.1, hne.2.symm]
  exact List.inj_on_of_nodup_map hnodup hs hs' h.symm

/-- The new instructions that control has passed when it is at some place. -/
def passed (c : Check) (n : Nat) (addr : Value) (size cont b pos : Nat) (j q : Nat) : List Nat :=
  (if cont ≤ j then List.range' n 9 else []) ++
    (c.segments n addr size cont b pos).flatMap fun s =>
      if j = s.block then List.range' s.start (q - s.pos) else []

theorem passed_zero {n : Nat} :
    c.passed n addr size cont b pos j 0 = if cont ≤ j then List.range' n 9 else [] := by
  simp [passed]

theorem mem_passed_of_segment {n k m : Nat} {s : Segment}
    (hs : s ∈ c.segments n addr size cont b pos) (hm : m < k) :
    s.start + m ∈ c.passed n addr size cont b pos s.block (s.pos + k) := by
  refine List.mem_append_right _ (List.mem_flatMap.mpr ⟨s, hs, ?_⟩)
  rw [if_pos rfl, List.mem_range'_1]
  omega

/-- The place to which a place belongs after a check has been put at place `pos` of block `b`. -/
def backOf (b pos cont : Nat) (j q : Nat) : Nat × Nat :=
  if j = b then (b, min q pos) else if j = cont then (b, pos + q)
  else if cont < j then (b, pos) else (j, q)

theorem backOf_before (hj : j < cont) (h : j = b → q ≤ pos) : backOf b pos cont j q = (j, q) := by
  unfold backOf
  split
  · rename_i hjb
    rw [hjb, Nat.min_eq_left (h hjb)]
  · rw [if_neg hj.ne, if_neg hj.not_gt]

theorem backOf_cont (hb : b < cont) : backOf b pos cont cont q = (b, pos + q) := by
  rw [backOf, if_neg hb.ne', if_pos rfl]

theorem backOf_segment {n k : Nat} {s : Segment} (hb : b < cont)
    (hs : s ∈ c.segments n addr size cont b pos) :
    backOf b pos cont s.block (s.pos + k) = (b, pos) := by
  rw [backOf]
  rcases segment_place s hs with ⟨hblock, hpos, -, -⟩ | ⟨hblock, -⟩
  · rw [if_pos hblock, hpos, Nat.min_eq_right (Nat.le_add_right pos k)]
  · rw [if_neg (hb.trans hblock).ne', if_neg hblock.ne', if_pos hblock]

end Check

open Check in
/-- Every place of a function into which a check was put belongs to the same place without it, or,
within the code of the check, to the place in front of which it was put. -/
def Func.Retrace.ofCheck {c : Check} {f g : Func} {b : Nat} {pos : Nat} {addr : Value} {size : Nat}
    {cont : Nat} (hclosed : f.Closed) (h : c.insert f b pos addr size = .ok (g, cont)) :
    Retrace f g where
  back := backOf b pos cont
  fresh := c.passed f.insts.size addr size cont b pos
  entry := by
    obtain ⟨hb, rfl⟩ := insert_places h
    have hpos := Nat.zero_lt_of_lt hb
    rw [passed_zero, if_neg hpos.not_ge]
    exact ⟨backOf_before hpos fun _ => Nat.zero_le pos, rfl⟩
  next := by
    intro j q i hat
    obtain ⟨hb, rfl⟩ := insert_places h
    rcases at_insert_cases h hat with ⟨hbefore, hold⟩ | ⟨rfl, hold⟩ | ⟨s, hs, k, hk, rfl, rfl, rfl⟩
    · rw [backOf_before hold.lt_size fun hj => (hbefore hj).le, backOf_before hold.lt_size hbefore]
      exact .inl ⟨hold, rfl⟩
    · rw [backOf_cont hb, backOf_cont hb]
      exact .inl ⟨hold, rfl⟩
    · rw [Nat.add_assoc, backOf_segment hb hs, backOf_segment hb hs]
      exact .inr rfl
  jump := by
    intro j q i t instruction hat hinst ht
    obtain ⟨hb, rfl⟩ := insert_places h
    have hstart : t < f.blocks.size → backOf b pos f.blocks.size t 0 = (t, 0) :=
      fun hlt => backOf_before hlt fun _ => Nat.zero_le pos
    rcases at_insert_cases h hat with ⟨hbefore, hold⟩ | ⟨rfl, hold⟩ | ⟨s, hs, k, hk, rfl, rfl, rfl⟩
    · rw [getElem?_insts_of_insert hclosed h hold] at hinst
      have hlt := hclosed.target hold hinst ht
      rw [backOf_before hold.lt_size fun hj => (hbefore hj).le]
      exact .inl ⟨hold, instruction, hinst, ht, hlt, hstart hlt⟩
    · rw [getElem?_insts_of_insert hclosed h hold] at hinst
      have hlt := hclosed.target hold hinst ht
      rw [backOf_cont hb]
      exact .inl ⟨hold, instruction, hinst, ht, hlt, hstart hlt⟩
    · rw [holds_segment h s hs k _ (List.getElem?_eq_getElem hk)] at hinst
      obtain rfl := Option.some.inj hinst
      obtain ⟨-, hle⟩ := segment_successors s hs k _ t (List.getElem?_eq_getElem hk) ht
      right
      rw [backOf_segment hb hs]
      rcases hle.eq_or_lt with rfl | hlt
      · exact backOf_cont hb
      · rw [backOf, if_neg (hb.trans hlt).ne', if_neg hlt.ne', if_pos hlt]
  fresh_next := by
    intro j q i hat
    obtain ⟨hb, rfl⟩ := insert_places h
    intro m hm
    rcases List.mem_append.mp hm with hm | hm
    · exact List.mem_cons_of_mem _ (List.mem_append_left _ hm)
    · obtain ⟨s, hs, hlist⟩ := List.mem_flatMap.mp hm
      split at hlist
      · rename_i hj
        have hplace := segment_place s hs
        rw [List.mem_range'_1] at hlist
        rcases at_insert_cases h hat with
          ⟨hbefore, hold⟩ | ⟨rfl, hold⟩ | ⟨s', hs', k, hk, rfl, rfl, rfl⟩
        · have hlt : j < f.blocks.size := hold.lt_size
          omega
        · omega
        · obtain rfl := segment_unique hb hs hs' hj
          obtain ⟨m, rfl⟩ := Nat.exists_eq_add_of_le hlist.1
          rcases Nat.lt_or_ge m k with hlt | hge
          · exact List.mem_cons_of_mem _ (mem_passed_of_segment hs hlt)
          · rw [show m = k by omega]
            exact List.mem_cons_self
      · simp at hlist
  fresh_jump := by
    intro j q i t instruction hat hinst ht
    obtain ⟨hb, rfl⟩ := insert_places h
    rw [passed_zero]
    rcases at_insert_cases h hat with ⟨hbefore, hold⟩ | ⟨rfl, hold⟩ | ⟨s, hs, k, hk, rfl, rfl, rfl⟩
    · rw [getElem?_insts_of_insert hclosed h hold] at hinst
      rw [if_neg (hclosed.target hold hinst ht).not_ge]
      exact List.nil_subset _
    · rw [getElem?_insts_of_insert hclosed h hold] at hinst
      rw [if_neg (hclosed.target hold hinst ht).not_ge]
      exact List.nil_subset _
    · rw [holds_segment h s hs k _ (List.getElem?_eq_getElem hk)] at hinst
      obtain rfl := Option.some.inj hinst
      obtain ⟨rfl, hle⟩ := segment_successors s hs k _ t (List.getElem?_eq_getElem hk) ht
      rw [if_pos hle]
      rcases segment_place s hs with ⟨hblock, hpos, hstart, hlength⟩ | ⟨hblock, -⟩
      · intro m hm
        rw [List.mem_range'_1] at hm
        obtain ⟨m, rfl⟩ := Nat.exists_eq_add_of_le hm.1
        rcases Nat.lt_or_ge m 8 with hlt | hge
        · have hpassed := mem_passed_of_segment hs (hlength.symm ▸ hlt)
          rw [hstart] at hpassed
          exact List.mem_cons_of_mem _ hpassed
        · rw [hstart, hlength, show m = 8 by omega]
          exact List.mem_cons_self
      · refine List.subset_cons_of_subset _ ?_
        rw [passed, if_pos hblock.le]
        exact List.subset_append_left _ _
  args := by
    intro j blk' hblk' hj
    obtain ⟨blk, hblk, -, -, rfl⟩ := insert_eq_ok h
    obtain ⟨blk, hblk, hstart, hcount⟩ := Func.args_graft hj hblk'
    exact ⟨blk, hblk, by rw [Block.argValues, Block.argValues, hstart, hcount]⟩
  nonempty := by
    obtain ⟨hb, -⟩ := insert_places h
    exact Nat.zero_lt_of_lt hb

end Redzone
