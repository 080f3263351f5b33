import Redzone.Ir.Builder
import Redzone.Proofs.Lawful

/-!
# Functions that are built step by step

A function starts without code and grows by commands to a builder and by splits of its blocks
(`Builder.exec`).  All that a command comes to are steps of four kinds (`Func.Grows`,
`Builder.grows_run`).  Block arguments only come with a new block, and a block that a split adds has
none.  So whatever is built, the arguments of each block start where those of the block before end,
and the arguments of all blocks are the whole arena (`Func.ArgsAbut`, `Builder.argsAbut_run`).
-/

namespace Redzone

/-- What can be done to a function under construction. -/
inductive Builder.Command
  /-- Go on with a new builder. -/
  | renew
  | createBlock (tys : List Ty)
  | switchTo (block : BlockId)
  | positionAt (block : BlockId) (pos : Nat)
  | setNoSanitize (noSanitize : Bool)
  | setSlotName (slot : Value) (name : String)
  | push (op : Op) (ty : Ty) (origin : Origin)
  | callSymbol (callee : SymbolId) (args : List Value) (ty : Ty) (origin : Origin)
  | splitBlock (block : BlockId) (pos : Nat)

def Builder.exec (b : Builder) : Command → Except Fault Builder
  | .renew => .ok { func := b.func }
  | .createBlock tys => .ok (b.createBlock tys).1
  | .switchTo block => .ok (b.switchTo block)
  | .positionAt block pos => .ok (b.positionAt block pos)
  | .setNoSanitize noSanitize => .ok { b with noSanitize := noSanitize }
  | .setSlotName slot name => .ok (b.setSlotName slot name)
  | .push op ty origin => do
      let pushed ← b.push op ty origin
      .ok pushed.1
  | .callSymbol callee args ty origin => do
      let called ← b.callSymbol callee args ty origin
      .ok called.1
  | .splitBlock block pos => do
      let split ← b.func.splitBlock block pos
      .ok { b with func := split.1 }

/-- A function without code. -/
def Func.Blank (f : Func) : Prop := f.insts = #[] ∧ f.blocks = #[] ∧ f.blockArgs = #[]

/-! ### Steps -/

/-- All that one step of building can do to a function. -/
inductive Func.Grows (f : Func) : Func → Prop
  /-- The arena may grow; the blocks stay. -/
  | aside {g : Func} (code : List Instruction) (hinsts : g.insts = f.insts ++ code.toArray)
      (hblocks : g.blocks = f.blocks) (hargs : g.blockArgs = f.blockArgs) : f.Grows g
  | block (tys : List Ty) : f.Grows (f.pushBlockWithArgs tys).1
  /-- New instructions are listed in a block. -/
  | place {b : BlockId} {blk : Block} (pos : Nat) (code : List Instruction)
      (hblk : f.blocks[b]? = some blk) :
      f.Grows (f.graft b (blk.insts.take pos ++ List.range' f.insts.size code.length ++
        blk.insts.drop pos) code [])
  /-- What a block lists from some place on moves to a new block. -/
  | split {b : BlockId} {blk : Block} (pos : Nat) (hblk : f.blocks[b]? = some blk) :
      f.Grows (f.graft b (blk.insts.take pos) []
        [{ argStart := f.blockArgs.size, insts := blk.insts.drop pos }])

theorem Func.grows_insertCode {f g : Func} {b : BlockId} {pos : Nat} {code : List Instruction}
    (h : f.insertCode b pos code = .ok g) : f.Grows g := by
  obtain ⟨blk, hblk, -, rfl⟩ := insertCode_eq_ok h
  exact .place pos code hblk

theorem Func.grows_splitBlock {f g : Func} {b c : BlockId} {pos : Nat}
    (h : f.splitBlock b pos = .ok (g, c)) : f.Grows g := by
  obtain ⟨blk, hblock, hcut⟩ := bind_eq_ok h
  have hblk := block_eq_ok hblock
  -- The function is a graft of its own listings, so that the split is the split of a graft.
  have hself : f.graft b blk.insts [] [] = f := by simp [graft_self hblk]
  split at hcut
  · rename_i hpos
    have hsplit : (f.graft b blk.insts [] []).splitBlock b pos =
        .ok (f.graft b (blk.insts.take pos) []
          [{ argStart := f.blockArgs.size, insts := blk.insts.drop pos }], f.blocks.size) :=
      splitBlock_graft hblk hpos
    rw [hself, h] at hsplit
    obtain ⟨rfl, -⟩ := Prod.mk.inj (Except.ok.inj hsplit)
    exact .split pos hblk
  · cases hcut

namespace Builder

variable {b b' : Builder}

theorem grows_push {v : Value} {op : Op} {ty : Ty} {origin : Origin}
    (h : b.push op ty origin = .ok (b', v)) : b.func.Grows b'.func := by
  unfold push at h
  split at h
  · cases h
    exact .aside _ rfl rfl rfl
  · obtain ⟨func, hfunc, h⟩ := bind_eq_ok h
    cases h
    obtain ⟨blk, -, hfunc⟩ := bind_eq_ok hfunc
    exact Func.grows_insertCode hfunc
  · obtain ⟨func, hfunc, h⟩ := bind_eq_ok h
    cases h
    exact Func.grows_insertCode hfunc

/-- A command takes no step, one step, or two if it calls a symbol. -/
theorem grows_exec {command : Command} (h : b.exec command = .ok b') :
    Relation.ReflTransGen Func.Grows b.func b'.func := by
  cases command with
  | renew | switchTo | positionAt | setNoSanitize =>
      cases h
      exact .refl
  | createBlock tys =>
      cases h
      exact .single (.block tys)
  | setSlotName slot name =>
      cases h
      cases slot with
      | inst i => exact .single (.aside [] (by simp [setSlotName]) rfl rfl)
      | arg i => exact .refl
  | push op ty origin =>
      obtain ⟨pushed, hpush, h⟩ := bind_eq_ok h
      cases h
      exact .single (grows_push hpush)
  | callSymbol callee args ty origin =>
      obtain ⟨called, hcall, h⟩ := bind_eq_ok h
      cases h
      obtain ⟨addr, haddr, hcall⟩ := bind_eq_ok hcall
      exact .head (grows_push haddr) (.single (grows_push hcall))
  | splitBlock block pos =>
      obtain ⟨split, hsplit, h⟩ := bind_eq_ok h
      cases h
      exact .single (Func.grows_splitBlock hsplit)

theorem grows_run {commands : List Command} (h : commands.foldlM exec b = .ok b') :
    Relation.ReflTransGen Func.Grows b.func b'.func :=
  foldlM_keeps (fun c => Relation.ReflTransGen Func.Grows b.func c.func)
    (fun _ _ _ _ hsteps hexec => hsteps.trans (grows_exec hexec)) .refl h

end Builder

/-! ### Ranges of block arguments -/

/-- Ranges, each given by its start and its length, cover the numbers from `start` to `stop`: the
first one starts at `start`, and each of the others where the one before ends. -/
def Abut : (start : Nat) → List (Nat × Nat) → (stop : Nat) → Prop
  | start, [], stop => start = stop
  | start, range :: rest, stop => range.1 = start ∧ Abut (start + range.2) rest stop

theorem abut_concat {start stop : Nat} {ranges : List (Nat × Nat)} (h : Abut start ranges stop)
    (length : Nat) : Abut start (ranges ++ [(stop, length)]) (stop + length) := by
  induction ranges generalizing start with
  | nil =>
      obtain rfl : start = stop := h
      exact ⟨rfl, rfl⟩
  | cons range rest ih => exact ⟨h.1, ih h.2⟩

theorem Abut.le {start stop : Nat} {ranges : List (Nat × Nat)} (h : Abut start ranges stop) :
    start ≤ stop := by
  induction ranges generalizing start with
  | nil => exact Nat.le_of_eq h
  | cons range rest ih => exact (Nat.le_add_right _ _).trans (ih h.2)

theorem Abut.bounds {start stop : Nat} {ranges : List (Nat × Nat)} (h : Abut start ranges stop) :
    ∀ range ∈ ranges, start ≤ range.1 ∧ range.1 + range.2 ≤ stop := by
  induction ranges generalizing start with
  | nil => simp
  | cons range rest ih =>
      obtain ⟨rfl, hrest⟩ := h
      rw [List.forall_mem_cons]
      refine ⟨⟨le_rfl, hrest.le⟩, fun later hlater => ?_⟩
      obtain ⟨hstart, hstop⟩ := ih hrest later hlater
      exact ⟨(Nat.le_add_right _ _).trans hstart, hstop⟩

/-- The numbers in the ranges are those from the start to the end, each once. -/
theorem Abut.flatMap_range' {start stop : Nat} {ranges : List (Nat × Nat)}
    (h : Abut start ranges stop) :
    ranges.flatMap (fun range => List.range' range.1 range.2) =
      List.range' start (stop - start) := by
  induction ranges generalizing start with
  | nil =>
      obtain rfl : start = stop := h
      simp
  | cons range rest ih =>
      obtain ⟨rfl, hrest⟩ := h
      have hsum : range.2 + (stop - (range.1 + range.2)) = stop - range.1 := by
        have := hrest.le
        omega
      rw [List.flatMap_cons, ih hrest, List.range'_append_1, hsum]

theorem Abut.mem_iff {start stop : Nat} {ranges : List (Nat × Nat)} (h : Abut start ranges stop)
    (i : Nat) : (start ≤ i ∧ i < stop) ↔ ∃ range ∈ ranges, range.1 ≤ i ∧ i < range.1 + range.2 := by
  have hmem : i ∈ ranges.flatMap (fun range => List.range' range.1 range.2) ↔
      i ∈ List.range' start (stop - start) := by rw [h.flatMap_range']
  simp only [List.mem_flatMap, List.mem_range'_1] at hmem
  rw [hmem]
  have := h.le
  omega

theorem Abut.pairwise {start stop : Nat} {ranges : List (Nat × Nat)} (h : Abut start ranges stop) :
    ranges.Pairwise fun range later => range.1 + range.2 ≤ later.1 := by
  induction ranges generalizing start with
  | nil => exact .nil
  | cons range rest ih =>
      obtain ⟨rfl, hrest⟩ := h
      exact .cons (fun later hlater => (hrest.bounds later hlater).1) (ih hrest)

namespace Func

variable {f g : Func} {b : BlockId} {insts : List InstId} {code : List Instruction}
  {fresh : List Block}

/-- Start and length of the arguments of each block. -/
def argRanges (f : Func) : List (Nat × Nat) :=
  f.blocks.toList.map fun blk => (blk.argStart, blk.argCount)

/-- The arguments of the blocks follow one another, from the start of the arena to its end. -/
def ArgsAbut (f : Func) : Prop := Abut 0 f.argRanges f.blockArgs.size

/-- Which instructions a block lists does not matter for its arguments. -/
theorem argRanges_graft :
    (f.graft b insts code fresh).argRanges =
      f.argRanges ++ fresh.map fun blk => (blk.argStart, blk.argCount) := by
  have hkept : (f.blocks.toList.modify b fun blk => { blk with insts := insts }).map
      (fun blk => (blk.argStart, blk.argCount)) = f.argRanges := by
    apply List.ext_getElem?
    intro c
    rw [argRanges, List.getElem?_map, List.getElem?_map, List.getElem?_modify]
    by_cases hc : b = c
    · cases f.blocks.toList[c]? <;> simp [hc]
    · simp [hc]
  rw [argRanges, graft, Array.toList_append, Array.toList_modify, List.map_append, hkept]

/-- Every step keeps the arguments in order. -/
theorem Grows.argsAbut (hgrows : f.Grows g) (h : f.ArgsAbut) : g.ArgsAbut := by
  cases hgrows with
  | aside code hinsts hblocks hargs =>
      rw [ArgsAbut, argRanges, hblocks, hargs]
      exact h
  | block tys =>
      have hadded := abut_concat h tys.length
      simpa [ArgsAbut, argRanges, pushBlockWithArgs] using hadded
  | place pos code hblk =>
      rw [ArgsAbut, argRanges_graft, List.map_nil, List.append_nil]
      exact h
  | split pos hblk =>
      rw [ArgsAbut, argRanges_graft]
      exact abut_concat h 0

theorem ArgsAbut.steps (h : f.ArgsAbut) (hsteps : Relation.ReflTransGen Grows f g) :
    g.ArgsAbut := by
  induction hsteps with
  | refl => exact h
  | tail _ hgrows ih => exact hgrows.argsAbut ih

/-- The arguments of the blocks are those of the arena, each once and in order. -/
structure Tiled (f : Func) : Prop where
  args : f.blocks.toList.flatMap Block.argValues = (List.range f.blockArgs.size).map Value.arg
  inArena : f.ArgsInArena

theorem ArgsAbut.tiled (h : f.ArgsAbut) : f.Tiled := by
  have hnumbers : f.blocks.toList.flatMap (fun blk => List.range' blk.argStart blk.argCount) =
      List.range f.blockArgs.size := by
    have hflat := Abut.flatMap_range' h
    rwa [argRanges, List.flatMap_map, Nat.sub_zero, ← List.range_eq_range'] at hflat
  constructor
  · rw [← hnumbers, List.map_flatMap]
    congr 1
    funext blk
    rw [Block.argValues, List.range'_eq_map_range, List.map_map]
    rfl
  · intro blk hblk
    exact (Abut.bounds h _ (List.mem_map_of_mem (Array.mem_toList_iff.mpr hblk))).2

end Func

namespace Builder

variable {f : Func} {commands : List Command} {b : Builder}

/-- Whatever is built, the arguments are in order. -/
theorem argsAbut_run (hblank : f.Blank) (hrun : commands.foldlM exec { func := f } = .ok b) :
    b.func.ArgsAbut := by
  obtain ⟨-, hblocks, hargs⟩ := hblank
  have hstart : f.ArgsAbut := by
    rw [Func.ArgsAbut, Func.argRanges, hblocks, hargs]
    rfl
  exact hstart.steps (grows_run hrun)

theorem tiled_run (hblank : f.Blank) (hrun : commands.foldlM exec { func := f } = .ok b) :
    b.func.Tiled := (argsAbut_run hblank hrun).tiled

end Builder

end Redzone
