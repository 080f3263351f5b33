import Redzone.Proofs.Edit

/-!
# Definitions on the paths of a function

A path of a function starts at its entry and follows the successors of its branches; what it has
passed is defined on it.  `Func.DefinedBeforeUse` says that no path comes to an instruction before
it has defined what the instruction reads.

A function to which code has been added is compared with the one before: every place of the new
function belongs to a place of the old one, where the same instruction stands or in front of which
the code was put.  Such a correspondence is a `Func.Retrace`.  Paths of the new function then lead
back to paths of the old one that define no more (`Retrace.exists_path`), so that what was available
at a place is available at the places that belong to it (`Retrace.available`).
-/

namespace Redzone

namespace Func

/-- Block `b` lists the instruction `i` at place `pos`. -/
def At (f : Func) (b : BlockId) (pos : Nat) (i : InstId) : Prop :=
  ∃ blk, f.blocks[b]? = some blk ∧ blk.insts[pos]? = some i

/-- A path from the entry to place `pos` of block `b`.  Defined on it are the arguments of the
blocks that were entered and the results of the instructions that were passed. -/
inductive Path (f : Func) : (b : BlockId) → (pos : Nat) → (defined : List Value) → Prop
  | entry {blk : Block} (hblk : f.blocks[0]? = some blk) : f.Path 0 0 blk.argValues
  | next {b : BlockId} {pos : Nat} {i : InstId} {defined : List Value}
      (hpath : f.Path b pos defined) (hat : f.At b pos i) :
      f.Path b (pos + 1) (.inst i :: defined)
  | jump {b c : BlockId} {pos : Nat} {i : InstId} {instruction : Instruction} {blk : Block}
      {defined : List Value} (hpath : f.Path b pos defined) (hat : f.At b pos i)
      (hinst : f.insts[i]? = some instruction) (hc : c ∈ instruction.op.successors)
      (hblk : f.blocks[c]? = some blk) : f.Path c 0 (blk.argValues ++ .inst i :: defined)

/-- A value is defined on every path to a place. -/
def Available (f : Func) (b : BlockId) (pos : Nat) (v : Value) : Prop :=
  ∀ defined, f.Path b pos defined → v ∈ defined

/-- Whatever an instruction reads is defined on every path to it. -/
def DefinedBeforeUse (f : Func) : Prop :=
  ∀ (b : BlockId) (pos : Nat) (i : InstId) (instruction : Instruction), f.At b pos i →
    f.insts[i]? = some instruction → ∀ v ∈ instruction.op.operands, f.Available b pos v

/-- Nothing else of a function than its code counts for its paths. -/
theorem Path.of_same_code {f g : Func} {b : BlockId} {pos : Nat} {defined : List Value}
    (hinsts : g.insts = f.insts) (hblocks : g.blocks = f.blocks) (h : g.Path b pos defined) :
    f.Path b pos defined := by
  induction h with
  | entry hblk => exact .entry (hblocks ▸ hblk)
  | next _ hat ih => exact .next ih (by rwa [At, hblocks] at hat)
  | jump _ hat hinst hc hblk ih =>
      exact .jump ih (by rwa [At, hblocks] at hat) (hinsts ▸ hinst) hc (hblocks ▸ hblk)

theorem DefinedBeforeUse.of_same_code {f g : Func} (hinsts : g.insts = f.insts)
    (hblocks : g.blocks = f.blocks) (h : f.DefinedBeforeUse) : g.DefinedBeforeUse := by
  intro b pos i instruction hat hinst v hv defined hpath
  rw [At, hblocks] at hat
  rw [hinsts] at hinst
  exact h b pos i instruction hat hinst v hv defined (hpath.of_same_code hinsts hblocks)

/-! ### Places that belong to places -/

/-- How a function `g` to which code was added leads back to the function `f` before: place `pos` of
block `b` belongs to the place `back b pos`, and control does not come there without having passed
the new instructions `fresh b pos`. -/
structure Retrace (f g : Func) where
  back : Nat → Nat → Nat × Nat
  fresh : Nat → Nat → List Nat
  entry : back 0 0 = (0, 0) ∧ fresh 0 0 = []
  /-- Behind an instruction of `f` control is one place further in `f`, behind a new one it is
  not. -/
  next : ∀ {b pos i : Nat}, g.At b pos i →
    f.At (back b pos).1 (back b pos).2 i ∧
        back b (pos + 1) = ((back b pos).1, (back b pos).2 + 1) ∨
      back b (pos + 1) = back b pos
  jump : ∀ {b pos i c : Nat} {instruction : Instruction}, g.At b pos i →
    g.insts[i]? = some instruction → c ∈ instruction.op.successors →
    (f.At (back b pos).1 (back b pos).2 i ∧
        ∃ instruction', f.insts[i]? = some instruction' ∧ c ∈ instruction'.op.successors ∧
          c < f.blocks.size ∧ back c 0 = (c, 0)) ∨
      back c 0 = back b pos
  fresh_next : ∀ {b pos i : Nat}, g.At b pos i → fresh b (pos + 1) ⊆ i :: fresh b pos
  fresh_jump : ∀ {b pos i c : Nat} {instruction : Instruction}, g.At b pos i →
    g.insts[i]? = some instruction → c ∈ instruction.op.successors → fresh c 0 ⊆ i :: fresh b pos
  args : ∀ {c : Nat} {blk' : Block}, g.blocks[c]? = some blk' → c < f.blocks.size →
    ∃ blk, f.blocks[c]? = some blk ∧ blk.argValues = blk'.argValues
  nonempty : 0 < f.blocks.size

namespace Retrace

variable {f g : Func} (t : Retrace f g) {b : BlockId} {pos : Nat}

/-- The path of the old function that a path of the new one leads back to. -/
theorem exists_path {defined : List Value} (hpath : g.Path b pos defined) :
    ∃ before, f.Path (t.back b pos).1 (t.back b pos).2 before ∧ before ⊆ defined ∧
      ∀ i ∈ t.fresh b pos, Value.inst i ∈ defined := by
  have hpassed : ∀ {i : InstId} {first second : List InstId} {defined : List Value},
      first ⊆ i :: second → (∀ j ∈ second, Value.inst j ∈ defined) →
      ∀ j ∈ first, Value.inst j ∈ Value.inst i :: defined := by
    intro i first second defined hsubset hsecond j hj
    rcases List.mem_cons.mp (hsubset hj) with rfl | hj
    · exact List.mem_cons_self
    · exact List.mem_cons_of_mem _ (hsecond j hj)
  -- along the path in `g`: each step is one in `f`, or stays at the same place of `f`
  induction hpath with
  | entry hblk =>
      obtain ⟨hback, hfresh⟩ := t.entry
      obtain ⟨blk, hblk', hargs⟩ := t.args hblk t.nonempty
      rw [hback, hfresh]
      exact ⟨blk.argValues, .entry hblk', by rw [hargs]; exact List.Subset.refl _, by simp⟩
  | @next b pos i defined _ hat ih =>
      obtain ⟨before, hbefore, hsubset, hfresh⟩ := ih
      have hfresh' := hpassed (t.fresh_next hat) hfresh
      rcases t.next hat with ⟨hat', hback⟩ | hback
      · rw [hback]
        exact ⟨_, .next hbefore hat', List.cons_subset_cons _ hsubset, hfresh'⟩
      · rw [hback]
        exact ⟨before, hbefore, List.subset_cons_of_subset _ hsubset, hfresh'⟩
  | @jump b c pos i instruction blk defined _ hat hinst hc hblk ih =>
      obtain ⟨before, hbefore, hsubset, hfresh⟩ := ih
      have hfresh' : ∀ j ∈ t.fresh c 0, Value.inst j ∈ blk.argValues ++ Value.inst i :: defined :=
        fun j hj => List.mem_append_right _ (hpassed (t.fresh_jump hat hinst hc) hfresh j hj)
      rcases t.jump hat hinst hc with ⟨hat', instruction', hinst', hc', hlt, hback⟩ | hback
      · obtain ⟨blk', hblk', hargs⟩ := t.args hblk hlt
        rw [hback]
        refine ⟨_, .jump hbefore hat' hinst' hc' hblk', ?_, hfresh'⟩
        rw [hargs]
        exact List.append_subset.mpr ⟨List.subset_append_left _ _,
          List.subset_append_of_subset_right _ (List.cons_subset_cons _ hsubset)⟩
      · rw [hback]
        exact ⟨before, hbefore,
          List.subset_append_of_subset_right _ (List.subset_cons_of_subset _ hsubset), hfresh'⟩

theorem available {v : Value} (h : f.Available (t.back b pos).1 (t.back b pos).2 v) :
    g.Available b pos v := by
  intro defined hpath
  obtain ⟨before, hbefore, hsubset, -⟩ := t.exists_path hpath
  exact hsubset (h before hbefore)

theorem available_fresh {i : InstId} (h : i ∈ t.fresh b pos) : g.Available b pos (.inst i) := by
  intro defined hpath
  obtain ⟨-, -, -, hfresh⟩ := t.exists_path hpath
  exact hfresh i h

/-- An instruction of the new function reads what is new in front of it, and what is available at
the place of the old function that it belongs to. -/
theorem definedBeforeUse
    (h : ∀ (b : BlockId) (pos : Nat) (i : InstId) (instruction : Instruction), g.At b pos i →
      g.insts[i]? = some instruction → ∀ v ∈ instruction.op.operands,
      (∃ j ∈ t.fresh b pos, v = .inst j) ∨ f.Available (t.back b pos).1 (t.back b pos).2 v) :
    g.DefinedBeforeUse := by
  intro b pos i instruction hat hinst v hv
  rcases h b pos i instruction hat hinst v hv with ⟨j, hj, rfl⟩ | hv
  · exact t.available_fresh hj
  · exact t.available hv

end Retrace

end Func

end Redzone
