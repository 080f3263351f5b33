import Redzone.Proofs.Edit
import Redzone.Proofs.Execution.Line

/-!
# Grafts keep a function sound and its meaning

A graft that lists every new instruction once, and no old one twice, keeps the listings of a
function free of repetitions and its references closed.  `Func.Turns` says of such a graft that from
some place on a block lists other code than before; the two functions then differ by a detour
(`Turns.blocksAlongside`).
-/

namespace Redzone

namespace Func

variable {f : Func} {b : BlockId} {blk : Block} {insts : List InstId} {code : List Instruction}
  {fresh : List Block}

/-- The listings of a graft: those that were there, and the new ones. -/
theorem listed_graft_perm (hblk : f.blocks[b]? = some blk)
    (hnew : (insts ++ fresh.flatMap Block.insts).Perm
      (blk.insts ++ List.range' f.insts.size code.length)) :
    (f.graft b insts code fresh).listed.Perm
      (f.listed ++ List.range' f.insts.size code.length) := by
  obtain ⟨hb, hget⟩ := Array.getElem?_eq_some_iff.mp hblk
  have hlt : b < f.blocks.toList.length := by simpa using hb
  have hold : f.blocks.toList =
      f.blocks.toList.take b ++ blk :: f.blocks.toList.drop (b + 1) := by
    rw [← hget, ← Array.getElem_toList, List.cons_getElem_drop_succ, List.take_append_drop]
  have hgraft : (f.graft b insts code fresh).blocks.toList =
      f.blocks.toList.take b ++ { blk with insts := insts } ::
        f.blocks.toList.drop (b + 1) ++ fresh := by
    rw [graft, Array.toList_append, Array.toList_modify, List.modify_eq_take_cons_drop hlt,
      Array.getElem_toList, hget]
  have hlisted : f.listed = (f.blocks.toList.take b).flatMap Block.insts ++
      (blk.insts ++ (f.blocks.toList.drop (b + 1)).flatMap Block.insts) := by
    rw [← List.flatMap_cons, ← List.flatMap_append, ← hold, listed]
  rw [hlisted, listed, hgraft]
  simp only [List.flatMap_append, List.flatMap_cons, List.append_assoc]
  refine List.Perm.append_left _ ?_
  have hmid : ∀ rest : List InstId,
      (insts ++ (rest ++ fresh.flatMap Block.insts)).Perm
        (blk.insts ++ (rest ++ List.range' f.insts.size code.length)) := by
    intro rest
    have hleft := List.perm_append_comm_assoc insts rest (fresh.flatMap Block.insts)
    have hright := List.perm_append_comm_assoc rest blk.insts
      (List.range' f.insts.size code.length)
    exact hleft.trans ((hnew.append_left rest).trans hright)
  exact hmid _

/-- What is listed once is listed at one place. -/
theorem place_unique {c : BlockId} {blk' : Block} {p q : Nat} {i : InstId}
    (hnodup : f.listed.Nodup) (hblk : f.blocks[b]? = some blk) (hget : blk.insts[p]? = some i)
    (hblk' : f.blocks[c]? = some blk') (hget' : blk'.insts[q]? = some i) : b = c ∧ p = q := by
  obtain ⟨hblocks, hpairwise⟩ := List.nodup_flatMap.mp hnodup
  obtain ⟨hb, hgetb⟩ := Array.getElem?_eq_some_iff.mp hblk
  obtain ⟨hc, hgetc⟩ := Array.getElem?_eq_some_iff.mp hblk'
  have hdisjoint : ∀ (b c : Nat) (hb : b < f.blocks.size) (hc : c < f.blocks.size), b < c →
      List.Disjoint f.blocks[b].insts f.blocks[c].insts := by
    intro b c hb hc hlt
    have := List.pairwise_iff_getElem.mp hpairwise b c (by simpa using hb) (by simpa using hc) hlt
    simpa [Function.onFun] using this
  have hmem := List.mem_of_getElem? hget
  have hmem' := List.mem_of_getElem? hget'
  obtain rfl : b = c := by
    rcases Nat.lt_trichotomy b c with hlt | heq | hlt
    · rw [← hgetb] at hmem
      rw [← hgetc] at hmem'
      exact (hdisjoint b c hb hc hlt hmem hmem').elim
    · exact heq
    · rw [← hgetb] at hmem
      rw [← hgetc] at hmem'
      exact (hdisjoint c b hc hb hlt hmem' hmem).elim
  obtain rfl : blk = blk' := hgetb.symm.trans hgetc
  have hinsts : blk.insts.Nodup := hblocks blk (by rw [← hgetb]; simp)
  obtain ⟨hp, hgetp⟩ := List.getElem?_eq_some_iff.mp hget
  obtain ⟨hq, hgetq⟩ := List.getElem?_eq_some_iff.mp hget'
  exact ⟨rfl, (hinsts.getElem_inj_iff).mp (hgetp.trans hgetq.symm)⟩

theorem Closed.lt_size (hclosed : f.Closed) {i : InstId} (hi : i ∈ f.listed) :
    i < f.insts.size := by
  obtain ⟨instruction, hinst, -⟩ := hclosed i hi
  exact (Array.getElem?_eq_some_iff.mp hinst).1

theorem Closed.graft (hclosed : f.Closed) (hblk : f.blocks[b]? = some blk)
    (hnew : (insts ++ fresh.flatMap Block.insts).Perm
      (blk.insts ++ List.range' f.insts.size code.length))
    (hcode : ∀ instruction ∈ code, instruction.op.Refers (f.insts.size + code.length)
      (f.blocks.size + fresh.length)) :
    (f.graft b insts code fresh).Closed := by
  intro i hi
  rw [size_insts_graft, size_blocks_graft]
  rcases List.mem_append.mp ((listed_graft_perm hblk hnew).mem_iff.mp hi) with hi | hi
  · obtain ⟨instruction, hinst, hrefers⟩ := hclosed i hi
    rw [getElem?_insts_graft_of_lt (hclosed.lt_size hi)]
    exact ⟨instruction, hinst, hrefers.mono (Nat.le_add_right _ _) (Nat.le_add_right _ _)⟩
  · obtain ⟨k, hk, rfl⟩ := List.mem_range'.mp hi
    rw [Nat.one_mul, getElem?_insts_graft_add, List.getElem?_eq_getElem hk]
    exact ⟨_, rfl, hcode _ (List.getElem_mem hk)⟩

theorem nodup_listed_graft (hclosed : f.Closed) (hnodup : f.listed.Nodup)
    (hblk : f.blocks[b]? = some blk)
    (hnew : (insts ++ fresh.flatMap Block.insts).Perm
      (blk.insts ++ List.range' f.insts.size code.length)) :
    (f.graft b insts code fresh).listed.Nodup := by
  rw [(listed_graft_perm hblk hnew).nodup_iff]
  refine List.Nodup.append hnodup List.nodup_range' ?_
  intro i hi hnewId
  exact absurd (hclosed.lt_size hi) (Nat.not_lt.mpr (List.mem_range'_1.mp hnewId).1)

theorem Holds.setInst {n : InstId} {ops : List Op} (h : f.Holds n ops) {i : InstId} (hi : i < n)
    (instruction : Instruction) : (f.setInst i instruction).Holds n ops := by
  intro k op hop
  rw [getElem?_insts_setInst_of_ne (hi.trans_le (Nat.le_add_right n k)).ne']
  exact h k op hop

end Func

/-- `g` is `f` with code added: from place `pos` on block `b` lists `front`.  Every new instruction
is listed once, and what was behind that place is listed still. -/
structure Func.Turns (f g : Func) (b : BlockId) (blk : Block) (pos : Nat) (front : List InstId) :
    Prop where
  graft : ∃ code fresh, g = f.graft b (blk.insts.take pos ++ front) code fresh ∧
    (blk.insts.take pos ++ front ++ fresh.flatMap Block.insts).Perm
      (blk.insts ++ List.range' f.insts.size code.length) ∧
    ∀ instruction ∈ code, instruction.op.Refers (f.insts.size + code.length)
      (f.blocks.size + fresh.length)

namespace Func.Turns

variable {f g : Func} {b : BlockId} {blk : Block} {pos : Nat} {front : List InstId}

theorem closed (h : f.Turns g b blk pos front) (hblk : f.blocks[b]? = some blk)
    (hclosed : f.Closed) : g.Closed := by
  obtain ⟨code, fresh, rfl, hperm, hrefers⟩ := h.graft
  exact hclosed.graft hblk hperm hrefers

theorem nodup (h : f.Turns g b blk pos front) (hblk : f.blocks[b]? = some blk)
    (hclosed : f.Closed) (hnodup : f.listed.Nodup) : g.listed.Nodup := by
  obtain ⟨code, fresh, rfl, hperm, -⟩ := h.graft
  exact nodup_listed_graft hclosed hnodup hblk hperm

theorem size_le (h : f.Turns g b blk pos front) : f.insts.size ≤ g.insts.size := by
  obtain ⟨code, fresh, rfl, -, -⟩ := h.graft
  simp

theorem getElem?_insts (h : f.Turns g b blk pos front) {i : InstId} (hi : i < f.insts.size) :
    g.insts[i]? = f.insts[i]? := by
  obtain ⟨code, fresh, rfl, -, -⟩ := h.graft
  exact getElem?_insts_graft_of_lt hi

theorem getElem?_blocks_self (h : f.Turns g b blk pos front) (hblk : f.blocks[b]? = some blk) :
    g.blocks[b]? = some { blk with insts := blk.insts.take pos ++ front } := by
  obtain ⟨code, fresh, rfl, -, -⟩ := h.graft
  exact getElem?_blocks_graft_self hblk

theorem getElem?_blocks_of_ne (h : f.Turns g b blk pos front) {c : BlockId} (hne : c ≠ b)
    (hc : c < f.blocks.size) : g.blocks[c]? = f.blocks[c]? := by
  obtain ⟨code, fresh, rfl, -, -⟩ := h.graft
  exact getElem?_blocks_graft_of_ne hne hc

/-- Every block lists related instructions.  The arena may differ, too, but not at instructions that
are listed in front of the detour or elsewhere. -/
theorem blocksAlongside {g' : Func} (h : f.Turns g b blk pos front)
    (hblk : f.blocks[b]? = some blk) (hg : g'.blocks = g.blocks)
    (hkept : ∀ (c : BlockId) (blk' : Block), f.blocks[c]? = some blk' →
      ∀ i ∈ (if c = b then blk.insts.take pos else blk'.insts), g'.insts[i]? = f.insts[i]?) :
    BlocksAlongside f g' (DetourAhead f g' (blk.insts.drop pos) front) := by
  intro c blk' hblk'
  rw [hg]
  by_cases hc : c = b
  · subst hc
    obtain rfl : blk = blk' := Option.some.inj (hblk.symm.trans hblk')
    refine ⟨_, h.getElem?_blocks_self hblk, rfl, .inr ⟨blk.insts.take pos, ?_, rfl, ?_⟩⟩
    · rw [List.take_append_drop]
    · intro i hi
      exact ⟨mem_listed hblk (List.mem_of_mem_take hi), hkept c blk hblk i (by simpa using hi)⟩
  · refine ⟨blk', ?_, rfl, .inl ⟨rfl, fun i hi => ?_⟩⟩
    · rw [h.getElem?_blocks_of_ne hc (lt_size_of_getElem? hblk'), hblk']
    · exact ⟨mem_listed hblk' hi, hkept c blk' hblk' i (by simpa [hc] using hi)⟩

end Func.Turns

end Redzone
