import Redzone.Proofs.Construction
import Redzone.Proofs.Modules.Flow

/-!
# Where a builder puts instructions

Every step of building lists a new instruction at one place, or moves the end of a block to a new
block.  So no instruction is ever listed twice (`Func.Once`), and the instructions of a block stay
in their order: the first of them stay in the block, and the others are found in blocks that were
added later (`Func.Strung`, `Func.KeptBy`).  `Builder.run_arranged` says both of all that is built
from nothing, together with the order of the block arguments.
-/

namespace Redzone

namespace Func

variable {f g : Func} {b : BlockId} {blk : Block}

/-! ### Listings -/

/-- Every listing is of an instruction in the arena, and no instruction is listed twice. -/
structure Once (f : Func) : Prop where
  inArena : f.InArena
  nodup : f.listed.Nodup

/-- A graft that lists old instructions as often as before and new ones once. -/
theorem Once.graft {insts : List InstId} {code : List Instruction} {fresh : List Block} (h : f.Once)
    (hblk : f.blocks[b]? = some blk)
    (hnew : (insts ++ fresh.flatMap Block.insts).Perm
      (blk.insts ++ List.range' f.insts.size code.length)) : (f.graft b insts code fresh).Once where
  inArena := by
    intro i hi
    rw [size_insts_graft]
    rcases List.mem_append.mp ((listed_graft_perm hblk hnew).mem_iff.mp hi) with hold | hadded
    · exact (h.inArena i hold).trans_le (Nat.le_add_right _ _)
    · exact (List.mem_range'_1.mp hadded).2
  nodup := by
    rw [(listed_graft_perm hblk hnew).nodup_iff]
    refine h.nodup.append List.nodup_range' fun i hold hadded => ?_
    exact absurd (h.inArena i hold) (Nat.not_lt.mpr (List.mem_range'_1.mp hadded).1)

/-- Every step lists what is new once. -/
theorem Grows.once (hgrows : f.Grows g) (h : f.Once) : g.Once := by
  cases hgrows with
  | aside code hinsts hblocks hargs =>
      have hlisted : g.listed = f.listed := by rw [listed, hblocks, listed]
      refine ⟨fun i hi => ?_, hlisted ▸ h.nodup⟩
      rw [hinsts, Array.size_append]
      exact (h.inArena i (hlisted ▸ hi)).trans_le (Nat.le_add_right _ _)
  | block tys =>
      have hlisted : (f.pushBlockWithArgs tys).1.listed = f.listed := by
        simp [listed, pushBlockWithArgs]
      exact ⟨fun i hi => h.inArena i (hlisted ▸ hi), hlisted ▸ h.nodup⟩
  | @place b blk pos code hblk =>
      refine h.graft hblk ?_
      rw [List.flatMap_nil, List.append_nil, List.append_assoc]
      conv => rhs; rw [← List.take_append_drop pos blk.insts, List.append_assoc]
      exact List.perm_append_comm.append_left _
  | @split b blk pos hblk =>
      refine h.graft hblk ?_
      simp

theorem Once.steps (h : f.Once) (hsteps : Relation.ReflTransGen Grows f g) : g.Once := by
  induction hsteps with
  | refl => exact h
  | tail _ hgrows ih => exact hgrows.once ih

/-! ### Order -/

/-- The blocks of a chain list some instructions in their order: a first part of them in the first
block, what follows in the next one, and so on.  Other instructions may stand between them. -/
inductive Strung (f : Func) : List BlockId → List InstId → Prop
  | nil : f.Strung [] []
  | cons {b : BlockId} {blk : Block} {chain : List BlockId} {part rest : List InstId}
      (hblk : f.blocks[b]? = some blk) (hpart : part.Sublist blk.insts)
        (hrest : f.Strung chain rest) :
      f.Strung (b :: chain) (part ++ rest)

theorem strung_self (hblk : f.blocks[b]? = some blk) : f.Strung [b] blk.insts := by
  have h : f.Strung [b] (blk.insts ++ []) := .cons hblk (List.Sublist.refl _) .nil
  rwa [List.append_nil] at h

variable {chain : List BlockId} {insts : List InstId}

theorem Strung.lt_size (h : f.Strung chain insts) : ∀ c ∈ chain, c < f.blocks.size := by
  induction h with
  | nil => simp
  | cons hblk _ _ ih => exact List.forall_mem_cons.mpr ⟨lt_size_of_getElem? hblk, ih⟩

/-- A chain stays one if its blocks list at least what they did. -/
theorem Strung.mono (h : f.Strung chain insts)
    (hkept : ∀ c ∈ chain, ∀ blk, f.blocks[c]? = some blk →
      ∃ blk', g.blocks[c]? = some blk' ∧ blk.insts.Sublist blk'.insts) : g.Strung chain insts := by
  induction h with
  | nil => exact .nil
  | @cons b blk _ _ _ hblk hpart _ ih =>
      rw [List.forall_mem_cons] at hkept
      obtain ⟨blk', hblk', hsub⟩ := hkept.1 blk hblk
      exact .cons hblk' (hpart.trans hsub) (ih hkept.2)

/-- A chain in which block `b` is followed by block `c`. -/
def followedBy (b c : BlockId) (chain : List BlockId) : List BlockId :=
  chain.flatMap fun d => if d = b then [b, c] else [d]

theorem followedBy_cons (b c d : BlockId) (chain : List BlockId) :
    followedBy b c (d :: chain) = d :: ((if d = b then [c] else []) ++ followedBy b c chain) := by
  rw [followedBy, List.flatMap_cons, ← followedBy]
  by_cases hd : d = b <;> simp [hd]

theorem mem_followedBy {c d : BlockId} :
    d ∈ followedBy b c chain ↔ d ∈ chain ∨ d = c ∧ b ∈ chain := by
  induction chain with
  | nil => simp [followedBy]
  | cons e rest ih =>
      rw [followedBy_cons]
      simp only [List.mem_cons, List.mem_append, ih]
      by_cases he : e = b
      · subst he
        simp only [if_true, List.mem_singleton, true_or, and_true]
        tauto
      · simp only [if_neg he, List.not_mem_nil, false_or, Ne.symm he, or_assoc]

theorem nodup_followedBy {c : BlockId} (hnodup : chain.Nodup) (hc : c ∉ chain) :
    (followedBy b c chain).Nodup := by
  induction chain with
  | nil => exact List.nodup_nil
  | cons d rest ih =>
      rw [List.nodup_cons] at hnodup
      rw [List.mem_cons, not_or] at hc
      have hrest := ih hnodup.2 hc.2
      have hd : d ∉ followedBy b c rest := by
        rw [mem_followedBy]
        exact not_or.mpr ⟨hnodup.1, fun h => hc.1 h.1.symm⟩
      rw [followedBy_cons]
      by_cases hdb : d = b
      · subst hdb
        have hcd : c ∉ followedBy d c rest := by
          rw [mem_followedBy]
          exact not_or.mpr ⟨hc.2, fun h => hnodup.1 h.2⟩
        rw [if_pos rfl, List.singleton_append, List.nodup_cons, List.nodup_cons, List.mem_cons,
          not_or]
        exact ⟨⟨Ne.symm hc.1, hd⟩, hcd, hrest⟩
      · rw [if_neg hdb, List.nil_append, List.nodup_cons]
        exact ⟨hd, hrest⟩

/-- After a split the moved instructions follow those that stay. -/
theorem Strung.split (h : f.Strung chain insts) (hblk : f.blocks[b]? = some blk) (pos : Nat) :
    (f.graft b (blk.insts.take pos) []
      [{ argStart := f.blockArgs.size, insts := blk.insts.drop pos }]).Strung
        (followedBy b f.blocks.size chain) insts := by
  have hmoved : (f.graft b (blk.insts.take pos) []
      [{ argStart := f.blockArgs.size, insts := blk.insts.drop pos }]).blocks[f.blocks.size]? =
        some { argStart := f.blockArgs.size, insts := blk.insts.drop pos } :=
    getElem?_blocks_graft_add 0
  -- where the chain passes through the block, its part is cut like the block
  induction h with
  | nil => exact .nil
  | @cons c blk' _ part rest hblk' hpart _ ih =>
      rw [followedBy_cons]
      by_cases hc : c = b
      · subst hc
        obtain rfl : blk = blk' := Option.some.inj (hblk.symm.trans hblk')
        rw [← List.take_append_drop pos blk.insts, List.sublist_append_iff] at hpart
        obtain ⟨stays, moves, rfl, hstays, hmoves⟩ := hpart
        rw [if_pos rfl, List.append_assoc]
        exact .cons (getElem?_blocks_graft_self hblk) hstays (.cons hmoved hmoves ih)
      · rw [if_neg hc, List.nil_append]
        refine .cons ?_ hpart ih
        rw [getElem?_blocks_graft_of_ne hc (lt_size_of_getElem? hblk'), hblk']

/-- Every step keeps a chain, or makes it longer by a block that was not there before. -/
theorem Strung.grows {others : List BlockId} (h : f.Strung (b :: others) insts)
    (hnodup : (b :: others).Nodup) (hgrows : f.Grows g) :
    ∃ others', g.Strung (b :: others') insts ∧ (b :: others').Nodup ∧
      ∀ c ∈ others', c ∈ others ∨ f.blocks.size ≤ c := by
  -- every step but a split leaves the chain as it is
  have hsame : (∀ c ∈ b :: others, ∀ blk, f.blocks[c]? = some blk →
      ∃ blk', g.blocks[c]? = some blk' ∧ blk.insts.Sublist blk'.insts) →
      ∃ others', g.Strung (b :: others') insts ∧ (b :: others').Nodup ∧
        ∀ c ∈ others', c ∈ others ∨ f.blocks.size ≤ c :=
    fun hkept => ⟨others, h.mono hkept, hnodup, fun c hc => .inl hc⟩
  cases hgrows with
  | aside code hinsts hblocks hargs =>
      exact hsame fun c _ blk hblk => ⟨blk, hblocks ▸ hblk, List.Sublist.refl _⟩
  | block tys =>
      refine hsame fun c _ blk hblk => ⟨blk, ?_, List.Sublist.refl _⟩
      have hlt := lt_size_of_getElem? hblk
      rw [pushBlockWithArgs, Array.getElem?_push_lt hlt, ← Array.getElem?_eq_getElem hlt, hblk]
  | @place d blk pos code hblk =>
      refine hsame fun c _ blk' hblk' => ?_
      by_cases hc : c = d
      · subst hc
        obtain rfl : blk = blk' := Option.some.inj (hblk.symm.trans hblk')
        refine ⟨_, getElem?_blocks_graft_self hblk, ?_⟩
        conv => lhs; rw [← List.take_append_drop pos blk.insts]
        exact (List.sublist_append_left _ _).append (List.Sublist.refl _)
      · exact ⟨blk', by rw [getElem?_blocks_graft_of_ne hc (lt_size_of_getElem? hblk'), hblk'],
          List.Sublist.refl _⟩
  | @split d blk pos hblk =>
      have hnew : f.blocks.size ∉ b :: others := fun hmem => (h.lt_size _ hmem).false
      have hsplit := h.split hblk pos
      have hdistinct := nodup_followedBy (b := d) hnodup hnew
      rw [followedBy_cons] at hsplit hdistinct
      refine ⟨_, hsplit, hdistinct, fun c hc => ?_⟩
      rcases List.mem_append.mp hc with hfirst | hlater
      · split at hfirst
        · exact .inr (List.mem_singleton.mp hfirst).ge
        · cases hfirst
      · rcases mem_followedBy.mp hlater with hold | ⟨hfresh, -⟩
        · exact .inl hold
        · exact .inr hfresh.ge

/-- What was built before is still there: the arena keeps every instruction at its number, and the
instructions of every block stand in their order, the first of them in the block itself and the
others in blocks that are new. -/
structure KeptBy (f g : Func) : Prop where
  arena : ∀ (i : InstId) (instruction : Instruction),
    f.insts[i]? = some instruction → g.insts[i]? = some instruction
  order : ∀ (b : BlockId) (blk : Block), f.blocks[b]? = some blk →
    ∃ others, g.Strung (b :: others) blk.insts ∧ (b :: others).Nodup ∧ ∀ c ∈ others,
      f.blocks.size ≤ c

theorem Grows.arena (hgrows : f.Grows g) {i : InstId} {instruction : Instruction}
    (h : f.insts[i]? = some instruction) : g.insts[i]? = some instruction := by
  have hlt := (Array.getElem?_eq_some_iff.mp h).1
  cases hgrows with
  | aside code hinsts hblocks hargs => rw [hinsts, Array.getElem?_append_left hlt, h]
  | block tys => exact h
  | place pos code hblk => rw [getElem?_insts_graft_of_lt hlt, h]
  | split pos hblk => rw [getElem?_insts_graft_of_lt hlt, h]

theorem Grows.size_blocks_le (hgrows : f.Grows g) : f.blocks.size ≤ g.blocks.size := by
  cases hgrows with
  | aside code hinsts hblocks hargs => rw [hblocks]
  | block tys => simp [pushBlockWithArgs]
  | place pos code hblk => simp
  | split pos hblk => simp

theorem keptBy_of_steps (hsteps : Relation.ReflTransGen Grows f g) :
    f.KeptBy g ∧ f.blocks.size ≤ g.blocks.size := by
  induction hsteps with
  | refl =>
      exact ⟨⟨fun _ _ h => h, fun b blk hblk => ⟨[], strung_self hblk, by simp, by simp⟩⟩, le_rfl⟩
  | tail _ hgrows ih =>
      obtain ⟨hkept, hsize⟩ := ih
      refine ⟨⟨fun i instruction h => hgrows.arena (hkept.arena i instruction h),
        fun b blk hblk => ?_⟩, hsize.trans hgrows.size_blocks_le⟩
      obtain ⟨others, hstrung, hnodup, hothers⟩ := hkept.order b blk hblk
      obtain ⟨others', hstrung', hnodup', hothers'⟩ := hstrung.grows hnodup hgrows
      exact ⟨others', hstrung', hnodup', fun c hc =>
        (hothers' c hc).elim (hothers c) fun hfresh => hsize.trans hfresh⟩

/-! ### All that is built -/

/-- A function as it is built. -/
structure Arranged (f : Func) : Prop where
  /-- Every listing is of an instruction in the arena, and no instruction is listed twice. -/
  once : f.Once
  /-- The arguments of the first block start at the start of the arena, those of each next block
  where those of the one before end, and those of the last block end at the end of the arena. -/
  abut : f.ArgsAbut
  /-- The arguments of different blocks are different. -/
  apart : ∀ (b c : BlockId) (blk blk' : Block), f.blocks[b]? = some blk → f.blocks[c]? = some blk' →
    b < c → blk.argStart + blk.argCount ≤ blk'.argStart
  /-- What is in the arena of block arguments, and nothing else, is an argument of a block. -/
  covered : ∀ i : Nat, i < f.blockArgs.size ↔
    ∃ blk ∈ f.blocks, blk.argStart ≤ i ∧ i < blk.argStart + blk.argCount

theorem Once.arranged (honce : f.Once) (habut : f.ArgsAbut) : f.Arranged where
  once := honce
  abut := habut
  apart b c blk blk' hblk hblk' hlt := by
    have hpairwise := Abut.pairwise habut
    rw [argRanges, List.pairwise_map] at hpairwise
    obtain ⟨hb, rfl⟩ := Array.getElem?_eq_some_iff.mp hblk
    obtain ⟨hc, rfl⟩ := Array.getElem?_eq_some_iff.mp hblk'
    exact List.pairwise_iff_getElem.mp hpairwise b c (by simpa using hb) (by simpa using hc) hlt
  covered i := by
    have hmem := Abut.mem_iff habut i
    simpa [argRanges] using hmem

end Func

namespace Builder

/-- Whatever is built from nothing, no instruction is listed twice and the arguments of the blocks
are in order; and what was built at some time is kept by all that is built later. -/
theorem run_arranged {f : Func} {commands more : List Command} {b b' : Builder} (hblank : f.Blank)
    (hrun : commands.foldlM exec { func := f } = .ok b) (hmore : more.foldlM exec b = .ok b') :
    b'.func.Arranged ∧ b.func.KeptBy b'.func := by
  have hsteps := grows_run hmore
  have hstart : f.Once := by
    obtain ⟨-, hblocks, -⟩ := hblank
    constructor <;> simp [Func.InArena, Func.listed, hblocks]
  have honce : b'.func.Once := hstart.steps ((grows_run hrun).trans hsteps)
  have habut : b'.func.ArgsAbut := (argsAbut_run hblank hrun).steps hsteps
  exact ⟨honce.arranged habut, (Func.keptBy_of_steps hsteps).1⟩

/-- Two blocks, of which the first one has two arguments. -/
def countingCommands : List Command :=
  [.createBlock [.int, .bool], .switchTo 0, .push (.iconst 1) .int [], .push (.iconst 2) .int [],
    .push (.ret none) .unit [], .createBlock []]

def counting : Builder where
  func :=
    { name := 0
      params := []
      ret := none
      insts := #[⟨.iconst 1, .int, [], false⟩, ⟨.iconst 2, .int, [], false⟩,
        ⟨.ret none, .unit, [], false⟩]
      blocks := #[{ argStart := 0, argCount := 2, insts := [0, 1, 2] }, { argStart := 2 }]
      blockArgs := #[.int, .bool] }
  cursor := some (.atEnd 0)

/-- Code before the second instruction of the first block, which is split behind that code and in
front of it. -/
def extendingCommands : List Command :=
  [.renew, .positionAt 0 1, .push (.iconst 3) .int [], .callSymbol 0 [.inst 3] .unit [],
    .splitBlock 0 4, .createBlock [.int], .splitBlock 0 1, .renew, .push (.iconst 4) .int [],
    .switchTo 0, .push (.br ⟨4, []⟩) .unit []]

def extended : Builder where
  func :=
    { name := 0
      params := []
      ret := none
      insts := #[⟨.iconst 1, .int, [], false⟩, ⟨.iconst 2, .int, [], false⟩,
        ⟨.ret none, .unit, [], false⟩, ⟨.iconst 3, .int, [], false⟩,
        ⟨.symbolAddr 0, .ptr 0, [], false⟩, ⟨.call (.inst 4) [.inst 3], .unit, [], false⟩,
        ⟨.iconst 4, .int, [], false⟩, ⟨.br ⟨4, []⟩, .unit, [], false⟩]
      blocks := #[{ argStart := 0, argCount := 2, insts := [0, 7] }, { argStart := 2 },
        { argStart := 2, insts := [1, 2] }, { argStart := 2, argCount := 1 },
        { argStart := 3, insts := [3, 4, 5] }]
      blockArgs := #[.int, .bool, .int] }
  cursor := some (.atEnd 0)

theorem run_arranged_extending :
    countingCommands.foldlM exec { func := { name := 0, params := [], ret := none } } =
      .ok counting ∧
      extendingCommands.foldlM exec counting = .ok extended ∧
        extended.func.Arranged ∧ counting.func.KeptBy extended.func := by
  have hcounting : countingCommands.foldlM exec
      { func := { name := 0, params := [], ret := none } } = .ok counting := by decide +kernel
  have hextending : extendingCommands.foldlM exec counting = .ok extended := by decide +kernel
  exact ⟨hcounting, hextending, run_arranged ⟨rfl, rfl, rfl⟩ hcounting hextending⟩

end Builder

end Redzone
