import Redzone.Proofs.Edits.Visits

/-!
# Blocks that checks have cut

A check cuts a block: what was behind it goes on in another block, and there may be more checks
there.  So the code of a block is found along a chain of blocks, each of which ends with the branch
of a check that leads to the next one.  `Edit.chain` says that edits keep the code of a block
together in this sense: they add to the chain and to what its blocks list, but what was listed stays
in its order, and the last instruction stays the last one.
-/

namespace Redzone

namespace Func

/-- Block `b` ends with the branch of a check that leads to the new block `next` unless the shadow
is suspicious.  Instructions from `n` on and blocks from `old` on are new. -/
structure Continues (g : Func) (n old : Nat) (mapping : ShadowMapping)
    (b next : BlockId) : Prop where
  fresh : old ≤ next
  branch : ∃ blk m addr size suspicious, g.blocks[b]? = some blk ∧ n ≤ m ∧
    blk.insts.getLast? = some (m + 8) ∧
    g.Holds m (probeCode mapping m addr size ++
      [.brif (.inst (m + 7)) { block := suspicious } { block := next }])

/-- The blocks of a chain from block `b` to block `last` list the instructions `ids`. -/
inductive Chain (g : Func) (n old : Nat) (mapping : ShadowMapping) :
    (b last : BlockId) → (ids : List InstId) → Prop
  | last {b : BlockId} {blk : Block} (hblk : g.blocks[b]? = some blk) :
      g.Chain n old mapping b b blk.insts
  | check {b next last : BlockId} {blk : Block} {ids : List InstId}
      (hblk : g.blocks[b]? = some blk) (hnext : g.Continues n old mapping b next)
      (hrest : g.Chain n old mapping next last ids) :
      g.Chain n old mapping b last (blk.insts ++ ids)

variable {ordered : Prop} {f g : Func} {n old : Nat} {mapping : ShadowMapping}
  {symbols : SymbolTable} {b last next : Nat} {ids : List InstId} {blk : Block}

/-- A chain to a block from which control goes on to another chain. -/
theorem Chain.trans {last' : Nat} {ids' : List InstId} (h : g.Chain n old mapping b last ids)
    (hnext : g.Continues n old mapping last next) (h' : g.Chain n old mapping next last' ids') :
    g.Chain n old mapping b last' (ids ++ ids') := by
  induction h with
  | last hblk => exact .check hblk hnext h'
  | check hblk hcut _ ih =>
      rw [List.append_assoc]
      exact .check hblk hcut (ih hnext)

theorem Chain.of_same_code (h : f.Chain n old mapping b last ids) (hinsts : g.insts = f.insts)
    (hblocks : g.blocks = f.blocks) : g.Chain n old mapping b last ids := by
  induction h with
  | last hblk => exact .last (hblocks ▸ hblk)
  | check hblk hnext _ ih =>
      obtain ⟨hfresh, blk', m, addr, size, suspicious, hblk', hm, hlast, hholds⟩ := hnext
      refine .check (hblocks ▸ hblk) ⟨hfresh, blk', m, addr, size, suspicious, hblocks ▸ hblk', hm,
        hlast, fun k op hop => ?_⟩ ih
      rw [hinsts]
      exact hholds k op hop

/-- What becomes of the instructions of a block: new ones may stand between them and in front of
them. -/
structure Spread (n : Nat) (ids ids' : List InstId) : Prop where
  old : ids'.filter (· < n) = ids.filter (· < n)
  last : ids'.getLast? = ids.getLast?

theorem Spread.append {first first' second second' : List InstId} (h : Spread n first first')
    (h' : Spread n second second') : Spread n (first ++ second) (first' ++ second') where
  old := by rw [List.filter_append, List.filter_append, h.old, h'.old]
  last := by rw [List.getLast?_append, List.getLast?_append, h.last, h'.last]

theorem Spread.refl (ids : List InstId) : Spread n ids ids := ⟨rfl, rfl⟩

theorem Spread.trans {ids ids' ids'' : List InstId} (h : Spread n ids ids')
    (h' : Spread n ids' ids'') : Spread n ids ids'' :=
  ⟨h'.old.trans h.old, h'.last.trans h.last⟩

theorem filter_range'_eq_nil {start count : Nat} (h : n ≤ start) :
    (List.range' start count).filter (· < n) = [] := by
  rw [List.filter_eq_nil_iff]
  intro i hi
  have hle := (List.mem_range'_1.mp hi).1
  simp only [decide_eq_true_eq]
  omega

/-- New instructions are put in front of an instruction of a block. -/
theorem spread_insert {insts : List InstId} {pos start : Nat} (hn : n ≤ start)
    (hpos : pos < insts.length) (count : Nat) :
    Spread n insts (insts.take pos ++ List.range' start count ++ insts.drop pos) where
  old := by
    rw [List.filter_append, List.filter_append, filter_range'_eq_nil hn, List.append_nil,
      ← List.filter_append, List.take_append_drop]
  last := by
    have hne : insts.drop pos ≠ [] := by simpa using hpos
    conv => rhs; rw [← List.take_append_drop pos insts]
    rw [List.getLast?_append_of_ne_nil _ hne, List.getLast?_append_of_ne_nil _ hne]

namespace Extends

theorem size_insts_le (h : f.Extends g) : f.insts.size ≤ g.insts.size := by
  by_contra hlt
  obtain ⟨instruction, hinst, -⟩ :=
    h.ty g.insts.size _ (Array.getElem?_eq_getElem (Nat.lt_of_not_le hlt))
  exact absurd (Array.getElem?_eq_some_iff.mp hinst).1 (lt_irrefl _)

theorem size_blocks_le (h : f.Extends g) : f.blocks.size ≤ g.blocks.size := by
  by_contra hlt
  obtain ⟨blk, hblk, -⟩ :=
    h.blocks g.blocks.size _ (Array.getElem?_eq_getElem (Nat.lt_of_not_le hlt))
  exact absurd (Array.getElem?_eq_some_iff.mp hblk).1 (lt_irrefl _)

end Extends

/-! ### Blocks behind an edit -/

theorem getElem?_blocks_insertCode_self {pos : Nat} {code : List Instruction}
    (hinsert : f.insertCode b pos code = .ok g) (hblk : f.blocks[b]? = some blk) :
    g.blocks[b]? = some { blk with
      insts := blk.insts.take pos ++ List.range' f.insts.size code.length ++
        blk.insts.drop pos } := by
  obtain ⟨blk', hblk', -, rfl⟩ := insertCode_eq_ok hinsert
  obtain rfl := Option.some.inj (hblk.symm.trans hblk')
  exact getElem?_blocks_graft_self hblk

theorem getElem?_blocks_insertCode_of_ne {c pos : Nat} {code : List Instruction}
    (hinsert : f.insertCode c pos code = .ok g) (hbc : b ≠ c) (hb : b < f.blocks.size) :
    g.blocks[b]? = f.blocks[b]? := by
  obtain ⟨blk', -, -, rfl⟩ := insertCode_eq_ok hinsert
  exact getElem?_blocks_graft_of_ne hbc hb

end Func

section

variable {f g : Func} {c : Check} {b b' pos size cont : Nat} {blk : Block} {addr : Value}

/-- The block that a check cuts, and the one in which the code behind it is found. -/
theorem Check.getElem?_blocks_insert_self (hinsert : c.insert f b pos addr size = .ok (g, cont))
    (hblk : f.blocks[b]? = some blk) :
    g.blocks[b]? = some { blk with insts := blk.insts.take pos ++ List.range' f.insts.size 9 } ∧
      g.blocks[cont]? = some { argStart := f.blockArgs.size, insts := blk.insts.drop pos } := by
  obtain ⟨blk', hblk', -, rfl, rfl⟩ := Check.insert_eq_ok hinsert
  obtain rfl := Option.some.inj (hblk.symm.trans hblk')
  exact ⟨Func.getElem?_blocks_graft_self hblk, Func.getElem?_blocks_graft_add 0⟩

theorem Check.getElem?_blocks_insert_of_ne (hinsert : c.insert f b' pos addr size = .ok (g, cont))
    (hne : b ≠ b') (hb : b < f.blocks.size) : g.blocks[b]? = f.blocks[b]? := by
  obtain ⟨blk', -, -, -, rfl⟩ := Check.insert_eq_ok hinsert
  exact Func.getElem?_blocks_graft_of_ne hne hb

end

/-! ### Edits -/

namespace Func

variable {ordered : Prop} {f g : Func} {n old : Nat} {mapping : ShadowMapping}
  {symbols : SymbolTable} {b last next : Nat} {ids : List InstId} {blk : Block}

namespace Edit

/-- New code stays as it is. -/
theorem holds {m : Nat} {ops : List Op} (h : Edit ordered n mapping symbols f g) (hm : n ≤ m)
    (hholds : f.Holds m ops) : g.Holds m ops := by
  cases h with
  | line _ _ _ hinsert =>
      intro k op hop
      obtain ⟨origin, hinst⟩ := hholds k op hop
      exact ⟨origin, getElem?_insts_insertCode hinst hinsert⟩
  | check _ _ _ _ _ _ hinsert =>
      intro k op hop
      obtain ⟨origin, hinst⟩ := hholds k op hop
      obtain ⟨blk, -, -, -, rfl⟩ := Check.insert_eq_ok hinsert
      exact ⟨origin, by rwa [getElem?_insts_graft_of_lt (Array.getElem?_eq_some_iff.mp hinst).1]⟩
  | replace _ hi _ _ _ hg => exact hg ▸ hholds.setInst (hi.trans_le hm) _

/-- What an edit makes of a block: a chain, and the last block ends as the block did. -/
theorem block (h : Edit ordered n mapping symbols f g) (hn : n ≤ f.insts.size)
    (hold : old ≤ f.blocks.size) (hblk : f.blocks[b]? = some blk) :
    ∃ last blk' ids, g.Chain n old mapping b last ids ∧ Spread n blk.insts ids ∧
      g.blocks[last]? = some blk' ∧ blk'.insts.getLast? = blk.insts.getLast? := by
  have hb : b < f.blocks.size := lt_size_of_getElem? hblk
  cases h with
  | @line c pos i code hat _ _ hinsert =>
      by_cases hbc : b = c
      · subst hbc
        have hpos := (List.getElem?_eq_some_iff.mp ((at_iff hblk).mp hat)).1
        have hself := getElem?_blocks_insertCode_self hinsert hblk
        have hspread := spread_insert hn hpos code.length
        exact ⟨b, _, _, .last hself, hspread, hself, hspread.last⟩
      · have hsame := (getElem?_blocks_insertCode_of_ne hinsert hbc hb).trans hblk
        exact ⟨b, blk, _, .last hsame, .refl _, hsame, rfl⟩
  | @check c c' cont pos size i addr hat _ hmapping _ _ _ hinsert =>
      by_cases hbc : b = c'
      · subst hbc
        obtain ⟨-, rfl⟩ := Check.insert_places hinsert
        have hpos := (List.getElem?_eq_some_iff.mp ((at_iff hblk).mp hat)).1
        obtain ⟨hself, hcont⟩ := Check.getElem?_blocks_insert_self hinsert hblk
        have hspread := spread_insert hn hpos 9
        have hholds : g.Holds f.insts.size (probeCode c.mapping f.insts.size addr size ++
            [c.branch f.insts.size size f.blocks.size]) := fun k op hop =>
          ⟨c.origin, Check.holds_segment hinsert _ List.mem_cons_self k op hop⟩
        rw [hmapping] at hholds
        have hlast : (blk.insts.take pos ++ List.range' f.insts.size 9).getLast? =
            some (f.insts.size + 8) := by
          rw [List.getLast?_append_of_ne_nil _ (by simp)]
          rfl
        -- the chain goes on from the block of the check to the one that got the rest
        have hnext : g.Continues n old mapping b f.blocks.size :=
          ⟨hold, _, f.insts.size, addr, size, _, hself, hn, hlast, hholds⟩
        refine ⟨f.blocks.size, _, _, .check hself hnext (.last hcont), hspread, hcont, ?_⟩
        rw [← hspread.last, List.getLast?_append_of_ne_nil _ (by simpa using hpos)]
      · have hsame := (Check.getElem?_blocks_insert_of_ne hinsert hbc hb).trans hblk
        exact ⟨b, blk, _, .last hsame, .refl _, hsame, rfl⟩
  | replace _ _ _ _ _ hg =>
      subst hg
      exact ⟨b, blk, _, .last hblk, .refl _, hblk, rfl⟩

/-- An edit keeps the instructions of a chain in their order. -/
theorem chain (h : Edit ordered n mapping symbols f g) (hn : n ≤ f.insts.size)
    (hold : old ≤ f.blocks.size) (hchain : f.Chain n old mapping b last ids) :
    ∃ last' ids', g.Chain n old mapping b last' ids' ∧ Spread n ids ids' := by
  induction hchain with
  | last hblk =>
      obtain ⟨last', -, ids', hchain, hspread, -⟩ := h.block hn hold hblk
      exact ⟨last', ids', hchain, hspread⟩
  | check hblk hnext _ ih =>
      obtain ⟨last', blk', ids', hchain, hspread, hblk', hlast⟩ := h.block hn hold hblk
      obtain ⟨last'', ids'', hchain', hspread'⟩ := ih
      obtain ⟨hfresh, blk₀, m, addr, size, suspicious, hblk₀, hm, hlast₀, hholds⟩ := hnext
      obtain rfl := Option.some.inj (hblk.symm.trans hblk₀)
      refine ⟨last'', ids' ++ ids'', hchain.trans ⟨hfresh, blk', m, addr, size, suspicious, hblk',
        hm, hlast.trans hlast₀, h.holds hm hholds⟩ hchain', hspread.append hspread'⟩

end Edit

theorem Edits.extended (h : Edits ordered n mapping symbols f g) : f.Extends g := by
  induction h with
  | refl => exact .refl f
  | tail _ hedit ih => exact ih.trans hedit.extended

/-- After any number of edits a chain of blocks lists the instructions of a block, in their order
and with the same last one. -/
theorem Edits.chain (h : Edits ordered f.insts.size mapping symbols f g)
    (hblk : f.blocks[b]? = some blk) :
    ∃ last ids, g.Chain f.insts.size f.blocks.size mapping b last ids ∧
      Spread f.insts.size blk.insts ids := by
  induction h with
  | refl => exact ⟨b, _, .last hblk, .refl _⟩
  | tail hedits hedit ih =>
      obtain ⟨last, ids, hchain, hspread⟩ := ih
      have hextended := Edits.extended hedits
      obtain ⟨last', ids', hchain', hspread'⟩ :=
        hedit.chain hextended.size_insts_le hextended.size_blocks_le hchain
      exact ⟨last', ids', hchain', hspread.trans hspread'⟩

end Func

end Redzone
