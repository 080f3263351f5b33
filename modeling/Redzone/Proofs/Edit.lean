import Redzone.Proofs.Execution.Memory

/-!
# What the edits of a function come to

Every edit that adds code appends to the arena, lists new instructions in one block and appends
blocks behind the others.  `Func.graft` is that edit in general, and the edits of a function are
grafts (`insertCode_eq_graft`, `appendCode_graft`, `splitBlock_graft`, `pushBlock_graft`).  A graft
on top of a graft is a graft (`graft_graft`, also on a block that the first one added,
`graft_graft_fresh`), so that a whole sequence of edits is described by its final lists.
-/

namespace Redzone

/-! ### Steps that can fail -/

theorem bind_eq_ok {ε α β : Type} {first : Except ε α} {next : α → Except ε β} {b : β}
    (h : (first >>= next) = .ok b) : ∃ a, first = .ok a ∧ next a = .ok b := by
  cases first with
  | error e => cases h
  | ok a => exact ⟨a, rfl, h⟩

@[simp] theorem ok_bind {ε α β : Type} (a : α) (next : α → Except ε β) :
    ((Except.ok a : Except ε α) >>= next) = next a := rfl

theorem checkedSub_of_le {a b : Nat} (h : b ≤ a) : checkedSub a b = .ok (a - b) := if_pos h

theorem checkedSub_eq_ok_iff {a b n : Nat} : checkedSub a b = .ok n ↔ b ≤ a ∧ a - b = n := by
  unfold checkedSub
  split_ifs <;> simp [*]

theorem require_of {holds : Prop} [Decidable holds] {fault : Fault} (h : holds) :
    require holds fault = .ok () := if_pos h

theorem require_eq_ok_iff {holds : Prop} [Decidable holds] {fault : Fault} {u : Unit} :
    require holds fault = .ok u ↔ holds := by
  unfold require
  split_ifs <;> simp [*]

theorem require_bind_eq_ok {holds : Prop} [Decidable holds] {fault : Fault} {β : Type}
    {next : Unit → Except Fault β} {b : β} (h : (require holds fault >>= next) = .ok b) :
    holds ∧ next () = .ok b := by
  obtain ⟨_, hrequire, h⟩ := bind_eq_ok h
  exact ⟨require_eq_ok_iff.mp hrequire, h⟩

theorem exists_of_any {ε α : Type} {run : Except ε α} {p : α → Bool}
    (h : run.toOption.any p = true) : ∃ a, run = .ok a ∧ p a = true := by
  cases run with
  | error e => cases h
  | ok a => exact ⟨a, rfl, h⟩

theorem foldlM_cons_eq_ok {ε α β : Type} {next : β → α → Except ε β} {a : α} {rest : List α}
    {b c : β} (h : (a :: rest).foldlM next b = .ok c) :
    ∃ b', next b a = .ok b' ∧ rest.foldlM next b' = .ok c := by
  rw [List.foldlM_cons] at h
  exact bind_eq_ok h

/-- What every step of a sequence keeps, the whole sequence keeps. -/
theorem foldlM_keeps {ε α β : Type} {next : β → α → Except ε β} {steps : List α} {b c : β}
    (P : β → Prop) (hnext : ∀ b c, ∀ a ∈ steps, P b → next b a = .ok c → P c) (hb : P b)
    (h : steps.foldlM next b = .ok c) : P c := by
  induction steps generalizing b with
  | nil =>
      cases h
      exact hb
  | cons a rest ih =>
      obtain ⟨b₁, hb₁, h⟩ := foldlM_cons_eq_ok h
      exact ih (fun b c a ha => hnext b c a (List.mem_cons_of_mem _ ha))
        (hnext b b₁ a List.mem_cons_self hb hb₁) h

/-- Every step of a sequence of steps has succeeded, and its result is among the results. -/
theorem mapM_eq_ok {ε α β : Type} {next : α → Except ε β} {l : List α} {bs : List β}
    (h : l.mapM next = .ok bs) : ∀ a ∈ l, ∃ b ∈ bs, next a = .ok b := by
  induction l generalizing bs with
  | nil => simp
  | cons a rest ih =>
      rw [List.mapM_cons] at h
      obtain ⟨b, hb, h⟩ := bind_eq_ok h
      obtain ⟨bs, hbs, h⟩ := bind_eq_ok h
      cases h
      rw [List.forall_mem_cons]
      refine ⟨⟨b, List.mem_cons_self, hb⟩, fun a' ha' => ?_⟩
      obtain ⟨b', hb', hnext⟩ := ih hbs a' ha'
      exact ⟨b', List.mem_cons_of_mem b hb', hnext⟩

/-- Every result of a sequence of steps is that of one of them. -/
theorem exists_of_mem_mapM {ε α β : Type} {next : α → Except ε β} {l : List α} {bs : List β}
    (h : l.mapM next = .ok bs) : ∀ b ∈ bs, ∃ a ∈ l, next a = .ok b := by
  induction l generalizing bs with
  | nil =>
      cases h
      simp
  | cons a rest ih =>
      rw [List.mapM_cons] at h
      obtain ⟨b, hb, h⟩ := bind_eq_ok h
      obtain ⟨bs, hbs, h⟩ := bind_eq_ok h
      cases h
      rw [List.forall_mem_cons]
      refine ⟨⟨a, List.mem_cons_self, hb⟩, fun b' hb' => ?_⟩
      obtain ⟨a', ha', hnext⟩ := ih hbs b' hb'
      exact ⟨a', List.mem_cons_of_mem a ha', hnext⟩

/-- Where every step finds something with its own key or nothing, the keys of what is found are in
order. -/
theorem keys_sublist_of_mapM {ε α β : Type} {next : α → Except ε (Option β)} {key : β → α}
    {l : List α} {found : List (Option β)} (h : l.mapM next = .ok found)
    (hkey : ∀ a b, next a = .ok (some b) → key b = a) :
    ((found.filterMap id).map key).Sublist l := by
  induction l generalizing found with
  | nil =>
      cases h
      simp
  | cons a rest ih =>
      rw [List.mapM_cons] at h
      obtain ⟨first, hfirst, h⟩ := bind_eq_ok h
      obtain ⟨others, hothers, h⟩ := bind_eq_ok h
      cases h
      cases first with
      | none => exact (ih hothers).cons a
      | some b =>
          have hcons : (some b :: others).filterMap id = b :: others.filterMap id := rfl
          rw [hcons, List.map_cons, hkey a b hfirst]
          exact (ih hothers).cons_cons a

/-! ### Grafts -/

namespace Func

/-- Append `code` to the arena, let block `b` list `insts`, and append the blocks `fresh`. -/
def graft (f : Func) (b : BlockId) (insts : List InstId) (code : List Instruction)
    (fresh : List Block) : Func :=
  { f with
    insts := f.insts ++ code.toArray
    blocks := f.blocks.modify b (fun blk => { blk with insts := insts }) ++ fresh.toArray }

variable {f g : Func} {b : BlockId} {blk : Block} {insts insts' : List InstId}
  {code code' : List Instruction} {fresh fresh' : List Block}

@[simp] theorem size_insts_graft :
    (f.graft b insts code fresh).insts.size = f.insts.size + code.length := by
  simp [graft]

@[simp] theorem size_blocks_graft :
    (f.graft b insts code fresh).blocks.size = f.blocks.size + fresh.length := by
  simp [graft]

@[simp] theorem blockArgs_graft : (f.graft b insts code fresh).blockArgs = f.blockArgs := rfl

@[simp] theorem name_graft : (f.graft b insts code fresh).name = f.name := rfl

/-- All of a function but its code. -/
def shell (f : Func) : Func := { f with insts := #[], blocks := #[] }

@[simp] theorem shell_graft : (f.graft b insts code fresh).shell = f.shell := rfl

@[simp] theorem shell_setInst (i : InstId) (instruction : Instruction) :
    (f.setInst i instruction).shell = f.shell := rfl

/-- The arena keeps what it holds. -/
theorem getElem?_insts_graft_of_lt {i : InstId} (hi : i < f.insts.size) :
    (f.graft b insts code fresh).insts[i]? = f.insts[i]? := by
  rw [graft]
  exact Array.getElem?_append_left hi

theorem getElem?_insts_graft_add (k : Nat) :
    (f.graft b insts code fresh).insts[f.insts.size + k]? = code[k]? := by
  simp [graft, Array.getElem?_append_right]

theorem getElem?_blocks_graft_self (hblk : f.blocks[b]? = some blk) :
    (f.graft b insts code fresh).blocks[b]? = some { blk with insts := insts } := by
  have hlt := (Array.getElem?_eq_some_iff.mp hblk).1
  rw [graft]
  simp only
  rw [Array.getElem?_append_left (by simpa using hlt), Array.getElem?_modify, if_pos rfl, hblk]
  rfl

theorem getElem?_blocks_graft_of_ne {c : BlockId} (hne : c ≠ b) (hc : c < f.blocks.size) :
    (f.graft b insts code fresh).blocks[c]? = f.blocks[c]? := by
  rw [graft]
  simp only
  rw [Array.getElem?_append_left (by simpa using hc), Array.getElem?_modify, if_neg hne.symm]

theorem getElem?_blocks_graft_add (k : Nat) :
    (f.graft b insts code fresh).blocks[f.blocks.size + k]? = fresh[k]? := by
  simp [graft, Array.getElem?_append_right]

/-- A second graft on the same block. -/
theorem graft_graft (hb : b < f.blocks.size) :
    (f.graft b insts code fresh).graft b insts' code' fresh' =
      f.graft b insts' (code ++ code') (fresh ++ fresh') := by
  have hblocks : (f.blocks.modify b (fun blk => { blk with insts := insts }) ++
        fresh.toArray).modify b (fun blk => { blk with insts := insts' }) ++ fresh'.toArray =
      f.blocks.modify b (fun blk => { blk with insts := insts' }) ++ (fresh ++ fresh').toArray := by
    apply Array.ext_getElem?
    intro c
    simp only [Array.getElem?_append, Array.getElem?_modify, Array.size_append, Array.size_modify,
      List.getElem?_toArray, List.size_toArray, List.getElem?_append]
    grind
  simp only [graft, hblocks, List.append_toArray, Array.append_assoc]

/-- A second graft on a block that the first one added. -/
theorem graft_graft_fresh (k : Nat) :
    (f.graft b insts code fresh).graft (f.blocks.size + k) insts' code' fresh' =
      f.graft b insts (code ++ code')
        (fresh.modify k (fun blk => { blk with insts := insts' }) ++ fresh') := by
  have hblocks : (f.blocks.modify b (fun blk => { blk with insts := insts }) ++
        fresh.toArray).modify (f.blocks.size + k) (fun blk => { blk with insts := insts' }) ++
        fresh'.toArray =
      f.blocks.modify b (fun blk => { blk with insts := insts }) ++
        (fresh.modify k (fun blk => { blk with insts := insts' }) ++ fresh').toArray := by
    apply Array.ext_getElem?
    intro c
    simp only [Array.getElem?_append, Array.getElem?_modify, Array.size_append, Array.size_modify,
      List.getElem?_toArray, List.size_toArray, List.getElem?_append, List.getElem?_modify,
      List.length_modify]
    grind
  simp only [graft, hblocks, List.append_toArray, Array.append_assoc]

/-! ### The edits as grafts -/

theorem block_eq_ok (h : f.block b = .ok blk) : f.blocks[b]? = some blk := by
  unfold block at h
  split at h <;> cases h
  assumption

theorem inst_eq_ok {i : InstId} {instruction : Instruction} (h : f.inst i = .ok instruction) :
    f.insts[i]? = some instruction := by
  unfold inst at h
  split at h <;> cases h
  assumption

theorem lt_size_of_getElem? (hblk : f.blocks[b]? = some blk) : b < f.blocks.size :=
  (Array.getElem?_eq_some_iff.mp hblk).1

/-- A block that lists what it listed is unchanged. -/
theorem graft_self (hblk : f.blocks[b]? = some blk) :
    f.graft b blk.insts code fresh =
      { f with insts := f.insts ++ code.toArray, blocks := f.blocks ++ fresh.toArray } := by
  have hblocks : f.blocks.modify b (fun old => { old with insts := blk.insts }) = f.blocks := by
    apply Array.ext_getElem?
    intro c
    rw [Array.getElem?_modify]
    split
    · rename_i hc
      subst hc
      simp [hblk]
    · rfl
  simp only [graft, hblocks]

theorem setBlock_eq_graft (hblk : f.blocks[b]? = some blk) :
    f.setBlock b { blk with insts := insts } = f.graft b insts [] [] := by
  have hblocks : f.blocks.setIfInBounds b { blk with insts := insts } =
      f.blocks.modify b fun old => { old with insts := insts } := by
    apply Array.ext_getElem?
    intro c
    rw [Array.getElem?_setIfInBounds, Array.getElem?_modify]
    split
    · rename_i hc
      subst hc
      rw [if_pos (lt_size_of_getElem? hblk), hblk]
      rfl
    · rfl
  simp [setBlock, graft, hblocks]

theorem insertCode_eq_graft {pos : Nat} (hblk : f.blocks[b]? = some blk)
    (hpos : pos ≤ blk.insts.length) :
    f.insertCode b pos code = .ok (f.graft b
      (blk.insts.take pos ++ List.range' f.insts.size code.length ++ blk.insts.drop pos)
      code []) := by
  have hpush : f.pushCode code = f.graft b blk.insts code [] := by
    rw [graft_self hblk]
    simp [pushCode]
  have hblk' : (f.pushCode code).blocks[b]? = some blk := hblk
  have hblock : (f.pushCode code).block b = .ok blk := by
    rw [block, hblk']
  rw [insertCode, insertAt, hblock, ok_bind, if_pos hpos, setBlock_eq_graft hblk', hpush,
    graft_graft (lt_size_of_getElem? hblk)]
  simp [freshIds]

theorem insertCode_eq_ok {pos : Nat} (h : f.insertCode b pos code = .ok g) :
    ∃ blk, f.blocks[b]? = some blk ∧ pos ≤ blk.insts.length ∧
      g = f.graft b
        (blk.insts.take pos ++ List.range' f.insts.size code.length ++ blk.insts.drop pos)
        code [] := by
  obtain ⟨blk, hblk, h'⟩ := bind_eq_ok h
  replace hblk : f.blocks[b]? = some blk := block_eq_ok hblk
  split at h' <;> cases h'
  rename_i hpos
  rw [insertCode_eq_graft hblk hpos] at h
  exact ⟨blk, hblk, hpos, (Except.ok.inj h).symm⟩

/-- Code behind the last instruction of the block that a graft was made on. -/
theorem appendCode_graft (hblk : f.blocks[b]? = some blk) :
    (f.graft b insts code fresh).appendCode b code' =
      .ok (f.graft b (insts ++ List.range' (f.insts.size + code.length) code'.length)
        (code ++ code') fresh) := by
  have hblk' : (f.graft b insts code fresh).blocks[b]? = some { blk with insts := insts } :=
    getElem?_blocks_graft_self hblk
  have hblock : (f.graft b insts code fresh).block b = .ok { blk with insts := insts } := by
    rw [block, hblk']
  rw [appendCode, hblock, ok_bind, insertCode_eq_graft hblk' le_rfl,
    graft_graft (lt_size_of_getElem? hblk)]
  simp

/-- Code behind the last instruction of a block that a graft has added. -/
theorem appendCode_graft_fresh {k : Nat} (hk : k < fresh.length) :
    (f.graft b insts code fresh).appendCode (f.blocks.size + k) code' =
      .ok (f.graft b insts (code ++ code') (fresh.modify k fun blk =>
        { blk with
          insts := blk.insts ++ List.range' (f.insts.size + code.length) code'.length })) := by
  obtain ⟨blk, hblk⟩ : ∃ blk, fresh[k]? = some blk := ⟨_, List.getElem?_eq_getElem hk⟩
  have hblk' : (f.graft b insts code fresh).blocks[f.blocks.size + k]? = some blk := by
    rw [getElem?_blocks_graft_add, hblk]
  have hblock : (f.graft b insts code fresh).block (f.blocks.size + k) = .ok blk := by
    rw [block, hblk']
  have hmodify : ∀ ids : List InstId,
      fresh.modify k (fun old => { old with insts := blk.insts ++ ids }) =
        fresh.modify k fun old => { old with insts := old.insts ++ ids } := by
    intro ids
    apply List.ext_getElem?
    intro c
    simp only [List.getElem?_modify]
    split
    · rename_i hc
      subst hc
      simp [hblk]
    · rfl
  rw [appendCode, hblock, ok_bind, insertCode_eq_graft hblk' le_rfl, graft_graft_fresh]
  simp [hmodify]

theorem pushBlock_graft :
    (f.graft b insts code fresh).pushBlock =
      (f.graft b insts code (fresh ++ [{ argStart := f.blockArgs.size }]),
        f.blocks.size + fresh.length) := by
  simp [pushBlock, graft]

theorem splitBlock_graft {pos : Nat} (hblk : f.blocks[b]? = some blk) (hpos : pos ≤ insts.length) :
    (f.graft b insts code fresh).splitBlock b pos =
      .ok (f.graft b (insts.take pos) code
          (fresh ++ [{ argStart := f.blockArgs.size, insts := insts.drop pos }]),
        f.blocks.size + fresh.length) := by
  have hblk' : (f.graft b insts code fresh).blocks[b]? = some { blk with insts := insts } :=
    getElem?_blocks_graft_self hblk
  have hblock : (f.graft b insts code fresh).block b = .ok { blk with insts := insts } := by
    rw [block, hblk']
  rw [splitBlock, hblock, ok_bind]
  simp only [if_pos hpos, setBlock_eq_graft hblk', graft_graft (lt_size_of_getElem? hblk)]
  simp [graft]

theorem setOp_eq_ok {i : InstId} {op : Op} (h : f.setOp i op = .ok g) :
    ∃ instruction, f.insts[i]? = some instruction ∧
      g = f.setInst i { instruction with op := op } := by
  obtain ⟨instruction, hinst, h⟩ := bind_eq_ok h
  cases h
  exact ⟨instruction, inst_eq_ok hinst, rfl⟩

@[simp] theorem blocks_setInst (i : InstId) (instruction : Instruction) :
    (f.setInst i instruction).blocks = f.blocks := rfl

@[simp] theorem size_insts_setInst (i : InstId) (instruction : Instruction) :
    (f.setInst i instruction).insts.size = f.insts.size := by
  simp [setInst]

theorem getElem?_insts_setInst_of_ne {i j : InstId} (hne : j ≠ i) (instruction : Instruction) :
    (f.setInst i instruction).insts[j]? = f.insts[j]? := by
  simp [setInst, hne.symm]

theorem getElem?_insts_setInst_self {i : InstId} (hi : i < f.insts.size)
    (instruction : Instruction) : (f.setInst i instruction).insts[i]? = some instruction := by
  simp [setInst, hi]

end Func

end Redzone
