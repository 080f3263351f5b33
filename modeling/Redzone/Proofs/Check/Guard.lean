import Redzone.Proofs.Check.Approach
import Redzone.Proofs.Instrumented

/-!
# Guards

A guard is the code in front of a checked access: from the instructions `front` on, which are the
rest of some block, control comes to `tail`, where the access is the first instruction.  Code that
checks by itself ends its block and goes on in another one (`InlineGuard`); code that calls a
checking routine stays in the block of the access (`CallGuard`).

The visit of a site with a checked access puts a guard in front of it (`inlineCheck_guards`,
`callCheck_guards`).
-/

namespace Redzone

/-- Code from `n` on that checks an access by itself. -/
inductive InlineGuard (g : Func) (config : Config) (symbols : SymbolTable) (access : MemAccess)
    (n : InstId) : (front tail : List InstId) → Prop
  | fixed {routine : SymbolId} {origin : Origin} {cont : BlockId} {tail : List InstId}
      (hfixed : EntryPoint.isFixedSize access.size = true)
      (hroutine : symbols.names[routine]? =
        some (EntryPoint.report access.kind access.size config.recover))
      (hholds : g.Holds n [.ptrToAddr access.ptr])
      (hstands : Check.Stands ⟨config.mapping, config.recover, routine, [.inst n], origin⟩ g (n + 1)
        (.inst n) access.size cont tail) :
      InlineGuard g config symbols access n (List.range' n 10) tail
  /-- The first byte is checked, then the last one. -/
  | unusual {routine : SymbolId} {origin : Origin} {cont cont' : BlockId} {m : InstId}
      {tail : List InstId} (hfixed : EntryPoint.isFixedSize access.size = false)
      (hroutine : symbols.names[routine]? =
        some (EntryPoint.report access.kind access.size config.recover))
      (hm : n + 4 ≤ m) (hholds : g.Holds n (Draft.endsOps access n))
      (hfirst : Check.Stands
        ⟨config.mapping, config.recover, routine, [.inst n, .inst (n + 3)], origin⟩ g (n + 4)
        (.inst n) 1 cont (List.range' m 9))
      (hlast : Check.Stands
        ⟨config.mapping, config.recover, routine, [.inst n, .inst (n + 3)], origin⟩ g m
        (.inst (n + 2)) 1 cont' tail) :
      InlineGuard g config symbols access n (List.range' n 13) tail

/-- Code from `n` on that has a routine check an access. -/
structure CallGuard (g : Func) (config : Config) (symbols : SymbolTable) (access : MemAccess)
    (n : InstId) (front tail : List InstId) : Prop where
  code : ∃ routine, symbols.names[routine]? =
      some (EntryPoint.check access.kind access.size config.recover) ∧
    g.Holds n (Draft.callOps access routine n) ∧
    front = List.range' n (Draft.callOps access routine n).length ++ tail

/-- Code from `n` on that checks an access, in the way that is chosen for a whole function. -/
def Guard (outlined : Bool) (g : Func) (config : Config) (symbols : SymbolTable)
    (access : MemAccess) (n : InstId) (front tail : List InstId) : Prop :=
  if outlined then CallGuard g config symbols access n front tail
  else InlineGuard g config symbols access n front tail

/-- A guard starts with the address of the access. -/
theorem Guard.head {outlined : Bool} {g : Func} {config : Config} {symbols : SymbolTable}
    {access : MemAccess} {n : InstId} {front tail : List InstId}
    (h : Guard outlined g config symbols access n front tail) :
    (∃ rest, front = n :: rest) ∧ ∃ origin, g.insts[n]? =
      some ⟨.ptrToAddr access.ptr, (Op.ptrToAddr access.ptr).addedTy, origin, true⟩ := by
  unfold Guard at h
  split at h
  · obtain ⟨routine, -, hholds, rfl⟩ := h.code
    obtain ⟨ops, hops⟩ : ∃ ops, Draft.callOps access routine n = .ptrToAddr access.ptr :: ops := by
      unfold Draft.callOps
      split <;> exact ⟨_, rfl⟩
    rw [hops] at hholds ⊢
    exact ⟨⟨_, by rw [List.length_cons, List.range'_succ, List.cons_append]⟩,
      (Func.holds_cons.mp hholds).1⟩
  · cases h with
    | fixed _ _ hholds _ => exact ⟨⟨_, List.range'_succ⟩, (Func.holds_cons.mp hholds).1⟩
    | unusual _ _ _ hholds _ _ => exact ⟨⟨_, List.range'_succ⟩, (Func.holds_cons.mp hholds).1⟩

/-! ### What the code in front of the checks computes -/

theorem execLine_ptrToAddr (x : Activation) {n : InstId} {ptr : Value} {p : Int} {s : State}
    (hp : s.env ptr = some p) :
    ∃ es t, execLine x n [.ptrToAddr ptr] s = some (es, t) ∧ t.memory = s.memory ∧
      t.stack = s.stack ∧ callsOf es = [] ∧ accessesOf es = [] ∧
      t.env (.inst n) = some (toAddress p : Int) := by
  simp [execLine, Op.exec, hp, Op.keeps, Op.addedTy, Op.resultTy?]

theorem execLine_endsOps (x : Activation) {n : InstId} {access : MemAccess} {p : Int} {s : State}
    (hp : s.env access.ptr = some p) :
    ∃ es t, execLine x n (Draft.endsOps access n) s = some (es, t) ∧ t.memory = s.memory ∧
      t.stack = s.stack ∧ callsOf es = [] ∧ accessesOf es = [] ∧
      t.env (.inst n) = some (toAddress p : Int) ∧
      t.env (.inst (n + 2)) = some ((toAddress p + (access.size - 1) : Nat) : Int) ∧
      t.env (.inst (n + 3)) = some (access.size : Int) := by
  simp [Draft.endsOps, execLine, Op.exec, hp, Op.keeps, Op.addedTy, Op.resultTy?, Env.set,
    Arith.eval, Nat.add_assoc]

/-! ### Grafts hold what they add -/

theorem Func.holds_graft {f : Func} {b : BlockId} {insts : List InstId} {origin : Origin}
    {ops : List Op} {fresh : List Block} :
    (f.graft b insts (addedCode origin ops) fresh).Holds f.insts.size ops := by
  intro k op hop
  rw [getElem?_insts_graft_add]
  exact ⟨origin, by simp [addedCode, hop]⟩

/-- A check stands in the function that its code and its blocks were grafted on. -/
theorem Check.Stands.of_graft {c : Check} {f g : Func} {b : BlockId} {insts tail : List InstId}
    {origin : Origin} {front back : List Op} {before after : List Block} {argStart size : Nat}
    {n : InstId} {addr : Value} {cont : BlockId}
    (hg : g = f.graft b insts (addedCode origin (front ++ (c.ops n addr size cont ++ back)))
      (before ++ (c.fresh argStart n addr size cont tail ++ after)))
    (hn : n = f.insts.size + front.length) (hcont : cont = f.blocks.size + before.length)
    (hsize : 0 < f.blocks.size) : c.Stands g n addr size cont tail := by
  have hblock (k : Nat) : g.blocks[cont + k]? =
      (c.fresh argStart n addr size cont tail ++ after)[k]? := by
    rw [hg, hcont, Nat.add_assoc, Func.getElem?_blocks_graft_add,
      List.getElem?_append_right (Nat.le_add_right _ _), Nat.add_sub_cancel_left]
  have hholds : g.Holds f.insts.size (front ++ (c.ops n addr size cont ++ back)) :=
    hg ▸ Func.holds_graft
  refine ⟨?_, ?_, ⟨_, hblock 0, rfl⟩, ⟨_, hblock 1, rfl⟩, fun hslow => ?_⟩
  · rw [hcont]
    exact (Nat.add_pos_left hsize _).ne'
  · rw [hn] at hholds ⊢
    exact (Func.holds_append.mp (Func.holds_append.mp hholds).2).1
  · have htwo : (c.fresh argStart n addr size cont tail ++ after)[2]? = some
        { argStart := argStart
          insts := List.range' (n + 9) (c.slowPart n addr size cont).length } := by
      simp [fresh, hslow]
    exact ⟨_, (hblock 2).trans htwo, rfl⟩

/-- A function that one check was grafted on has a guard, and this is all that was added. -/
theorem InlineGuard.of_graft_fixed {f g : Func} {config : Config} {symbols : SymbolTable}
    {access : MemAccess} {b : BlockId} {blk : Block} {pre rest : List InstId} {inst : InstId}
    {routine : SymbolId} {origin : Origin} {argStart : Nat} {c : Check}
    (hfixed : EntryPoint.isFixedSize access.size = true)
    (hroutine : symbols.names[routine]? =
      some (EntryPoint.report access.kind access.size config.recover))
    (hc : c = ⟨config.mapping, config.recover, routine, [.inst f.insts.size], origin⟩)
    (hblk : f.blocks[b]? = some blk)
    (hg : g = f.graft b (pre ++ List.range' f.insts.size 10)
      (addedCode origin (.ptrToAddr access.ptr ::
        c.ops (f.insts.size + 1) (.inst f.insts.size) access.size f.blocks.size))
      (c.fresh argStart (f.insts.size + 1) (.inst f.insts.size) access.size f.blocks.size
        (inst :: rest))) :
    InlineGuard g config symbols access f.insts.size (List.range' f.insts.size 10) (inst :: rest) ∧
      f.Approaches g inst := by
  have hpos : 0 < f.blocks.size := (Nat.zero_le b).trans_lt (Func.lt_size_of_getElem? hblk)
  have hg' : g = f.graft b (pre ++ List.range' f.insts.size 10)
      (addedCode origin ([.ptrToAddr access.ptr] ++
        (c.ops (f.insts.size + 1) (.inst f.insts.size) access.size f.blocks.size ++ [])))
      ([] ++ (c.fresh argStart (f.insts.size + 1) (.inst f.insts.size) access.size f.blocks.size
        (inst :: rest) ++ [])) := by
    simpa using hg
  have hholds : g.Holds f.insts.size ([.ptrToAddr access.ptr] ++
      (c.ops (f.insts.size + 1) (.inst f.insts.size) access.size f.blocks.size ++ [])) :=
    hg' ▸ Func.holds_graft
  have haddr := (Func.holds_append.mp hholds).1
  have hstands : c.Stands g (f.insts.size + 1) (.inst f.insts.size) access.size f.blocks.size
      (inst :: rest) := .of_graft hg' rfl rfl hpos
  constructor
  · subst hc
    exact .fixed hfixed hroutine haddr hstands
  · have hsize : g.blocks.size = f.blocks.size +
        (if c.mapping.needsSlowPath access.size then 3 else 2) := by
      rw [hg, Func.size_blocks_graft, Check.length_fresh]
    have hlisted : g.blocks[b]? = some { blk with insts := pre ++ List.range' f.insts.size 10 } :=
      hg ▸ Func.getElem?_blocks_graft_self hblk
    have hline : g.Approach f.insts.size [.ptrToAddr access.ptr] f.blocks.size f.blocks.size
        (f.insts.size + 1) :=
      .of_line haddr (by simp [Op.isLandmark]) (by simp) hpos hlisted rfl
    refine ⟨_, ?_, hline.check hstands rfl hlisted (show _ = pre ++ [f.insts.size] ++ _ by
      simp [List.range'_succ]) le_rfl (by omega) hsize.ge⟩
    simp [hg]

/-- A function that two checks were grafted on has a guard, and this is all that was added. -/
theorem InlineGuard.of_graft_unusual {f g : Func} {config : Config} {symbols : SymbolTable}
    {access : MemAccess} {b : BlockId} {blk : Block} {pre rest : List InstId} {inst : InstId}
    {routine : SymbolId} {origin : Origin} {argStart : Nat} {c : Check} {n m k : Nat}
    (hfixed : EntryPoint.isFixedSize access.size = false)
    (hroutine : symbols.names[routine]? =
      some (EntryPoint.report access.kind access.size config.recover))
    (hn : n = f.insts.size)
    (hc : c = ⟨config.mapping, config.recover, routine, [.inst n, .inst (n + 3)], origin⟩)
    (hm : m = n + 4 + (c.ops (n + 4) (.inst n) 1 f.blocks.size).length)
    (hk : k = f.blocks.size +
      (c.fresh argStart (n + 4) (.inst n) 1 f.blocks.size (List.range' m 9)).length)
    (hblk : f.blocks[b]? = some blk)
    (hg : g = f.graft b (pre ++ List.range' n 13)
      (addedCode origin (Draft.endsOps access n ++
        (c.ops (n + 4) (.inst n) 1 f.blocks.size ++ c.ops m (.inst (n + 2)) 1 k)))
      (c.fresh argStart (n + 4) (.inst n) 1 f.blocks.size (List.range' m 9) ++
        c.fresh argStart m (.inst (n + 2)) 1 k (inst :: rest))) :
    InlineGuard g config symbols access n (List.range' n 13) (inst :: rest) ∧
      f.Approaches g inst := by
  have hpos : 0 < f.blocks.size := (Nat.zero_le b).trans_lt (Func.lt_size_of_getElem? hblk)
  have hholds : g.Holds n (Draft.endsOps access n ++
      (c.ops (n + 4) (.inst n) 1 f.blocks.size ++ c.ops m (.inst (n + 2)) 1 k)) := by
    rw [hn] at hg ⊢
    exact hg ▸ Func.holds_graft
  have hends := (Func.holds_append.mp hholds).1
  have hg' : g = f.graft b (pre ++ List.range' n 13)
      (addedCode origin ((Draft.endsOps access n ++ c.ops (n + 4) (.inst n) 1 f.blocks.size) ++
        (c.ops m (.inst (n + 2)) 1 k ++ [])))
      (c.fresh argStart (n + 4) (.inst n) 1 f.blocks.size (List.range' m 9) ++
        (c.fresh argStart m (.inst (n + 2)) 1 k (inst :: rest) ++ [])) := by
    simpa using hg
  have hfirst : c.Stands g (n + 4) (.inst n) 1 f.blocks.size (List.range' m 9) :=
    .of_graft (show g = f.graft b _ _ ([] ++ _) from hg) (by rw [hn, Draft.length_endsOps]) rfl hpos
  have hlast : c.Stands g m (.inst (n + 2)) 1 k (inst :: rest) := .of_graft hg'
    (by rw [List.length_append, Draft.length_endsOps, hm, ← hn, Nat.add_assoc]) hk hpos
  constructor
  · subst hc
    refine .unusual hfixed hroutine ?_ hends hfirst hlast
    rw [hm]
    exact Nat.le_add_right _ _
  · have hsize : g.blocks.size = k + (if c.mapping.needsSlowPath 1 then 3 else 2) := by
      rw [hg, Func.size_blocks_graft, List.length_append, ← Nat.add_assoc, ← hk, Check.length_fresh]
    rw [Check.length_fresh] at hk
    have hlisted : g.blocks[b]? = some { blk with insts := pre ++ List.range' n 13 } :=
      hg ▸ Func.getElem?_blocks_graft_self hblk
    have hline : g.Approach n (Draft.endsOps access n) f.blocks.size f.blocks.size (n + 4) :=
      .of_line hends (Draft.isLandmark_endsOps access n) (by simp) hpos hlisted rfl
    -- the second check stands where the first one goes on
    have hboth := hline.check hfirst rfl hlisted
      (show _ = pre ++ List.range' n 4 ++ List.range' (n + 4) 9 by
        rw [List.append_assoc]; rfl) le_rfl
      (by omega) hk.ge
    obtain ⟨blk', hblk', hinsts'⟩ := hfirst.behind
    subst hn
    refine ⟨_, ?_, hboth.check hlast (by simp [hm, Nat.add_assoc]) hblk'
      (show blk'.insts = [] ++ _ from hinsts') (by omega) (by omega) hsize.ge⟩
    simp [hg]

/-- A function that a line of code was grafted on. -/
theorem Func.Approaches.of_graft_line {f g : Func} {b : BlockId} {blk : Block}
    {pre rest : List InstId} {inst : Nat} {origin : Origin} {ops : List Op}
    (hblk : f.blocks[b]? = some blk)
    (hg : g = f.graft b (pre ++ (List.range' f.insts.size ops.length ++ inst :: rest))
      (addedCode origin ops) []) (hplain : ∀ op ∈ ops, op.isLandmark = false)
    (hpos : 0 < ops.length) : f.Approaches g inst := by
  have hsize : g.blocks.size = f.blocks.size := by rw [hg, size_blocks_graft]; rfl
  refine ⟨ops, by simp [hg], ?_⟩
  rw [hsize]
  exact .of_line (hg ▸ holds_graft) hplain hpos
    ((Nat.zero_le b).trans_lt (lt_size_of_getElem? hblk)) (hg ▸ getElem?_blocks_graft_self hblk) rfl

theorem drop_of_getElem? {insts : List InstId} {pos : Nat} {i : InstId} (h : insts[pos]? = some i) :
    insts.drop pos = i :: insts.drop (pos + 1) := by
  obtain ⟨hpos, rfl⟩ := List.getElem?_eq_some_iff.mp h
  exact List.drop_eq_getElem_cons hpos

namespace Draft

variable {config : Config} {d d' : Draft} {site : Site} {access : MemAccess} {i : Instruction}
  {blk : Block}

theorem names_useReport :
    (d.useReport config access).1.symbols.names[(d.useReport config access).2]? =
      some (EntryPoint.report access.kind access.size config.recover) :=
  d.symbols.names_intern _

theorem names_useCheck :
    (d.useCheck config access).1.symbols.names[(d.useCheck config access).2]? =
      some (EntryPoint.check access.kind access.size config.recover) :=
  d.symbols.names_intern _

theorem refers_addedCode {origin : Origin} {ops : List Op} {n m : Nat}
    (h : ∀ op ∈ ops, op.Refers n m) : ∀ instruction ∈ addedCode origin ops,
      instruction.op.Refers n m := by
  intro instruction hmem
  obtain ⟨op, hop, rfl⟩ := List.mem_map.mp hmem
  exact h op hop

section

variable (hinst : d.func.insts[site.inst]? = some i)
  (hblk : d.func.blocks[site.block]? = some blk) (hget : blk.insts[site.pos]? = some site.inst)
  (hptr : access.ptr.Below d.func.insts.size)

include hinst hblk hget hptr

variable (config) in
/-- The visit that has a routine check an access. -/
theorem callCheck_guards : ∃ d' front, d.callCheck config site access = .ok d' ∧
    d.func.Turns d'.func site.block blk site.pos front ∧ d.symbols.GrowsTo d'.symbols ∧
    CallGuard d'.func config d'.symbols access d.func.insts.size front
      (blk.insts.drop site.pos) ∧ d.func.Approaches d'.func site.inst := by
  have hpos := (List.getElem?_eq_some_iff.mp hget).1.le
  refine ⟨_, _, callCheck_eq hinst hblk hpos, ⟨_, _, rfl, ?_, refers_addedCode ?_⟩,
    d.symbols.growsTo_intern _, ⟨_, names_useCheck, Func.holds_graft, rfl⟩,
    .of_graft_line hblk (by rw [← drop_of_getElem? hget]) (isLandmark_callOps _ _ _) ?_⟩
  · conv => rhs; rw [← List.take_append_drop site.pos blk.insts]
    rw [Check.length_addedCode, List.flatMap_nil, List.append_nil, List.append_assoc]
    exact List.perm_append_comm.append_left _
  · rw [Check.length_addedCode]
    exact refers_callOps (hptr.mono (Nat.le_add_right _ _)) le_rfl
  · unfold callOps
    split <;> simp

/-- One check in front of an access. -/
theorem inlineCheck_guards_of_fixed (hfixed : EntryPoint.isFixedSize access.size = true) :
    ∃ d' front, d.inlineCheck config site access = .ok d' ∧
      d.func.Turns d'.func site.block blk site.pos front ∧ d.symbols.GrowsTo d'.symbols ∧
      InlineGuard d'.func config d'.symbols access d.func.insts.size front
        (blk.insts.drop site.pos) ∧ d.func.Approaches d'.func site.inst := by
  have hpos := (List.getElem?_eq_some_iff.mp hget).1.le
  generalize hc : Check.mk config.mapping config.recover (d.useReport config access).2
    [.inst d.func.insts.size] i.origin = c
  have hargs : ∀ v ∈ c.args, v.Below (d.func.insts.size + 1) := by
    simp [← hc]
  have hperm := c.fresh_listed_perm (d.func.insts.size + 1) (.inst d.func.insts.size) access.size
    d.func.blocks.size d.func.blockArgs.size (blk.insts.drop site.pos)
  refine ⟨_, _, inlineCheck_eq_of_fixed hinst hblk hpos hfixed hc.symm,
    ⟨_, _, rfl, ?_, refers_addedCode ?_⟩, d.symbols.growsTo_intern _, ?_⟩
  · have hten : List.range' d.func.insts.size 10 =
        d.func.insts.size :: List.range' (d.func.insts.size + 1) 9 := rfl
    rw [List.perm_iff_count] at hperm ⊢
    intro j
    have hj := hperm j
    conv => rhs; rw [← List.take_append_drop site.pos blk.insts]
    simp only [Check.length_addedCode, List.length_cons, hten, List.range'_succ, List.count_append,
      List.count_cons] at hj ⊢
    omega
  · rw [Check.length_addedCode, List.forall_mem_cons, List.length_cons]
    refine ⟨⟨by simpa [Op.operands] using hptr.mono (Nat.le_add_right _ _),
      by simp [Op.successors]⟩, Check.refers_ops (by simp) hargs (by omega) ?_⟩
    rw [Check.length_fresh, Check.length_fresh]
  · rw [drop_of_getElem? hget]
    exact InlineGuard.of_graft_fixed hfixed names_useReport hc.symm hblk rfl

/-- Two checks in front of an access. -/
theorem inlineCheck_guards_of_unusual (hfixed : EntryPoint.isFixedSize access.size = false) :
    ∃ d' front, d.inlineCheck config site access = .ok d' ∧
      d.func.Turns d'.func site.block blk site.pos front ∧ d.symbols.GrowsTo d'.symbols ∧
      InlineGuard d'.func config d'.symbols access d.func.insts.size front
        (blk.insts.drop site.pos) ∧ d.func.Approaches d'.func site.inst := by
  have hpos := (List.getElem?_eq_some_iff.mp hget).1.le
  generalize hn : d.func.insts.size = n at hptr
  generalize hc : Check.mk config.mapping config.recover (d.useReport config access).2
    [.inst n, .inst (n + 3)] i.origin = c
  generalize hm : n + 4 + (c.ops (n + 4) (.inst n) 1 d.func.blocks.size).length = m
  generalize hk : d.func.blocks.size +
    (c.fresh 0 (n + 4) (.inst n) 1 d.func.blocks.size []).length = k
  have hargs : ∀ v ∈ c.args, v.Below (n + 4) := by
    simp [← hc]
  have hle : n + 4 ≤ m := by omega
  -- two checks are put in; where the blocks of the second start depends on the first
  have hlength (argStart : Nat) (tail : List InstId) :
      (c.fresh argStart (n + 4) (.inst n) 1 d.func.blocks.size tail).length =
        (c.fresh 0 (n + 4) (.inst n) 1 d.func.blocks.size []).length := by
    rw [Check.length_fresh, Check.length_fresh]
  have hlength' : (c.fresh d.func.blockArgs.size m (.inst (n + 2)) 1 k
      (blk.insts.drop site.pos)).length = (c.fresh 0 m (.inst (n + 2)) 1 k []).length := by
    rw [Check.length_fresh, Check.length_fresh]
  have hfirst := c.fresh_listed_perm (n + 4) (.inst n) 1 d.func.blocks.size
    d.func.blockArgs.size (List.range' m 9)
  have hlast := c.fresh_listed_perm m (.inst (n + 2)) 1 k d.func.blockArgs.size
    (blk.insts.drop site.pos)
  refine ⟨_, _, inlineCheck_eq_of_unusual hinst hblk hpos hfixed hn.symm hc.symm hm.symm hk.symm,
    ⟨_, _, rfl, ?_, refers_addedCode ?_⟩, d.symbols.growsTo_intern _, ?_⟩
  · -- what is listed is counted: both checks list their code and what is behind them
    have hthirteen : List.range' n 13 = List.range' n 4 ++ List.range' (n + 4) 9 := rfl
    rw [List.perm_iff_count] at hfirst hlast ⊢
    intro j
    have hj := hfirst j
    have hj' := hlast j
    conv => rhs; rw [← List.take_append_drop site.pos blk.insts]
    simp only [Check.length_addedCode, List.length_append, length_endsOps, hn, hthirteen,
      ← List.range'_append_1, hm, List.flatMap_append, List.count_append] at hj hj' ⊢
    omega
  · rw [Check.length_addedCode, List.length_append, length_endsOps, List.length_append,
      List.length_append, hn, hlength, hlength']
    simp only [List.forall_mem_append]
    refine ⟨refers_endsOps (hptr.mono (Nat.le_add_right _ _)) (by omega),
      Check.refers_ops (by simp) hargs (by omega) (by omega),
      Check.refers_ops (by simp; omega) (fun v hv => (hargs v hv).mono hle) (by omega)
        (by omega)⟩
  · rw [drop_of_getElem? hget]
    exact InlineGuard.of_graft_unusual hfixed names_useReport hn.symm hc.symm hm.symm
      (by rw [hlength, hk]) hblk rfl

variable (config) in
/-- The visit that has the code check an access by itself. -/
theorem inlineCheck_guards :
    ∃ d' front, d.inlineCheck config site access = .ok d' ∧
      d.func.Turns d'.func site.block blk site.pos front ∧ d.symbols.GrowsTo d'.symbols ∧
      InlineGuard d'.func config d'.symbols access d.func.insts.size front
        (blk.insts.drop site.pos) ∧ d.func.Approaches d'.func site.inst := by
  cases hfixed : EntryPoint.isFixedSize access.size with
  | true => exact inlineCheck_guards_of_fixed hinst hblk hget hptr hfixed
  | false => exact inlineCheck_guards_of_unusual hinst hblk hget hptr hfixed

end

end Draft

end Redzone
