import Redzone.Proofs.Visits

/-!
# Guards last

Code that is added later leaves a guard as it is.  An edit cuts a block in two and puts code in
between (`Func.Cut`); what it was before does not matter here.  A guard may span several blocks, and
its access may be moved to another one, so that neither can be followed by its place.  Both are
followed by what stands next to them.

* A cut never goes through the code of a guard, nor between the guard and its access, because it is
  made in front of an instruction of the function as it was, of a lifetime marker or of an exit, or
  right behind the parameters (`Func.CutPoint`).  A guard contains nothing of this kind
  (`CutPoint.outside`).
* The start and the end of a block stay if the cut is behind or in front of them
  (`Cut.exists_start`, `Cut.exists_end`).  Block by block this gives `InlineGuard.cut`, and with it
  `GuardedFrom.cut`: a guard stays in front of its access.
* Nothing else comes in front of its code (`Func.Approach.cut`).

Visits of other sites are such cuts (`Visits.cuts`), and so are the edits that add a frame.
-/

namespace Redzone

namespace Func

/-- `g` is `f` with code put at place `pos` of block `b`, which was `blk`: what was in front of that
place is still at the start of the block, and what was behind it is still at the end of some block.
The instructions from `n` on are kept. -/
structure Cut (n : InstId) (f g : Func) (b : BlockId) (blk : Block) (pos : Nat) : Prop where
  insts : ∀ i : Nat, n ≤ i → i < f.insts.size → g.insts[i]? = f.insts[i]?
  others : ∀ c : Nat, c ≠ b → c < f.blocks.size → g.blocks[c]? = f.blocks[c]?
  head : ∃ (blk' : Block) (more : List InstId),
    g.blocks[b]? = some blk' ∧ blk'.insts = blk.insts.take pos ++ more
  tail : ∃ (c : BlockId) (blk' : Block) (pre : List InstId),
    g.blocks[c]? = some blk' ∧ blk'.insts = pre ++ blk.insts.drop pos

namespace Cut

variable {n : InstId} {f g : Func} {b c : BlockId} {blk blk' : Block} {pos : Nat}
  {pre post : List InstId}

/-- The start of a block stays if the cut is behind it. -/
theorem exists_start (h : f.Cut n g b blk pos) (hblk : f.blocks[b]? = some blk)
    (hblk' : f.blocks[c]? = some blk') (hinsts : blk'.insts = pre ++ post)
    (hpos : c = b → pre.length ≤ pos) :
    ∃ (blk'' : Block) (post' : List InstId), g.blocks[c]? = some blk'' ∧
      blk''.insts = pre ++ post' := by
  by_cases hc : c = b
  · subst hc
    obtain rfl : blk = blk' := Option.some.inj (hblk.symm.trans hblk')
    obtain ⟨blk'', more, hblk'', hmore⟩ := h.head
    refine ⟨blk'', post.take (pos - pre.length) ++ more, hblk'', ?_⟩
    rw [hmore, hinsts, List.take_append, List.take_of_length_le (hpos rfl), List.append_assoc]
  · exact ⟨blk', post, (h.others c hc (lt_size_of_getElem? hblk')).trans hblk', hinsts⟩

/-- The end of a block stays if the cut is in front of it. -/
theorem exists_end (h : f.Cut n g b blk pos) (hblk : f.blocks[b]? = some blk)
    (hblk' : f.blocks[c]? = some blk') (hinsts : blk'.insts = pre ++ post)
    (hpos : c = b → pos ≤ pre.length) :
    ∃ (c' : BlockId) (blk'' : Block) (pre' : List InstId),
      g.blocks[c']? = some blk'' ∧ blk''.insts = pre' ++ post := by
  by_cases hc : c = b
  · subst hc
    obtain rfl : blk = blk' := Option.some.inj (hblk.symm.trans hblk')
    obtain ⟨c', blk'', pre', hblk'', hpre'⟩ := h.tail
    rw [hinsts, List.drop_append_of_le_length (hpos rfl), ← List.append_assoc] at hpre'
    exact ⟨c', blk'', _, hblk'', hpre'⟩
  · exact ⟨c, blk', pre, (h.others c hc (lt_size_of_getElem? hblk')).trans hblk', hinsts⟩

theorem holds (h : f.Cut n g b blk pos) {m : InstId} {ops : List Op} (hm : n ≤ m)
    (hholds : f.Holds m ops) : g.Holds m ops := by
  intro k op hop
  obtain ⟨origin, hinst⟩ := hholds k op hop
  refine ⟨origin, ?_⟩
  rw [h.insts _ (hm.trans (Nat.le_add_right m k)) (Array.getElem?_eq_some_iff.mp hinst).1, hinst]

/-- What was listed is listed still. -/
theorem mem_listed (h : f.Cut n g b blk pos) (hblk : f.blocks[b]? = some blk) {i : InstId}
    (hi : i ∈ f.listed) : i ∈ g.listed := by
  obtain ⟨c, blk', hblk', hi⟩ := exists_of_mem_listed hi
  by_cases hc : c = b
  · subst hc
    obtain rfl : blk = blk' := Option.some.inj (hblk.symm.trans hblk')
    rw [← List.take_append_drop pos blk.insts, List.mem_append] at hi
    rcases hi with hi | hi
    · obtain ⟨blk', more, hblk', hinsts⟩ := h.head
      exact Func.mem_listed hblk' (hinsts ▸ List.mem_append_left more hi)
    · obtain ⟨c', blk', pre, hblk', hinsts⟩ := h.tail
      exact Func.mem_listed hblk' (hinsts ▸ List.mem_append_right pre hi)
  · exact Func.mem_listed ((h.others c hc (lt_size_of_getElem? hblk')).trans hblk') hi

theorem setInst (h : f.Cut n g b blk pos) {i : InstId} (hi : i < n) (instruction : Instruction) :
    f.Cut n (g.setInst i instruction) b blk pos where
  insts j hj hsize := by
    rw [getElem?_insts_setInst_of_ne (hi.trans_le hj).ne', h.insts j hj hsize]
  others := h.others
  head := h.head
  tail := h.tail

theorem of_insertCode {code : List Instruction} (hblk : f.blocks[b]? = some blk)
    (h : f.insertCode b pos code = .ok g) : f.Cut n g b blk pos := by
  obtain ⟨blk', hblk', hpos, rfl⟩ := insertCode_eq_ok h
  obtain rfl : blk = blk' := Option.some.inj (hblk.symm.trans hblk')
  refine ⟨fun i _ hi => getElem?_insts_graft_of_lt hi,
    fun c hc hsize => getElem?_blocks_graft_of_ne hc hsize,
    ⟨_, _, getElem?_blocks_graft_self hblk, List.append_assoc _ _ _⟩,
    b, _, _, getElem?_blocks_graft_self hblk, rfl⟩

theorem of_same_code (hinsts : g.insts = f.insts) (hblocks : g.blocks = f.blocks)
    (hblk : f.blocks[b]? = some blk) : f.Cut n g b blk pos where
  insts _ _ _ := by rw [hinsts]
  others _ _ _ := by rw [hblocks]
  head := ⟨blk, blk.insts.drop pos, by rw [hblocks, hblk], (List.take_append_drop _ _).symm⟩
  tail := ⟨b, blk, blk.insts.take pos, by rw [hblocks, hblk], (List.take_append_drop _ _).symm⟩

theorem of_turns {front : List InstId} (hblk : f.blocks[b]? = some blk)
    (hturns : f.Turns g b blk pos front)
    (htail : ∃ (c : BlockId) (blk' : Block) (pre : List InstId),
      g.blocks[c]? = some blk' ∧ blk'.insts = pre ++ blk.insts.drop pos) :
    f.Cut n g b blk pos where
  insts _ _ hi := hturns.getElem?_insts hi
  others _ hc hsize := hturns.getElem?_blocks_of_ne hc hsize
  head := ⟨_, front, hturns.getElem?_blocks_self hblk, rfl⟩
  tail := htail

end Cut

/-! ### Where cuts are made -/

/-- An instruction from before `n`, or a landmark. -/
def Apart (f : Func) (n i : InstId) : Prop :=
  i < n ∨ ∃ instruction, f.insts[i]? = some instruction ∧ instruction.op.isLandmark = true

/-- Code from `n` on that has no landmarks has no such instruction. -/
theorem Apart.not_mem_range' {f : Func} {n m i : InstId} {ops : List Op} (h : f.Apart n i)
    (hm : n ≤ m) (hholds : f.Holds m ops) (hops : ∀ op ∈ ops, op.isLandmark = false) :
    i ∉ List.range' m ops.length := by
  intro hi
  obtain ⟨k, hk, rfl⟩ := List.mem_range'.mp hi
  rw [Nat.one_mul] at h
  rcases h with hlt | ⟨instruction, hinst, hlandmark⟩
  · exact absurd hlt (Nat.not_lt.mpr (hm.trans (Nat.le_add_right m k)))
  · obtain ⟨origin, hinst'⟩ := hholds k ops[k] (List.getElem?_eq_getElem hk)
    obtain rfl := Option.some.inj (hinst.symm.trans hinst')
    exact absurd hlandmark (by simp [hops _ (List.getElem_mem hk)])

/-- Where an edit may cut block `b` when the access `inst` is guarded. -/
inductive CutPoint (f : Func) (n inst : InstId) (b : BlockId) (blk : Block) (pos : Nat) : Prop
  | before {i : InstId} (hget : blk.insts[pos]? = some i) (hne : i ≠ inst) (hapart : f.Apart n i)
  | prologue (hentry : b = 0) (hapart : ∀ i ∈ blk.insts.take pos, f.Apart n i)

namespace CutPoint

variable {f : Func} {n m inst : InstId} {b : BlockId} {blk : Block} {pos : Nat} {ops : List Op}

/-- A cut is in front of code that has no landmarks, or behind it at another instruction than the
access. -/
theorem outside (h : f.CutPoint n inst b blk pos) (hm : n ≤ m) (hholds : f.Holds m ops)
    (hops : ∀ op ∈ ops, op.isLandmark = false) (hlength : 0 < ops.length) {pre post : List InstId}
    (hinsts : blk.insts = pre ++ (List.range' m ops.length ++ post)) :
    pos ≤ pre.length ∨ ∃ k i, pos = pre.length + ops.length + k ∧ post[k]? = some i ∧ i ≠ inst := by
  rcases Nat.le_total pos pre.length with hpos | hpos
  · exact .inl hpos
  cases h with
  | @before i hget hne hapart =>
      rw [hinsts, List.getElem?_append_right hpos] at hget
      rcases Nat.lt_or_ge (pos - pre.length) ops.length with hlt | hge
      · rw [List.getElem?_append_left (by rwa [List.length_range'])] at hget
        exact absurd (List.mem_of_getElem? hget) (hapart.not_mem_range' hm hholds hops)
      · rw [List.getElem?_append_right (by rwa [List.length_range']), List.length_range'] at hget
        exact .inr ⟨_, i, by omega, hget, hne⟩
  | prologue _ hapart =>
      -- the code's first instruction is none of those in front of the cut
      left
      by_contra hlt
      have hfirst : m ∈ blk.insts.take pos := by
        rw [hinsts, List.take_append, List.mem_append, List.take_append, List.mem_append]
        refine .inr (.inl ?_)
        rw [List.mem_take_iff_getElem]
        exact ⟨0, by rw [List.length_range']; omega, by simp⟩
      refine (hapart m hfirst).not_mem_range' hm hholds hops ?_
      rw [List.mem_range'_1]
      omega

theorem ne_of_code (h : f.CutPoint n inst b blk pos) (hb : b ≠ 0) (hm : n ≤ m)
    (hholds : f.Holds m ops) (hops : ∀ op ∈ ops, op.isLandmark = false) :
    blk.insts ≠ List.range' m ops.length := by
  intro hinsts
  cases h with
  | @before i hget _ hapart =>
      rw [hinsts] at hget
      exact hapart.not_mem_range' hm hholds hops (List.mem_of_getElem? hget)
  | prologue hentry _ => exact hb hentry

end CutPoint

/-- Cuts, one after the other, that leave the access `inst` together with its guard. -/
abbrev Cuts (n inst : InstId) : Func → Func → Prop :=
  Relation.ReflTransGen fun f g => ∃ (b : BlockId) (blk : Block) (pos : Nat),
    f.blocks[b]? = some blk ∧ f.Cut n g b blk pos ∧ f.CutPoint n inst b blk pos

/-- The code `ops` from place `m` on is listed directly in front of `inst`. -/
def InFront (f : Func) (m : InstId) (ops : List Op) (inst : InstId) : Prop :=
  f.Holds m ops ∧ ∃ (b : BlockId) (blk : Block) (pre rest : List InstId),
    f.blocks[b]? = some blk ∧ blk.insts = pre ++ (List.range' m ops.length ++ inst :: rest)

/-- Code stays in front of an instruction if it has no landmarks. -/
theorem InFront.cut {f g : Func} {n m inst : InstId} {ops : List Op} {b : BlockId} {blk : Block}
    {pos : Nat} (h : f.InFront m ops inst) (hcut : f.Cut n g b blk pos)
    (hblk : f.blocks[b]? = some blk) (hpoint : f.CutPoint n inst b blk pos) (hm : n ≤ m)
    (hops : ∀ op ∈ ops, op.isLandmark = false) : g.InFront m ops inst := by
  obtain ⟨hholds, c, blk', pre, rest, hblk', hinsts⟩ := h
  refine ⟨hcut.holds hm hholds, ?_⟩
  by_cases hc : c = b ∧ pre.length < pos
  · -- the cut is behind the instruction
    obtain ⟨rfl, hlt⟩ := hc
    obtain rfl : blk = blk' := Option.some.inj (hblk.symm.trans hblk')
    have hpos : pre.length + ops.length < pos := by
      rcases Nat.eq_zero_or_pos ops.length with hlength | hlength
      · rwa [hlength]
      · rcases hpoint.outside hm hholds hops hlength hinsts with hpos | ⟨k, i, hpos, hget, hne⟩
        · omega
        · have hk : k ≠ 0 := by
            rintro rfl
            exact hne (Option.some.inj hget).symm
          omega
    rw [List.append_cons, ← List.append_assoc] at hinsts
    obtain ⟨blk'', rest', hblk'', hinsts'⟩ := hcut.exists_start hblk hblk' hinsts fun _ => by
      simp only [List.length_append, List.length_range', List.length_singleton]
      omega
    exact ⟨c, blk'', pre, rest', hblk'', by simp [hinsts']⟩
  · obtain ⟨c', blk'', pre', hblk'', hinsts'⟩ :=
      hcut.exists_end hblk hblk' hinsts fun hb => Nat.not_lt.mp fun hlt => hc ⟨hb, hlt⟩
    exact ⟨c', blk'', pre', rest, hblk'', hinsts'⟩

end Func

/-! ### Guarded accesses -/

section

variable {n₀ inst : Nat} {f g : Func} {b : BlockId} {blk : Block} {pos : Nat}

/-- A check stays where it is; what is behind it may be another list. -/
theorem Check.Stands.cut {c : Check} {n : Nat} {addr : Value} {size : Nat} {cont : BlockId}
    {tail tail' : List InstId} (h : c.Stands f n addr size cont tail)
    (hcut : f.Cut n₀ g b blk pos) (hblk : f.blocks[b]? = some blk)
    (hpoint : f.CutPoint n₀ inst b blk pos) (hn : n₀ ≤ n)
    (hbehind : ∃ blk', g.blocks[cont]? = some blk' ∧ blk'.insts = tail') :
    c.Stands g n addr size cont tail' := by
  have hops := c.isLandmark_ops n addr size cont
  have hslowOps : ∀ op ∈ c.slowPart n addr size cont, op.isLandmark = false :=
    fun op hop => hops op (by simp [ops, hop])
  have hreportOps : ∀ op ∈ c.reportPart n addr size cont, op.isLandmark = false :=
    fun op hop => hops op (by simp [ops, hop])
  -- the blocks of the check are not cut, for they hold nothing but its code
  have hkept : ∀ {k : Nat} {m : InstId} {code : List Op} {blk' : Block}, n₀ ≤ m →
      f.Holds m code → (∀ op ∈ code, op.isLandmark = false) →
      f.blocks[cont + k]? = some blk' → blk'.insts = List.range' m code.length →
      ∃ blk'', g.blocks[cont + k]? = some blk'' ∧ blk''.insts = List.range' m code.length := by
    intro k m code blk' hm hholds hcode hblk' hinsts
    refine ⟨blk', ?_, hinsts⟩
    rw [hcut.others _ ?_ (Func.lt_size_of_getElem? hblk'), hblk']
    rintro rfl
    obtain rfl : blk = blk' := Option.some.inj (hblk.symm.trans hblk')
    exact hpoint.ne_of_code (Nat.add_pos_left (Nat.pos_of_ne_zero h.entry) k).ne' hm hholds hcode
      hinsts
  refine ⟨h.entry, hcut.holds hn h.code, hbehind, ?_, fun hslow => ?_⟩
  · obtain ⟨blk', hblk', hinsts⟩ := h.report
    exact hkept (by rw [reportStart]; omega) h.holds_report hreportOps hblk'
      (by rw [hinsts, length_reportPart])
  · obtain ⟨blk', hblk', hinsts⟩ := h.slow hslow
    exact hkept (by omega) h.holds_slow hslowOps hblk' hinsts

variable {config : Config} {symbols symbols' : SymbolTable} {access : MemAccess}

/-- The code behind a check stays if it starts with the guarded access. -/
theorem exists_behind_of_cut {cont : BlockId} {blk' : Block} {rest : List InstId}
    (hcut : f.Cut n₀ g b blk pos) (hblk : f.blocks[b]? = some blk)
    (hpoint : f.CutPoint n₀ inst b blk pos) (hcont : cont ≠ 0)
    (hblk' : f.blocks[cont]? = some blk') (hinsts : blk'.insts = inst :: rest) :
    ∃ rest', ∃ blk'' : Block, g.blocks[cont]? = some blk'' ∧ blk''.insts = inst :: rest' := by
  obtain ⟨blk'', rest', hblk'', hinsts''⟩ := hcut.exists_start hblk hblk'
    (show blk'.insts = [inst] ++ rest from hinsts) fun hb => by
      subst hb
      obtain rfl : blk = blk' := Option.some.inj (hblk.symm.trans hblk')
      cases hpoint with
      | before hget hne _ =>
          rw [List.length_singleton, Nat.one_le_iff_ne_zero]
          rintro rfl
          rw [hinsts, List.getElem?_cons_zero] at hget
          exact hne (Option.some.inj hget).symm
      | prologue hentry _ => exact absurd hentry hcont
  exact ⟨rest', blk'', hblk'', hinsts''⟩

/-- What a guard lists at the end of a block is code without landmarks. -/
theorem InlineGuard.front_code {n : Nat} {front tail : List InstId}
    (h : InlineGuard g config symbols access n front tail) :
    ∃ ops : List Op, front = List.range' n ops.length ∧ 0 < ops.length ∧ g.Holds n ops ∧
      ∀ op ∈ ops, op.isLandmark = false := by
  cases h with
  | fixed _ _ hholds hstands =>
      refine ⟨_ ++ _, ?_, ?_, Func.holds_append.mpr ⟨hholds, hstands.holds_probe⟩, ?_⟩
      · simp [Check.length_probeCode]
      · simp
      · rw [List.forall_mem_append]
        exact ⟨by simp [Op.isLandmark], Check.isLandmark_probe _ _ _ _ _⟩
  | unusual _ _ _ hholds hfirst _ =>
      refine ⟨_ ++ _, ?_, ?_, Func.holds_append.mpr ⟨hholds, hfirst.holds_probe⟩, ?_⟩
      · simp [Check.length_probeCode]
      · simp
      · rw [List.forall_mem_append]
        exact ⟨Draft.isLandmark_endsOps _ _, Check.isLandmark_probe _ _ _ _ _⟩

theorem InlineGuard.cut {n : Nat} {front rest : List InstId}
    (h : InlineGuard f config symbols access n front (inst :: rest))
    (hcut : f.Cut n₀ g b blk pos) (hblk : f.blocks[b]? = some blk)
    (hpoint : f.CutPoint n₀ inst b blk pos) (hn : n₀ ≤ n) (hgrows : symbols.GrowsTo symbols') :
    ∃ rest', InlineGuard g config symbols' access n front (inst :: rest') := by
  cases h with
  | fixed hfixed hroutine hholds hstands =>
      obtain ⟨blk', hblk', hinsts⟩ := hstands.behind
      obtain ⟨rest', hbehind⟩ :=
        exists_behind_of_cut hcut hblk hpoint hstands.entry hblk' hinsts
      exact ⟨rest', .fixed hfixed (hgrows _ _ hroutine) (hcut.holds hn hholds)
        (hstands.cut hcut hblk hpoint (hn.trans (Nat.le_succ n)) hbehind)⟩
  | @unusual routine origin cont cont' m tail hfixed hroutine hm hholds hfirst hlast =>
      obtain ⟨blk', hblk', hinsts⟩ := hlast.behind
      obtain ⟨rest', hbehind⟩ := exists_behind_of_cut hcut hblk hpoint hlast.entry hblk' hinsts
      have hle : n₀ ≤ n + 4 := hn.trans (Nat.le_add_right n 4)
      -- behind the first check there is the probe of the second one
      have hprobe : ∃ blk', g.blocks[cont]? = some blk' ∧ blk'.insts = List.range' m 9 := by
        obtain ⟨blk', hblk', hinsts⟩ := hfirst.behind
        refine ⟨blk', ?_, hinsts⟩
        rw [hcut.others _ ?_ (Func.lt_size_of_getElem? hblk'), hblk']
        rintro rfl
        obtain rfl : blk = blk' := Option.some.inj (hblk.symm.trans hblk')
        refine hpoint.ne_of_code hfirst.entry (hle.trans hm) hlast.holds_probe
          (Check.isLandmark_probe _ _ _ _ _) ?_
        rw [hinsts, List.length_append, Check.length_probeCode]
        rfl
      exact ⟨rest', .unusual hfixed (hgrows _ _ hroutine) hm (hcut.holds hn hholds)
        (hfirst.cut hcut hblk hpoint hle hprobe)
        (hlast.cut hcut hblk hpoint (hle.trans hm) hbehind)⟩

/-- The access `inst` has a guard in front of it, which starts at `n`. -/
def GuardedFrom (outlined : Bool) (g : Func) (config : Config) (symbols : SymbolTable)
    (access : MemAccess) (inst : InstId) (n : Nat) : Prop :=
  ∃ (b : BlockId) (blk : Block) (pre front rest : List InstId), g.blocks[b]? = some blk ∧
    blk.insts = pre ++ front ∧ Guard outlined g config symbols access n front (inst :: rest)

/-- The access `inst` has a guard in front of it, made of instructions from `n₀` on. -/
def Guarded (outlined : Bool) (g : Func) (config : Config) (symbols : SymbolTable) (n₀ : Nat)
    (access : MemAccess) (inst : InstId) : Prop :=
  ∃ (n : Nat) (b : BlockId) (blk : Block) (pre front rest : List InstId), n₀ ≤ n ∧
    g.blocks[b]? = some blk ∧ blk.insts = pre ++ front ∧
    Guard outlined g config symbols access n front (inst :: rest)

/-- A cut leaves a guard in front of its access. -/
theorem GuardedFrom.cut {outlined : Bool} {n : Nat}
    (h : GuardedFrom outlined f config symbols access inst n) (hcut : f.Cut n₀ g b blk pos)
    (hblk : f.blocks[b]? = some blk) (hpoint : f.CutPoint n₀ inst b blk pos) (hn : n₀ ≤ n)
    (hgrows : symbols.GrowsTo symbols') :
    GuardedFrom outlined g config symbols' access inst n := by
  obtain ⟨c, blk', pre, front, rest, hblk', hinsts, hguard⟩ := h
  cases outlined with
  | false =>
      obtain ⟨rest', hguard'⟩ :=
        InlineGuard.cut (show InlineGuard f config symbols access n front (inst :: rest) from
          hguard)
          hcut hblk hpoint hn hgrows
      obtain ⟨ops, rfl, hlength, hholds, hops⟩ :=
        InlineGuard.front_code (show InlineGuard f config symbols access n front _ from hguard)
      obtain ⟨c', blk'', pre', hblk'', hinsts'⟩ := hcut.exists_end hblk hblk' hinsts fun hc => by
        subst hc
        obtain rfl : blk = blk' := Option.some.inj (hblk.symm.trans hblk')
        rw [← List.append_nil (List.range' n ops.length)] at hinsts
        rcases hpoint.outside hn hholds hops hlength hinsts with hpos | ⟨k, i, -, hget, -⟩
        · exact hpos
        · cases hget
      exact ⟨c', blk'', pre', _, rest', hblk'', hinsts', hguard'⟩
  | true =>
      obtain ⟨routine, hname, hholds, rfl⟩ :=
        (show CallGuard f config symbols access n front (inst :: rest) from hguard).code
      have hfront : f.InFront n (Draft.callOps access routine n) inst :=
        ⟨hholds, c, blk', pre, rest, hblk', hinsts⟩
      obtain ⟨hholds', c', blk'', pre', rest', hblk'', hinsts'⟩ :=
        hfront.cut hcut hblk hpoint hn (Draft.isLandmark_callOps access routine n)
      exact ⟨c', blk'', pre', _, rest', hblk'', hinsts',
        show CallGuard g config symbols' access n _ _ from
          ⟨routine, hgrows _ _ hname, hholds', rfl⟩⟩

theorem Guard.mono {outlined : Bool} {n : Nat} {front tail : List InstId}
    (h : Guard outlined g config symbols access n front tail) (hgrows : symbols.GrowsTo symbols') :
    Guard outlined g config symbols' access n front tail := by
  cases outlined with
  | true =>
      obtain ⟨routine, hname, hcode⟩ :=
        (show CallGuard g config symbols access n front tail from h).code
      exact show CallGuard g config symbols' access n front tail from
        ⟨routine, hgrows _ _ hname, hcode⟩
  | false =>
      show InlineGuard g config symbols' access n front tail
      cases (show InlineGuard g config symbols access n front tail from h) with
      | fixed hfixed hroutine hholds hstands =>
          exact .fixed hfixed (hgrows _ _ hroutine) hholds hstands
      | unusual hfixed hroutine hm hholds hfirst hlast =>
          exact .unusual hfixed (hgrows _ _ hroutine) hm hholds hfirst hlast

/-- So do any number of cuts. -/
theorem GuardedFrom.cuts {outlined : Bool} {n : Nat}
    (h : GuardedFrom outlined f config symbols access inst n) (hcuts : f.Cuts n₀ inst g)
    (hn : n₀ ≤ n) (hgrows : symbols.GrowsTo symbols') :
    GuardedFrom outlined g config symbols' access inst n := by
  induction hcuts with
  | refl =>
      obtain ⟨b, blk, pre, front, rest, hblk, hinsts, hguard⟩ := h
      exact ⟨b, blk, pre, front, rest, hblk, hinsts, hguard.mono hgrows⟩
  | tail _ hcut ih =>
      obtain ⟨b, blk, pos, hblk, hcut, hpoint⟩ := hcut
      exact ih.cut hcut hblk hpoint hn (.refl _)

/-- What is behind a guard is at the end of some block. -/
theorem Guard.exists_end {outlined : Bool} {n : Nat} {front tail pre : List InstId}
    (h : Guard outlined g config symbols access n front tail) (hblk : g.blocks[b]? = some blk)
    (hinsts : blk.insts = pre ++ front) :
    ∃ (c : BlockId) (blk' : Block) (pre' : List InstId),
      g.blocks[c]? = some blk' ∧ blk'.insts = pre' ++ tail := by
  unfold Guard at h
  split at h
  · obtain ⟨routine, -, -, rfl⟩ := h.code
    exact ⟨b, blk, _, hblk, by rw [hinsts, List.append_assoc]⟩
  · cases h with
    | fixed _ _ _ hstands =>
        obtain ⟨blk', hblk', hinsts'⟩ := hstands.behind
        exact ⟨_, blk', [], hblk', hinsts'⟩
    | unusual _ _ _ _ _ hlast =>
        obtain ⟨blk', hblk', hinsts'⟩ := hlast.behind
        exact ⟨_, blk', [], hblk', hinsts'⟩

end

/-! ### One way in -/

namespace Func

variable {f g : Func} {n₀ n c b b' inst : Nat} {ops : List Op} {blk : Block} {pos : Nat}

theorem CutPoint.of_plain (h : f.CutPoint n₀ inst c blk pos) (hholds : f.Holds n ops)
    (hplain : ∀ op ∈ ops, op.isLandmark = false) (hn : n₀ ≤ n) {i : InstId} (hi : n ≤ i)
    (hi' : i < n + ops.length) : f.CutPoint n₀ i c blk pos := by
  cases h with
  | @before j hget _ hapart =>
      refine .before hget ?_ hapart
      rintro rfl
      exact hapart.not_mem_range' hn hholds hplain (List.mem_range'_1.mpr ⟨hi, hi'⟩)
  | prologue hentry hapart => exact .prologue hentry hapart

/-- An instruction stays behind the code if no cut is made in front of it. -/
theorem Behind.cut {i : InstId} (h : f.Behind n (n + ops.length) b b' i) (hholds : f.Holds n ops)
    (hplain : ∀ op ∈ ops, op.isLandmark = false) (hentry : 0 < b) (hcut : f.Cut n₀ g c blk pos)
    (hblk : f.blocks[c]? = some blk) (hpoint : f.CutPoint n₀ i c blk pos) (hn : n₀ ≤ n) :
    g.Behind n (n + ops.length) b b' i := by
  rcases h with ⟨p, d, blk', pre, rest, hp, hp', hblk', hinsts⟩ |
    ⟨d, blk', rest, hb, hb', hblk', hinsts⟩
  · obtain ⟨k, rfl⟩ := Nat.exists_eq_add_of_le hp
    have hk : k < ops.length := by omega
    have hop : f.Holds (n + k) [ops[k]] := by
      rw [Func.holds_cons]
      exact ⟨hholds k _ (List.getElem?_eq_getElem hk), by simp [Holds]⟩
    obtain ⟨-, d', blk'', pre', rest', hblk'', hinsts'⟩ :=
      InFront.cut ⟨hop, d, blk', pre, rest, hblk', hinsts⟩ hcut hblk hpoint (hn.trans hp)
        (by simp [hplain _ (List.getElem_mem hk)])
    exact .inl ⟨n + k, d', blk'', pre', rest', hp, hp', hblk'', hinsts'⟩
  · obtain ⟨rest', blk'', hblk'', hinsts'⟩ := exists_behind_of_cut hcut hblk hpoint
      (hentry.trans_le hb).ne' hblk' hinsts
    exact .inr ⟨d, blk'', rest', hb, hb', hblk'', hinsts'⟩

theorem Approach.cut (h : f.Approach n ops b b' inst) (hcut : f.Cut n₀ g c blk pos)
    (hblk : f.blocks[c]? = some blk) (hpoint : f.CutPoint n₀ inst c blk pos) (hn : n₀ ≤ n) :
    g.Approach n ops b b' inst where
  holds := hcut.holds hn h.holds
  plain := h.plain
  entry := h.entry
  within i hi hi' := (h.within i hi hi').cut h.holds h.plain h.entry hcut hblk
    (hpoint.of_plain h.holds h.plain hn hi.le hi') hn
  access := h.access.cut h.holds h.plain h.entry hcut hblk hpoint hn

theorem Approach.cuts (h : f.Approach n ops b b' inst) (hcuts : f.Cuts n₀ inst g) (hn : n₀ ≤ n) :
    g.Approach n ops b b' inst := by
  induction hcuts with
  | refl => exact h
  | tail _ hcut ih =>
      obtain ⟨c, blk, pos, hblk, hcut, hpoint⟩ := hcut
      exact ih.cut hcut hblk hpoint hn

end Func

/-! ### Visits -/

namespace Draft

variable {config : Config} {outlined : Bool} {d d' : Draft} {site : Site} {sites : List Site}
  {n₀ : Nat}

/-- A visit cuts a block at its site. -/
theorem Visited.exists_cut (h : Visited config outlined d d' site) (hsite : site.inst < n₀) :
    ∃ blk, d.func.blocks[site.block]? = some blk ∧ blk.insts[site.pos]? = some site.inst ∧
      d.func.Cut n₀ d'.func site.block blk site.pos := by
  cases h with
  | check _ _ _ hblk hget hturns hguard =>
      exact ⟨_, hblk, hget, .of_turns hblk hturns
        (hguard.exists_end (hturns.getElem?_blocks_self hblk) rfl)⟩
  | bulk _ _ _ hblk hget hturns _ _ hfunc =>
      refine ⟨_, hblk, hget, hfunc ▸ Func.Cut.setInst (.of_turns hblk hturns ?_) hsite _⟩
      exact ⟨_, _, _, hturns.getElem?_blocks_self hblk, by rw [List.append_cons]⟩

theorem Visits.cuts {inst : InstId} (h : Visits config outlined d sites d')
    (hsites : ∀ site ∈ sites, site.inst < n₀) (hne : ∀ site ∈ sites, site.inst ≠ inst) :
    d.func.Cuts n₀ inst d'.func := by
  induction h with
  | nil => exact .refl
  | cons _ _ hvisited _ ih =>
      rw [List.forall_mem_cons] at hsites hne
      obtain ⟨blk, hblk, hget, hcut⟩ := hvisited.exists_cut hsites.1
      exact .head ⟨_, blk, _, hblk, hcut, .before hget hne.1 (.inl hsites.1)⟩ (ih hsites.2 hne.2)

/-- The visit of an access that is to be checked puts a guard in front of it. -/
theorem Visited.guardedFrom {access : MemAccess} (h : Visited config outlined d d' site)
    (hkind : site.kind = .check access) :
    GuardedFrom outlined d'.func config d'.symbols access site.inst d.func.insts.size := by
  cases h with
  | bulk hkind' => cases hkind.symm.trans hkind'
  | @check access' i blk front hkind' _ _ hblk hget hturns hguard =>
      obtain rfl : access = access' := by
        rw [hkind'] at hkind
        exact (SiteKind.check.inj hkind).symm
      rw [drop_of_getElem? hget] at hguard
      exact ⟨_, _, _, front, _, hturns.getElem?_blocks_self hblk, rfl, hguard⟩

end Draft

end Redzone
