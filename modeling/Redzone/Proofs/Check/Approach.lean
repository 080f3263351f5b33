import Redzone.Proofs.Check.Visit

/-!
# Code with one way in

The code of a guard can be entered at its start only: every other instruction of it, and the access
behind it, stands directly behind an instruction of the code or at the start of a block that nothing
but the code branches to (`Func.SoleApproach`).  So an execution that comes to the access has come
to the start of the guard before, and has executed nothing but the guard since
(`Func.SoleApproach.enters`).

One line of code is such code (`Func.Approach.of_line`), and so it is with a check behind it
(`Func.Approach.check`).
-/

namespace Redzone

/-- Operations that a guard does not contain. -/
def Op.isLandmark : Op → Bool
  | .param _ | .lifetime .. | .ret _ | .unwind => true
  | _ => false

theorem Check.isLandmark_ops (c : Check) (n : InstId) (addr : Value) (size : Nat) (cont : BlockId) :
    ∀ op ∈ c.ops n addr size cont, op.isLandmark = false := by
  simp only [ops, List.forall_mem_append, List.forall_mem_cons]
  refine ⟨?_, rfl, ?_, ?_⟩
  · simp [probeCode, shadowAddrCode, Op.isLandmark]
  · unfold slowPart
    split
    · rw [slowCode_eq]
      unfold slowLine
      split <;> simp [Op.isLandmark]
    · simp
  · unfold reportPart reportCode
    cases c.recover <;> simp [Op.isLandmark]

theorem Check.isLandmark_probe (c : Check) (n : InstId) (addr : Value) (size : Nat)
    (cont : BlockId) :
    ∀ op ∈ probeCode c.mapping n addr size ++ [c.branch n size cont], op.isLandmark = false := by
  intro op hop
  refine c.isLandmark_ops n addr size cont op ?_
  rw [ops, List.append_cons]
  exact List.mem_append_left _ hop

theorem Draft.isLandmark_callOps (access : MemAccess) (routine : SymbolId) (n : InstId) :
    ∀ op ∈ callOps access routine n, op.isLandmark = false := by
  unfold callOps
  split <;> simp [Op.isLandmark]

theorem Draft.isLandmark_endsOps (access : MemAccess) (n : InstId) :
    ∀ op ∈ endsOps access n, op.isLandmark = false := by
  simp [endsOps, Op.isLandmark]

/-! ### One way in -/

namespace Func

/-- A listed instruction `i` can branch to block `c`. -/
def Branches (g : Func) (i : InstId) (c : BlockId) : Prop :=
  i ∈ g.listed ∧ ∃ instruction, g.insts[i]? = some instruction ∧ c ∈ instruction.op.successors

/-- The instruction `i` stands directly behind one from `n` up to `k`, or at the start of a block
from `b` up to `b'`. -/
def Behind (g : Func) (n k b b' : Nat) (i : InstId) : Prop :=
  (∃ (p : Nat) (c : BlockId) (blk : Block) (pre rest : List InstId), n ≤ p ∧ p < k ∧
    g.blocks[c]? = some blk ∧ blk.insts = pre ++ p :: i :: rest) ∨
  ∃ (c : Nat) (blk : Block) (rest : List InstId), b ≤ c ∧ c < b' ∧
    g.blocks[c]? = some blk ∧ blk.insts = i :: rest

/-- The code `ops` from `n` on, which has the blocks from `b` up to `b'`, stands in front of `inst`:
behind its first instruction, and at `inst`, there is nothing but code in front. -/
structure Approach (g : Func) (n : Nat) (ops : List Op) (b b' : Nat) (inst : InstId) :
    Prop where
  holds : g.Holds n ops
  plain : ∀ op ∈ ops, op.isLandmark = false
  entry : 0 < b
  within : ∀ i : Nat, n < i → i < n + ops.length → g.Behind n (n + ops.length) b b' i
  access : g.Behind n (n + ops.length) b b' inst

/-- What makes `g` of `f` is code in front of `inst`. -/
def Approaches (f g : Func) (inst : InstId) : Prop :=
  ∃ ops, g.insts.size = f.insts.size + ops.length ∧
    g.Approach f.insts.size ops f.blocks.size g.blocks.size inst

/-- Nothing but the code itself branches to its blocks. -/
structure SoleApproach (g : Func) (n : Nat) (ops : List Op) (b b' : Nat) (inst : InstId) :
    Prop extends g.Approach n ops b b' inst where
  branches : ∀ (i c : Nat), b ≤ c → c < b' → g.Branches i c →
    n ≤ i ∧ i < n + ops.length

/-! ### Executions that come to the access -/

/-- The instructions `rest` are the end of a block. -/
def IsEnd (g : Func) (rest : List InstId) : Prop :=
  ∃ (c : BlockId) (blk : Block) (pre : List InstId),
    g.blocks[c]? = some blk ∧ blk.insts = pre ++ rest

/-- A run has come to the instruction `n`, and from there on it has executed instructions from `n`
up to `k`. -/
def Enters (g : Func) (x : Activation) (n k : Nat) (s : State) (es : List Event) (t : State) :
    Prop :=
  ∃ es₁ u es₂, es = es₁ ++ es₂ ∧ g.Runs x s es₁ u ∧ u.rest.head? = some n ∧ g.Runs x u es₂ t ∧
    ∀ e ∈ es₂, n ≤ e.inst ∧ e.inst < k

variable {g : Func} {x : Activation} {n k b b' : Nat} {inst : InstId} {ops : List Op}
  {s t u : State} {e : Event} {es : List Event}

/-- A step goes on behind the instruction, or to a block to which it branches. -/
theorem step_place (h : g.step x s = .next e t) :
    ∃ i rest, s.rest = i :: rest ∧ e.inst = i ∧ (t.rest = rest ∨
      ∃ instruction c blk, g.insts[i]? = some instruction ∧ c ∈ instruction.op.successors ∧
        g.blocks[c]? = some blk ∧ t.rest = blk.insts) := by
  unfold step at h
  split at h
  · cases h
  rename_i i rest hrest
  refine ⟨i, rest, hrest, ?_⟩
  split at h
  · cases h
  rename_i instruction hinst
  split at h
  · cases h
  · cases h
    exact ⟨rfl, .inl rfl⟩
  · rename_i target args hexec
    split at h
    · cases h
    rename_i t' henter
    cases h
    obtain ⟨blk, hblk, rfl⟩ := Option.map_eq_some_iff.mp henter
    exact ⟨rfl, .inr ⟨instruction, target, blk, hinst, Op.exec_jumps_mem hexec, hblk, rfl⟩⟩
  · cases h

theorem IsEnd.step (h : g.IsEnd s.rest) (hstep : g.step x s = .next e t) : g.IsEnd t.rest := by
  obtain ⟨i, rest, hrest, -, htail | ⟨_, c, blk, -, -, hblk, htail⟩⟩ := step_place hstep
  · obtain ⟨c, blk, pre, hblk, hinsts⟩ := h
    refine ⟨c, blk, pre ++ [i], hblk, ?_⟩
    rw [hinsts, hrest, htail, List.append_assoc, List.singleton_append]
  · exact ⟨c, blk, [], hblk, htail ▸ rfl⟩

theorem IsEnd.runs (h : g.IsEnd s.rest) (hruns : g.Runs x s es t) : g.IsEnd t.rest := by
  induction hruns with
  | refl => exact h
  | step hstep _ ih => exact ih (h.step hstep)

theorem start_rest {memory : Memory} {stack : Nat} (h : g.start memory stack = some s) :
    ∃ blk, g.blocks[0]? = some blk ∧ s.rest = blk.insts := by
  obtain ⟨blk, hblk, rfl⟩ := Option.map_eq_some_iff.mp h
  exact ⟨blk, hblk, rfl⟩

theorem IsEnd.eq_of_head (hnodup : g.listed.Nodup) {first second : List InstId} {i : InstId}
    (hfirst : g.IsEnd (i :: first)) (hsecond : g.IsEnd (i :: second)) : first = second := by
  obtain ⟨c, blk, pre, hblk, hinsts⟩ := hfirst
  obtain ⟨c', blk', pre', hblk', hinsts'⟩ := hsecond
  have hget : blk.insts[pre.length]? = some i := by simp [hinsts]
  have hget' : blk'.insts[pre'.length]? = some i := by simp [hinsts']
  obtain ⟨rfl, hlength⟩ := place_unique hnodup hblk hget hblk' hget'
  obtain rfl : blk = blk' := Option.some.inj (hblk.symm.trans hblk')
  exact (List.cons.inj (List.append_inj (hinsts.symm.trans hinsts') hlength).2).2

theorem Enters.refl {s : State} (hruns : g.Runs x s es t) (hhead : t.rest.head? = some n) :
    g.Enters x n k s es t :=
  ⟨es, t, [], (List.append_nil es).symm, hruns, hhead, .refl t, by simp⟩

theorem Enters.step (h : g.Enters x n k s es t) (hstep : g.step x t = .next e u) (hn : n ≤ e.inst)
    (hk : e.inst < k) : g.Enters x n k s (es ++ [e]) u := by
  obtain ⟨es₁, v, es₂, rfl, hfirst, hhead, hsecond, hinst⟩ := h
  refine ⟨es₁, v, es₂ ++ [e], List.append_assoc _ _ _, hfirst, hhead,
    hsecond.trans (.single hstep), fun e' he' => ?_⟩
  rcases List.mem_append.mp he' with he' | he'
  · exact hinst e' he'
  · rw [List.mem_singleton.mp he']
    exact ⟨hn, hk⟩

namespace Behind

variable {i : InstId}

/-- A function does not start behind the code. -/
theorem not_start (h : g.Behind n k b b' i) (hnodup : g.listed.Nodup) (hentry : 0 < b) {blk : Block}
    (hblk : g.blocks[0]? = some blk) : blk.insts.head? ≠ some i := by
  intro hhead
  rw [List.head?_eq_getElem?] at hhead
  rcases h with ⟨p, c, blk', pre, rest, -, -, hblk', hinsts⟩ | ⟨c, blk', rest, hb, -, hblk', hinsts⟩
  · obtain ⟨-, hlength⟩ := place_unique hnodup hblk hhead hblk' (q := pre.length + 1)
      (by simp [hinsts])
    omega
  · obtain ⟨rfl, -⟩ := place_unique hnodup hblk hhead hblk' (q := 0) (by simp [hinsts])
    exact absurd hentry (Nat.not_lt.mpr hb)

/-- A step to an instruction behind the code is one of the code. -/
theorem of_step (h : g.Behind n k b b' i) (hnodup : g.listed.Nodup)
    (hbranches : ∀ (j c : Nat), b ≤ c → c < b' → g.Branches j c → n ≤ j ∧ j < k)
    (hend : g.IsEnd s.rest) (hstep : g.step x s = .next e t) (hhead : t.rest.head? = some i) :
    n ≤ e.inst ∧ e.inst < k := by
  obtain ⟨j, rest, hrest, hinst, hplace⟩ := step_place hstep
  obtain ⟨d, blk', pre', hblk', hinsts'⟩ := hend
  rw [hrest] at hinsts'
  rw [hinst]
  rcases hplace with htail | ⟨instruction, d', blk'', hj, hsucc, hblk'', htail⟩
  · -- control goes on in its block
    obtain ⟨rest', rfl⟩ : ∃ rest', rest = i :: rest' := by
      rw [htail] at hhead
      exact List.head?_eq_some_iff.mp hhead
    have hget : blk'.insts[pre'.length + 1]? = some i := by simp [hinsts']
    rcases h with ⟨p, c, blk, pre, rest, hn, hk, hblk, hinsts⟩ | ⟨c, blk, rest, -, -, hblk, hinsts⟩
    · obtain ⟨rfl, hlength⟩ := place_unique hnodup hblk' hget hblk (q := pre.length + 1)
        (by simp [hinsts])
      obtain rfl : blk' = blk := Option.some.inj (hblk'.symm.trans hblk)
      have htails := (List.append_inj (hinsts'.symm.trans hinsts) (by omega)).2
      obtain rfl : j = p := (List.cons.inj htails).1
      exact ⟨hn, hk⟩
    · obtain ⟨-, hlength⟩ := place_unique hnodup hblk' hget hblk (q := 0) (by simp [hinsts])
      omega
  · -- control goes to the start of a block
    have hget : blk''.insts[0]? = some i := by rw [← List.head?_eq_getElem?, ← htail, hhead]
    rcases h with ⟨p, c, blk, pre, rest, -, -, hblk, hinsts⟩ | ⟨c, blk, rest, hb, hb', hblk, hinsts⟩
    · obtain ⟨-, hlength⟩ := place_unique hnodup hblk'' hget hblk (q := pre.length + 1)
        (by simp [hinsts])
      omega
    · obtain ⟨rfl, -⟩ := place_unique hnodup hblk'' hget hblk (q := 0) (by simp [hinsts])
      exact hbranches j d' hb hb' ⟨mem_listed hblk' (by simp [hinsts']), instruction, hj, hsucc⟩

end Behind

namespace SoleApproach

/-- One step keeps that the code was entered at its start. -/
theorem enters_step (h : g.SoleApproach n ops b b' inst) (hnodup : g.listed.Nodup)
    (hend : g.IsEnd t.rest) (hruns : g.Runs x s es t)
    (henters : ∀ i, t.rest.head? = some i → n ≤ i → i < n + ops.length →
      g.Enters x n (n + ops.length) s es t) (hstep : g.step x t = .next e u) {i : InstId}
    (hhead : u.rest.head? = some i) (hi : n ≤ i ∧ i < n + ops.length ∨ i = inst) :
    g.Enters x n (n + ops.length) s (es ++ [e]) u := by
  by_cases hfirst : i = n
  · subst hfirst
    exact .refl (hruns.trans (.single hstep)) hhead
  have hbehind : g.Behind n (n + ops.length) b b' i := by
    rcases hi with ⟨hn, hk⟩ | rfl
    · exact h.within i (Nat.lt_of_le_of_ne hn (Ne.symm hfirst)) hk
    · exact h.access
  obtain ⟨hn, hk⟩ := hbehind.of_step hnodup h.branches hend hstep hhead
  obtain ⟨j, rest, hrest, hinst, -⟩ := step_place hstep
  refine (henters j (by rw [hrest]; rfl) ?_ ?_).step hstep hn hk
  all_goals rwa [← hinst]

/-- What one step keeps, a run keeps. -/
theorem enters_run (h : g.SoleApproach n ops b b' inst) (hnodup : g.listed.Nodup) {es' : List Event}
    (hbefore : g.Runs x s es' u) (hend : g.IsEnd u.rest)
    (henters : ∀ i, u.rest.head? = some i → n ≤ i ∧ i < n + ops.length ∨ i = inst →
      g.Enters x n (n + ops.length) s es' u) (hruns : g.Runs x u es t) {i : InstId}
    (hhead : t.rest.head? = some i) (hi : n ≤ i ∧ i < n + ops.length ∨ i = inst) :
    g.Enters x n (n + ops.length) s (es' ++ es) t := by
  induction hruns generalizing es' with
  | refl u =>
      rw [List.append_nil]
      exact henters i hhead hi
  | @step u v t e es hstep _ ih =>
      rw [List.append_cons]
      refine ih (hbefore.trans (.single hstep)) (hend.step hstep) (fun j hj hplace => ?_) hhead
      exact h.enters_step hnodup hend hbefore (fun j hj hn hk => henters j hj (.inl ⟨hn, hk⟩)) hstep
        hj hplace

/-- A run that comes to the code or to the access has entered the code at its start. -/
theorem enters (h : g.SoleApproach n ops b b' inst) (hnodup : g.listed.Nodup) {memory : Memory}
    {stack : Nat} (hstart : g.start memory stack = some s) (hruns : g.Runs x s es t) {i : InstId}
    (hhead : t.rest.head? = some i) (hi : n ≤ i ∧ i < n + ops.length ∨ i = inst) :
    g.Enters x n (n + ops.length) s es t := by
  obtain ⟨blk, hblk, hrest⟩ := start_rest hstart
  refine h.enters_run hnodup (.refl s) ⟨0, blk, [], hblk, hrest.symm⟩ (fun j hj hplace => ?_) hruns
    hhead hi
  rw [hrest] at hj
  rcases hplace with ⟨hn, hk⟩ | rfl
  · rcases Nat.eq_or_lt_of_le hn with rfl | hlt
    · exact .refl (.refl s) (hrest ▸ hj)
    · exact absurd hj ((h.within j hlt hk).not_start hnodup h.entry hblk)
  · exact absurd hj (h.access.not_start hnodup h.entry hblk)

end SoleApproach

/-! ### Approaches that are made -/

theorem Behind.mono {i : InstId} {k' b'' : Nat} (h : g.Behind n k b b' i) (hk : k ≤ k')
    (hb : b' ≤ b'') : g.Behind n k' b b'' i := by
  rcases h with ⟨p, c, blk, pre, rest, hp, hp', hblk, hinsts⟩ |
    ⟨c, blk, rest, hc, hc', hblk, hinsts⟩
  · exact .inl ⟨p, c, blk, pre, rest, hp, hp'.trans_le hk, hblk, hinsts⟩
  · exact .inr ⟨c, blk, rest, hc, hc'.trans_le hb, hblk, hinsts⟩

section

variable {c m length i : Nat} {blk : Block} {pre rest : List InstId}

/-- In a listed range of code every instruction but the first has code in front of it. -/
theorem behind_of_range' (hblk : g.blocks[c]? = some blk)
    (hinsts : blk.insts = pre ++ (List.range' m length ++ rest)) (hn : n ≤ m) (hk : m + length ≤ k)
    (hi : m < i) (hi' : i < m + length) : g.Behind n k b b' i := by
  obtain ⟨j, rfl⟩ := Nat.exists_eq_add_of_lt hi
  refine .inl ⟨m + j, c, blk, pre ++ List.range' m j,
    List.range' (m + j + 2) (length - j - 2) ++ rest, by omega, by omega, hblk, ?_⟩
  have hlength : length = j + (length - j - 2 + 1 + 1) := by omega
  rw [hinsts, hlength, ← List.range'_append_1, List.range'_succ, List.range'_succ]
  simp

theorem behind_of_block (hblk : g.blocks[c]? = some blk) (hinsts : blk.insts = List.range' m length)
    (hb : b ≤ c) (hb' : c < b') (hn : n ≤ m) (hk : m + length ≤ k) (hi : m ≤ i)
    (hi' : i < m + length) : g.Behind n k b b' i := by
  rcases Nat.eq_or_lt_of_le hi with rfl | hlt
  · obtain ⟨l, rfl⟩ : ∃ l, length = l + 1 := ⟨length - 1, by omega⟩
    exact .inr ⟨c, blk, _, hb, hb', hblk, hinsts.trans List.range'_succ⟩
  · exact behind_of_range' hblk (show blk.insts = [] ++ (List.range' m length ++ []) by
      simpa using hinsts) hn hk hlt hi'

/-- A line of code is the approach to what it is put in front of. -/
theorem Approach.of_line (hholds : g.Holds n ops) (hplain : ∀ op ∈ ops, op.isLandmark = false)
    (hpos : 0 < ops.length) (hb : 0 < b) (hblk : g.blocks[c]? = some blk)
    (hinsts : blk.insts = pre ++ (List.range' n ops.length ++ inst :: rest)) :
    g.Approach n ops b b inst where
  holds := hholds
  plain := hplain
  entry := hb
  within _ hi hi' := behind_of_range' hblk hinsts le_rfl le_rfl hi hi'
  access := by
    obtain ⟨l, hl⟩ : ∃ l, ops.length = l + 1 := ⟨ops.length - 1, by omega⟩
    refine .inl ⟨n + l, c, blk, pre ++ List.range' n l, rest, by omega, by omega, hblk, ?_⟩
    rw [hinsts, hl, List.range'_1_concat]
    simp

end

end Func

/-- What a check has in the blocks for its report and its slow path stands behind its code. -/
theorem Check.Stands.behind_parts {c : Check} {g : Func} {n m k b b' size cont : Nat} {addr : Value}
    {tail : List InstId} (h : c.Stands g m addr size cont tail) (hn : n ≤ m)
    (hk : m + (c.ops m addr size cont).length ≤ k) (hb : b ≤ cont)
    (hb' : cont + (if c.mapping.needsSlowPath size then 3 else 2) ≤ b') {i : Nat} (hi : m + 9 ≤ i)
    (hi' : i < m + (c.ops m addr size cont).length) : g.Behind n k b b' i := by
  rw [length_ops] at hk hi'
  rcases Nat.lt_or_ge i (m + 9 + (c.slowPart m addr size cont).length) with hlt | hge
  · have hslow : c.mapping.needsSlowPath size = true := by
      by_contra hfast
      rw [slowPart, if_neg hfast, List.length_nil] at hlt
      omega
    rw [if_pos hslow] at hb'
    obtain ⟨blk, hblk, hinsts⟩ := h.slow hslow
    exact Func.behind_of_block hblk hinsts (by omega) (by omega) (by omega) (by omega) hi hlt
  · obtain ⟨blk, hblk, hinsts⟩ := h.report
    rw [reportStart] at hinsts
    exact Func.behind_of_block hblk hinsts (by omega) (by split at hb' <;> omega) (by omega)
      (by omega) hge (by omega)

/-- An approach that leads to a check is part of the approach to what is behind the check. -/
theorem Func.Approach.check {c : Check} {g : Func} {n m b b' b'' size cont : Nat} {addr : Value}
    {ops : List Op} {inst d : Nat} {blk : Block} {pre rest : List InstId}
    (h : g.Approach n ops b b' m) (hstands : c.Stands g m addr size cont (inst :: rest))
    (hm : m = n + ops.length) (hblk : g.blocks[d]? = some blk)
    (hinsts : blk.insts = pre ++ List.range' m 9) (hb : b ≤ cont) (hb' : b' ≤ b'')
    (hb'' : cont + (if c.mapping.needsSlowPath size then 3 else 2) ≤ b'') :
    g.Approach n (ops ++ c.ops m addr size cont) b b'' inst where
  holds := Func.holds_append.mpr ⟨h.holds, hm ▸ hstands.code⟩
  plain := List.forall_mem_append.mpr ⟨h.plain, c.isLandmark_ops m addr size cont⟩
  entry := h.entry
  within i hi hi' := by
    have hlength : (c.ops m addr size cont).length = _ := Check.length_ops
    rw [List.length_append, ← Nat.add_assoc, ← hm] at hi' ⊢
    rcases Nat.lt_or_ge i m with hlt | hge
    · exact (h.within i hi (hm ▸ hlt)).mono (by omega) hb'
    rcases Nat.eq_or_lt_of_le hge with rfl | hlt
    · exact h.access.mono (by omega) hb'
    rcases Nat.lt_or_ge i (m + 9) with hprobe | hbehind
    · exact Func.behind_of_range' hblk (show blk.insts = pre ++ (List.range' m 9 ++ []) by
        simpa using hinsts) (by omega) (by omega) hlt hprobe
    · exact hstands.behind_parts (by omega) le_rfl hb hb'' hbehind hi'
  access := by
    obtain ⟨blk', hblk', hinsts'⟩ := hstands.behind
    exact .inr ⟨cont, blk', rest, hb, by split at hb'' <;> omega, hblk', hinsts'⟩

end Redzone
