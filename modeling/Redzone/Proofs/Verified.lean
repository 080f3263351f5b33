import Redzone.Proofs.Execution.Graft
import Redzone.Verify.Function

/-!
# What a verification promises

A function without findings lists every instruction at most once, all that it lists is in its arena,
and its instructions refer to instructions, blocks and symbols that are there.
-/

namespace Redzone

/-- What the instrumentation relies on. -/
structure Func.Verified (f : Func) (symbols : SymbolTable) : Prop where
  closed : f.Closed
  nodup : f.listed.Nodup
  symbol : ∀ (i : InstId) (instruction : Instruction), i ∈ f.listed →
    f.insts[i]? = some instruction → ∀ symbol : Nat, instruction.op = .symbolAddr symbol →
    symbol < symbols.size

/-! ### Listings -/

theorem placementDefects_eq_nil {size : Nat} {seen : List InstId}
    {listings : List (BlockId × InstId)} (h : placementDefects size seen listings = []) :
    (listings.map Prod.snd).Nodup ∧ ∀ i ∈ listings.map Prod.snd, i < size ∧ i ∉ seen := by
  induction listings generalizing seen with
  | nil => simp
  | cons listing rest ih =>
      obtain ⟨b, i⟩ := listing
      rw [placementDefects] at h
      split at h
      · cases h
      · split at h
        · cases h
        · rename_i hsize hseen
          obtain ⟨hnodup, hrest⟩ := ih h
          rw [List.map_cons, List.nodup_cons, List.forall_mem_cons]
          refine ⟨⟨fun hi => ?_, hnodup⟩, ⟨Nat.lt_of_not_le hsize, hseen⟩, fun j hj => ?_⟩
          · exact (hrest i hi).2 List.mem_cons_self
          · exact ⟨(hrest j hj).1, fun hj' => (hrest j hj).2 (List.mem_cons_of_mem i hj')⟩

theorem Func.listings_map_snd (f : Func) : f.listings.map Prod.snd = f.listed := by
  unfold listings listed
  rw [List.map_flatMap]
  conv => rhs; rw [← List.zipIdx_map_fst 0 f.blocks.toList, List.flatMap_map]
  simp

/-! ### References -/

namespace Scope

variable {f : Func} {symbols : SymbolTable} {b : BlockId}

theorem below_of_operand {v : Value} (h : (f.scope symbols).operand v = []) :
    v.Below f.insts.size := by
  cases v with
  | arg i => trivial
  | inst i =>
      have hknows : (f.scope symbols).knows (.inst i) = true := by
        by_contra hnot
        rw [operand, if_neg hnot] at h
        cases h
      simp only [knows, Func.scope, List.contains_iff_mem, List.mem_filter,
        decide_eq_true_eq] at hknows
      exact hknows.2

theorem refers_of_target {t : Target} (h : (f.scope symbols).target t = .ok []) :
    (∀ v ∈ t.args, v.Below f.insts.size) ∧ (t.block : Nat) < f.blocks.size := by
  unfold target at h
  split at h
  · cases h
  · rename_i blk hblk
    obtain ⟨tys, -, h⟩ := bind_eq_ok h
    have hnil := Except.ok.inj h
    simp only [List.append_eq_nil_iff, List.flatMap_eq_nil_iff] at hnil
    refine ⟨fun v hv => ?_, (Array.getElem?_eq_some_iff.mp hblk).1⟩
    obtain ⟨k, hk, rfl⟩ := List.getElem_of_mem hv
    have hargs := hnil.2 (t.args[k], k) (List.mk_mem_zipIdx_iff_getElem?.mpr (by simp [hk]))
    exact below_of_operand (List.append_eq_nil_iff.mp hargs).1

/-- An instruction without defects refers to what is there. -/
theorem refers_of_instruction {i : Instruction} (h : (f.scope symbols).instruction i = .ok []) :
    i.op.Refers f.insts.size f.blocks.size := by
  unfold instruction at h
  split at h
  · rename_i next hop
    obtain ⟨hargs, htarget⟩ := refers_of_target h
    rw [hop]
    exact ⟨by simpa [Op.operands] using hargs, by simpa [Op.successors] using htarget⟩
  · rename_i cond ifTrue ifFalse hop
    obtain ⟨first, hfirst, h⟩ := bind_eq_ok h
    obtain ⟨second, hsecond, h⟩ := bind_eq_ok h
    have hnil := Except.ok.inj h
    simp only [List.append_eq_nil_iff] at hnil
    obtain ⟨⟨⟨hcond, -⟩, rfl⟩, rfl⟩ := hnil
    obtain ⟨hargs, htarget⟩ := refers_of_target hfirst
    obtain ⟨hargs', htarget'⟩ := refers_of_target hsecond
    rw [hop]
    refine ⟨?_, ?_⟩
    · rw [Op.operands, List.forall_mem_cons, List.forall_mem_append]
      exact ⟨below_of_operand hcond, hargs, hargs'⟩
    · simp [Op.successors, htarget, htarget']
  · rename_i op hbr hbrif
    have hnil := Except.ok.inj h
    simp only [List.append_eq_nil_iff, List.flatMap_eq_nil_iff] at hnil
    refine ⟨fun v hv => below_of_operand (hnil.1 v hv), ?_⟩
    intro b hb
    cases hop : i.op <;> simp_all [Op.successors]

theorem symbol_of_instruction {i : Instruction} {symbol : SymbolId}
    (h : (f.scope symbols).instruction i = .ok []) (hop : i.op = .symbolAddr symbol) :
    symbols.contains symbol = true := by
  rw [instruction, hop] at h
  have hnil := Except.ok.inj h
  rw [shape, hop] at hnil
  by_contra hnot
  simp [Func.scope, hnot] at hnil

/-- A block without defects lists instructions without defects. -/
theorem instruction_of_block {name : String} {blk : Block} {i : InstId}
    {instruction : Instruction} (h : (f.scope symbols).block name b blk = .ok [])
    (hi : i ∈ blk.insts) (hinst : f.insts[i]? = some instruction) :
    (f.scope symbols).instruction instruction = .ok [] := by
  unfold block at h
  split at h
  · cases h
  · obtain ⟨findings, hfindings, h⟩ := bind_eq_ok h
    have hnil := List.flatten_eq_nil_iff.mp (Except.ok.inj h)
    obtain ⟨k, hk, rfl⟩ := List.getElem_of_mem hi
    obtain ⟨found, hfound, hlisting⟩ := mapM_eq_ok hfindings (blk.insts[k], k)
      (List.mk_mem_zipIdx_iff_getElem?.mpr (by simp [hk]))
    obtain rfl := hnil found hfound
    have hfunc : (f.scope symbols).func.insts[blk.insts[k]]? = some instruction := hinst
    simp only [listing, hfunc] at hlisting
    obtain ⟨own, hown, hlisting⟩ := bind_eq_ok hlisting
    have hempty := Except.ok.inj hlisting
    simp only [List.append_eq_nil_iff, List.map_eq_nil_iff] at hempty
    rw [hown, hempty.2]

end Scope

/-! ### The promise -/

/-- What a verification without findings says about the blocks. -/
theorem Func.verifyBody_eq_nil {f : Func} {name : String} {symbols : SymbolTable}
    (h : f.verifyBody name symbols = .ok []) :
    placementDefects f.insts.size [] f.listings = [] ∧
      ∀ (b : BlockId) (blk : Block), f.blocks[b]? = some blk →
        (f.scope symbols).block name b blk = .ok [] := by
  unfold verifyBody at h
  split at h
  · rename_i hentry
    have hblocks : f.blocks = #[] := by simpa using hentry
    simp [listings, hblocks, placementDefects]
  · obtain ⟨blocks, hblocks, h⟩ := bind_eq_ok h
    have hnil := Except.ok.inj h
    simp only [List.append_eq_nil_iff, List.map_eq_nil_iff, List.flatten_eq_nil_iff] at hnil
    refine ⟨hnil.1.2, fun b blk hblk => ?_⟩
    obtain ⟨found, hfound, hblock⟩ := mapM_eq_ok hblocks (blk, b)
      (List.mk_mem_zipIdx_iff_getElem?.mpr (by simpa using hblk))
    rw [hnil.2 found hfound] at hblock
    exact hblock

theorem Func.verified_of_verify {f : Func} {symbols : SymbolTable}
    (h : f.verify symbols = .ok []) : f.Verified symbols := by
  obtain ⟨name, -, h⟩ := bind_eq_ok h
  obtain ⟨hplacement, hblocks⟩ := verifyBody_eq_nil h
  obtain ⟨hnodup, hlt⟩ := placementDefects_eq_nil hplacement
  rw [listings_map_snd] at hnodup hlt
  have hsound : ∀ i ∈ f.listed, ∀ instruction, f.insts[i]? = some instruction →
      (f.scope symbols).instruction instruction = .ok [] := by
    intro i hi instruction hinst
    obtain ⟨blk, hblk, hmem⟩ := List.mem_flatMap.mp hi
    obtain ⟨b, hb, rfl⟩ := List.getElem_of_mem hblk
    exact Scope.instruction_of_block (hblocks b _ (by simp)) hmem hinst
  refine ⟨fun i hi => ?_, hnodup, fun i instruction hi hinst symbol hop => ?_⟩
  · have hinst := Array.getElem?_eq_getElem (hlt i hi).1
    exact ⟨_, hinst, Scope.refers_of_instruction (hsound i hi _ hinst)⟩
  · have hcontains := Scope.symbol_of_instruction (hsound i hi _ hinst) hop
    simpa [SymbolTable.contains] using hcontains

end Redzone
