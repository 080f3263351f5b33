import Redzone.Proofs.Check.Meaning

/-!
# What a visit of a site comes to

At a site that stands in its block at its position, every kind of visit succeeds, and the function
it leaves is the one before with a graft: a call in front of the access (`callCheck_eq`), one check
(`inlineCheck_eq_of_fixed`), two checks in a row (`inlineCheck_eq_of_unusual`), or the address of
the routine that takes the place of a bulk operation (`replaceBulk_eq`).
-/

namespace Redzone

namespace Draft

/-- The code that calls a checking routine, for code that starts at `n`. -/
def callOps (access : MemAccess) (routine : SymbolId) (n : InstId) : List Op :=
  if EntryPoint.isFixedSize access.size then
    [.ptrToAddr access.ptr, .symbolAddr routine, .call (.inst (n + 1)) [.inst n]]
  else
    [ .ptrToAddr access.ptr, .iconst access.size, .symbolAddr routine,
      .call (.inst (n + 2)) [.inst n, .inst (n + 1)] ]

/-- The code in front of two checks of one access: its address, the address of its last byte and its
size. -/
def endsOps (access : MemAccess) (n : InstId) : List Op :=
  [ .ptrToAddr access.ptr, .iconst (access.size - 1 : Nat),
    .arith .add (.inst n) (.inst (n + 1)), .iconst access.size ]

theorem refers_callOps {access : MemAccess} {routine : SymbolId} {n m k : Nat}
    (hptr : access.ptr.Below m) (hm : n + (callOps access routine n).length ≤ m) :
    ∀ op ∈ callOps access routine n, op.Refers m k := by
  unfold callOps at hm ⊢
  split at hm
  · rename_i hfixed
    simp only [hfixed, if_true, List.forall_mem_cons, List.length_cons, List.length_nil] at hm ⊢
    refine ⟨?_, ?_, ?_, by simp⟩ <;> constructor <;> simp [Op.operands, Op.successors, hptr]
    all_goals omega
  · rename_i hfixed
    simp only [hfixed, Bool.false_eq_true, if_false, List.forall_mem_cons, List.length_cons,
      List.length_nil] at hm ⊢
    refine ⟨?_, ?_, ?_, ?_, by simp⟩ <;> constructor <;> simp [Op.operands, Op.successors, hptr]
    all_goals omega

@[simp] theorem length_endsOps (access : MemAccess) (n : InstId) :
    (endsOps access n).length = 4 := rfl

theorem refers_endsOps {access : MemAccess} {n m k : Nat} (hptr : access.ptr.Below m)
    (hm : n + 4 ≤ m) : ∀ op ∈ endsOps access n, op.Refers m k := by
  unfold endsOps
  simp only [List.forall_mem_cons]
  refine ⟨?_, ?_, ?_, ?_, by simp⟩ <;> constructor <;> simp [Op.operands, Op.successors, hptr]
  all_goals omega

/-- The draft that calls the routine which checks an access, and the routine. -/
def useCheck (config : Config) (access : MemAccess) (d : Draft) : Draft × SymbolId :=
  d.use (EntryPoint.check access.kind access.size config.recover) (accessSignature access.size)

/-- The draft that calls the routine which reports an access, and the routine. -/
def useReport (config : Config) (access : MemAccess) (d : Draft) : Draft × SymbolId :=
  d.use (EntryPoint.report access.kind access.size config.recover) (accessSignature access.size)

@[simp] theorem func_use (d : Draft) (name : String) (signature : Signature) :
    (d.use name signature).1.func = d.func := rfl

variable {config : Config} {d : Draft} {site : Site} {access : MemAccess} {i : Instruction}
  {blk : Block}

open Func in
theorem callCheck_eq (hinst : d.func.insts[site.inst]? = some i)
    (hblk : d.func.blocks[site.block]? = some blk) (hpos : site.pos ≤ blk.insts.length) :
    d.callCheck config site access = .ok
      { (d.useCheck config access).1 with
        func := d.func.graft site.block
          (blk.insts.take site.pos ++
            (List.range' d.func.insts.size
              (callOps access (d.useCheck config access).2 d.func.insts.size).length ++
              blk.insts.drop site.pos))
          (addedCode i.origin (callOps access (d.useCheck config access).2 d.func.insts.size))
          [] } := by
  have hget : d.func.inst site.inst = .ok i := by rw [inst, hinst]
  rw [callCheck, hget, ok_bind]
  simp only [useCheck, callOps, func_use]
  rw [insertCode_eq_graft hblk hpos, ok_bind]
  simp only [List.append_assoc, Check.length_addedCode]

open Func in
/-- One check, of the bytes from the address on. -/
theorem inlineCheck_eq_of_fixed (hinst : d.func.insts[site.inst]? = some i)
    (hblk : d.func.blocks[site.block]? = some blk) (hpos : site.pos ≤ blk.insts.length)
    (hfixed : EntryPoint.isFixedSize access.size = true) {c : Check}
    (hc : c = ⟨config.mapping, config.recover, (d.useReport config access).2,
      [.inst d.func.insts.size], i.origin⟩) :
    d.inlineCheck config site access = .ok
      { (d.useReport config access).1 with
        func := d.func.graft site.block
          (blk.insts.take site.pos ++ List.range' d.func.insts.size 10)
          (addedCode i.origin (.ptrToAddr access.ptr ::
            c.ops (d.func.insts.size + 1) (.inst d.func.insts.size) access.size
              d.func.blocks.size))
          (c.fresh d.func.blockArgs.size (d.func.insts.size + 1) (.inst d.func.insts.size)
            access.size d.func.blocks.size (blk.insts.drop site.pos)) } := by
  have hget : d.func.inst site.inst = .ok i := by rw [inst, hinst]
  have hten : List.range' d.func.insts.size 10 =
      [d.func.insts.size] ++ List.range' (d.func.insts.size + 1) 9 := rfl
  rw [inlineCheck, hget, ok_bind]
  simp only [hfixed, if_true, func_use]
  rw [insertCode_eq_graft hblk hpos, ok_bind, Check.insert_graft hblk (by simp [hpos]), ok_bind]
  simp only [Check.length_addedCode, List.length_singleton, List.range'_one, hc, useReport, hten,
    List.append_assoc]
  rfl

open Func in
/-- Two checks, of the first and of the last byte; the second one stands where the first one goes
on. -/
theorem inlineCheck_eq_of_unusual (hinst : d.func.insts[site.inst]? = some i)
    (hblk : d.func.blocks[site.block]? = some blk) (hpos : site.pos ≤ blk.insts.length)
    (hfixed : EntryPoint.isFixedSize access.size = false) {c : Check} {n m : InstId} {k : BlockId}
    (hn : n = d.func.insts.size)
    (hc : c = ⟨config.mapping, config.recover, (d.useReport config access).2,
      [.inst n, .inst (n + 3)], i.origin⟩)
    (hm : m = n + 4 + (c.ops (n + 4) (.inst n) 1 d.func.blocks.size).length)
    (hk : k = d.func.blocks.size + (c.fresh 0 (n + 4) (.inst n) 1 d.func.blocks.size []).length) :
    d.inlineCheck config site access = .ok
      { (d.useReport config access).1 with
        func := d.func.graft site.block (blk.insts.take site.pos ++ List.range' n 13)
          (addedCode i.origin (endsOps access n ++
            (c.ops (n + 4) (.inst n) 1 d.func.blocks.size ++ c.ops m (.inst (n + 2)) 1 k)))
          (c.fresh d.func.blockArgs.size (n + 4) (.inst n) 1 d.func.blocks.size (List.range' m 9) ++
            c.fresh d.func.blockArgs.size m (.inst (n + 2)) 1 k (blk.insts.drop site.pos)) } := by
  have hget : d.func.inst site.inst = .ok i := by rw [inst, hinst]
  have hlength (argStart : Nat) (tail : List InstId) :
      (c.fresh argStart (n + 4) (.inst n) 1 d.func.blocks.size tail).length =
        (c.fresh 0 (n + 4) (.inst n) 1 d.func.blocks.size []).length := by
    rw [Check.length_fresh, Check.length_fresh]
  have hthirteen : List.range' n 13 = List.range' n 4 ++ List.range' (n + 4) 9 := rfl
  rw [inlineCheck, hget, ok_bind]
  simp only [hfixed, Bool.false_eq_true, if_false, func_use]
  rw [insertCode_eq_graft hblk hpos, ok_bind, Check.insert_graft hblk (by simp [hpos]), ok_bind,
    Check.insert_graft_fresh, ok_bind]
  rw [useReport] at hc
  simp only [← hn, Check.length_addedCode, List.length_append, List.length_cons, List.length_nil,
    Nat.zero_add, Nat.reduceAdd, ← Nat.add_assoc, ← hc, ← hm, hlength, ← hk, hthirteen, endsOps,
    Check.addedCode_append, List.append_assoc, useReport]

open Func in
/-- The address of the routine in front, and a call in the place of the operation. -/
theorem replaceBulk_eq {kind : Bulk} {dest source length : Value}
    (hinst : d.func.insts[site.inst]? = some i) (hop : i.op = .bulk kind dest source length)
    (hblk : d.func.blocks[site.block]? = some blk) (hpos : site.pos ≤ blk.insts.length) :
    d.replaceBulk site = .ok
      { (d.use (EntryPoint.bulk kind) (bulkSignature kind)).1 with
        func := (d.func.graft site.block
            (blk.insts.take site.pos ++ ([d.func.insts.size] ++ blk.insts.drop site.pos))
            (addedCode i.origin
              [.symbolAddr (d.use (EntryPoint.bulk kind) (bulkSignature kind)).2]) []).setInst
          site.inst { i with op := .call (.inst d.func.insts.size) [dest, source, length] } } := by
  have hget : d.func.inst site.inst = .ok i := by rw [inst, hinst]
  have hlt : site.inst < d.func.insts.size := (Array.getElem?_eq_some_iff.mp hinst).1
  rw [replaceBulk, hget, ok_bind, hop]
  simp only [func_use]
  rw [insertCode_eq_graft hblk hpos, ok_bind, setOp, inst, getElem?_insts_graft_of_lt hlt, hinst]
  simp only [ok_bind, Check.length_addedCode, List.length_singleton, List.range'_one,
    List.append_assoc]

end Draft

end Redzone
