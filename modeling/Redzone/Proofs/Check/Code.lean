import Redzone.Proofs.Execution.Graft

/-!
# Where the code of a check goes

A check that is inserted at a place of a block cuts the block there.  Its code stands behind the
arena in one piece: the probe and its branch, which end the block, then the slow path if there is
one, then the report.  Behind the other blocks come the rest of the block, the report and the slow
path.

`insert_eq_graft` says this.  Every new instruction is listed once (`fresh_listed_perm`), and the
code refers only to what is there (`refers_ops`).
-/

namespace Redzone

/-- The slow path without its branch. -/
def slowLine (mapping : ShadowMapping) (n : InstId) (addr shadow : Value) (size : Nat) : List Op :=
  if size > 1 then
    [ .iconst (mapping.granularity - 1 : Nat), .arith .and addr (.inst n),
      .iconst (size - 1 : Nat), .arith .add (.inst (n + 1)) (.inst (n + 2)),
      .extend true shadow 8, .icmp .ge (.inst (n + 3)) (.inst (n + 4)) ]
  else
    [ .iconst (mapping.granularity - 1 : Nat), .arith .and addr (.inst n),
      .extend true shadow 8, .icmp .ge (.inst (n + 1)) (.inst (n + 2)) ]

theorem slowCode_eq (mapping : ShadowMapping) (n : InstId) (addr shadow : Value) (size : Nat)
    (report cont : BlockId) :
    slowCode mapping n addr shadow size report cont =
      slowLine mapping n addr shadow size ++
        [.brif (.inst (n + (slowLine mapping n addr shadow size).length - 1))
          { block := report } { block := cont }] := by
  unfold slowCode slowLine
  split <;> rfl

namespace Check

/-- The branch that ends the probe; the probe starts at `n` and the code behind it is in block
`cont`. -/
def branch (c : Check) (n : InstId) (size : Nat) (cont : BlockId) : Op :=
  .brif (.inst (n + 7)) { block := if c.mapping.needsSlowPath size then cont + 2 else cont + 1 }
    { block := cont }

/-- The slow path, for the sizes that have one. -/
def slowPart (c : Check) (n : InstId) (addr : Value) (size : Nat) (cont : BlockId) : List Op :=
  if c.mapping.needsSlowPath size then
    slowCode c.mapping (n + 9) addr (.inst (n + 5)) size (cont + 1) cont
  else []

/-- Place of the report, for a check that starts at `n`. -/
def reportStart (c : Check) (n : InstId) (addr : Value) (size : Nat) (cont : BlockId) : InstId :=
  n + 9 + (c.slowPart n addr size cont).length

/-- The report. -/
def reportPart (c : Check) (n : InstId) (addr : Value) (size : Nat) (cont : BlockId) : List Op :=
  reportCode (c.reportStart n addr size cont) c.routine c.args c.recover cont

/-- All operations of a check, in the order of the arena. -/
def ops (c : Check) (n : InstId) (addr : Value) (size : Nat) (cont : BlockId) : List Op :=
  probeCode c.mapping n addr size ++ c.branch n size cont ::
    (c.slowPart n addr size cont ++ c.reportPart n addr size cont)

/-- The blocks of a check: what was behind the place where it was put, the report, the slow path. -/
def fresh (c : Check) (argStart : Nat) (n : InstId) (addr : Value) (size : Nat) (cont : BlockId)
    (tail : List InstId) : List Block :=
  { argStart := argStart, insts := tail } ::
    { argStart := argStart, insts := List.range' (c.reportStart n addr size cont) 3 } ::
    if c.mapping.needsSlowPath size then
      [{ argStart := argStart
         insts := List.range' (n + 9) (c.slowPart n addr size cont).length }]
    else []

@[simp] theorem length_addedCode (origin : Origin) (ops : List Op) :
    (addedCode origin ops).length = ops.length := by
  simp [addedCode]

theorem addedCode_append (origin : Origin) (first second : List Op) :
    addedCode origin (first ++ second) = addedCode origin first ++ addedCode origin second := by
  simp [addedCode]

@[simp] theorem length_probeCode (mapping : ShadowMapping) (n : InstId) (addr : Value)
    (size : Nat) : (probeCode mapping n addr size).length = 8 := rfl

@[simp] theorem length_reportCode (n : InstId) (routine : SymbolId) (args : List Value)
    (recover : Bool) (cont : BlockId) : (reportCode n routine args recover cont).length = 3 := rfl

open Func in
/-- What a check that is inserted does to the function. -/
theorem insert_eq_graft {c : Check} {f : Func} {b : BlockId} {blk : Block} {pos : Nat}
    {addr : Value} {size : Nat} (hblk : f.blocks[b]? = some blk)
    (hpos : pos ≤ blk.insts.length) :
    c.insert f b pos addr size =
      .ok (f.graft b (blk.insts.take pos ++ List.range' f.insts.size 9)
          (addedCode c.origin (c.ops f.insts.size addr size f.blocks.size))
          (c.fresh f.blockArgs.size f.insts.size addr size f.blocks.size (blk.insts.drop pos)),
        f.blocks.size) := by
  have hlength : (blk.insts.take pos ++ List.range' f.insts.size 8).length = pos + 8 := by
    simp [hpos]
  have hcut : pos + 8 ≤ (blk.insts.take pos ++ List.range' f.insts.size 8 ++
      blk.insts.drop pos).length := by
    rw [List.length_append, hlength]
    omega
  rw [insert]
  simp only [insertCode_eq_graft hblk hpos, ok_bind, length_addedCode, length_probeCode]
  rw [splitBlock_graft hblk hcut]
  simp only [ok_bind, List.take_left' hlength, List.drop_left' hlength, pushBlock_graft,
    List.nil_append, List.cons_append, List.length_cons, List.length_nil, Nat.add_zero,
    Nat.zero_add, Nat.reduceAdd]
  have hstart (length : Nat) : f.insts.size + 8 + length + 1 = f.insts.size + 9 + length := by
    omega
  have hnine : List.range' f.insts.size 9 = List.range' f.insts.size 8 ++ [f.insts.size + 8] :=
    List.range'_1_concat
  cases hslow : c.mapping.needsSlowPath size with
  | true =>
      simp only [if_true, appendCode_graft hblk, ok_bind, size_insts_graft, List.length_append,
        length_addedCode, length_probeCode, List.length_cons, List.length_nil, Nat.zero_add]
      rw [appendCode_graft_fresh (k := 2) (by simp), ok_bind,
        appendCode_graft_fresh (k := 1) (by simp)]
      simp [ops, fresh, branch, slowPart, reportPart, reportStart, hslow, hnine, addedCode,
        ← Nat.add_assoc, hstart]
  | false =>
      simp only [Bool.false_eq_true, if_false, appendCode_graft hblk, ok_bind, size_insts_graft,
        List.length_append, length_addedCode, length_probeCode, List.length_cons, List.length_nil,
        Nat.zero_add]
      rw [appendCode_graft_fresh (k := 1) (by simp)]
      simp [ops, fresh, branch, slowPart, reportPart, reportStart, hslow, hnine, addedCode]

open Func in
/-- A check behind code that was just put into a block. -/
theorem insert_graft {c : Check} {f : Func} {b : BlockId} {blk : Block} {front tail : List InstId}
    {code : List Instruction} {pos : Nat} {addr : Value} {size : Nat}
    (hblk : f.blocks[b]? = some blk) (hpos : pos = front.length) :
    c.insert (f.graft b (front ++ tail) code []) b pos addr size =
      .ok (f.graft b (front ++ List.range' (f.insts.size + code.length) 9)
          (code ++ addedCode c.origin (c.ops (f.insts.size + code.length) addr size f.blocks.size))
          (c.fresh f.blockArgs.size (f.insts.size + code.length) addr size f.blocks.size tail),
        f.blocks.size) := by
  rw [insert_eq_graft (getElem?_blocks_graft_self hblk) (by simp [hpos]),
    graft_graft (lt_size_of_getElem? hblk)]
  simp [hpos]

open Func in
/-- A check at the start of the code behind a check that was just put into a block. -/
theorem insert_graft_fresh {c c' : Check} {f : Func} {b : BlockId} {insts tail : List InstId}
    {code : List Instruction} {argStart n size size' : Nat} {addr addr' : Value} {cont : BlockId} :
    c'.insert (f.graft b insts code (c.fresh argStart n addr size cont tail)) f.blocks.size 0
        addr' size' =
      .ok (f.graft b insts
          (code ++ addedCode c'.origin (c'.ops (f.insts.size + code.length) addr' size'
            (f.blocks.size + (c.fresh argStart n addr size cont tail).length)))
          (c.fresh argStart n addr size cont (List.range' (f.insts.size + code.length) 9) ++
            c'.fresh f.blockArgs.size (f.insts.size + code.length) addr' size'
              (f.blocks.size + (c.fresh argStart n addr size cont tail).length) tail),
        f.blocks.size + (c.fresh argStart n addr size cont tail).length) := by
  have hblk : (f.graft b insts code (c.fresh argStart n addr size cont tail)).blocks[
      f.blocks.size]? = some { argStart := argStart, insts := tail } :=
    getElem?_blocks_graft_add 0
  have hgraft (ids : List InstId) (code' : List Instruction) (blocks : List Block) :
      (f.graft b insts code (c.fresh argStart n addr size cont tail)).graft f.blocks.size ids code'
          blocks =
        f.graft b insts (code ++ code') (c.fresh argStart n addr size cont ids ++ blocks) :=
    graft_graft_fresh 0
  rw [insert_eq_graft hblk (Nat.zero_le _), hgraft]
  simp

/-! ### The code is sound -/

variable {c : Check} {n : Nat} {addr : Value} {size : Nat} {cont : Nat}

@[simp] theorem length_reportPart : (c.reportPart n addr size cont).length = 3 := rfl

theorem length_ops :
    (c.ops n addr size cont).length = 9 + (c.slowPart n addr size cont).length + 3 := by
  simp [ops]
  omega

/-- A check lists each of its instructions once, and what stood behind it. -/
theorem fresh_listed_perm (c : Check) (n : Nat) (addr : Value) (size cont argStart : Nat)
    (tail : List InstId) :
    (List.range' n 9 ++ (c.fresh argStart n addr size cont tail).flatMap Block.insts).Perm
      (tail ++ List.range' n (c.ops n addr size cont).length) := by
  have hrange : List.range' n (c.ops n addr size cont).length =
      List.range' n 9 ++ (List.range' (n + 9) (c.slowPart n addr size cont).length ++
        List.range' (c.reportStart n addr size cont) 3) := by
    rw [reportStart, List.range'_append_1, List.range'_append_1, length_ops, Nat.add_assoc]
  have hfresh : ((c.fresh argStart n addr size cont tail).flatMap Block.insts).Perm
      (tail ++ (List.range' (n + 9) (c.slowPart n addr size cont).length ++
        List.range' (c.reportStart n addr size cont) 3)) := by
    cases hslow : c.mapping.needsSlowPath size with
    | true =>
        simp only [fresh, hslow, if_true, List.flatMap_cons, List.flatMap_nil, List.append_nil]
        exact List.perm_append_comm.append_left tail
    | false => simp [fresh, slowPart, hslow]
  rw [hrange]
  exact (hfresh.append_left _).trans (List.perm_append_comm_assoc _ _ _)

theorem length_fresh (argStart : Nat) (tail : List InstId) :
    (c.fresh argStart n addr size cont tail).length =
      if c.mapping.needsSlowPath size then 3 else 2 := by
  unfold fresh
  split <;> rfl

theorem refers_probeCode {mapping : ShadowMapping} {m k : Nat} (haddr : addr.Below m)
    (hm : n + 8 ≤ m) : ∀ op ∈ probeCode mapping n addr size, op.Refers m k := by
  simp only [probeCode, shadowAddrCode, List.cons_append, List.nil_append, List.forall_mem_cons]
  refine ⟨?_, ?_, ?_, ?_, ?_, ?_, ?_, ?_, by simp⟩ <;>
    refine ⟨?_, by simp [Op.successors]⟩ <;> simp [Op.operands, haddr] <;> omega

theorem refers_slowCode {mapping : ShadowMapping} {shadow : Value} {report : Nat} {m k : Nat}
    (haddr : addr.Below m) (hshadow : shadow.Below m)
    (hm : n + (slowCode mapping n addr shadow size report cont).length ≤ m) (hreport : report < k)
    (hcont : cont < k) :
    ∀ op ∈ slowCode mapping n addr shadow size report cont, op.Refers m k := by
  rw [slowCode_eq] at hm ⊢
  unfold slowLine at hm ⊢
  split at hm
  · rename_i hsize
    simp only [if_pos hsize, List.cons_append, List.nil_append, List.forall_mem_cons,
      List.length_cons, List.length_nil] at hm ⊢
    refine ⟨?_, ?_, ?_, ?_, ?_, ?_, ?_, by simp⟩ <;>
      constructor <;> simp [Op.operands, Op.successors, haddr, hshadow, hreport, hcont] <;> omega
  · rename_i hsize
    simp only [if_neg hsize, List.cons_append, List.nil_append, List.forall_mem_cons,
      List.length_cons, List.length_nil] at hm ⊢
    refine ⟨?_, ?_, ?_, ?_, ?_, by simp⟩ <;>
      constructor <;> simp [Op.operands, Op.successors, haddr, hshadow, hreport, hcont] <;> omega

/-- The code of a check refers to itself, to what it checks and to its blocks. -/
theorem refers_ops {m k : Nat} (haddr : addr.Below n) (hargs : ∀ v ∈ c.args, v.Below n)
    (hm : n + (c.ops n addr size cont).length ≤ m)
    (hk : cont + (c.fresh 0 n addr size cont []).length ≤ k) :
    ∀ op ∈ c.ops n addr size cont, op.Refers m k := by
  rw [length_ops] at hm
  rw [length_fresh] at hk
  have hlt : cont + 1 < k := by split at hk <;> omega
  have haddr' : addr.Below m := haddr.mono (by omega)
  intro op hop
  rw [ops, List.mem_append, List.mem_cons, List.mem_append] at hop
  rcases hop with hop | rfl | hop | hop
  · exact refers_probeCode haddr' (by omega) op hop
  · constructor
    · simp [branch, Op.operands]
      omega
    · cases hslow : c.mapping.needsSlowPath size <;>
        simp [branch, Op.successors, hslow] at hk ⊢ <;> omega
  · cases hslow : c.mapping.needsSlowPath size with
    | false => simp [slowPart, hslow] at hop
    | true =>
        rw [slowPart, if_pos hslow] at hop hm
        exact refers_slowCode haddr' (by simp; omega) (by omega) hlt (by omega) op hop
  · simp only [reportPart, reportCode, List.mem_cons, List.not_mem_nil, or_false] at hop
    rcases hop with rfl | rfl | rfl
    · constructor <;> simp [Op.operands, Op.successors]
    · refine ⟨?_, by simp [Op.successors]⟩
      rw [Op.operands, List.forall_mem_cons]
      refine ⟨by simp [reportStart]; omega, fun v hv => (hargs v hv).mono (by omega)⟩
    · cases c.recover <;> constructor <;> simp [Op.operands, Op.successors]
      omega

end Check

end Redzone
