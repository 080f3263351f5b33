import Redzone.Proofs.Edits.Step
import Redzone.Proofs.Modules.Draft
import Redzone.Proofs.Pointer

/-!
# Code that differs in the numbers of symbols

A name has different numbers in different symbol tables.  Code that was made with one table and code
that was made with another one are `Alike` if they are the same but for the numbers of symbols, and
if what the blocks list refers to the same names.  Nothing is asked of an instruction that no block
lists: it may have a number that neither table knows.

All that is read of a function while code is added to it is also read of the function without its
symbols (`Func.erased`), so that it is the same for functions that are alike.
-/

namespace Redzone

/-! ### Symbols and names -/

/-- Numbers of the same name. -/
def SymbolTable.Same (first second : SymbolTable) (symbol symbol' : SymbolId) : Prop :=
  ∃ name, first.names[symbol]? = some name ∧ second.names[symbol']? = some name

theorem SymbolTable.Same.mono {first first' second second' : SymbolTable}
    {symbol symbol' : SymbolId}
    (h : first.Same second symbol symbol') (hfirst : first.GrowsTo first')
    (hsecond : second.GrowsTo second') : first'.Same second' symbol symbol' := by
  obtain ⟨name, hname, hname'⟩ := h
  exact ⟨name, hfirst _ _ hname, hsecond _ _ hname'⟩

namespace Op

/-- The symbol whose address an operation takes. -/
def symbol? : Op → Option SymbolId
  | symbolAddr symbol => some symbol
  | _ => none

/-- The operation without the number of its symbol. -/
def erased : Op → Op
  | symbolAddr _ => symbolAddr 0
  | op => op

theorem erased_eq_self {op : Op} (h : op.symbol? = none) : op.erased = op := by
  cases op with
  | symbolAddr => cases h
  | _ => rfl

@[simp] theorem symbol?_erased {op : Op} : op.erased.symbol? = op.symbol?.map fun _ => 0 := by
  cases op <;> rfl

/-- An operation without a symbol is found again. -/
theorem eq_of_erased_eq {op op' : Op} (h : op'.erased = op.erased) (hplain : op.symbol? = none) :
    op' = op := by
  have hplain' : op'.symbol? = none := by
    have hsymbol := congrArg symbol? h
    rw [symbol?_erased, symbol?_erased, hplain] at hsymbol
    exact Option.map_eq_none_iff.mp hsymbol
  rwa [erased_eq_self hplain, erased_eq_self hplain'] at h

/-- Operations that are the same, or take addresses of the same name. -/
inductive Alike (first second : SymbolTable) : Op → Op → Prop
  | plain {op : Op} (h : op.symbol? = none) : Alike first second op op
  | symbol {symbol symbol' : SymbolId} (h : first.Same second symbol symbol') :
      Alike first second (symbolAddr symbol) (symbolAddr symbol')

variable {first first' second second' : SymbolTable} {op op' : Op}

theorem Alike.erased (h : Alike first second op op') : op'.erased = op.erased := by
  cases h <;> rfl

theorem Alike.mono (h : Alike first second op op') (hfirst : first.GrowsTo first')
    (hsecond : second.GrowsTo second') : Alike first' second' op op' := by
  cases h with
  | plain h => exact .plain h
  | symbol h => exact .symbol (h.mono hfirst hsecond)

theorem alike_of_plain {ops : List Op} (h : ∀ op ∈ ops, op.symbol? = none) :
    List.Forall₂ (Alike first second) ops ops :=
  List.forall₂_same.mpr fun op hop => .plain (h op hop)

end Op

/-- The instruction without the number of its symbol. -/
def Instruction.erased (instruction : Instruction) : Instruction :=
  { instruction with op := instruction.op.erased }

/-- Instructions whose operations are alike, and all else about them is the same. -/
structure Instruction.Alike (first second : SymbolTable) (instruction instruction' : Instruction) :
    Prop where
  erased : instruction'.erased = instruction.erased
  op : instruction.op.Alike first second instruction'.op

theorem alike_addedCode {first second : SymbolTable} (origin : Origin) {ops ops' : List Op}
    (h : List.Forall₂ (Op.Alike first second) ops ops') :
    List.Forall₂ (Instruction.Alike first second) (addedCode origin ops)
      (addedCode origin ops') := by
  unfold addedCode
  rw [List.forall₂_map_left_iff, List.forall₂_map_right_iff]
  refine h.imp fun op op' hop => ⟨?_, hop⟩
  cases hop <;> rfl

theorem map_erased_eq {first second : SymbolTable} {code code' : List Instruction}
    (h : List.Forall₂ (Instruction.Alike first second) code code') :
    code'.map Instruction.erased = code.map Instruction.erased := by
  induction h with
  | nil => rfl
  | cons halike _ ih => rw [List.map_cons, List.map_cons, halike.erased, ih]

/-! ### Functions -/

namespace Func

/-- The function without the numbers of symbols in its code. -/
def erased (f : Func) : Func := { f with insts := f.insts.map Instruction.erased }

/-- Functions that are the same but for the numbers of symbols, and whose blocks refer to the same
names. -/
structure Alike (first second : SymbolTable) (f g : Func) : Prop where
  erased : g.erased = f.erased
  named : first.Same second f.name g.name
  code : ∀ i ∈ f.listed, ∀ (instruction instruction' : Instruction),
    f.insts[i]? = some instruction →
    g.insts[i]? = some instruction' → instruction.op.Alike first second instruction'.op

variable {f f' g g' : Func} {first first' second second' : SymbolTable} {b : BlockId} {pos : Nat}
  {i : InstId} {instruction instruction' : Instruction} {code code' : List Instruction} {op : Op}

theorem getElem?_insts_erased : f.erased.insts[i]? = f.insts[i]?.map Instruction.erased :=
  Array.getElem?_map

/-! ### What is read while code is added -/

theorem inst_erased (f : Func) (i : InstId) :
    f.erased.inst i = (f.inst i).map Instruction.erased := by
  unfold inst
  rw [getElem?_insts_erased]
  cases f.insts[i]? <;> rfl

theorem defOp_erased (f : Func) (v : Value) : f.erased.defOp v = (f.defOp v).map Op.erased := by
  cases v with
  | arg => rfl
  | inst i =>
      unfold defOp defInst Value.inst?
      rw [Option.bind_some, Option.bind_some, getElem?_insts_erased]
      cases f.insts[i]? <;> rfl

/-- Chains of additions have no symbols in them. -/
theorem baseAndOffset_erased (f : Func) (ptr : Value) :
    f.erased.baseAndOffset ptr = f.baseAndOffset ptr := by
  have hadd : ∀ v inner distance, f.erased.defOp v = some (.ptrAdd inner distance) ↔
      f.defOp v = some (.ptrAdd inner distance) := by
    intro v inner distance
    rw [defOp_erased]
    cases f.defOp v with
    | none => simp
    | some op => cases op <;> simp [Op.erased]
  have hconst : ∀ v c, f.erased.defOp v = some (.iconst c) ↔ f.defOp v = some (.iconst c) := by
    intro v c
    rw [defOp_erased]
    cases f.defOp v with
    | none => simp
    | some op => cases op <;> simp [Op.erased]
  ext ⟨base, total⟩
  rw [baseAndOffset_eq_some_iff, baseAndOffset_eq_some_iff]
  refine and_congr ⟨fun h => ?_, fun h => ?_⟩ ?_
  · exact h.mono (fun v inner distance => (hadd v inner distance).mp) fun v c => (hconst v c).mp
  · exact h.mono (fun v inner distance => (hadd v inner distance).mpr) fun v c => (hconst v c).mpr
  · simp only [IsRoot, ne_eq, hadd]

theorem markers_erased (f : Func) (slots : List Slot) :
    f.erased.markers slots = f.markers slots := by
  have hmarker : f.erased.marker? slots = f.marker? slots := by
    funext i
    unfold marker?
    rw [inst_erased]
    cases f.inst i with
    | error fault => rfl
    | ok instruction =>
        simp only [Except.map, ok_bind, Instruction.erased]
        cases instruction.op with
        | lifetime edge ptr size => simp only [Op.erased, baseAndOffset_erased]
        | _ => rfl
  unfold markers
  rw [hmarker]
  rfl

theorem prologueLength_erased (f : Func) : f.erased.prologueLength = f.prologueLength := by
  have hleading : ∀ insts, f.erased.leadingParams insts = f.leadingParams insts := by
    intro insts
    induction insts with
    | nil => rfl
    | cons i rest ih =>
        rw [leadingParams, leadingParams, inst_erased, ih]
        cases f.inst i with
        | error fault => rfl
        | ok instruction =>
            simp only [Except.map, ok_bind, Instruction.erased]
            cases instruction.op <;> rfl
  unfold prologueLength
  rw [show f.erased.blocks = f.blocks from rfl]
  cases f.blocks[0]? with
  | none => rfl
  | some entry => exact hleading entry.insts

theorem exits_erased (f : Func) : f.erased.exits Op.isExit = f.exits Op.isExit := by
  -- no terminator refers to a symbol, so that none is erased
  have hterminator : ∀ b, f.erased.terminator b = f.terminator b := by
    intro b
    unfold terminator
    rw [show f.erased.block b = f.block b from rfl]
    cases f.block b with
    | error fault => rfl
    | ok blk =>
        simp only [ok_bind]
        cases blk.insts.getLast? with
        | none => rfl
        | some last =>
            simp only [inst_erased]
            cases f.inst last with
            | error fault => rfl
            | ok instruction =>
                simp only [Except.map, ok_bind, Instruction.erased]
                cases instruction.op <;> rfl
  have hexit : f.erased.exit? Op.isExit = f.exit? Op.isExit := by
    funext b
    unfold exit?
    rw [hterminator]
    cases f.terminator b with
    | error fault => rfl
    | ok last =>
        cases last with
        | none => rfl
        | some last =>
            simp only [ok_bind, inst_erased]
            cases f.inst last with
            | error fault => rfl
            | ok instruction =>
                simp only [Except.map, ok_bind, Instruction.erased]
                cases instruction.op <;> rfl
  unfold exits
  rw [hexit]
  rfl

namespace Alike

theorem mono (h : Alike first second f g) (hfirst : first.GrowsTo first')
    (hsecond : second.GrowsTo second') : Alike first' second' f g where
  erased := h.erased
  named := h.named.mono hfirst hsecond
  code i hi instruction instruction' hinst hinst' :=
    (h.code i hi instruction instruction' hinst hinst').mono hfirst hsecond

theorem blocks (h : Alike first second f g) : g.blocks = f.blocks :=
  show g.erased.blocks = f.erased.blocks from congrArg Func.blocks h.erased

theorem blockArgs (h : Alike first second f g) : g.blockArgs = f.blockArgs :=
  show g.erased.blockArgs = f.erased.blockArgs from congrArg Func.blockArgs h.erased

theorem name (h : Alike first second f g) : g.name = f.name :=
  show g.erased.name = f.erased.name from congrArg Func.name h.erased

theorem size (h : Alike first second f g) : g.insts.size = f.insts.size := by
  have hsize := congrArg (fun k : Func => k.insts.size) h.erased
  simpa only [Func.erased, Array.size_map] using hsize

theorem markers (h : Alike first second f g) (slots : List Slot) :
    g.markers slots = f.markers slots := by
  rw [← markers_erased, h.erased, markers_erased]

theorem prologueLength (h : Alike first second f g) : g.prologueLength = f.prologueLength := by
  rw [← prologueLength_erased, h.erased, prologueLength_erased]

theorem exits (h : Alike first second f g) : g.exits Op.isExit = f.exits Op.isExit := by
  rw [← exits_erased, h.erased, exits_erased]

theorem locate (h : Alike first second f g) (i : InstId) : g.locate i = f.locate i := by
  unfold Func.locate
  rw [h.blocks]

theorem inst (h : Alike first second f g) (hinst : f.insts[i]? = some instruction)
    (hinst' : g.insts[i]? = some instruction') : instruction'.erased = instruction.erased := by
  have hget := congrArg (fun k : Func => k.insts[i]?) h.erased
  simp only [getElem?_insts_erased, hinst, hinst', Option.map_some] at hget
  exact Option.some.inj hget

/-! ### Edits -/

theorem graft (h : Alike first second f g) {blk : Block} {insts : List InstId} {fresh : List Block}
    (hblk : f.blocks[b]? = some blk)
    (hnew : (insts ++ fresh.flatMap Block.insts).Perm
      (blk.insts ++ List.range' f.insts.size code.length))
    (hcode : List.Forall₂ (Instruction.Alike first second) code code') :
    Alike first second (f.graft b insts code fresh) (g.graft b insts code' fresh) where
  erased := by
    have hinsts : g.insts.map Instruction.erased = f.insts.map Instruction.erased :=
      congrArg Func.insts h.erased
    have hadded := map_erased_eq hcode
    have hrest := h.erased
    simp only [Func.erased, Func.graft, Func.mk.injEq] at hrest ⊢
    simp only [Array.map_append, List.map_toArray, hinsts, hadded, hrest, and_self]
  named := h.named
  code := by
    intro i hi instruction instruction' hinst hinst'
    by_cases hlt : i < f.insts.size
    · have hold : i ∈ f.listed := by
        rcases List.mem_append.mp ((listed_graft_perm hblk hnew).mem_iff.mp hi) with hold | hadded
        · exact hold
        · exact absurd (List.mem_range'_1.mp hadded).1 (Nat.not_le.mpr hlt)
      rw [getElem?_insts_graft_of_lt hlt] at hinst
      rw [getElem?_insts_graft_of_lt (h.size ▸ hlt)] at hinst'
      exact h.code i hold instruction instruction' hinst hinst'
    · -- what is listed behind the old arena is new code
      obtain ⟨k, rfl⟩ := Nat.exists_eq_add_of_le (Nat.not_lt.mp hlt)
      rw [getElem?_insts_graft_add] at hinst
      rw [← h.size, getElem?_insts_graft_add] at hinst'
      obtain ⟨hk, rfl⟩ := List.getElem?_eq_some_iff.mp hinst
      obtain ⟨hk', rfl⟩ := List.getElem?_eq_some_iff.mp hinst'
      exact (hcode.get hk hk').op

theorem insertCode (h : Alike first second f g)
    (hcode : List.Forall₂ (Instruction.Alike first second) code code')
    (hf : f.insertCode b pos code = .ok f') (hg : g.insertCode b pos code' = .ok g') :
    Alike first second f' g' := by
  obtain ⟨blk, hblk, -, rfl⟩ := insertCode_eq_ok hf
  obtain ⟨blk', hblk', -, rfl⟩ := insertCode_eq_ok hg
  rw [h.blocks] at hblk'
  obtain rfl := Option.some.inj (hblk.symm.trans hblk')
  rw [h.size, ← hcode.length_eq]
  exact h.graft hblk (insertCode_perm f blk pos code) hcode

theorem setOp (h : Alike first second f g) (hplain : op.symbol? = none)
    (hf : f.setOp i op = .ok f') (hg : g.setOp i op = .ok g') : Alike first second f' g' := by
  obtain ⟨instruction, hinst, rfl⟩ := setOp_eq_ok hf
  obtain ⟨instruction', hinst', rfl⟩ := setOp_eq_ok hg
  have hlt := (Array.getElem?_eq_some_iff.mp hinst).1
  have hsame : ({ instruction' with op := op } : Instruction) = { instruction with op := op } := by
    have herased := h.inst hinst hinst'
    simp only [Instruction.erased, Instruction.mk.injEq] at herased ⊢
    exact ⟨trivial, herased.2⟩
  rw [hsame]
  refine ⟨?_, h.named, fun j hj a a' ha ha' => ?_⟩
  · have hinsts : g.insts.map Instruction.erased = f.insts.map Instruction.erased :=
      congrArg Func.insts h.erased
    have hrest := h.erased
    simp only [Func.erased, Func.setInst, Func.mk.injEq] at hrest ⊢
    simp only [Array.map_setIfInBounds, hinsts, hrest, and_self]
  · by_cases heq : j = i
    · subst heq
      rw [getElem?_insts_setInst_self hlt] at ha
      rw [getElem?_insts_setInst_self (h.size ▸ hlt)] at ha'
      cases ha
      cases ha'
      exact .plain hplain
    · rw [getElem?_insts_setInst_of_ne heq] at ha ha'
      exact h.code j hj a a' ha ha'

end Alike

end Func

end Redzone
