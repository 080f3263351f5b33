import Redzone.Proofs.Frame.Layout
import Redzone.Proofs.Modules.WellFormed
import Redzone.Proofs.Progress.Survey

/-!
# What a verification accepts

`Func.Lawful` collects the rules for a body: how its blocks end, what they list, and what every
listed instruction has to obey.  The rules about types are read off two tables, `Op.asks` for the
values that an operation reads and `Op.yields` for its result.  A verification comes to an end
whatever the body refers to, and it finds nothing exactly if the body is lawful
(`Func.verify_accepts_iff`).

The checks on types skip values that are not in their arena, and the checks on a branch stop at a
block that is not there.  What is skipped is always reported as a dangling reference, so that the
rules can be stated without exceptions (`Func.shape_eq_nil_iff`, `Func.target_eq_nil_iff`).
-/

namespace Redzone

/-! ### The rules -/

/-- What an operation asks of a type. -/
inductive TyRule
  | exactly (ty : Ty)
  /-- A pointer, in whatever address space. -/
  | pointer
  deriving DecidableEq

/-- Whether a type is as it is asked for. -/
def TyRule.admits : TyRule → Ty → Bool
  | exactly expected, ty => ty = expected
  | pointer, ty => ty.isPtr

namespace Op

/-- The values whose types an operation asks for, with what it asks. -/
def asks : Op → List (Value × TyRule)
  | arith _ lhs rhs | icmp _ lhs rhs => [(lhs, .exactly .int), (rhs, .exactly .int)]
  | select cond _ _ | brif cond _ _ => [(cond, .exactly .bool)]
  | extend _ value _ | intToPtr value => [(value, .exactly .int)]
  | load ptr _ _ | store _ ptr _ _ | lifetime _ ptr _ | call ptr _ | ptrToAddr ptr =>
      [(ptr, .pointer)]
  | rmw _ ptr value _ _ => [(ptr, .pointer), (value, .exactly .int)]
  | cmpxchg ptr expected desired _ _ =>
      [(ptr, .pointer), (expected, .exactly .int), (desired, .exactly .int)]
  | bulk .fill dest byte length =>
      [(dest, .pointer), (byte, .exactly .int), (length, .exactly .int)]
  | bulk _ dest source length => [(dest, .pointer), (source, .pointer), (length, .exactly .int)]
  | ptrAdd ptr offset => [(ptr, .pointer), (offset, .exactly .int)]
  | _ => []

/-- What is asked of the type of the result. -/
def yields : Op → Option TyRule
  | iconst _ | arith .. | extend .. | ptrToAddr _ => some (.exactly .int)
  | bconst _ | icmp .. => some (.exactly .bool)
  | store .. => some (.exactly .unit)
  | stackSlot .. | symbolAddr _ | intToPtr _ => some .pointer
  | _ => none

/-- The bytes of an access, or the bits of an extension. -/
def width? : Op → Option Nat
  | load _ bytes _ | store _ _ bytes _ | rmw _ _ _ bytes _ | cmpxchg _ _ _ bytes _ => some bytes
  | extend _ _ bits => some bits
  | _ => none

/-- Where a branch may go. -/
def targets : Op → List Target
  | br next => [next]
  | brif _ ifTrue ifFalse => [ifTrue, ifFalse]
  | _ => []

end Op

namespace Func

/-- The value exists: a block argument of the arena, or an instruction that some block lists. -/
def Provides (f : Func) : Value → Prop
  | .arg i => i < f.blockArgs.size
  | .inst i => i ∈ f.listed ∧ i < f.insts.size

/-- A branch goes to a block other than the entry and passes as many values as the block has
arguments, each of the type of its argument. -/
def Reaches (f : Func) (t : Target) : Prop :=
  t.block ≠ 0 ∧ ∃ blk, f.blocks[t.block]? = some blk ∧ t.args.length = blk.argCount ∧
    t.args.map f.valueTy = blk.argValues.map f.valueTy

/-- The rules for an instruction of a function, wherever it is listed. -/
@[mk_iff]
structure Obeys (f : Func) (symbols : SymbolTable) (i : Instruction) : Prop where
  operands : ∀ v ∈ i.op.operands, f.Provides v
  asks : ∀ ask ∈ i.op.asks, ∃ ty, f.valueTy ask.1 = some ty ∧ ask.2.admits ty = true
  yields : ∀ rule, i.op.yields = some rule → rule.admits i.ty = true
  targets : ∀ t ∈ i.op.targets, f.Reaches t
  /-- The parameter is declared, with the type of the result. -/
  param : ∀ index, i.op = .param index → f.params[index]? = some i.ty
  /-- The arms of a choice have one type. -/
  arms : ∀ cond ifTrue ifFalse, i.op = .select cond ifTrue ifFalse →
    f.valueTy ifTrue = f.valueTy ifFalse
  symbol : ∀ symbol, i.op = .symbolAddr symbol → ∃ name, symbols.names[symbol]? = some name
  width : ∀ n, i.op.width? = some n → n ≠ 0
  align : ∀ size align, i.op = .stackSlot size align → ∃ k, align = 2 ^ k
  /-- What is returned is a value of the declared type, or nothing if nothing is declared. -/
  ret : ∀ value, i.op = .ret value → value.map f.valueTy = f.ret.map some

/-- The rules for a body. -/
structure Lawful (f : Func) (symbols : SymbolTable) : Prop where
  /-- The entry takes no arguments. -/
  entry : ∀ blk, f.blocks[0]? = some blk → blk.argCount = 0
  nonempty : ∀ blk ∈ f.blocks, blk.insts ≠ []
  /-- The last instruction of a block is a terminator, and no other one is. -/
  terminator : ∀ (b : BlockId) (blk : Block) (pos : Nat) (i : InstId) (instruction : Instruction),
    f.blocks[b]? = some blk → blk.insts[pos]? = some i → f.insts[i]? = some instruction →
    (instruction.op.isTerminator = true ↔ pos + 1 = blk.insts.length)
  inArena : ∀ i ∈ f.listed, i < f.insts.size
  once : f.listed.Nodup
  params : ∀ (b : BlockId) (pos : Nat) (i : InstId) (instruction : Instruction), f.At b pos i →
    f.insts[i]? = some instruction → instruction.op.isParam = true → b = 0
  obeys : ∀ i ∈ f.listed, ∀ instruction, f.insts[i]? = some instruction →
    f.Obeys symbols instruction

/-- The arguments of every block are in the arena. -/
def ArgsInArena (f : Func) : Prop :=
  ∀ blk ∈ f.blocks, blk.argStart + blk.argCount ≤ f.blockArgs.size

instance (f : Func) : Decidable f.ArgsInArena :=
  inferInstanceAs (Decidable (∀ blk ∈ f.blocks, blk.argStart + blk.argCount ≤ f.blockArgs.size))

end Func

/-! ### Operands and types -/

theorem exists_bind {ε α β : Type} {first : Except ε α} {next : α → Except ε β}
    (hfirst : ∃ a, first = .ok a) (hnext : ∀ a, ∃ b, next a = .ok b) :
    ∃ b, (first >>= next) = .ok b := by
  obtain ⟨a, rfl⟩ := hfirst
  exact hnext a

theorem isPowerOfTwo_iff {n : Nat} : isPowerOfTwo n = true ↔ ∃ k, n = 2 ^ k := by
  constructor
  · intro h
    exact ⟨_, eq_two_pow_of_isPowerOfTwo h⟩
  · rintro ⟨k, rfl⟩
    rw [← Nat.one_shiftLeft]
    exact isPowerOfTwo_shiftLeft k

namespace Func

variable {f : Func} {symbols : SymbolTable} {v : Value} {i : Instruction}

theorem operand_eq_nil_iff_provides : (f.scope symbols).operand v = [] ↔ f.Provides v := by
  have hknows : (f.scope symbols).knows v = true ↔ f.Provides v := by
    cases v with
    | arg i => exact decide_eq_true_iff
    | inst i => simp [Scope.knows, scope, Provides]
  rw [← hknows, Scope.operand]
  split <;> simp_all

/-- A value that exists has a type. -/
theorem Provides.exists_ty (h : f.Provides v) : ∃ ty, f.valueTy v = some ty := by
  cases v with
  | arg i => exact ⟨_, Array.getElem?_eq_getElem h⟩
  | inst i =>
      rw [valueTy, Array.getElem?_eq_getElem h.2]
      exact ⟨_, rfl⟩

theorem hasTy_eq_nil_iff {role : String} {expected : Ty} (h : f.Provides v) :
    (f.scope symbols).hasTy role expected v = [] ↔
      ∃ ty, f.valueTy v = some ty ∧ (TyRule.exactly expected).admits ty = true := by
  obtain ⟨ty, hty⟩ := h.exists_ty
  simp [Scope.hasTy, hty, TyRule.admits]

theorem hasPtrTy_eq_nil_iff {role : String} (h : f.Provides v) :
    (f.scope symbols).hasPtrTy role v = [] ↔
      ∃ ty, f.valueTy v = some ty ∧ TyRule.pointer.admits ty = true := by
  obtain ⟨ty, hty⟩ := h.exists_ty
  simp [Scope.hasPtrTy, hty, TyRule.admits]

theorem result_eq_nil_iff {role : String} {expected found : Ty} :
    Scope.result role expected found = [] ↔ (TyRule.exactly expected).admits found = true := by
  simp [Scope.result, TyRule.admits]

theorem resultPtr_eq_nil_iff {role : String} {found : Ty} :
    Scope.resultPtr role found = [] ↔ TyRule.pointer.admits found = true := by
  simp [Scope.resultPtr, TyRule.admits]

theorem width_eq_nil_iff {role : String} {bytes : Nat} :
    Scope.width role bytes = [] ↔ bytes ≠ 0 := by
  simp [Scope.width]

/-- The rules for an instruction that is no branch. -/
theorem shape_eq_nil_iff (hoperands : ∀ v ∈ i.op.operands, f.Provides v)
    (hbranch : i.op.targets = []) : (f.scope symbols).shape i = [] ↔ f.Obeys symbols i := by
  rw [obeys_iff, and_iff_right hoperands]
  cases hop : i.op
  case param index =>
    cases hdeclared : f.params[index]? <;>
      simp [hop, hdeclared, Scope.shape, Op.asks, Op.yields, Op.targets, Op.width?]
  -- the rules compare the type of one operand with that of another
  case select cond ifTrue ifFalse =>
    simp only [hop, Op.operands, List.forall_mem_cons] at hoperands
    obtain ⟨hcond, hifTrue, hifFalse, -⟩ := hoperands
    obtain ⟨first, hfirst⟩ := hifTrue.exists_ty
    obtain ⟨second, hsecond⟩ := hifFalse.exists_ty
    simp [hop, hfirst, hsecond, Scope.shape, Op.asks, Op.yields, Op.targets, Op.width?,
      hasTy_eq_nil_iff hcond]
  case bulk kind dest source length =>
    simp only [hop, Op.operands, List.forall_mem_cons] at hoperands
    cases kind <;>
      simp [hop, Scope.shape, Op.asks, Op.yields, Op.targets, Op.width?, hasTy_eq_nil_iff,
        hasPtrTy_eq_nil_iff, hoperands]
  case ret value =>
    cases value with
    | none =>
        cases hret : f.ret <;>
          simp [hop, hret, Scope.shape, Op.asks, Op.yields, Op.targets, Op.width?]
    | some v =>
        have hv : f.Provides v := hoperands v (by simp [hop, Op.operands])
        cases hret : f.ret with
        | none => simp [hop, hret, Scope.shape, Op.asks, Op.yields, Op.targets, Op.width?]
        | some ty =>
            simp [hop, hret, Scope.shape, Op.asks, Op.yields, Op.targets, Op.width?,
              hasTy_eq_nil_iff hv, TyRule.admits]
  case br | brif => simp [hop, Op.targets] at hbranch
  -- the rule is about a symbol, and the list has to be taken apart by hand
  case symbolAddr symbol =>
    have hshape : (f.scope symbols).shape i =
        (if symbols.contains symbol then [] else [.unknownSymbol symbol]) ++
          Scope.resultPtr "symbol_addr" i.ty := by
      rw [Scope.shape, hop]
      rfl
    have hcontains : (if symbols.contains symbol then [] else [Defect.unknownSymbol symbol]) = [] ↔
        ∃ name, symbols.names[symbol]? = some name := by
      rw [← SymbolTable.contains_iff]
      split <;> simp_all
    rw [hshape, List.append_eq_nil_iff, hcontains, resultPtr_eq_nil_iff]
    simp [Op.asks, Op.yields, Op.targets, Op.width?, and_comm]
  case stackSlot =>
    simp [hop, Scope.shape, Op.asks, Op.yields, Op.targets, Op.width?, resultPtr_eq_nil_iff,
      isPowerOfTwo_iff, and_comm]
  case extend | store =>
    simp only [hop, Op.operands, List.forall_mem_cons] at hoperands
    simp [hop, Scope.shape, Op.asks, Op.yields, Op.targets, Op.width?, hasTy_eq_nil_iff,
      hasPtrTy_eq_nil_iff, result_eq_nil_iff, width_eq_nil_iff, hoperands, and_assoc, and_comm]
  all_goals
    simp only [hop, Op.operands, List.forall_mem_cons] at hoperands
    simp [hop, Scope.shape, Op.asks, Op.yields, Op.targets, Op.width?, hasTy_eq_nil_iff,
      hasPtrTy_eq_nil_iff, result_eq_nil_iff, resultPtr_eq_nil_iff, width_eq_nil_iff, hoperands,
      and_assoc]

/-! ### Branches -/

/-- The types of a block's arguments, where these are in the arena. -/
theorem exists_argTys {b : BlockId} {blk : Block} (hargs : f.ArgsInArena)
    (hblk : f.blocks[b]? = some blk) :
    ∃ tys, f.argTys b = .ok tys ∧ tys.length = blk.argCount ∧
      tys.map some = blk.argValues.map f.valueTy := by
  have hle := hargs blk (Array.mem_of_getElem? hblk)
  have hblock : f.block b = .ok blk := by
    rw [block, hblk]
  refine ⟨(f.blockArgs.toList.drop blk.argStart).take blk.argCount, ?_, ?_, ?_⟩
  · rw [argTys, hblock, ok_bind, if_pos hle]
  · rw [List.length_take, List.length_drop, Array.length_toList]
    omega
  · apply List.ext_getElem?
    intro k
    rw [List.getElem?_map, List.getElem?_take, Block.argValues, List.map_map, List.getElem?_map]
    rcases Nat.lt_or_ge k blk.argCount with hk | hk
    · rw [if_pos hk, List.getElem?_drop, Array.getElem?_toList, List.getElem?_range hk,
        Array.getElem?_eq_getElem (by omega)]
      simp [valueTy, Array.getElem?_eq_getElem (show blk.argStart + k < f.blockArgs.size by omega)]
    · rw [if_neg (by omega), List.getElem?_eq_none (by simpa using hk)]
      rfl

/-- The rules for a value that is passed to the argument at place `pos`. -/
theorem targetArg_eq_nil_iff {b : BlockId} {tys : List Ty} {pos : Nat} :
    (f.scope symbols).targetArg b tys v pos = [] ↔
      f.Provides v ∧ ∀ expected, tys[pos]? = some expected → f.valueTy v = some expected := by
  rw [Scope.targetArg, List.append_eq_nil_iff, operand_eq_nil_iff_provides]
  refine and_congr_right fun hv => ?_
  obtain ⟨ty, hty⟩ := hv.exists_ty
  cases hexpected : tys[pos]? <;> simp [hty]

/-- Types at equal places are equal exactly if the lists of types are. -/
theorem map_valueTy_eq_iff {args : List Value} {tys : List Ty}
    (hlength : args.length = tys.length) :
    args.map f.valueTy = tys.map some ↔ ∀ (pos : Nat) (v : Value), args[pos]? = some v →
      ∀ expected, tys[pos]? = some expected → f.valueTy v = some expected := by
  constructor
  · intro h pos v hv expected hexpected
    have hget := congrArg (fun l => l[pos]?) h
    simpa [hv, hexpected] using hget
  · intro h
    apply List.ext_getElem (by simpa using hlength)
    intro pos hpos hpos'
    rw [List.length_map] at hpos hpos'
    rw [List.getElem_map, List.getElem_map]
    exact h pos _ (List.getElem?_eq_getElem hpos) _ (List.getElem?_eq_getElem hpos')

theorem targetArgs_eq_nil_iff {b : BlockId} {args : List Value} {tys : List Ty} :
    (args.zipIdx.flatMap fun (v, pos) => (f.scope symbols).targetArg b tys v pos) = [] ↔
      (∀ v ∈ args, f.Provides v) ∧ ∀ (pos : Nat) (v : Value), args[pos]? = some v →
        ∀ expected, tys[pos]? = some expected → f.valueTy v = some expected := by
  simp only [List.flatMap_eq_nil_iff, targetArg_eq_nil_iff]
  constructor
  · intro h
    have hat : ∀ (pos : Nat) (v : Value), args[pos]? = some v → f.Provides v ∧
        ∀ expected, tys[pos]? = some expected → f.valueTy v = some expected :=
      fun pos v hv => h (v, pos) (List.mk_mem_zipIdx_iff_getElem?.mpr hv)
    refine ⟨fun v hv => ?_, fun pos v hv => (hat pos v hv).2⟩
    obtain ⟨pos, hpos⟩ := List.getElem?_of_mem hv
    exact (hat pos v hpos).1
  · rintro ⟨hprovides, htypes⟩ ⟨v, pos⟩ hmem
    have hv := List.mk_mem_zipIdx_iff_getElem?.mp hmem
    exact ⟨hprovides v (List.mem_of_getElem? hv), htypes pos v hv⟩

theorem target_eq_nil_iff {t : Target} (hargs : f.ArgsInArena) :
    (f.scope symbols).target t = .ok [] ↔ (∀ v ∈ t.args, f.Provides v) ∧ f.Reaches t := by
  unfold Scope.target
  cases hblk : f.blocks[t.block]? with
  | none => simp [Reaches, hblk]
  | some blk =>
      obtain ⟨tys, htys, hlength, hmap⟩ := exists_argTys hargs hblk
      have hreaches : f.Reaches t ↔ t.block ≠ 0 ∧ t.args.length = blk.argCount ∧
          t.args.map f.valueTy = tys.map some := by
        simp [Reaches, hblk, hmap]
      have hentry : (if t.block = 0 then [Defect.targetEntry] else []) = [] ↔ t.block ≠ 0 := by
        simp
      have hcount : (if t.args.length = blk.argCount then []
          else [Defect.targetArgCount t.block t.args.length blk.argCount]) = [] ↔
            t.args.length = blk.argCount := by
        simp
      simp only [func_scope, hblk, htys, ok_bind, Except.ok.injEq, List.append_eq_nil_iff, hentry,
        hcount, targetArgs_eq_nil_iff, hreaches]
      constructor
      · rintro ⟨⟨hne, hsame⟩, hprovides, htypes⟩
        exact ⟨hprovides, hne, hsame, (map_valueTy_eq_iff (hsame.trans hlength.symm)).mpr htypes⟩
      · rintro ⟨hprovides, hne, hsame, htypes⟩
        exact ⟨⟨hne, hsame⟩, hprovides, (map_valueTy_eq_iff (hsame.trans hlength.symm)).mp htypes⟩

/-! ### Instructions -/

theorem exists_target (symbols : SymbolTable) (hargs : f.ArgsInArena) (t : Target) :
    ∃ defects, (f.scope symbols).target t = .ok defects := by
  unfold Scope.target
  cases hblk : f.blocks[t.block]? with
  | none =>
      simp only [func_scope, hblk]
      exact ⟨_, rfl⟩
  | some blk =>
      obtain ⟨tys, htys, -⟩ := exists_argTys hargs hblk
      simp only [func_scope, hblk, htys, ok_bind]
      exact ⟨_, rfl⟩

theorem instruction_eq_nil_iff (hargs : f.ArgsInArena) :
    (f.scope symbols).instruction i = .ok [] ↔ f.Obeys symbols i := by
  unfold Scope.instruction
  split
  · rename_i next hop
    rw [target_eq_nil_iff hargs, obeys_iff]
    simp [hop, Op.operands, Op.asks, Op.yields, Op.targets, Op.width?]
  · rename_i cond ifTrue ifFalse hop
    obtain ⟨first, hfirst⟩ := exists_target symbols hargs ifTrue
    obtain ⟨second, hsecond⟩ := exists_target symbols hargs ifFalse
    have hfirst' : first = [] ↔ (∀ v ∈ ifTrue.args, f.Provides v) ∧ f.Reaches ifTrue := by
      rw [← target_eq_nil_iff hargs, hfirst, Except.ok.injEq]
    have hsecond' : second = [] ↔ (∀ v ∈ ifFalse.args, f.Provides v) ∧ f.Reaches ifFalse := by
      rw [← target_eq_nil_iff hargs, hsecond, Except.ok.injEq]
    have hobeys : f.Obeys symbols i ↔
        (f.Provides cond ∧ (∀ v ∈ ifTrue.args, f.Provides v) ∧ ∀ v ∈ ifFalse.args, f.Provides v) ∧
          (∃ ty, f.valueTy cond = some ty ∧ (TyRule.exactly .bool).admits ty = true) ∧
          f.Reaches ifTrue ∧ f.Reaches ifFalse := by
      rw [obeys_iff]
      simp [hop, Op.operands, Op.asks, Op.yields, Op.targets, Op.width?, or_imp, forall_and]
    rw [hfirst, ok_bind, hsecond, ok_bind, Except.ok.injEq, List.append_eq_nil_iff,
      List.append_eq_nil_iff, List.append_eq_nil_iff, operand_eq_nil_iff_provides,
      and_congr_right fun hcond => hasTy_eq_nil_iff hcond, hfirst', hsecond', hobeys]
    constructor
    · rintro ⟨⟨⟨hcond, hbool⟩, hargsTrue, hreachTrue⟩, hargsFalse, hreachFalse⟩
      exact ⟨⟨hcond, hargsTrue, hargsFalse⟩, hbool, hreachTrue, hreachFalse⟩
    · rintro ⟨⟨hcond, hargsTrue, hargsFalse⟩, hbool, hreachTrue, hreachFalse⟩
      exact ⟨⟨⟨hcond, hbool⟩, hargsTrue, hreachTrue⟩, hargsFalse, hreachFalse⟩
  · rename_i hbr hbrif
    have hbranch : i.op.targets = [] := by
      cases hop : i.op <;> simp_all [Op.targets]
    rw [Except.ok.injEq, List.append_eq_nil_iff, List.flatMap_eq_nil_iff]
    simp only [operand_eq_nil_iff_provides]
    constructor
    · rintro ⟨hoperands, hshape⟩
      exact (shape_eq_nil_iff hoperands hbranch).mp hshape
    · intro h
      exact ⟨h.operands, (shape_eq_nil_iff h.operands hbranch).mpr h⟩

theorem exists_instruction (symbols : SymbolTable) (hargs : f.ArgsInArena) (i : Instruction) :
    ∃ defects, (f.scope symbols).instruction i = .ok defects := by
  unfold Scope.instruction
  split
  · exact exists_target symbols hargs _
  · apply exists_bind (exists_target symbols hargs _)
    intro first
    apply exists_bind (exists_target symbols hargs _)
    exact fun second => ⟨_, rfl⟩
  · exact ⟨_, rfl⟩

/-! ### Bodies -/

theorem exists_listing (symbols : SymbolTable) (hargs : f.ArgsInArena) (name : String) (b : BlockId)
    (pos : Nat) (isLast : Bool) (i : InstId) :
    ∃ findings, (f.scope symbols).listing name b pos isLast i = .ok findings := by
  unfold Scope.listing
  split
  · exact ⟨_, rfl⟩
  · exact exists_bind (exists_instruction symbols hargs _) fun own => ⟨_, rfl⟩

theorem exists_block (symbols : SymbolTable) (hargs : f.ArgsInArena) (name : String) (b : BlockId)
    (blk : Block) : ∃ findings, (f.scope symbols).block name b blk = .ok findings := by
  unfold Scope.block
  split
  · exact ⟨_, rfl⟩
  · apply exists_bind (exists_mapM fun listing _ => exists_listing symbols hargs name b _ _ _)
    exact fun findings => ⟨_, rfl⟩

/-- A verification of a body comes to an end, whatever the body refers to. -/
theorem exists_verifyBody (symbols : SymbolTable) (hargs : f.ArgsInArena) (name : String) :
    ∃ findings, f.verifyBody name symbols = .ok findings := by
  unfold verifyBody
  split
  · exact ⟨_, rfl⟩
  · apply exists_bind (exists_mapM fun block _ => exists_block symbols hargs name _ _)
    exact fun findings => ⟨_, rfl⟩

theorem flawless_iff {i : InstId} (hargs : f.ArgsInArena) :
    f.Flawless symbols i ↔
      ∃ instruction, f.insts[i]? = some instruction ∧ f.Obeys symbols instruction := by
  simp only [Flawless, instruction_eq_nil_iff hargs]

theorem lawful_iff (hargs : f.ArgsInArena) :
    f.Lawful symbols ↔ f.Sound symbols ∧ f.ParamsInEntry := by
  constructor
  · intro h
    have hget : ∀ i ∈ f.listed, ∃ instruction, f.insts[i]? = some instruction :=
      fun i hi => ⟨_, Array.getElem?_eq_getElem (h.inArena i hi)⟩
    refine ⟨⟨h.entry, h.once, fun b blk hblk => ends_iff.mpr ⟨?_, fun pos i hpos => ?_⟩,
      fun i hi => ?_⟩, h.params⟩
    · exact h.nonempty blk (Array.mem_of_getElem? hblk)
    · obtain ⟨instruction, hinst⟩ := hget i (mem_listed hblk (List.mem_of_getElem? hpos))
      refine ⟨instruction, hinst, ?_⟩
      rw [Bool.eq_iff_iff, beq_iff_eq]
      exact h.terminator b blk pos i instruction hblk hpos hinst
    · obtain ⟨instruction, hinst⟩ := hget i hi
      exact (flawless_iff hargs).mpr ⟨instruction, hinst, h.obeys i hi instruction hinst⟩
  · rintro ⟨hsound, hparams⟩
    refine ⟨hsound.entry, fun blk hblk => ?_, fun b blk pos i instruction hblk hpos hinst => ?_,
      fun i hi => ?_, hsound.nodup, hparams, fun i hi instruction hinst => ?_⟩
    · obtain ⟨b, hb⟩ := Array.getElem?_of_mem hblk
      exact (ends_iff.mp (hsound.ends b blk hb)).1
    · obtain ⟨instruction', hinst', hterminator⟩ :=
        (ends_iff.mp (hsound.ends b blk hblk)).2 pos i hpos
      obtain rfl := Option.some.inj (hinst.symm.trans hinst')
      rw [hterminator, beq_iff_eq]
    · obtain ⟨instruction, hinst, -⟩ := hsound.flawless i hi
      exact (Array.getElem?_eq_some_iff.mp hinst).1
    · obtain ⟨instruction', hinst', hobeys⟩ := (flawless_iff hargs).mp (hsound.flawless i hi)
      obtain rfl := Option.some.inj (hinst.symm.trans hinst')
      exact hobeys

/-- A verification of a function with a name comes to an end, however malformed its body is, and it
finds nothing exactly if the body is lawful. -/
theorem verify_accepts_iff (f : Func) (symbols : SymbolTable) {name : String}
    (hname : symbols.names[f.name]? = some name) (hargs : f.ArgsInArena) :
    (∃ findings, f.verify symbols = .ok findings) ∧
      (f.verify symbols = .ok [] ↔ f.Lawful symbols) := by
  have hverify : f.verify symbols = f.verifyBody name symbols := by
    rw [verify, SymbolTable.resolve_eq_ok_iff.mpr hname, ok_bind]
  rw [hverify, lawful_iff hargs, verifyBody_eq_nil_iff]
  exact ⟨exists_verifyBody symbols hargs name, Iff.rfl⟩

/-- Chooses the greater of its parameters through an argument of its second block. -/
def greater : Func where
  name := 0
  params := [.int, .int]
  ret := some .int
  insts := #[⟨.param 0, .int, [], false⟩, ⟨.param 1, .int, [], false⟩,
    ⟨.icmp .gt (.inst 0) (.inst 1), .bool, [], false⟩,
    ⟨.brif (.inst 2) ⟨1, [.inst 0]⟩ ⟨1, [.inst 1]⟩, .unit, [], false⟩,
    ⟨.ret (some (.arg 0)), .unit, [], false⟩]
  blocks := #[{ argStart := 0, insts := [0, 1, 2, 3] },
    { argStart := 0, argCount := 1, insts := [4] }]
  blockArgs := #[.int]

/-- The same function with references that lead nowhere: a block lists what is not in the arena, and
the branch reads a value that is not there and goes to a block that is not there. -/
def greaterAstray : Func :=
  { greater with
    insts := greater.insts.set! 3 ⟨.brif (.inst 8) ⟨7, [.arg 3]⟩ ⟨1, [.inst 1]⟩, .unit, [], false⟩
    blocks := greater.blocks.set! 1 { argStart := 0, argCount := 1, insts := [4, 9, 4] } }

theorem verify_accepts_greater :
    greater.Lawful (SymbolTable.empty.intern "greater").1 ∧
      (∃ findings, greaterAstray.verify (SymbolTable.empty.intern "greater").1 = .ok findings) ∧
        ¬ greaterAstray.Lawful (SymbolTable.empty.intern "greater").1 := by
  have hlawful := verify_accepts_iff greater (SymbolTable.empty.intern "greater").1
    (show _ = some "greater" by decide) (by decide)
  have hastray := verify_accepts_iff greaterAstray (SymbolTable.empty.intern "greater").1
    (show _ = some "greater" by decide) (by decide)
  refine ⟨hlawful.2.mp (by decide), hastray.1, fun h => ?_⟩
  exact absurd (hastray.2.mpr h) (by decide)

end Func

end Redzone
