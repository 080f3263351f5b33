import Redzone.Proofs.Edits.Places
import Redzone.Proofs.Edits.Typed
import Redzone.Proofs.Verified

/-!
# Well-formed bodies

`Func.Sound` is what a verification checks of a body, apart from where its parameters stand: the two
together are equivalent to a verification without findings (`Func.verifyBody_eq_nil_iff`).

A verification reads a function block by block and reports what it finds, whereas an edit is known
by what it adds.  The bridge is `Func.Extends`: one function has the values and the blocks of
another one, with the same types.  An instruction without defects has none in a function that is
extended (`Func.Extends.instruction`), however the blocks have been cut.  So only the new code of an
edit has to be looked at, and `Func.Sound.graft` says what has to be known about it; for
straight-line code this follows from its typing (`Func.instruction_of_typed`).
-/

namespace Redzone

/-! ### Results of a verification -/

/-- Nothing is found if nothing was found before and no step finds anything. -/
theorem flatten_mapM_eq_nil_iff {ε α β : Type} {next : α → Except ε (List β)} {l : List α}
    (before : List β) :
    (l.mapM next >>= fun found => .ok (before ++ found.flatten)) = .ok [] ↔
      before = [] ∧ ∀ a ∈ l, next a = .ok [] := by
  constructor
  · intro h
    obtain ⟨found, hfound, h⟩ := bind_eq_ok h
    obtain ⟨hbefore, hnil⟩ := List.append_eq_nil_iff.mp (Except.ok.inj h)
    refine ⟨hbefore, fun a ha => ?_⟩
    obtain ⟨b, hb, hnext⟩ := mapM_eq_ok hfound a ha
    rw [hnext, List.flatten_eq_nil_iff.mp hnil b hb]
  · rintro ⟨rfl, h⟩
    induction l with
    | nil => rfl
    | cons a rest ih =>
        rw [List.forall_mem_cons] at h
        obtain ⟨found, hfound, hnil⟩ := bind_eq_ok (ih h.2)
        rw [List.mapM_cons, h.1, ok_bind, hfound]
        exact hnil

theorem placementDefects_eq_nil_iff {size : Nat} {seen : List InstId}
    {listings : List (BlockId × InstId)} :
    placementDefects size seen listings = [] ↔
      (listings.map Prod.snd).Nodup ∧ ∀ i ∈ listings.map Prod.snd, i < size ∧ i ∉ seen := by
  refine ⟨placementDefects_eq_nil, ?_⟩
  rintro ⟨hnodup, hall⟩
  induction listings generalizing seen with
  | nil => rfl
  | cons listing rest ih =>
      obtain ⟨b, i⟩ := listing
      rw [List.map_cons, List.nodup_cons] at hnodup
      rw [List.map_cons, List.forall_mem_cons] at hall
      rw [placementDefects, if_neg (Nat.not_le.mpr hall.1.1), if_neg hall.1.2]
      refine ih hnodup.2 fun j hj => ⟨(hall.2 j hj).1, ?_⟩
      rw [List.mem_cons, not_or]
      refine ⟨?_, (hall.2 j hj).2⟩
      rintro rfl
      exact hnodup.1 hj

/-! ### Sound functions -/

namespace Func

/-- An instruction is a terminator, or is none. -/
def Terminates (f : Func) (i : InstId) (terminates : Bool) : Prop :=
  ∃ instruction, f.insts[i]? = some instruction ∧ instruction.op.isTerminator = terminates

/-- A list of instructions ends with its only terminator. -/
def Ends (f : Func) (insts : List InstId) : Prop :=
  ∃ front last, insts = front ++ [last] ∧ (∀ i ∈ front, f.Terminates i false) ∧
    f.Terminates last true

/-- The instruction is in the arena and has no defect. -/
def Flawless (f : Func) (symbols : SymbolTable) (i : InstId) : Prop :=
  ∃ instruction, f.insts[i]? = some instruction ∧
    (f.scope symbols).instruction instruction = .ok []

/-- A well-formed body. -/
structure Sound (f : Func) (symbols : SymbolTable) : Prop where
  entry : ∀ blk, f.blocks[0]? = some blk → blk.argCount = 0
  nodup : f.listed.Nodup
  ends : ∀ (b : BlockId) (blk : Block), f.blocks[b]? = some blk → f.Ends blk.insts
  flawless : ∀ i ∈ f.listed, f.Flawless symbols i

/-- Parameters stand in the entry block. -/
def ParamsInEntry (f : Func) : Prop :=
  ∀ (b : BlockId) (pos : Nat) (i : InstId) (instruction : Instruction), f.At b pos i →
    f.insts[i]? = some instruction → instruction.op.isParam = true → b = 0

variable {f g : Func} {symbols symbols' : SymbolTable} {b c : Nat} {blk : Block} {pos i : Nat}

theorem Terminates.unique {first second : Bool} (h : f.Terminates i first)
    (h' : f.Terminates i second) : first = second := by
  obtain ⟨instruction, hinst, rfl⟩ := h
  obtain ⟨instruction', hinst', rfl⟩ := h'
  rw [Option.some.inj (hinst.symm.trans hinst')]

theorem ends_iff {insts : List InstId} : f.Ends insts ↔
    insts ≠ [] ∧ ∀ (pos : Nat) (i : InstId), insts[pos]? = some i →
      f.Terminates i (pos + 1 == insts.length) := by
  constructor
  · rintro ⟨front, last, rfl, hfront, hlast⟩
    refine ⟨by simp, fun pos i hget => ?_⟩
    rcases Nat.lt_or_ge pos front.length with hpos | hpos
    · rw [List.getElem?_append_left hpos] at hget
      have hne : ¬ pos + 1 = (front ++ [last]).length := by simp; omega
      rw [beq_eq_false_iff_ne.mpr hne]
      exact hfront i (List.mem_of_getElem? hget)
    · rw [List.getElem?_append_right hpos] at hget
      obtain ⟨hlt, rfl⟩ := List.getElem?_eq_some_iff.mp hget
      rw [List.length_singleton] at hlt
      have heq : pos + 1 = (front ++ [last]).length := by simp; omega
      rw [beq_iff_eq.mpr heq]
      simpa using hlast
  · rintro ⟨hne, hall⟩
    refine ⟨insts.dropLast, insts.getLast hne, (List.dropLast_concat_getLast hne).symm, ?_, ?_⟩
    · intro i hi
      obtain ⟨pos, hpos⟩ := List.getElem?_of_mem hi
      have hlt := (List.getElem?_eq_some_iff.mp hpos).1
      rw [List.length_dropLast] at hlt
      rw [List.getElem?_dropLast, if_pos hlt] at hpos
      have hterm := hall pos i hpos
      rwa [beq_eq_false_iff_ne.mpr (by omega)] at hterm
    · have hpos := List.length_pos_iff.mpr hne
      have hget : insts[insts.length - 1]? = some (insts.getLast hne) := by
        rw [← List.getLast?_eq_getElem?, List.getLast?_eq_some_getLast hne]
      have hterm := hall _ _ hget
      rwa [beq_iff_eq.mpr (by omega)] at hterm

end Func

namespace Scope

variable {s : Scope} {name : String} {b : Nat} {pos i : Nat}

theorem listing_eq_nil_iff {isLast : Bool} {instruction : Instruction}
    (hinst : s.func.insts[i]? = some instruction) :
    s.listing name b pos isLast i = .ok [] ↔ s.instruction instruction = .ok [] ∧
      instruction.op.isTerminator = isLast ∧ (instruction.op.isParam = true → b = 0) := by
  simp only [listing, hinst]
  constructor
  · intro h
    obtain ⟨own, hown, h⟩ := bind_eq_ok h
    have hnil := Except.ok.inj h
    simp only [List.append_eq_nil_iff, List.map_eq_nil_iff] at hnil
    obtain ⟨⟨⟨hinside, hmissing⟩, hparam⟩, rfl⟩ := hnil
    refine ⟨hown, ?_, fun hop => ?_⟩
    · cases hterminator : instruction.op.isTerminator <;> cases isLast <;> simp_all
    · simpa [hop] using hparam
  · rintro ⟨hown, rfl, hparam⟩
    rw [hown]
    cases hterminator : instruction.op.isTerminator <;>
      cases hop : instruction.op.isParam <;> simp_all

theorem block_eq_nil_iff {blk : Block} : s.block name b blk = .ok [] ↔
    blk.insts ≠ [] ∧ ∀ (pos : Nat) (i : InstId), blk.insts[pos]? = some i →
      s.listing name b pos (pos + 1 == blk.insts.length) i = .ok [] := by
  unfold block
  split
  · rename_i hempty
    simp [List.isEmpty_iff.mp hempty]
  · rename_i hempty
    refine (flatten_mapM_eq_nil_iff []).trans ?_
    rw [and_iff_right rfl, and_iff_right (by simpa using hempty)]
    constructor
    · intro h pos i hget
      exact h (i, pos) (List.mk_mem_zipIdx_iff_getElem?.mpr hget)
    · rintro h ⟨i, pos⟩ hmem
      exact h pos i (List.mk_mem_zipIdx_iff_getElem?.mp hmem)

end Scope

theorem Func.verifyBody_eq_nil_iff {f : Func} {symbols : SymbolTable} {name : String} :
    f.verifyBody name symbols = .ok [] ↔ f.Sound symbols ∧ f.ParamsInEntry := by
  -- a verification goes through the blocks with their numbers
  have hblocks : (∀ entry ∈ f.blocks.toList.zipIdx,
      (f.scope symbols).block name entry.2 entry.1 = .ok []) ↔
        ∀ (b : BlockId) (blk : Block), f.blocks[b]? = some blk →
          (f.scope symbols).block name b blk = .ok [] := by
    constructor
    · intro h b blk hblk
      exact h (blk, b) (List.mk_mem_zipIdx_iff_getElem?.mpr (by simpa using hblk))
    · rintro h ⟨blk, b⟩ hmem
      exact h b blk (by simpa using List.mk_mem_zipIdx_iff_getElem?.mp hmem)
  unfold verifyBody
  split
  · rename_i hnone
    have hempty : f.blocks = #[] := by simpa using hnone
    refine iff_of_true rfl ⟨⟨?_, ?_, ?_, ?_⟩, ?_⟩
    all_goals simp [listed, ParamsInEntry, At, hempty]
  · rename_i entry hentry
    refine (flatten_mapM_eq_nil_iff _).trans ?_
    rw [hblocks, List.append_eq_nil_iff, List.map_eq_nil_iff, placementDefects_eq_nil_iff,
      listings_map_snd]
    constructor
    · rintro ⟨⟨hargs, hnodup, hlt⟩, hblocks⟩
      -- what the report of a block says about each of its places
      have hlisting : ∀ (b pos : Nat) (blk : Block) (i : InstId), f.blocks[b]? = some blk →
          blk.insts[pos]? = some i → ∃ instruction, f.insts[i]? = some instruction ∧
            (f.scope symbols).instruction instruction = .ok [] ∧
            instruction.op.isTerminator = (pos + 1 == blk.insts.length) ∧
            (instruction.op.isParam = true → b = 0) := by
        intro b pos blk i hblk hget
        have hinst := Array.getElem?_eq_getElem
          (hlt i (mem_listed hblk (List.mem_of_getElem? hget))).1
        exact ⟨_, hinst, (Scope.listing_eq_nil_iff hinst).mp
          ((Scope.block_eq_nil_iff.mp (hblocks b blk hblk)).2 pos i hget)⟩
      refine ⟨⟨fun blk hblk => ?_, hnodup, fun b blk hblk => ?_, fun i hi => ?_⟩, ?_⟩
      · obtain rfl := Option.some.inj (hentry.symm.trans hblk)
        by_contra hcount
        rw [if_neg hcount] at hargs
        cases hargs
      · refine ends_iff.mpr ⟨(Scope.block_eq_nil_iff.mp (hblocks b blk hblk)).1, ?_⟩
        intro pos i hget
        obtain ⟨instruction, hinst, -, hterminator, -⟩ := hlisting b pos blk i hblk hget
        exact ⟨instruction, hinst, hterminator⟩
      · obtain ⟨b, pos, blk, hblk, hget⟩ := exists_at_of_mem_listed hi
        obtain ⟨instruction, hinst, hflawless, -⟩ := hlisting b pos blk i hblk hget
        exact ⟨instruction, hinst, hflawless⟩
      · rintro b pos i instruction ⟨blk, hblk, hget⟩ hinst hparam
        obtain ⟨instruction', hinst', -, -, hentry'⟩ := hlisting b pos blk i hblk hget
        obtain rfl := Option.some.inj (hinst.symm.trans hinst')
        exact hentry' hparam
    · rintro ⟨hsound, hparams⟩
      refine ⟨⟨if_pos (hsound.entry entry hentry), hsound.nodup, fun i hi => ?_⟩, ?_⟩
      · obtain ⟨instruction, hinst, -⟩ := hsound.flawless i hi
        exact ⟨(Array.getElem?_eq_some_iff.mp hinst).1, by simp⟩
      · intro b blk hblk
        obtain ⟨hne, hends⟩ := ends_iff.mp (hsound.ends b blk hblk)
        refine Scope.block_eq_nil_iff.mpr ⟨hne, fun pos i hget => ?_⟩
        obtain ⟨instruction, hinst, hterminator⟩ := hends pos i hget
        obtain ⟨instruction', hinst', hflawless⟩ :=
          hsound.flawless i (mem_listed hblk (List.mem_of_getElem? hget))
        obtain rfl := Option.some.inj (hinst.symm.trans hinst')
        refine (Scope.listing_eq_nil_iff hinst).mpr ⟨hflawless, hterminator, ?_⟩
        exact hparams b pos i instruction ⟨blk, hblk, hget⟩ hinst

/-! ### Functions that are extended -/

namespace Func

/-- A value that instructions of a function may read, and its type. -/
def Has (f : Func) : Typing := fun v t => (∀ i, v = .inst i → i ∈ f.listed) ∧ f.valueTy v = some t

/-- A function has all that another one has: its values with their types and its blocks with their
arguments. -/
structure Extends (f g : Func) : Prop where
  shell : g.shell = f.shell
  ty : ∀ (i : InstId) (instruction : Instruction), f.insts[i]? = some instruction →
    ∃ instruction', g.insts[i]? = some instruction' ∧ instruction'.ty = instruction.ty
  listed : ∀ i ∈ f.listed, i ∈ g.listed
  blocks : ∀ (b : BlockId) (blk : Block), f.blocks[b]? = some blk →
    ∃ blk', g.blocks[b]? = some blk' ∧ blk'.argStart = blk.argStart ∧ blk'.argCount = blk.argCount

variable {f g : Func} {symbols symbols' : SymbolTable} {v : Value} {t : Ty}

@[simp] theorem func_scope : (f.scope symbols).func = f := rfl

@[simp] theorem symbols_scope : (f.scope symbols).symbols = symbols := rfl

theorem has_inst_iff {i : InstId} :
    f.Has (.inst i) t ↔
      i ∈ f.listed ∧ ∃ instruction, f.insts[i]? = some instruction ∧ instruction.ty = t := by
  simp [Has, valueTy]

theorem operand_eq_nil_iff : (f.scope symbols).operand v = [] ↔ ∃ t, f.Has v t := by
  cases v with
  | arg i =>
      have hsome : (∃ t, f.Has (.arg i) t) ↔ i < f.blockArgs.size := by
        simp [Has, valueTy, Array.getElem?_eq_some_iff]
      have hknows : (f.scope symbols).knows (.arg i) = decide (i < f.blockArgs.size) := rfl
      rw [hsome, Scope.operand, hknows]
      by_cases hi : i < f.blockArgs.size <;> simp [hi]
  | inst i =>
      rw [Scope.operand]
      simp only [has_inst_iff, Scope.knows, scope, List.contains_iff_mem, List.mem_filter,
        decide_eq_true_eq, ite_eq_left_iff, reduceCtorEq, imp_false, not_not]
      constructor
      · rintro ⟨hi, hlt⟩
        exact ⟨_, hi, _, Array.getElem?_eq_getElem hlt, rfl⟩
      · rintro ⟨t, hi, instruction, hinst, -⟩
        exact ⟨hi, (Array.getElem?_eq_some_iff.mp hinst).1⟩

namespace Extends

theorem refl (f : Func) : f.Extends f :=
  ⟨rfl, fun _ instruction h => ⟨instruction, h, rfl⟩, fun _ h => h,
    fun _ blk h => ⟨blk, h, rfl, rfl⟩⟩

theorem trans {k : Func} (h : f.Extends g) (h' : g.Extends k) : f.Extends k where
  shell := h'.shell.trans h.shell
  ty i instruction hinst := by
    obtain ⟨instruction', hinst', hty⟩ := h.ty i instruction hinst
    obtain ⟨instruction'', hinst'', hty'⟩ := h'.ty i instruction' hinst'
    exact ⟨instruction'', hinst'', hty'.trans hty⟩
  listed i hi := h'.listed i (h.listed i hi)
  blocks b blk hblk := by
    obtain ⟨blk', hblk', hstart, hcount⟩ := h.blocks b blk hblk
    obtain ⟨blk'', hblk'', hstart', hcount'⟩ := h'.blocks b blk' hblk'
    exact ⟨blk'', hblk'', hstart'.trans hstart, hcount'.trans hcount⟩

theorem blockArgs (h : f.Extends g) : g.blockArgs = f.blockArgs := by
  have hshell : g.shell.blockArgs = f.shell.blockArgs := by rw [h.shell]
  exact hshell

theorem has (h : f.Extends g) (hv : f.Has v t) : g.Has v t := by
  cases v with
  | arg i =>
      rw [Has, valueTy, h.blockArgs]
      exact ⟨by simp, hv.2⟩
  | inst i =>
      obtain ⟨hi, instruction, hinst, hty⟩ := has_inst_iff.mp hv
      obtain ⟨instruction', hinst', hty'⟩ := h.ty i instruction hinst
      exact has_inst_iff.mpr ⟨h.listed i hi, instruction', hinst', hty'.trans hty⟩

theorem operand (h : f.Extends g) (symbols' : SymbolTable)
    (hv : (f.scope symbols).operand v = []) :
    (g.scope symbols').operand v = [] ∧ g.valueTy v = f.valueTy v := by
  obtain ⟨t, hv⟩ := operand_eq_nil_iff.mp hv
  exact ⟨operand_eq_nil_iff.mpr ⟨t, h.has hv⟩, (h.has hv).2.trans hv.2.symm⟩

theorem target (h : f.Extends g) {next : Target} (hnext : (f.scope symbols).target next = .ok []) :
    (g.scope symbols').target next = .ok [] := by
  unfold Scope.target at hnext
  split at hnext
  · cases hnext
  · rename_i blk hblk
    obtain ⟨tys, htys, hnext⟩ := bind_eq_ok hnext
    obtain ⟨blk', hblk', hstart, hcount⟩ := h.blocks next.block blk hblk
    have hblock : (f.scope symbols).func.block next.block = .ok blk := by
      rw [block, hblk]
    have hblock' : (g.scope symbols').func.block next.block = .ok blk' := by
      rw [block, show (g.scope symbols').func.blocks[next.block]? = some blk' from hblk']
    have htys' : (g.scope symbols').func.argTys next.block = .ok tys := by
      rw [argTys, hblock, ok_bind] at htys
      rw [argTys, hblock', ok_bind, hstart, hcount,
        show (g.scope symbols').func.blockArgs = f.blockArgs from h.blockArgs]
      exact htys
    have hnil := Except.ok.inj hnext
    simp only [List.append_eq_nil_iff, List.flatMap_eq_nil_iff] at hnil
    obtain ⟨⟨hentry, hlength⟩, hargs⟩ := hnil
    rw [Scope.target, show (g.scope symbols').func.blocks[next.block]? = some blk' from hblk']
    simp only [htys', ok_bind, Except.ok.injEq, List.append_eq_nil_iff, List.flatMap_eq_nil_iff,
      hcount]
    refine ⟨⟨hentry, hlength⟩, fun arg harg => ?_⟩
    have hold := hargs arg harg
    simp only [Scope.targetArg, List.append_eq_nil_iff] at hold ⊢
    obtain ⟨hoperand, hty⟩ := h.operand symbols' hold.1
    refine ⟨hoperand, ?_⟩
    rw [show (g.scope symbols').func.valueTy arg.1 = f.valueTy arg.1 from hty]
    exact hold.2

theorem shape (h : f.Extends g) (hsymbols : symbols.size ≤ symbols'.size) {i : Instruction}
    (hoperands : ∀ v ∈ i.op.operands, g.valueTy v = f.valueTy v)
    (hi : (f.scope symbols).shape i = []) : (g.scope symbols').shape i = [] := by
  have hparams : g.params = f.params := by
    have hshell : g.shell.params = f.shell.params := by rw [h.shell]
    exact hshell
  have hret : g.ret = f.ret := by
    have hshell : g.shell.ret = f.shell.ret := by rw [h.shell]
    exact hshell
  cases hop : i.op with
  | symbolAddr symbol =>
      have hshape (f : Func) (symbols : SymbolTable) : (f.scope symbols).shape i =
          (if symbols.contains symbol then [] else [.unknownSymbol symbol]) ++
            Scope.resultPtr "symbol_addr" i.ty := by
        rw [Scope.shape, hop]
        rfl
      rw [hshape, List.append_eq_nil_iff] at hi ⊢
      refine ⟨if_pos ?_, hi.2⟩
      by_contra hcontains
      rw [if_neg (fun hold => hcontains ?_)] at hi
      · cases hi.1
      · simp only [SymbolTable.contains, decide_eq_true_eq] at hold ⊢
        exact hold.trans_le hsymbols
  | bulk kind dest source length =>
      simp only [hop, Op.operands, List.forall_mem_cons] at hoperands
      cases kind <;> simpa [Scope.shape, hop, Scope.hasTy, Scope.hasPtrTy, hoperands] using hi
  | ret value =>
      simp only [hop, Op.operands] at hoperands
      cases value <;> cases hdeclared : f.ret <;>
        simp_all [Scope.shape, Scope.hasTy]
  | _ =>
      simp only [hop, Op.operands, List.forall_mem_cons] at hoperands
      simp_all [Scope.shape, Scope.hasTy, Scope.hasPtrTy]

/-- An instruction without defects has none in a function that is extended. -/
theorem instruction (h : f.Extends g) (hsymbols : symbols.size ≤ symbols'.size) {i : Instruction}
    (hi : (f.scope symbols).instruction i = .ok []) :
    (g.scope symbols').instruction i = .ok [] := by
  unfold Scope.instruction at hi ⊢
  split at hi
  · exact h.target hi
  · rename_i cond ifTrue ifFalse hop
    obtain ⟨first, hfirst, hi⟩ := bind_eq_ok hi
    obtain ⟨second, hsecond, hi⟩ := bind_eq_ok hi
    have hnil := Except.ok.inj hi
    simp only [List.append_eq_nil_iff] at hnil
    obtain ⟨⟨⟨hcond, hty⟩, rfl⟩, rfl⟩ := hnil
    obtain ⟨hcond', hsame⟩ := h.operand symbols' hcond
    rw [h.target hfirst, ok_bind, h.target hsecond, ok_bind, hcond']
    simpa [Scope.hasTy, hsame] using hty
  · have hnil := Except.ok.inj hi
    simp only [List.append_eq_nil_iff, List.flatMap_eq_nil_iff] at hnil
    have hoperands := fun v hv => h.operand symbols' (hnil.1 v hv)
    rw [h.shape hsymbols (fun v hv => (hoperands v hv).2) hnil.2, List.append_nil,
      List.flatMap_eq_nil_iff.mpr fun v hv => (hoperands v hv).1]

end Extends

/-! ### New code -/

theorem hasTy_eq_nil (role : String) (h : f.Has v t) : (f.scope symbols).hasTy role t v = [] := by
  simp [Scope.hasTy, h.2]

theorem hasPtrTy_eq_nil (role : String) (h : f.Has.IsPtr v) :
    (f.scope symbols).hasPtrTy role v = [] := by
  obtain ⟨t, hv, ht⟩ := h
  simp [Scope.hasPtrTy, hv.2, ht]

/-- Straight-line code has no defects if the values that it reads are there. -/
theorem instruction_of_typed {i : Instruction} (h : i.Typed symbols f.Has) :
    (f.scope symbols).instruction i = .ok [] := by
  have hoperands : i.op.operands.flatMap (f.scope symbols).operand = [] :=
    List.flatMap_eq_nil_iff.mpr fun v hv => operand_eq_nil_iff.mpr (h.operand v hv)
  have hshape : (f.scope symbols).shape i = [] := by
    cases hop : i.op <;> simp only [Instruction.Typed, hop] at h <;> rw [Scope.shape, hop] <;>
      simp only
    case iconst => simp [Scope.result, h]
    case arith => simp [Scope.result, hasTy_eq_nil _ h.1, hasTy_eq_nil _ h.2.1, h.2.2]
    case icmp => simp [Scope.result, hasTy_eq_nil _ h.1, hasTy_eq_nil _ h.2.1, h.2.2]
    case extend => simp [Scope.result, hasTy_eq_nil _ h.1, h.2]
    case load => simp [Scope.width, hasPtrTy_eq_nil _ h.1, h.2]
    case store => simp [Scope.width, Scope.result, hasPtrTy_eq_nil _ h.2.1, h.2.2]
    case stackSlot => simp [Scope.resultPtr, h.1, h.2]
    case symbolAddr => simp [Scope.resultPtr, h.1, h.2]
    case call => exact hasPtrTy_eq_nil _ h.1
    case ptrAdd => simp [hasPtrTy_eq_nil _ h.1, hasTy_eq_nil _ h.2]
    case ptrToAddr => simp [Scope.result, hasPtrTy_eq_nil _ h.1, h.2]
    case intToPtr => simp [Scope.resultPtr, hasTy_eq_nil _ h.1, h.2]
  have hsuccessors := h.proceeds.1
  rw [Scope.instruction]
  split
  · rename_i hop
    simp [hop, Op.successors] at hsuccessors
  · rename_i hop
    simp [hop, Op.successors] at hsuccessors
  · rw [hoperands, hshape, List.append_nil]

variable {b : Nat} {blk : Block} {insts : List InstId} {code : List Instruction}
  {fresh : List Block}

theorem extends_graft (hblk : f.blocks[b]? = some blk)
    (hnew : (insts ++ fresh.flatMap Block.insts).Perm
      (blk.insts ++ List.range' f.insts.size code.length)) :
    f.Extends (f.graft b insts code fresh) where
  shell := shell_graft
  ty i instruction hinst :=
    ⟨instruction, by rwa [getElem?_insts_graft_of_lt (Array.getElem?_eq_some_iff.mp hinst).1], rfl⟩
  listed i hi := (listed_graft_perm hblk hnew).mem_iff.mpr (List.mem_append_left _ hi)
  blocks c blk' hblk' := by
    have hc : c < f.blocks.size := lt_size_of_getElem? hblk'
    by_cases hcb : c = b
    · subst hcb
      exact ⟨_, getElem?_blocks_graft_self hblk', rfl, rfl⟩
    · exact ⟨blk', by rw [getElem?_blocks_graft_of_ne hcb hc, hblk'], rfl, rfl⟩

theorem extends_setInst {i : InstId} {instruction : Instruction}
    (hinst : f.insts[i]? = some instruction) (op : Op) :
    f.Extends (f.setInst i { instruction with op := op }) where
  shell := shell_setInst i _
  ty j other hother := by
    by_cases hji : j = i
    · subst hji
      obtain rfl := Option.some.inj (hinst.symm.trans hother)
      exact ⟨_, getElem?_insts_setInst_self (Array.getElem?_eq_some_iff.mp hinst).1 _, rfl⟩
    · exact ⟨other, by rwa [getElem?_insts_setInst_of_ne hji], rfl⟩
  listed i hi := hi
  blocks c blk' hblk' := ⟨blk', hblk', rfl, rfl⟩

theorem Terminates.graft {i : InstId} {terminates : Bool} (h : f.Terminates i terminates) :
    (f.graft b insts code fresh).Terminates i terminates := by
  obtain ⟨instruction, hinst, hop⟩ := h
  refine ⟨instruction, ?_, hop⟩
  rwa [getElem?_insts_graft_of_lt (Array.getElem?_eq_some_iff.mp hinst).1]

theorem Ends.graft {ids : List InstId} (h : f.Ends ids) :
    (f.graft b insts code fresh).Ends ids := by
  obtain ⟨front, last, hids, hfront, hlast⟩ := h
  exact ⟨front, last, hids, fun i hi => (hfront i hi).graft, hlast.graft⟩

theorem Sound.closed (h : f.Sound symbols) : f.Closed := by
  intro i hi
  obtain ⟨instruction, hinst, hflawless⟩ := h.flawless i hi
  exact ⟨instruction, hinst, Scope.refers_of_instruction hflawless⟩

/-- A graft keeps a function sound if its blocks end as they should and its code has no defects. -/
theorem Sound.graft (h : f.Sound symbols) (hblk : f.blocks[b]? = some blk)
    (hnew : (insts ++ fresh.flatMap Block.insts).Perm
      (blk.insts ++ List.range' f.insts.size code.length))
    (hinsts : (f.graft b insts code fresh).Ends insts)
    (hfresh : ∀ blk' ∈ fresh, (f.graft b insts code fresh).Ends blk'.insts)
    (hcode : ∀ k < code.length, (f.graft b insts code fresh).Flawless symbols (f.insts.size + k)) :
    (f.graft b insts code fresh).Sound symbols where
  entry blk' hblk' := by
    have hpos : 0 < f.blocks.size := Nat.zero_lt_of_lt (lt_size_of_getElem? hblk)
    obtain ⟨old, hold, -, hcount⟩ := args_graft hpos hblk'
    rw [hcount]
    exact h.entry old hold
  nodup := nodup_listed_graft h.closed h.nodup hblk hnew
  ends c blk' hblk' := by
    rcases Nat.lt_or_ge c f.blocks.size with hc | hc
    · by_cases hcb : c = b
      · subst hcb
        rw [getElem?_blocks_graft_self hblk] at hblk'
        obtain rfl := Option.some.inj hblk'
        exact hinsts
      · rw [getElem?_blocks_graft_of_ne hcb hc] at hblk'
        exact (h.ends c blk' hblk').graft
    · obtain ⟨k, rfl⟩ := Nat.exists_eq_add_of_le hc
      rw [getElem?_blocks_graft_add] at hblk'
      exact hfresh blk' (List.mem_of_getElem? hblk')
  flawless i hi := by
    rcases List.mem_append.mp ((listed_graft_perm hblk hnew).mem_iff.mp hi) with hi | hi
    · obtain ⟨instruction, hinst, hflawless⟩ := h.flawless i hi
      refine ⟨instruction, ?_, (extends_graft hblk hnew).instruction le_rfl hflawless⟩
      rwa [getElem?_insts_graft_of_lt (Array.getElem?_eq_some_iff.mp hinst).1]
    · obtain ⟨k, hk, rfl⟩ := List.mem_range'.mp hi
      rw [Nat.one_mul]
      exact hcode k hk

theorem Sound.mono (h : f.Sound symbols) (hsymbols : symbols.size ≤ symbols'.size) :
    f.Sound symbols' where
  entry := h.entry
  nodup := h.nodup
  ends := h.ends
  flawless i hi := by
    obtain ⟨instruction, hinst, hflawless⟩ := h.flawless i hi
    exact ⟨instruction, hinst, (Extends.refl f).instruction hsymbols hflawless⟩

/-- An instruction may be replaced by one without defects, if it is no terminator. -/
theorem Sound.setInst {i : InstId} {instruction : Instruction} {op : Op} (h : f.Sound symbols)
    (hinst : f.insts[i]? = some instruction) (hold : instruction.op.isTerminator = false)
    (hop : op.isTerminator = false)
    (hflawless : ((f.setInst i { instruction with op := op }).scope symbols).instruction
      { instruction with op := op } = .ok []) :
    (f.setInst i { instruction with op := op }).Sound symbols where
  entry := h.entry
  nodup := h.nodup
  ends c blk' hblk' := by
    have hkept : ∀ (j : InstId) (terminates : Bool), f.Terminates j terminates →
        (f.setInst i { instruction with op := op }).Terminates j terminates := by
      rintro j terminates ⟨other, hother, rfl⟩
      by_cases hji : j = i
      · subst hji
        obtain rfl := Option.some.inj (hinst.symm.trans hother)
        exact ⟨_, getElem?_insts_setInst_self (Array.getElem?_eq_some_iff.mp hinst).1 _,
          hop.trans hold.symm⟩
      · exact ⟨other, by rwa [getElem?_insts_setInst_of_ne hji], rfl⟩
    obtain ⟨front, last, hids, hfront, hlast⟩ := h.ends c blk' hblk'
    exact ⟨front, last, hids, fun j hj => hkept j _ (hfront j hj), hkept last _ hlast⟩
  flawless j hj := by
    by_cases hji : j = i
    · subst hji
      exact ⟨_, getElem?_insts_setInst_self (Array.getElem?_eq_some_iff.mp hinst).1 _, hflawless⟩
    · obtain ⟨other, hother, hother'⟩ := h.flawless j hj
      exact ⟨other, by rwa [getElem?_insts_setInst_of_ne hji],
        (extends_setInst hinst op).instruction le_rfl hother'⟩

end Func

end Redzone
