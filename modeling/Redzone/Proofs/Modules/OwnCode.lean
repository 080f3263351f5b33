import Redzone.Instrument.Globals
import Redzone.Proofs.Edits.Run
import Redzone.Proofs.Edits.Params

/-!
# The code of a module's constructors

The instrumentation's own functions are straight lines of code that end with a return, and they are
sound if the lines are typed (`sound_ownFunction`).  A constructor of the program that is bracketed
is edited: a line is put in front of every return and one behind the parameters
(`Func.bracket_edits`).
-/

namespace Redzone

/-! ### Own functions -/

theorem CodeTyped.of_addedCode {symbols : SymbolTable} {has : Typing} {n : InstId} {origin : Origin}
    {ops : List Op} (h : CodeTyped symbols has n (addedCode origin ops)) :
    CodeTyped symbols has n (ops.map fun op => { op := op, ty := op.addedTy }) := by
  induction ops generalizing has n with
  | nil => trivial
  | cons op rest ih => exact ⟨h.1, ih h.2⟩

section

variable {symbols : SymbolTable} {ops : List Op} {name : SymbolId}

theorem listed_ownFunction : (ownFunction name ops).listed = List.range (ops.length + 1) := by
  simp [Func.listed, ownFunction]

theorem getElem?_insts_ownFunction (k : Nat) : (ownFunction name ops).insts[k]? =
    ((ops ++ [Op.ret none]).map fun op => ({ op := op, ty := op.addedTy } : Instruction))[k]? := by
  simp [ownFunction]

theorem block_ownFunction {b : BlockId} {blk : Block}
    (h : (ownFunction name ops).blocks[b]? = some blk) :
    blk = { argStart := 0, insts := List.range (ops.length + 1) } := by
  have hblk := Array.mem_of_getElem? h
  simpa [ownFunction] using hblk

theorem sound_ownFunction (h : CodeTyped symbols (fun _ _ => False) 0 (addedCode [] ops)) :
    (ownFunction name ops).Sound symbols := by
  have hline : ∀ k < ops.length, (ownFunction name ops).Flawless symbols k ∧
      (ownFunction name ops).Terminates k false := by
    have hall := Func.flawless_of_typed (g := ownFunction name ops) h.of_addedCode
      (fun _ _ => False.elim) fun k hk => by
        rw [List.length_map] at hk
        rw [Nat.zero_add, getElem?_insts_ownFunction, listed_ownFunction, List.mem_range,
          List.map_append, List.getElem?_append_left (by simpa using hk)]
        exact ⟨rfl, by omega⟩
    simpa using hall
  have hlast : (ownFunction name ops).Flawless symbols ops.length ∧
      (ownFunction name ops).Terminates ops.length true := by
    have hinst : (ownFunction name ops).insts[ops.length]? =
        some { op := .ret none, ty := (Op.ret none).addedTy } := by
      simp [getElem?_insts_ownFunction]
    exact ⟨⟨_, hinst, rfl⟩, _, hinst, rfl⟩
  refine ⟨fun blk hblk => ?_, ?_, fun b blk hblk => ?_, fun i hi => ?_⟩
  · rw [block_ownFunction hblk]
  · rw [listed_ownFunction]
    exact List.nodup_range
  · have hinsts : blk.insts = List.range ops.length ++ [ops.length] := by
      rw [block_ownFunction hblk, List.range_succ]
    refine ⟨List.range ops.length, ops.length, hinsts, fun i hi => ?_, hlast.2⟩
    exact (hline i (List.mem_range.mp hi)).2
  · rw [listed_ownFunction, List.mem_range] at hi
    rcases Nat.lt_succ_iff_lt_or_eq.mp hi with hlt | rfl
    · exact (hline i hlt).1
    · exact hlast.1

theorem paramsLead_ownFunction (h : CodeTyped symbols (fun _ _ => False) 0 (addedCode [] ops)) :
    (ownFunction name ops).ParamsLead := by
  rintro b pos i - ⟨instruction, hinst, hparam⟩
  rw [getElem?_insts_ownFunction, List.map_append] at hinst
  have hplain : instruction.op.isParam = false := by
    rcases List.mem_append.mp (List.mem_of_getElem? hinst) with hline | hlast
    · obtain ⟨k, hk⟩ := List.getElem?_of_mem hline
      exact (h.of_addedCode.get hk).proceeds.2.2
    · obtain rfl := List.mem_singleton.mp hlast
      rfl
  rw [hplain] at hparam
  cases hparam

/-! ### Calls -/

theorem typed_plainCalls {routines : List SymbolId}
    (h : ∀ routine ∈ routines, symbols.contains routine = true) (has : Typing) (n : InstId) :
    CodeTyped symbols has n (addedCode [] (plainCalls n routines)) := by
  induction routines generalizing has n with
  | nil => trivial
  | cons routine rest ih =>
      rw [List.forall_mem_cons] at h
      have hcall : CodeTyped symbols has n
          (addedCode [] [.symbolAddr routine, .call (.inst n) []]) :=
        typed_reportLine [] h.1 (by simp)
      exact ⟨hcall.1, hcall.2.1, ih h.2 _ _⟩

/-- Code that reads nothing. -/
theorem typed_args {r : Registration} (h : ∀ symbol ∈ r.symbols, symbols.contains symbol = true)
    (has : Typing) (n : InstId) : CodeTyped symbols has n (addedCode [] r.argCode) := by
  have hall : ∀ ops : List Op, (∀ op ∈ ops, (∃ value, op = .iconst value) ∨
      ∃ symbol, op = .symbolAddr symbol ∧ symbols.contains symbol = true) →
      ∀ (has : Typing) (n : InstId), CodeTyped symbols has n (addedCode [] ops) := by
    intro ops hops
    induction ops with
    | nil => exact fun _ _ => trivial
    | cons op rest ih =>
        rw [List.forall_mem_cons] at hops
        intro has n
        refine ⟨?_, ih hops.2 _ _⟩
        rcases hops.1 with ⟨value, rfl⟩ | ⟨symbol, rfl, hsymbol⟩
        · rfl
        · exact ⟨hsymbol, rfl⟩
  refine hall _ (fun op hop => ?_) has n
  rw [Registration.argCode, List.mem_append] at hop
  rcases hop with hop | hop
  · obtain ⟨symbol, hsymbol, rfl⟩ := List.mem_map.mp hop
    exact .inr ⟨symbol, rfl, h symbol hsymbol⟩
  · obtain ⟨count, -, rfl⟩ := Option.map_eq_some_iff.mp (Option.mem_toList.mp hop)
    exact .inl ⟨_, rfl⟩

theorem typed_callCode {r : Registration} {routine : SymbolId}
    (h : ∀ symbol ∈ r.symbols, symbols.contains symbol = true)
    (hroutine : symbols.contains routine = true) (has : Typing) (n : InstId) :
    CodeTyped symbols has n (addedCode [] (r.callCode n routine)) := by
  unfold Registration.callCode
  simp only
  rw [Check.addedCode_append]
  refine (typed_args h has n).append ?_
  rw [Check.length_addedCode]
  refine typed_reportLine [] hroutine fun v hv => ?_
  obtain ⟨i, hi, rfl⟩ := List.mem_map.mp hv
  obtain ⟨k, hk, rfl⟩ := List.mem_range'.mp hi
  have hget : (addedCode [] r.argCode)[k]? = some _ :=
    List.getElem?_eq_getElem (by rwa [Check.length_addedCode])
  exact ⟨_, .inr ⟨k, _, hk, hget, by rw [Nat.one_mul], rfl⟩⟩

end

/-! ### Brackets -/

theorem Op.isParam_of_isRet {op : Op} (h : op.isRet = true) : op.isParam = false := by
  cases op with
  | param => cases h
  | _ => rfl

namespace Func

variable {f g : Func} {n : Nat} {mapping : ShadowMapping} {symbols : SymbolTable}
  {before after moduleName : SymbolId}

theorem callAtExit_edit {exit : BlockId × Nat} {last : InstId}
    (h : f.callAtExit after exit = .ok g) (hafter : symbols.contains after = true)
    (hat : f.At exit.1 exit.2 last) (hplain : f.NoParam last) :
    Edit False n mapping symbols f g :=
  .line hat hplain (typed_reportLine [] hafter (by simp)) h

/-- Calls in front of the exits leave an instruction at the place behind the parameters that is
none. -/
theorem foldlM_callAtExit {exits : List (BlockId × Nat)} {pos : Nat}
    (h : exits.foldlM (callAtExit after) f = .ok g) (hafter : symbols.contains after = true)
    (hnodup : (exits.map Prod.fst).Nodup)
    (hexits : ∀ exit ∈ exits, (∃ last, f.At exit.1 exit.2 last ∧ f.NoParam last) ∧
      (exit.1 = 0 → pos ≤ exit.2))
    (hpos : ∃ i, f.At 0 pos i ∧ f.NoParam i) :
    Edits False n mapping symbols f g ∧ ∃ i, g.At 0 pos i ∧ g.NoParam i := by
  induction exits generalizing f with
  | nil =>
      cases h
      exact ⟨.refl, hpos⟩
  | cons exit rest ih =>
      obtain ⟨f₁, hf₁, h⟩ := foldlM_cons_eq_ok h
      rw [List.map_cons, List.nodup_cons] at hnodup
      rw [List.forall_mem_cons] at hexits
      obtain ⟨⟨⟨last, hat, hplain⟩, hbehind⟩, hrest⟩ := hexits
      have hedit : Edit False n mapping symbols f f₁ := callAtExit_edit hf₁ hafter hat hplain
      have hrest' : ∀ other ∈ rest, (∃ last, f₁.At other.1 other.2 last ∧ f₁.NoParam last) ∧
          (other.1 = 0 → pos ≤ other.2) := by
        intro other hother
        obtain ⟨⟨last', hat', hplain'⟩, hbehind'⟩ := hrest other hother
        refine ⟨⟨last', (at_insertCode hf₁).mpr (.inl ⟨fun heq => ?_, hat'⟩), hplain'.line hf₁⟩,
          hbehind'⟩
        exact absurd (heq ▸ List.mem_map_of_mem hother) hnodup.1
      have hpos' : ∃ i, f₁.At 0 pos i ∧ f₁.NoParam i := by
        obtain ⟨i, hi, hiplain⟩ := hpos
        by_cases hexit : exit.1 = 0 ∧ exit.2 = pos
        · -- the place is now the first one of the call
          refine ⟨f.insts.size, (at_insertCode hf₁).mpr (.inr (.inl ⟨0, ?_, ?_, ?_, rfl⟩)), ?_⟩
          · simp
          · exact hexit.1.symm
          · rw [hexit.2, Nat.add_zero]
          · exact ⟨_, getElem?_insts_insertCode_add hf₁ 0, rfl⟩
        · refine ⟨i, (at_insertCode hf₁).mpr (.inl ⟨fun heq => ?_, hi⟩), hiplain.line hf₁⟩
          exact (hbehind heq.symm).lt_of_ne fun hne => hexit ⟨heq.symm, hne.symm⟩
      obtain ⟨hedits, hplace⟩ := ih h hnodup.2 hrest' hpos'
      exact ⟨.head hedit hedits, hplace⟩

theorem le_length_of_leadingParams {insts : List InstId} {count : Nat}
    (h : f.leadingParams insts = .ok count) : count ≤ insts.length := by
  induction insts generalizing count with
  | nil =>
      cases h
      exact le_rfl
  | cons first rest ih =>
      obtain ⟨instruction, -, h⟩ := bind_eq_ok h
      split at h
      · obtain ⟨others, hothers, h⟩ := bind_eq_ok h
        cases h
        exact Nat.succ_le_succ (ih hothers)
      · cases h
        exact Nat.zero_le _

/-- A bracket consists of edits. -/
theorem bracket_edits (h : f.bracket before after moduleName = .ok g) (hsound : f.Sound symbols)
    (hbefore : symbols.contains before = true) (hafter : symbols.contains after = true)
    (hmodule : symbols.contains moduleName = true) : Edits False n mapping symbols f g := by
  unfold bracket at h
  obtain ⟨exits, hexits, h⟩ := bind_eq_ok h
  obtain ⟨pos, hpos, h⟩ := bind_eq_ok h
  obtain ⟨f₁, hf₁, h⟩ := bind_eq_ok h
  obtain ⟨hnodup, hexits⟩ := exits_eq_ok hexits
  cases hentry : f.blocks[0]? with
  | none =>
      -- without an entry there are no exits either, and then there is no place for the code
      have hnone : exits = [] := by
        refine List.eq_nil_iff_forall_not_mem.mpr fun exit hexit => ?_
        obtain ⟨-, blk, -, hblk, -⟩ := hexits exit hexit
        have hlt := (Array.getElem?_eq_some_iff.mp hblk).1
        exact absurd (Array.getElem?_eq_none_iff.mp hentry) (by omega)
      subst hnone
      cases hf₁
      obtain ⟨blk, hblk, -⟩ := insertCode_eq_ok h
      cases hentry.symm.trans hblk
  | some entry =>
      rw [prologueLength, hentry] at hpos
      have hlt := lt_length_of_leadingParams hpos (hsound.ends 0 entry hentry)
        (le_length_of_leadingParams hpos)
      have hplace : ∃ i, f.At 0 pos i ∧ f.NoParam i :=
        ⟨_, ⟨entry, hentry, List.getElem?_eq_getElem hlt⟩,
          noParam_of_leadingParams hpos (List.getElem?_eq_getElem hlt)⟩
      have hplaces : ∀ exit ∈ exits, (∃ last, f.At exit.1 exit.2 last ∧ f.NoParam last) ∧
          (exit.1 = 0 → pos ≤ exit.2) := by
        intro exit hexit
        obtain ⟨last, blk, instruction, hblk, hlength, hget, hinst, hret⟩ := hexits exit hexit
        refine ⟨⟨last, ⟨blk, hblk, hget⟩, instruction, hinst, ?_⟩, fun hzero => ?_⟩
        · exact Op.isParam_of_isRet hret
        · rw [hzero] at hblk
          obtain rfl := Option.some.inj (hentry.symm.trans hblk)
          omega
      obtain ⟨hedits, i, hat, hplain⟩ := foldlM_callAtExit hf₁ hafter hnodup hplaces hplace
      refine hedits.tail (.line hat hplain ?_ h)
      simp [addedCode, CodeTyped, Instruction.Typed, Op.addedTy, Op.resultTy?, Ty.isPtr, hmodule,
        hbefore]

end Func

end Redzone
