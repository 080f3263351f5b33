import Redzone.Proofs.Progress.Survey

/-!
# Surveys of a module that has grown

What a survey finds in a function depends on the globals of the module, but only on those whose
names the function's code can refer to.  Globals under names that were unknown when the function was
verified make no difference.
-/

namespace Redzone

theorem Func.Sound.contains_symbol {f : Func} {symbols : SymbolTable} {i : InstId}
    {instruction : Instruction} {symbol : SymbolId} (hsound : f.Sound symbols) (hi : i ∈ f.listed)
    (hinst : f.insts[i]? = some instruction) (hop : instruction.op = .symbolAddr symbol) :
    symbols.contains symbol = true := by
  obtain ⟨b, pos, hat⟩ := exists_at_of_mem_listed hi
  exact Scope.symbol_of_instruction (hsound.instruction hat hinst) hop

namespace Judge

variable {judge : Judge} {symbols : SymbolTable} {globals added : List Global}

theorem lastNamed_append {symbol : SymbolId} (h : ∀ g ∈ added, g.name ≠ symbol) (id : GlobalId) :
    lastNamed symbol id (globals ++ added) = lastNamed symbol id globals := by
  induction globals generalizing id with
  | nil =>
      show lastNamed symbol id added = none
      induction added generalizing id with
      | nil => rfl
      | cons g rest ih =>
          rw [List.forall_mem_cons] at h
          rw [lastNamed, ih h.2]
          exact if_neg h.1
  | cons g rest ih => rw [List.cons_append, lastNamed, lastNamed, ih]

/-- A judge of a module that has more globals. -/
def withGlobals (judge : Judge) (added : List Global) : Judge :=
  { judge with globals := judge.globals ++ added }

section

variable (hsound : judge.func.Sound symbols)
  (hadded : ∀ g ∈ added, symbols.contains g.name = false)

include hsound hadded

theorem isSafe_withGlobals {access : MemAccess} (hptr : judge.func.Listed access.ptr) :
    (judge.withGlobals added).isSafe access = judge.isSafe access := by
  unfold isSafe
  rw [show (judge.withGlobals added).func = judge.func from rfl]
  split
  · rename_i base offset hbase
    have hlisted : base ∈ judge.func.listed :=
      hsound.listed_base (Func.baseAndOffset_eq_some_iff.mp hbase).1 hptr base rfl
    split
    · obtain ⟨target, htarget⟩ := hsound.exists_inst hlisted
      rw [htarget, ok_bind, ok_bind]
      unfold covers
      split
      · rfl
      · rename_i symbol hop
        have hknown := hsound.contains_symbol hlisted (Func.inst_eq_ok htarget) hop
        have hlast : lastNamed symbol 0 (judge.globals ++ added) =
            lastNamed symbol 0 judge.globals := by
          refine lastNamed_append (fun g hg heq => ?_) 0
          rw [← heq, hadded g hg] at hknown
          cases hknown
        simp only [withGlobals, hlast]
      · rfl
    · rfl
  · rfl

theorem instruction_withGlobals (checked : List (Value × Nat)) {inst : InstId} {i : Instruction}
    (hinst : inst ∈ judge.func.listed) (hi : judge.func.insts[inst]? = some i) :
    (judge.withGlobals added).instruction checked inst i = judge.instruction checked inst i := by
  unfold instruction
  split
  · rfl
  · rfl
  · rfl
  · split
    · rfl
    · rename_i found hfound
      unfold access
      rw [isSafe_withGlobals hsound hadded (hsound.listed_access hinst hi hfound).2]
      rfl

theorem surveyFrom_withGlobals (b : BlockId) (pos : Nat) (checked : List (Value × Nat))
    {insts : List InstId} (hinsts : ∀ i ∈ insts, i ∈ judge.func.listed) :
    (judge.withGlobals added).surveyFrom b pos checked insts =
      judge.surveyFrom b pos checked insts := by
  induction insts generalizing pos checked with
  | nil => rfl
  | cons inst rest ih =>
      rw [List.forall_mem_cons] at hinsts
      obtain ⟨i, hi⟩ := hsound.exists_inst hinsts.1
      rw [surveyFrom, surveyFrom, show (judge.withGlobals added).func = judge.func from rfl, hi]
      dsimp only [Failure.lift]
      rw [ok_bind, ok_bind,
        instruction_withGlobals hsound hadded checked hinsts.1 (Func.inst_eq_ok hi)]
      simp only [ih _ _ hinsts.2]

/-- Globals that the function cannot know make no difference to a survey. -/
theorem survey_withGlobals : (judge.withGlobals added).survey = judge.survey := by
  unfold survey
  rw [show (judge.withGlobals added).func = judge.func from rfl]
  have hblocks : ∀ blk ∈ judge.func.blocks.toList, ∀ i ∈ blk.insts, i ∈ judge.func.listed :=
    fun blk hblk i hi => List.mem_flatMap.mpr ⟨blk, hblk, hi⟩
  generalize 0 = b, judge.func.blocks.toList = blocks at hblocks
  induction blocks generalizing b with
  | nil => rfl
  | cons blk rest ih =>
      rw [List.forall_mem_cons] at hblocks
      rw [surveyBlocks, surveyBlocks, surveyFrom_withGlobals hsound hadded b 0 [] hblocks.1,
        ih (b + 1) hblocks.2]

end

end Judge

end Redzone
