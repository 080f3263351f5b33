import Redzone.Proofs.Edit

/-!
# What a survey finds

`Judge.instruction_cases` says all that the judgement of an instruction can come to.  From it
follows, by induction over the blocks, what the visits of the sites rely on: every site is at its
place and of its kind (`survey_suits`), and the sites stand in the order of the code
(`survey_pairwise`).
-/

namespace Redzone

theorem lift_eq_ok {α : Type} {first : Except Fault α} {a : α} (h : Failure.lift first = .ok a) :
    first = .ok a := by
  cases first with
  | error cause => cases h
  | ok b =>
      cases h
      rfl

/-- Whether what was checked before an operation need not hold behind it. -/
def Op.intervenes : Op → Bool
  | .call .. | .lifetime .. | .bulk .. => true
  | _ => false

/-- Whether an operation is a bulk memory operation. -/
def Op.isBulk : Op → Bool
  | .bulk .. => true
  | _ => false

/-- Whether an instruction is a bulk memory operation that becomes a call. -/
def Config.replaces (config : Config) (i : Instruction) : Bool :=
  i.op.isBulk && config.bulkMemory && !i.noSanitize

/-- The instruction of a site is of the site's kind. -/
def Site.SuitsKind (f : Func) (site : Site) : Prop :=
  ∃ i, f.insts[site.inst]? = some i ∧
    match site.kind with
    | .check access => i.op.access? = some access
    | .bulk => i.op.isBulk = true

/-- A site is where it says. -/
def Site.InPlace (f : Func) (site : Site) : Prop :=
  ∃ blk, f.blocks[site.block]? = some blk ∧ blk.insts[site.pos]? = some site.inst

theorem Site.isInPlace_iff {f : Func} {site : Site} :
    site.isInPlace f = true ↔ site.InPlace f := by
  simp [isInPlace, InPlace, Option.any_eq_true]

/-- The order of the code. -/
def Site.Before (a b : Site) : Prop :=
  a.block < b.block ∨ a.block = b.block ∧ a.pos < b.pos

namespace Judge

variable {judge : Judge} {checked : List (Value × Nat)} {inst : InstId} {i : Instruction}

/-- An access gets a check. -/
structure Checks (judge : Judge) (checked : List (Value × Nat)) (i : Instruction)
    (access : MemAccess) : Prop where
  wanted : i.noSanitize = false ∧ judge.wants access = true
  size : access.size ≠ 0
  ty : judge.func.valueTy access.ptr = some (.ptr 0)
  risky : judge.isSafe access = .ok false
  unchecked : ¬ (judge.config.optSameTemp = true ∧ (access.ptr, access.size) ∈ checked)

/-- An access gets no check. -/
inductive Skips (judge : Judge) (checked : List (Value × Nat)) (i : Instruction)
    (access : MemAccess) : Prop
  | unwanted (h : i.noSanitize = true ∨ judge.wants access = false)
  | elsewhere (h : judge.func.valueTy access.ptr ≠ some (.ptr 0))
  | safe (h : judge.isSafe access = .ok true)
  | checked (h : judge.config.optSameTemp = true ∧ (access.ptr, access.size) ∈ checked)

theorem access_cases {access : MemAccess} {verdict : Verdict}
    (h : judge.access checked inst i.noSanitize access = .ok verdict) :
    (verdict = .check access ∧ judge.Checks checked i access) ∨
      (verdict = .skip ∧ judge.Skips checked i access) := by
  unfold Judge.access at h
  split at h
  · rename_i hunwanted
    cases h
    exact .inr ⟨rfl, .unwanted (by simpa using hunwanted)⟩
  · rename_i hwanted
    split at h
    · cases h
    · rename_i hsize
      split at h
      · rename_i hty
        cases h
        exact .inr ⟨rfl, .elsewhere hty⟩
      · rename_i hty
        obtain ⟨safe, hsafe, h⟩ := bind_eq_ok h
        replace hsafe := lift_eq_ok hsafe
        replace h := Except.ok.inj h
        subst h
        split
        · rename_i hskip
          rcases Bool.or_eq_true_iff.mp hskip with hskip | hskip
          · exact .inr ⟨rfl, .safe (hskip ▸ hsafe)⟩
          · exact .inr ⟨rfl, .checked (by simpa using hskip)⟩
        · rename_i hcheck
          refine .inl ⟨rfl, by simpa using hwanted, hsize, not_not.mp hty, ?_, ?_⟩
          · cases safe with
            | true => simp at hcheck
            | false => exact hsafe
          · simpa using fun hopt hmem => hcheck (by simp [hopt, hmem])

/-- All that the judgement of an instruction can come to. -/
inductive Judged (judge : Judge) (checked : List (Value × Nat)) (i : Instruction) : Verdict → Prop
  | unrelated (hop : i.op.intervenes = false) (haccess : i.op.access? = none) :
      judge.Judged checked i .unrelated
  | barrier (hop : i.op.intervenes = true) (hkept : judge.config.replaces i = false) :
      judge.Judged checked i .barrier
  | replace (hop : i.op.isBulk = true) (hreplaces : judge.config.replaces i = true) :
      judge.Judged checked i .replace
  | skip {access : MemAccess} (haccess : i.op.access? = some access)
      (hskips : judge.Skips checked i access) : judge.Judged checked i .skip
  | check {access : MemAccess} (haccess : i.op.access? = some access)
      (hchecks : judge.Checks checked i access) : judge.Judged checked i (.check access)

theorem instruction_cases {verdict : Verdict}
    (h : judge.instruction checked inst i = .ok verdict) : judge.Judged checked i verdict := by
  unfold instruction at h
  split at h
  · rename_i hop
    cases h
    exact .barrier (by rw [hop]; rfl) (by simp [Config.replaces, hop, Op.isBulk])
  · rename_i hop
    cases h
    exact .barrier (by rw [hop]; rfl) (by simp [Config.replaces, hop, Op.isBulk])
  · rename_i hop
    cases h
    split
    · rename_i hwanted
      exact .replace (by rw [hop]; rfl) (by simpa [Config.replaces, hop, Op.isBulk] using hwanted)
    · rename_i hunwanted
      exact .barrier (by rw [hop]; rfl)
        (by simpa [Config.replaces, hop, Op.isBulk] using hunwanted)
  · rename_i hcall hlifetime hbulk
    split at h
    · rename_i haccess
      cases h
      refine .unrelated ?_ haccess
      cases hop : i.op with
      | call callee args => exact absurd hop (hcall callee args)
      | lifetime edge ptr size => exact absurd hop (hlifetime edge ptr size)
      | bulk kind dest source length => exact absurd hop (hbulk kind dest source length)
      | _ => rfl
    · rename_i access haccess
      rcases access_cases h with ⟨rfl, hchecks⟩ | ⟨rfl, hskips⟩
      · exact .check haccess hchecks
      · exact .skip haccess hskips

/-- What counts as checked behind an instruction. -/
def Verdict.after (checked : List (Value × Nat)) : Verdict → List (Value × Nat)
  | .unrelated | .skip => checked
  | .barrier | .replace => []
  | .check access => (access.ptr, access.size) :: checked

/-- The site that an instruction is. -/
def Verdict.sites (inst : InstId) (b : BlockId) (pos : Nat) : Verdict → List Site
  | .unrelated | .skip | .barrier => []
  | .replace => [⟨inst, b, pos, .bulk⟩]
  | .check access => [⟨inst, b, pos, .check access⟩]

/-- One step of a survey. -/
theorem surveyFrom_cons {b : BlockId} {pos : Nat} {rest : List InstId} {survey : Survey}
    (h : judge.surveyFrom b pos checked (inst :: rest) = .ok survey) :
    ∃ i verdict others, judge.func.insts[inst]? = some i ∧ judge.Judged checked i verdict ∧
      judge.surveyFrom b (pos + 1) (verdict.after checked) rest = .ok others ∧
      survey.sites = verdict.sites inst b pos ++ others.sites := by
  rw [surveyFrom] at h
  obtain ⟨i, hinst, h⟩ := bind_eq_ok h
  replace hinst := Func.inst_eq_ok (lift_eq_ok hinst)
  obtain ⟨verdict, hverdict, h⟩ := bind_eq_ok h
  refine ⟨i, verdict, ?_⟩
  have hjudged := instruction_cases hverdict
  cases verdict with
  | unrelated => exact ⟨survey, hinst, hjudged, h, rfl⟩
  | barrier => exact ⟨survey, hinst, hjudged, h, rfl⟩
  | replace =>
      obtain ⟨others, hothers, h⟩ := bind_eq_ok h
      cases h
      exact ⟨others, hinst, hjudged, hothers, rfl⟩
  | skip =>
      obtain ⟨others, hothers, h⟩ := bind_eq_ok h
      cases h
      exact ⟨others, hinst, hjudged, hothers, rfl⟩
  | check access =>
      obtain ⟨others, hothers, h⟩ := bind_eq_ok h
      cases h
      exact ⟨others, hinst, hjudged, hothers, rfl⟩

/-! ### Sites -/

theorem surveyFrom_sites {b : BlockId} {pos : Nat} {rest : List InstId} {survey : Survey}
    (h : judge.surveyFrom b pos checked rest = .ok survey) : ∀ site ∈ survey.sites,
      site.block = b ∧ pos ≤ site.pos ∧ rest[site.pos - pos]? = some site.inst ∧
        site.SuitsKind judge.func := by
  induction rest generalizing pos checked survey with
  | nil =>
      cases h
      simp
  | cons inst rest ih =>
      obtain ⟨i, verdict, others, hinst, hjudged, hothers, hsites⟩ := surveyFrom_cons h
      intro site hsite
      rw [hsites, List.mem_append] at hsite
      rcases hsite with hsite | hsite
      · cases hjudged with
        | unrelated | barrier | skip => cases hsite
        | replace hop =>
            obtain rfl := List.mem_singleton.mp hsite
            exact ⟨rfl, le_rfl, by simp, i, hinst, hop⟩
        | check haccess _ =>
            obtain rfl := List.mem_singleton.mp hsite
            exact ⟨rfl, le_rfl, by simp, i, hinst, haccess⟩
      · obtain ⟨hblock, hpos, hget, hkind⟩ := ih hothers site hsite
        refine ⟨hblock, Nat.le_of_succ_le hpos, ?_, hkind⟩
        rwa [← Nat.succ_sub_succ, Nat.succ_sub hpos, List.getElem?_cons_succ]

theorem surveyFrom_pairwise {b : BlockId} {pos : Nat} {rest : List InstId} {survey : Survey}
    (h : judge.surveyFrom b pos checked rest = .ok survey) :
    survey.sites.Pairwise Site.Before := by
  induction rest generalizing pos checked survey with
  | nil =>
      cases h
      exact .nil
  | cons inst rest ih =>
      obtain ⟨i, verdict, others, -, -, hothers, hsites⟩ := surveyFrom_cons h
      have hlater : ∀ site ∈ others.sites, site.block = b ∧ pos < site.pos := fun site hsite =>
        ⟨(surveyFrom_sites hothers site hsite).1, (surveyFrom_sites hothers site hsite).2.1⟩
      rw [hsites, List.pairwise_append]
      refine ⟨?_, ih hothers, fun site hsite later hlaterMem => ?_⟩
      · cases verdict <;> simp [Verdict.sites]
      · obtain ⟨hblock, hpos⟩ := hlater later hlaterMem
        have hsite' : site.block = b ∧ site.pos = pos := by
          cases verdict <;> simp_all [Verdict.sites]
        exact .inr ⟨hsite'.1.trans hblock.symm, hsite'.2 ▸ hpos⟩

theorem surveyBlocks_sites {b : BlockId} {blocks : List Block} {survey : Survey}
    (h : judge.surveyBlocks b blocks = .ok survey) : ∀ site ∈ survey.sites,
      b ≤ site.block ∧ (∃ blk, blocks[site.block - b]? = some blk ∧
        blk.insts[site.pos]? = some site.inst) ∧ site.SuitsKind judge.func := by
  induction blocks generalizing b survey with
  | nil =>
      cases h
      simp
  | cons blk rest ih =>
      obtain ⟨first, hfirst, h⟩ := bind_eq_ok h
      obtain ⟨others, hothers, h⟩ := bind_eq_ok h
      cases h
      intro site hsite
      rcases List.mem_append.mp hsite with hsite | hsite
      · obtain ⟨hblock, -, hget, hkind⟩ := surveyFrom_sites hfirst site hsite
        subst hblock
        exact ⟨le_rfl, ⟨blk, by simp, by simpa using hget⟩, hkind⟩
      · obtain ⟨hblock, ⟨blk', hblk', hget⟩, hkind⟩ := ih hothers site hsite
        refine ⟨Nat.le_of_succ_le hblock, ⟨blk', ?_, hget⟩, hkind⟩
        rwa [← Nat.succ_sub_succ, Nat.succ_sub hblock, List.getElem?_cons_succ]

theorem surveyBlocks_pairwise {b : BlockId} {blocks : List Block} {survey : Survey}
    (h : judge.surveyBlocks b blocks = .ok survey) : survey.sites.Pairwise Site.Before := by
  induction blocks generalizing b survey with
  | nil =>
      cases h
      exact .nil
  | cons blk rest ih =>
      obtain ⟨first, hfirst, h⟩ := bind_eq_ok h
      obtain ⟨others, hothers, h⟩ := bind_eq_ok h
      cases h
      refine List.pairwise_append.mpr ⟨surveyFrom_pairwise hfirst, ih hothers, ?_⟩
      intro site hsite later hlater
      have hblock := (surveyFrom_sites hfirst site hsite).1
      exact .inl (hblock ▸ (surveyBlocks_sites hothers later hlater).1)

theorem survey_suits {survey : Survey} (h : judge.survey = .ok survey) :
    ∀ site ∈ survey.sites, site.InPlace judge.func ∧ site.SuitsKind judge.func := by
  intro site hsite
  obtain ⟨-, ⟨blk, hblk, hget⟩, hkind⟩ := surveyBlocks_sites h site hsite
  exact ⟨⟨blk, by simpa using hblk, hget⟩, hkind⟩

theorem survey_pairwise {survey : Survey} (h : judge.survey = .ok survey) :
    survey.sites.Pairwise Site.Before :=
  surveyBlocks_pairwise h

end Judge

end Redzone
