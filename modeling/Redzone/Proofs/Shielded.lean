import Redzone.Proofs.Check.Approach
import Redzone.Proofs.Check.Reference
import Redzone.Proofs.Edits.Chain
import Redzone.Proofs.Edits.Run
import Redzone.Proofs.Escape

/-!
# No way around a guard

An access that is to be checked gets its guard when it is visited, and then more code comes in: the
guards of other accesses, a frame, markers, the code at exits.  This module shows that none of it
opens a way around the guard, and what that says about executions.

## Strategy

`Shielded` is about the code: the guard stands in front of the access, and whatever is behind its
first instruction can be reached through the guard only.  `Secured` is about executions: every run
that comes to the access has come through the guard right before.

* **The guard is made.**  `Draft.visit_shielded`: a check has blocks of its own, and no branch that
  was there before leads to a block that was not.
* **Code is added later.**  It is put nowhere between a guard and its access
  (`Func.Approach.cuts`), and its branches lead to new blocks only (`Func.Edits.branchesOut`, by the
  kinds of an edit).  `Shielded.cuts` joins the two, and `Draft.Ready.shielded` takes it through all
  visits.
* **From code to runs.**  `Shielded.secured` follows a run back to the guard.  That it comes to the
  guard's own place needs that no instruction is listed twice.
* **From runs to inspections.**  What a guard does when it is executed is known as a run of its own
  (`Func.Follows`).  Two runs from one state are comparable (`Func.Runs.comparable`), and both end
  where the guard does (`Func.Runs.eq_of_head`), so they are the same (`Func.Follows.of_runs`).

`Module.instrumentFunction_secured` puts this together for an instrumented function.
-/

namespace Redzone

namespace Func

variable {ordered : Prop} {f g h : Func} {n : Nat} {mapping : ShadowMapping} {symbols : SymbolTable}

/-! ### Branches that are added -/

/-- The branches of `g` are those of `f`, and some from new code to new blocks. -/
structure BranchesOut (f g : Func) : Prop where
  insts : f.insts.size ≤ g.insts.size
  blocks : f.blocks.size ≤ g.blocks.size
  branches : ∀ i c : Nat, g.Branches i c →
    f.Branches i c ∨ f.insts.size ≤ i ∧ f.blocks.size ≤ c

theorem BranchesOut.trans (hfirst : f.BranchesOut g) (hsecond : g.BranchesOut h) :
    f.BranchesOut h where
  insts := hfirst.insts.trans hsecond.insts
  blocks := hfirst.blocks.trans hsecond.blocks
  branches i c hbranch := by
    rcases hsecond.branches i c hbranch with hbranch | ⟨hi, hc⟩
    · exact hfirst.branches i c hbranch
    · exact .inr ⟨hfirst.insts.trans hi, hfirst.blocks.trans hc⟩

theorem BranchesOut.of_same_code (hinsts : g.insts = f.insts) (hblocks : g.blocks = f.blocks) :
    f.BranchesOut g where
  insts := hinsts ▸ le_rfl
  blocks := hblocks ▸ le_rfl
  branches i c hbranch := by
    rw [Branches, listed, hinsts, hblocks] at hbranch
    exact .inl hbranch

/-- An edit adds branches to the blocks that it adds, if any. -/
theorem Edit.branchesOut (hedit : Edit ordered n mapping symbols f g) (hclosed : f.Closed) :
    f.BranchesOut g where
  insts := hedit.extended.size_insts_le
  blocks := hedit.extended.size_blocks_le
  branches := by
    rintro i c ⟨hlisted, instruction, hinst, hc⟩
    obtain ⟨b, q, hat⟩ := exists_at_of_mem_listed hlisted
    cases hedit with
    | line _ _ hcode hinsert =>
        rcases (at_insertCode hinsert).mp hat with
          ⟨-, hold⟩ | ⟨k, -, rfl, rfl, rfl⟩ | ⟨p, -, rfl, rfl, hold⟩
        · rw [getElem?_insts_of_insertCode hclosed hinsert hold] at hinst
          exact .inl ⟨hold.mem_listed, instruction, hinst, hc⟩
        · rw [getElem?_insts_insertCode_add hinsert] at hinst
          rw [hcode.successors instruction (List.mem_of_getElem? hinst)] at hc
          cases hc
        · rw [getElem?_insts_of_insertCode hclosed hinsert hold] at hinst
          exact .inl ⟨hold.mem_listed, instruction, hinst, hc⟩
    | check _ _ _ _ _ _ hinsert =>
        rcases Check.at_insert_cases hinsert hat with
          ⟨-, hold⟩ | ⟨-, hold⟩ | ⟨s, hs, k, hk, rfl, rfl, rfl⟩
        · rw [Check.getElem?_insts_of_insert hclosed hinsert hold] at hinst
          exact .inl ⟨hold.mem_listed, instruction, hinst, hc⟩
        · rw [Check.getElem?_insts_of_insert hclosed hinsert hold] at hinst
          exact .inl ⟨hold.mem_listed, instruction, hinst, hc⟩
        · have hop := List.getElem?_eq_getElem hk
          rw [Check.holds_segment hinsert s hs k _ hop] at hinst
          obtain rfl := Option.some.inj hinst
          obtain ⟨-, rfl⟩ := Check.insert_places hinsert
          obtain ⟨-, hle⟩ := Check.segment_successors s hs k _ c hop hc
          exact .inr ⟨(Check.le_segment_start s hs).trans (Nat.le_add_right _ _), hle⟩
    | @replace _ _ j other op _ _ hother _ hop hg =>
        subst hg
        by_cases hij : i = j
        · subst hij
          rw [getElem?_insts_setInst_self (Array.getElem?_eq_some_iff.mp hother).1] at hinst
          obtain rfl := Option.some.inj hinst
          rw [hop.proceeds.1] at hc
          cases hc
        · rw [getElem?_insts_setInst_of_ne hij] at hinst
          exact .inl ⟨hlisted, instruction, hinst, hc⟩

theorem Edits.branchesOut (hedits : Edits ordered n mapping symbols f g)
    (hsound : f.Sound symbols) : f.BranchesOut g := by
  induction hedits with
  | refl => exact .of_same_code rfl rfl
  | tail hedits hedit ih => exact ih.trans (hedit.branchesOut (Edits.sound hedits hsound).closed)

end Func

/-! ### Shielded accesses -/

/-- The access `inst` has a guard in front of it that starts at `n₀` or later, and there is no other
way to the access. -/
def Shielded (outlined : Bool) (g : Func) (config : Config) (symbols : SymbolTable) (n₀ : Nat)
    (access : MemAccess) (inst : InstId) : Prop :=
  ∃ (n : Nat) (ops : List Op) (b b' : Nat), n₀ ≤ n ∧ b' ≤ g.blocks.size ∧
    GuardedFrom outlined g config symbols access inst n ∧ g.SoleApproach n ops b b' inst

section

variable {outlined : Bool} {f g : Func} {config : Config} {symbols symbols' : SymbolTable}
  {n₀ : Nat} {access : MemAccess} {inst : InstId}

/-- What leaves the access together with its guard, and adds no branch to a block that is there,
leaves the access shielded. -/
theorem Shielded.cuts (h : Shielded outlined f config symbols n₀ access inst)
    (hcuts : f.Cuts n₀ inst g) (hbranches : f.BranchesOut g) (hgrows : symbols.GrowsTo symbols') :
    Shielded outlined g config symbols' n₀ access inst := by
  obtain ⟨n, ops, b, b', hn, hb', hguard, hsole⟩ := h
  refine ⟨n, ops, b, b', hn, hb'.trans hbranches.blocks, hguard.cuts hcuts hn hgrows,
    hsole.toApproach.cuts hcuts hn, fun i c hc hc' hbranch => ?_⟩
  rcases hbranches.branches i c hbranch with hold | ⟨-, hnew⟩
  · exact hsole.branches i c hc hc' hold
  · exact absurd (hc'.trans_le hb') (Nat.not_lt.mpr hnew)

theorem Shielded.of_same_code (h : Shielded outlined f config symbols n₀ access inst)
    (hinsts : g.insts = f.insts) (hblocks : g.blocks = f.blocks)
    (hgrows : symbols.GrowsTo symbols') :
    Shielded outlined g config symbols' n₀ access inst := by
  obtain ⟨entry, hentry⟩ : ∃ entry, f.blocks[0]? = some entry := by
    obtain ⟨_, _, _, _, -, -, ⟨c, blk, _, _, _, hblk, -, -⟩, -⟩ := h
    exact ⟨_, Array.getElem?_eq_getElem ((Nat.zero_le c).trans_lt (Func.lt_size_of_getElem? hblk))⟩
  exact h.cuts (.single ⟨0, entry, 0, hentry, .of_same_code hinsts hblocks hentry,
    .prologue rfl (by simp)⟩) (.of_same_code hinsts hblocks) hgrows

end

namespace Draft

variable {config : Config} {outlined : Bool} {d d' : Draft} {site : Site} {sites : List Site}
  {n₀ : Nat}

theorem Edited.refl (mapping : ShadowMapping) (hsound : d.func.Sound d.symbols) :
    d.Edited False mapping d.func :=
  ⟨.refl, hsound, False.elim⟩

theorem Edited.branchesOut {ordered : Prop} {mapping : ShadowMapping}
    (h : d'.Edited ordered mapping d.func) (hsound : d.func.Sound d.symbols)
    (hgrows : d.symbols.GrowsTo d'.symbols) : d.func.BranchesOut d'.func :=
  h.edits.branchesOut (hsound.mono hgrows.size_le)

/-- The visit of an access that is to be checked shields it. -/
theorem visit_shielded {access : MemAccess} (hsound : d.func.Sound d.symbols)
    (hplace : site.InPlace d.func) (hsuits : site.SuitsKind d.func) (hn₀ : n₀ ≤ d.func.insts.size)
    (hkind : site.kind = .check access) (hvisit : d.visit config outlined site = .ok d') :
    Shielded outlined d'.func config d'.symbols n₀ access site.inst := by
  obtain ⟨d₁, hd₁, hgrows, hvisited⟩ :=
    visit_visited config outlined hsound.closed hplace hsuits
  obtain rfl : d' = d₁ := Except.ok.inj (hvisit.symm.trans hd₁)
  obtain ⟨ops, hsize, happroach⟩ : d.func.Approaches d'.func site.inst := by
    cases hvisited with
    | check _ _ _ _ _ _ _ happroach => exact happroach
    | bulk hkind' => cases hkind.symm.trans hkind'
  obtain ⟨i, hi, -⟩ := id hsuits
  have hedited := (Edited.refl config.mapping hsound).visit hplace hsuits
    (Array.getElem?_eq_some_iff.mp hi).1 hvisit
  have hbranches := hedited.branchesOut hsound hgrows
  refine ⟨_, ops, _, _, hn₀, le_rfl, hvisited.guardedFrom hkind, happroach, ?_⟩
  intro j c hc _ hbranch
  have hj : j < d'.func.insts.size := by
    obtain ⟨-, instruction, hinst, -⟩ := hbranch
    exact (Array.getElem?_eq_some_iff.mp hinst).1
  rcases hbranches.branches j c hbranch with ⟨hlisted, instruction, hinst, hsucc⟩ | ⟨hnew, -⟩
  · -- a branch that was there leads to a block that was there
    obtain ⟨instruction', hinst', hrefers⟩ := hsound.closed j hlisted
    obtain rfl := Option.some.inj (hinst.symm.trans hinst')
    exact absurd (hrefers.target c hsucc) (Nat.not_lt.mpr hc)
  · exact ⟨hnew, hsize ▸ hj⟩

/-- Every access that was to be checked is shielded behind all visits. -/
theorem Ready.shielded (hready : d.Ready sites) (hsound : d.func.Sound d.symbols)
    (hn₀ : n₀ ≤ d.func.insts.size) (hlt : ∀ site ∈ sites, site.inst < n₀)
    (hvisits : sites.foldlM (visit config outlined) d = .ok d') :
    ∀ site ∈ sites, ∀ access, site.kind = .check access →
      Shielded outlined d'.func config d'.symbols n₀ access site.inst := by
  induction sites generalizing d with
  | nil => simp
  | cons site rest ih =>
      obtain ⟨d₁, hd₁, hrest⟩ := foldlM_cons_eq_ok hvisits
      have hplace := hready.place site List.mem_cons_self
      have hsuits := hready.suits site List.mem_cons_self
      obtain ⟨d₂, hd₂, hgrows, hvisited⟩ :=
        visit_visited config outlined hsound.closed hplace hsuits
      obtain rfl : d₁ = d₂ := Except.ok.inj (hd₁.symm.trans hd₂)
      have hready₁ := hready.visited hvisited
      have hsize : n₀ ≤ d₁.func.insts.size := hn₀.trans hvisited.size_le
      obtain ⟨i, hi, -⟩ := id hsuits
      have hsound₁ := ((Edited.refl config.mapping hsound).visit hplace hsuits
        (Array.getElem?_eq_some_iff.mp hi).1 hd₁).sound
      rw [List.forall_mem_cons] at hlt ⊢
      refine ⟨fun access hkind => ?_, ih hready₁ hsound₁ hsize hlt.2 hrest⟩
      -- the other visits leave the access together with its guard
      obtain ⟨d₂, hd₂, hothers⟩ : ∃ d₂, rest.foldlM (visit config outlined) d₁ = .ok d₂ ∧
          Visits config outlined d₁ rest d₂ := hready₁.visits
      obtain rfl : d' = d₂ := Except.ok.inj (hrest.symm.trans hd₂)
      have hedited := hready₁.edited (Edited.refl config.mapping hsound₁)
        (fun site hsite => (hlt.2 site hsite).trans_le hsize) hrest
      exact (visit_shielded hsound hplace hsuits hn₀ hkind hd₁).cuts
        (hothers.cuts hlt.2 hready.inst_ne) (hedited.branchesOut hsound₁ hothers.growsTo)
        hothers.growsTo

end Draft

/-! ### Runs that come to a shielded access -/

/-- Every run that comes to `inst` has come to `front` before, and has executed nothing but
instructions from `n` on since. -/
def Func.ComesThrough (g : Func) (n : Nat) (front : List InstId) (inst : InstId) : Prop :=
  ∀ (x : Activation) (memory : Memory) (stack : Nat) (s t : State) (es : List Event),
    g.start memory stack = some s → g.Runs x s es t → t.rest.head? = some inst →
    ∃ es₁ u es₂, es = es₁ ++ es₂ ∧ g.Runs x s es₁ u ∧ u.rest = front ∧ g.Runs x u es₂ t ∧
      ∀ e ∈ es₂, n ≤ e.inst

/-- The access `inst` has a guard in front of it, made of instructions from `n₀` on, and every run
that comes to the access has come through the guard. -/
def Secured (outlined : Bool) (g : Func) (config : Config) (symbols : SymbolTable) (n₀ : Nat)
    (access : MemAccess) (inst : InstId) : Prop :=
  ∃ (n : Nat) (b : BlockId) (blk : Block) (pre front rest : List InstId), n₀ ≤ n ∧
    g.blocks[b]? = some blk ∧ blk.insts = pre ++ front ∧
    Guard outlined g config symbols access n front (inst :: rest) ∧ g.ComesThrough n front inst

theorem Shielded.secured {outlined : Bool} {g : Func} {config : Config} {symbols : SymbolTable}
    {n₀ : Nat} {access : MemAccess} {inst : InstId}
    (h : Shielded outlined g config symbols n₀ access inst) (hnodup : g.listed.Nodup) :
    Secured outlined g config symbols n₀ access inst := by
  obtain ⟨n, ops, c, c', hn, -, ⟨b, blk, pre, front, rest, hblk, hinsts, hguard⟩, hsole⟩ := h
  refine ⟨n, b, blk, pre, front, rest, hn, hblk, hinsts, hguard, ?_⟩
  intro x memory stack s t es hstart hruns hhead
  obtain ⟨es₁, u, es₂, rfl, hfirst, hentered, hsecond, hinst⟩ :=
    hsole.enters hnodup hstart hruns hhead (.inr rfl)
  refine ⟨es₁, u, es₂, rfl, hfirst, ?_, hsecond, fun e he => (hinst e he).1⟩
  -- the first instruction of the guard is listed at one place only
  obtain ⟨⟨front', rfl⟩, -⟩ := hguard.head
  obtain ⟨rest', hrest⟩ := List.head?_eq_some_iff.mp hentered
  obtain ⟨entry, hentry, hstarts⟩ := Func.start_rest hstart
  have hend : g.IsEnd u.rest := Func.IsEnd.runs ⟨0, entry, [], hentry, hstarts.symm⟩ hfirst
  rw [hrest] at hend ⊢
  rw [Func.IsEnd.eq_of_head hnodup hend ⟨b, blk, pre, hblk, hinsts⟩]

namespace Func

variable {g : Func} {x : Activation} {n i : Nat} {s t t' : State} {e : Event} {es es' : List Event}

/-- Of two runs from one state one goes on where the other has come. -/
theorem Runs.comparable (hruns : g.Runs x s es t) (hruns' : g.Runs x s es' t') :
    (∃ more, es' = es ++ more ∧ g.Runs x t more t') ∨
      ∃ more, es = es' ++ more ∧ g.Runs x t' more t := by
  induction hruns generalizing es' with
  | refl s => exact .inl ⟨es', rfl, hruns'⟩
  | @step s s' t e es hstep hrest ih =>
      cases hruns' with
      | refl => exact .inr ⟨e :: es, rfl, .step hstep hrest⟩
      | step hstep' hrest' =>
          obtain ⟨rfl, rfl⟩ := Step.next.inj (hstep.symm.trans hstep')
          rcases ih hrest' with ⟨more, rfl, hmore⟩ | ⟨more, rfl, hmore⟩
          · exact .inl ⟨more, rfl, hmore⟩
          · exact .inr ⟨more, rfl, hmore⟩

/-- A run by instructions from `n` on does not start with another one. -/
theorem Runs.eq_of_head (hruns : g.Runs x s es t) (hes : ∀ e ∈ es, n ≤ e.inst)
    (hhead : s.rest.head? = some i) (hi : i < n) : es = [] ∧ t = s := by
  cases hruns with
  | refl => exact ⟨rfl, rfl⟩
  | step hstep _ =>
      obtain ⟨j, rest, hrest, hinst, -⟩ := step_place hstep
      rw [hrest] at hhead
      obtain rfl : j = i := Option.some.inj hhead
      have hle := hinst ▸ hes _ List.mem_cons_self
      exact absurd hi (Nat.not_lt.mpr hle)

theorem inst_of_last {ending : Ending} (h : g.step x s = .last e ending)
    (hhead : s.rest.head? = some i) : e.inst = i := by
  obtain ⟨rest, hrest⟩ := List.head?_eq_some_iff.mp hhead
  unfold step at h
  rw [hrest] at h
  simp only at h
  split at h
  · cases h
  · split at h
    · cases h
    · cases h
    · split at h <;> cases h
    · cases h
      rfl

/-- A run through a guard that comes to the access has made the inspection, and this has let it
pass. -/
theorem Follows.of_runs {inst : Nat} {rest : List InstId} {inspection : Inspection}
    (h : g.Follows x n s (inst :: rest) inspection) (hruns : g.Runs x s es t)
    (hes : ∀ e ∈ es, n ≤ e.inst) (hhead : t.rest.head? = some inst) (hinst : inst < n) :
    inspection.ending = none ∧ g.Passes x n s es t ∧ t.memory = inspection.memory ∧
      callsOf es = inspection.reports ∧ accessesOf es = inspection.reads := by
  unfold Follows at h
  split at h
  · rename_i hending
    obtain ⟨es', t', hpasses, hrest, hmemory, hcalls, haccesses⟩ := h
    have hhead' : t'.rest.head? = some inst := by rw [hrest]; rfl
    obtain ⟨rfl, rfl⟩ : es = es' ∧ t = t' := by
      rcases hruns.comparable hpasses.runs with ⟨more, rfl, hmore⟩ | ⟨more, rfl, hmore⟩
      · obtain ⟨rfl, rfl⟩ := hmore.eq_of_head
          (fun e he => hpasses.inst e (List.mem_append_right _ he)) hhead hinst
        exact ⟨(List.append_nil _).symm, rfl⟩
      · obtain ⟨rfl, rfl⟩ := hmore.eq_of_head
          (fun e he => hes e (List.mem_append_right _ he)) hhead' hinst
        exact ⟨List.append_nil _, rfl⟩
    exact ⟨hending, hpasses, hmemory, hcalls, haccesses⟩
  · -- a run that ends in the guard does not come to the access
    rename_i ending hending
    obtain ⟨es', t', e, hpasses, hlast, he, -⟩ := h
    exfalso
    have hmeet : t = t' := by
      rcases hruns.comparable hpasses.runs with ⟨more, rfl, hmore⟩ | ⟨more, -, hmore⟩
      · exact (hmore.eq_of_head (fun e he => hpasses.inst e (List.mem_append_right _ he)) hhead
          hinst).2.symm
      · cases hmore with
        | refl => rfl
        | step hstep _ => cases hlast.symm.trans hstep
    rw [← hmeet] at hlast
    rw [inst_of_last hlast hhead] at he
    exact absurd hinst (Nat.not_lt.mpr he)

end Func

/-- A guard takes the address of the access, so that the pointer is defined if control goes on. -/
theorem Guard.exists_ptr {outlined : Bool} {g : Func} {config : Config} {symbols : SymbolTable}
    {access : MemAccess} {n : InstId} {front tail : List InstId} {x : Activation} {s t : State}
    {e : Event} (h : Guard outlined g config symbols access n front tail) (hrest : s.rest = front)
    (hstep : g.step x s = .next e t) : ∃ p, s.env access.ptr = some p := by
  obtain ⟨⟨rest, rfl⟩, origin, hinst⟩ := h.head
  cases hp : s.env access.ptr with
  | some p => exact ⟨p, rfl⟩
  | none =>
      have hundefined := Func.step_undefined (x := x) hrest hinst (by simp [Op.exec, hp])
      cases hundefined.symm.trans hstep

/-- What is to be read, reported and let pass in front of an access at the pointer `p`. -/
def Config.inspection (config : Config) (machine : Machine) (access : MemAccess) (p : Int)
    (memory : Memory) : Inspection :=
  inspect machine config.recover
    (machine.address (EntryPoint.report access.kind access.size config.recover))
    (accessArgs access.size (toAddress p)) (config.mapping.tests (toAddress p) access.size) memory

/-- A run that has come to an access through its guard: it has come to the guard first, the
inspection of the pointer lets it pass, and since then it has read and reported just what the
inspection says. -/
theorem InlineGuard.inspected {g : Func} {config : Config} {symbols : SymbolTable}
    {access : MemAccess} {n : Nat} {inst : Nat} {front rest : List InstId} {x : Activation}
    {memory : Memory} {stack : Nat} {s t : State} {es : List Event}
    (h : InlineGuard g config symbols access n front (inst :: rest))
    (hthrough : g.ComesThrough n front inst) (hsymbols : symbols.GrowsTo x.symbols)
    (hmin : minScale ≤ config.mapping.scale) (hmax : config.mapping.scale ≤ maxScale)
    (hinst : inst < n) (hptr : access.ptr.Below n) (hstart : g.start memory stack = some s)
    (hruns : g.Runs x s es t) (hhead : t.rest.head? = some inst) :
    ∃ es₁ u es₂ p, es = es₁ ++ es₂ ∧ g.Runs x s es₁ u ∧ u.rest = front ∧ g.Passes x n u es₂ t ∧
      t.env access.ptr = some p ∧
      (config.inspection x.machine access p u.memory).ending = none ∧
      (config.inspection x.machine access p u.memory).reports = callsOf es₂ ∧
      (config.inspection x.machine access p u.memory).reads = accessesOf es₂ ∧
      (config.inspection x.machine access p u.memory).memory = t.memory := by
  have hguard : Guard false g config symbols access n front (inst :: rest) := h
  obtain ⟨es₁, u, es₂, rfl, hfirst, hfront, hsecond, hadded⟩ :=
    hthrough x memory stack s t es hstart hruns hhead
  -- the access is not part of the guard, so that control has gone on from there
  obtain ⟨p, hp⟩ : ∃ p, u.env access.ptr = some p := by
    cases hsecond with
    | refl =>
        obtain ⟨⟨front', rfl⟩, -⟩ := hguard.head
        rw [hfront] at hhead
        obtain rfl : n = inst := Option.some.inj hhead
        exact absurd hinst (Nat.lt_irrefl n)
    | step hstep _ => exact hguard.exists_ptr hfront hstep
  have hfollows := h.follows hsymbols hp hfront
  rw [← ShadowMapping.tests_eq_probes hmin hmax] at hfollows
  obtain ⟨hending, hpasses, hmemory, hcalls, haccesses⟩ :=
    hfollows.of_runs hsecond hadded hhead hinst
  exact ⟨es₁, u, es₂, p, rfl, hfirst, hfront, hpasses, (hpasses.env _ hptr).trans hp, hending,
    hcalls.symm, haccesses.symm, hmemory.symm⟩

/-! ### Instrumented functions -/

namespace Module

/-- In an instrumented function every access that the survey wanted checked is as it was, and every
run that comes to it has come through its guard. -/
theorem instrumentFunction_secured {config : Config} {m m' : Module} {id : FuncId} {f : Func}
    {store : Annotations} {outcome : Outcome} {name : String} (hf : m.functions[id]? = some f)
    (hverify : f.verify m.symbols = .ok [])
    (hrun : m.instrumentFunction config id store = .ok (m', .ok outcome))
    (hname : m.resolve f.name = .ok name) (hexempt : f.isExempt name = false) :
    ∃ marked survey g, f.scopedSlots = .ok marked ∧
      (judge config m store f name marked).survey = .ok survey ∧ m'.functions[id]? = some g ∧
      ∀ site ∈ survey.sites, ∀ access, site.kind = .check access →
        g.insts[site.inst]? = f.insts[site.inst]? ∧
        Secured (outlines config survey.sites) g config m'.symbols f.insts.size access
          site.inst := by
  obtain ⟨-, name', hname', ⟨hexempt', -⟩ | ⟨-, marked, survey, slots, hmarked, hsurvey, hslots,
    hsurveyed⟩⟩ := instrumentFunction_cases hf hrun
  · rw [Except.ok.inj (hname.symm.trans hname'), hexempt'] at hexempt
    cases hexempt
  obtain rfl : name = name' := Except.ok.inj (hname.symm.trans hname')
  obtain ⟨d, hd, hleaves⟩ :=
    instrumentSurveyed_cases (Array.getElem?_eq_some_iff.mp hf).1 hsurveyed
  have hsound := sound_of_verify hverify
  have hready := ready_of_survey hsound.closed hsound.nodup hsurvey
  obtain ⟨hvisits, hvisited⟩ :=
    visits_edited hverify hsurvey hd (fun hordered : False => hordered.elim)
  have hsuits := fun site hsite => (Judge.survey_suits hsurvey site hsite).2
  have hlt : ∀ site ∈ survey.sites.reverse, site.inst < f.insts.size := by
    intro site hsite
    obtain ⟨i, hi, -⟩ := hsuits site (List.mem_reverse.mp hsite)
    exact (Array.getElem?_eq_some_iff.mp hi).1
  -- the accesses, and what shields them, behind the visits
  have hshielded := hready.shielded hsound le_rfl hlt hd
  have hkept : ∀ site ∈ survey.sites, ∀ access, site.kind = .check access →
      ∃ i, f.insts[site.inst]? = some i ∧ i.op.access? = some access ∧
        d.func.insts[site.inst]? = some i := by
    intro site hsite access hkind
    obtain ⟨i, hi, haccess⟩ := hsuits site hsite
    rw [hkind] at haccess
    exact ⟨i, hi, haccess, hvisits.keeps hi (Op.isBulk_of_access haccess)⟩
  refine ⟨marked, survey, ?_⟩
  rcases hleaves with ⟨-, hleaves⟩ | ⟨frame, d', description, -, ⟨hlayout, -⟩, hframe, hleaves⟩
  · refine ⟨_, hmarked, hsurvey, hleaves.function, fun site hsite access hkind => ?_⟩
    obtain ⟨i, hi, -, hdi⟩ := hkept site hsite access hkind
    refine ⟨hdi.trans hi.symm, Shielded.secured ?_ hvisited.sound.nodup⟩
    exact (hshielded site (List.mem_reverse.mpr hsite) access hkind).of_same_code rfl rfl
      hleaves.symbols
  · have hsteps := hvisits.frameSteps hslots hvisited.sound.nodup hframe
    have hframed := frame_edited hverify hvisits hvisited
      (.refl config.mapping hvisited.sound) hvisited.edits.extended.size_insts_le
      (SymbolTable.names_of_resolve hname) hslots hlayout hframe
    refine ⟨_, hmarked, hsurvey, hleaves.function, fun site hsite access hkind => ?_⟩
    obtain ⟨i, hi, haccess, hdi⟩ := hkept site hsite access hkind
    refine ⟨(FrameSteps.keeps hsteps hdi (Op.isSlot_of_access haccess).1 hdi).trans hi.symm,
      Shielded.secured ?_ hframed.sound.nodup⟩
    exact ((hshielded site (List.mem_reverse.mpr hsite) access hkind).cuts
      (FrameSteps.cuts hsteps hdi haccess hdi)
      (hframed.branchesOut hvisited.sound (FrameSteps.growsTo hsteps))
      (FrameSteps.growsTo hsteps)).of_same_code rfl rfl hleaves.symbols

theorem below_of_site {f : Func} {site : Site} {access : MemAccess} (hclosed : f.Closed)
    (hplace : site.InPlace f) (hsuits : site.SuitsKind f) (hkind : site.kind = .check access) :
    site.inst < f.insts.size ∧ access.ptr.Below f.insts.size := by
  obtain ⟨blk, hblk, hget⟩ := hplace
  obtain ⟨i, hi, haccess⟩ := hsuits
  rw [hkind] at haccess
  obtain ⟨i', hi', hrefers⟩ := hclosed _ (Func.mem_listed hblk (List.mem_of_getElem? hget))
  obtain rfl : i = i' := Option.some.inj (hi.symm.trans hi')
  exact ⟨(Array.getElem?_eq_some_iff.mp hi).1, hrefers.operand _ (Draft.ptr_mem_operands haccess)⟩

/-- In front of a checked access stands code that inspects it: it reads the shadow where `tests`
says, calls the report routine if a test objects, and lets control get to the access if there was
nothing to report or if the program is to recover and the reports have come back.  There is no other
way to the access: whatever run has come to it has just come through this code, with the pointer
that the access is going to use. -/
theorem instrumentFunction_inspects {config : Config} {m m' : Module} {id : FuncId} {f : Func}
    {store : Annotations} {outcome : Outcome} {name : String} (hf : m.functions[id]? = some f)
    (hverify : f.verify m.symbols = .ok [])
    (hrun : m.instrumentFunction config id store = .ok (m', .ok outcome))
    (hname : m.resolve f.name = .ok name) (hexempt : f.isExempt name = false) :
    ∃ marked survey g, f.scopedSlots = .ok marked ∧
      (judge config m store f name marked).survey = .ok survey ∧ m'.functions[id]? = some g ∧
      (outlines config survey.sites = false → ∀ site ∈ survey.sites, ∀ access,
        site.kind = .check access → g.insts[site.inst]? = f.insts[site.inst]? ∧
        ∃ (n : Nat) (b : BlockId) (blk : Block) (pre front rest : List InstId),
          f.insts.size ≤ n ∧ g.blocks[b]? = some blk ∧ blk.insts = pre ++ front ∧
          (∀ (x : Activation) (s : State) (p : Int) (inspection : Inspection),
            x.symbols = m'.symbols → s.rest = front → s.env access.ptr = some p →
            inspection = config.inspection x.machine access p s.memory →
            g.Follows x n s (site.inst :: rest) inspection ∧
            (inspection.ending = none ↔ inspection.reports = [] ∨ config.recover = true ∧
              ∀ call ∈ inspection.reports, ∃ value memory,
                x.machine.call call.callee call.args call.memory = .returns value memory)) ∧
          ∀ (x : Activation) (memory : Memory) (stack : Nat) (s t : State) (es : List Event),
            x.symbols = m'.symbols → g.start memory stack = some s → g.Runs x s es t →
            t.rest.head? = some site.inst →
            ∃ es₁ u es₂ p, es = es₁ ++ es₂ ∧ g.Runs x s es₁ u ∧ u.rest = front ∧
              g.Passes x n u es₂ t ∧ t.env access.ptr = some p ∧
              (config.inspection x.machine access p u.memory).ending = none ∧
              (config.inspection x.machine access p u.memory).reports = callsOf es₂ ∧
              (config.inspection x.machine access p u.memory).reads = accessesOf es₂ ∧
              (config.inspection x.machine access p u.memory).memory = t.memory) := by
  obtain ⟨hvalid, -⟩ := instrumentFunction_cases hf hrun
  obtain ⟨hmin, hmax⟩ := scale_of_validate hvalid
  obtain ⟨marked, survey, g, hmarked, hsurvey, hg, hsecured⟩ :=
    instrumentFunction_secured hf hverify hrun hname hexempt
  refine ⟨marked, survey, g, hmarked, hsurvey, hg, fun hinline site hsite access hkind => ?_⟩
  obtain ⟨hinst, n, b, blk, pre, front, rest, hn, hblk, hinsts, hguard, hthrough⟩ :=
    hsecured site hsite access hkind
  rw [hinline] at hguard
  replace hguard : InlineGuard g config m'.symbols access n front (site.inst :: rest) := hguard
  obtain ⟨hplace, hsuits⟩ := Judge.survey_suits hsurvey site hsite
  obtain ⟨hlt, hptr⟩ := below_of_site (sound_of_verify hverify).closed hplace hsuits hkind
  refine ⟨hinst, n, b, blk, pre, front, rest, hn, hblk, hinsts, ?_, ?_⟩
  · rintro x s p inspection hsymbols hrest hp rfl
    refine ⟨?_, inspect_ending_eq_none_iff⟩
    unfold Config.inspection
    rw [ShadowMapping.tests_eq_probes hmin hmax]
    exact hguard.follows (hsymbols ▸ .refl _) hp hrest
  · intro x memory stack s t es hsymbols hstart hruns hhead
    exact hguard.inspected hthrough (hsymbols ▸ .refl _) hmin hmax (hlt.trans_le hn)
      (hptr.mono hn) hstart hruns hhead

/-- A function that loads sixteen bytes. -/
def peekFunction : Func where
  name := 0
  params := [.ptr 0]
  ret := some .int
  insts := #[⟨.param 0, .ptr 0, [], false⟩, ⟨.load (.inst 0) 16 none, .int, [], false⟩,
    ⟨.ret (some (.inst 1)), .unit, [], false⟩]
  blocks := #[{ argStart := 0, insts := [0, 1, 2] }]

def peekModule : Module where
  name := "peek"
  symbols := (SymbolTable.empty.intern "peek").1
  functions := #[peekFunction]

theorem instrumentFunction_inspects_peek :
    ∃ m' outcome g, peekModule.instrumentFunction { kernel := true } 0 {} =
        .ok (m', .ok outcome) ∧ m'.functions[0]? = some g ∧
      ∃ (n : Nat) (b : BlockId) (blk : Block) (pre front rest : List InstId),
        g.blocks[b]? = some blk ∧ blk.insts = pre ++ front ∧
        (∀ (machine : Machine) (args : List Int) (s : State) (p : Int), s.rest = front →
          s.env (.inst 0) = some p →
          g.Follows ⟨machine, m'.symbols, args⟩ n s (1 :: rest)
            (inspect machine false (machine.address (EntryPoint.report .load 16 false))
              [(toAddress p : Int)] [(ShadowMapping.mk 3 0xdffffc0000000000).pairTest (toAddress p)]
              s.memory)) ∧
        ∀ (machine : Machine) (args : List Int) (memory : Memory) (stack : Nat) (s t : State)
          (es : List Event), g.start memory stack = some s →
          g.Runs ⟨machine, m'.symbols, args⟩ s es t → t.rest.head? = some 1 →
          ∃ es₁ u es₂ p, es = es₁ ++ es₂ ∧ u.rest = front ∧
            g.Passes ⟨machine, m'.symbols, args⟩ n u es₂ t ∧ t.env (.inst 0) = some p ∧
            (inspect machine false (machine.address (EntryPoint.report .load 16 false))
              [(toAddress p : Int)] [(ShadowMapping.mk 3 0xdffffc0000000000).pairTest (toAddress p)]
              u.memory).ending = none := by
  obtain ⟨m', outcome, hrun, -⟩ := exists_of_succeeds
    (peekModule.instrumentFunction { kernel := true } 0 {}) (fun _ _ => true) (by decide +kernel)
  obtain ⟨marked, survey, g, hmarked, hsurvey, hg, hinspects⟩ := instrumentFunction_inspects
    (show peekModule.functions[0]? = some peekFunction from rfl) (by decide +kernel) hrun
    (show peekModule.resolve peekFunction.name = .ok "peek" by decide +kernel)
    (by decide +kernel)
  obtain rfl : marked = [] := by
    have hnone : peekFunction.scopedSlots = .ok [] := by decide +kernel
    exact Except.ok.inj (hmarked.symm.trans hnone)
  obtain rfl : survey = ⟨[⟨1, 0, 1, .check ⟨.inst 0, 16, .load, false⟩⟩], 0⟩ := by
    have hone : (judge { kernel := true } peekModule {} peekFunction "peek" []).survey =
        .ok ⟨[⟨1, 0, 1, .check ⟨.inst 0, 16, .load, false⟩⟩], 0⟩ := by decide +kernel
    exact Except.ok.inj (hsurvey.symm.trans hone)
  obtain ⟨-, n, b, blk, pre, front, rest, -, hblk, hinsts, hfollows, hcomes⟩ :=
    hinspects (by decide +kernel) _ List.mem_cons_self _ rfl
  refine ⟨m', outcome, g, hrun, hg, n, b, blk, pre, front, rest, hblk, hinsts, ?_, ?_⟩
  · intro machine args s p hrest hp
    exact (hfollows ⟨machine, m'.symbols, args⟩ s p _ rfl hrest hp rfl).1
  · intro machine args memory stack s t es hstart hruns hhead
    obtain ⟨es₁, u, es₂, p, hes, -, hfront, hpasses, hp, hending, -⟩ :=
      hcomes ⟨machine, m'.symbols, args⟩ memory stack s t es rfl hstart hruns hhead
    exact ⟨es₁, u, es₂, p, hes, hfront, hpasses, hp, hending⟩

/-- No access escapes.  An access gets a check if and only if it is not excluded, in another address
space or within its object, and is not repeated after a check; and if it gets one, a guard stands in
front of it in the instrumented function, through which every run has to come that comes to the
access. -/
theorem instrumentFunction_checks_iff {config : Config} {m m' : Module} {id : FuncId} {f : Func}
    {store : Annotations} {outcome : Outcome} {name : String} (hf : m.functions[id]? = some f)
    (hverify : f.verify m.symbols = .ok [])
    (hrun : m.instrumentFunction config id store = .ok (m', .ok outcome))
    (hname : m.resolve f.name = .ok name) (hexempt : f.isExempt name = false) :
    ∃ marked survey g, f.scopedSlots = .ok marked ∧
      (judge config m store f name marked).survey = .ok survey ∧ m'.functions[id]? = some g ∧
      ∀ (b : BlockId) (blk : Block) (pos : Nat) (inst : InstId) (i : Instruction)
        (access : MemAccess),
        f.blocks[b]? = some blk → blk.insts[pos]? = some inst → f.insts[inst]? = some i →
        i.op.access? = some access →
        (⟨inst, b, pos, .check access⟩ ∈ survey.sites ↔
          ¬ (judge config m store f name marked).Excludes i access ∧
          ¬ (config.optSameTemp = true ∧ survey.Repeats f b blk.insts pos access)) ∧
        (⟨inst, b, pos, .check access⟩ ∈ survey.sites → g.insts[inst]? = some i ∧
          Secured (outlines config survey.sites) g config m'.symbols f.insts.size access inst) := by
  obtain ⟨marked, survey, g, hmarked, hsurvey, hg, hsecured⟩ :=
    instrumentFunction_secured hf hverify hrun hname hexempt
  refine ⟨marked, survey, g, hmarked, hsurvey, hg, ?_⟩
  intro b blk pos inst i access hblk hget hinst haccess
  refine ⟨Judge.survey_checks_iff (show (judge config m store f name marked).func.scopedSlots =
    .ok (judge config m store f name marked).marked from hmarked) hsurvey hblk hget hinst haccess,
    fun hsite => ?_⟩
  obtain ⟨hkept, hguard⟩ := hsecured _ hsite access rfl
  exact ⟨hkept.trans hinst, hguard⟩

/-- A function that loads the same bytes twice. -/
def twiceFunction : Func where
  name := 0
  params := [.ptr 0]
  ret := some .int
  insts := #[⟨.param 0, .ptr 0, [], false⟩, ⟨.load (.inst 0) 8 none, .int, [], false⟩,
    ⟨.load (.inst 0) 8 none, .int, [], false⟩, ⟨.arith .add (.inst 1) (.inst 2), .int, [], false⟩,
    ⟨.ret (some (.inst 3)), .unit, [], false⟩]
  blocks := #[{ argStart := 0, insts := [0, 1, 2, 3, 4] }]

def twiceModule : Module where
  name := "twice"
  symbols := (SymbolTable.empty.intern "twice").1
  functions := #[twiceFunction]

theorem instrumentFunction_checks_iff_twice :
    ∃ m' outcome g survey, twiceModule.instrumentFunction {} 0 {} = .ok (m', .ok outcome) ∧
      m'.functions[0]? = some g ∧
      (judge {} twiceModule {} twiceFunction "twice" []).survey = .ok survey ∧
      Secured false g {} m'.symbols 5 ⟨.inst 0, 8, .load, false⟩ 1 ∧
      survey.Repeats twiceFunction 0 [0, 1, 2, 3, 4] 2 ⟨.inst 0, 8, .load, false⟩ := by
  obtain ⟨m', outcome, hrun, -⟩ := exists_of_succeeds
    (twiceModule.instrumentFunction {} 0 {}) (fun _ _ => true) (by decide +kernel)
  obtain ⟨marked, survey, g, hmarked, hsurvey, hg, hiff⟩ := instrumentFunction_checks_iff
    (show twiceModule.functions[0]? = some twiceFunction from rfl) (by decide +kernel) hrun
    (show twiceModule.resolve twiceFunction.name = .ok "twice" by decide +kernel)
    (by decide +kernel)
  obtain rfl : marked = [] := by
    have hnone : twiceFunction.scopedSlots = .ok [] := by decide +kernel
    exact Except.ok.inj (hmarked.symm.trans hnone)
  obtain rfl : survey = ⟨[⟨1, 0, 1, .check ⟨.inst 0, 8, .load, false⟩⟩], 1⟩ := by
    have hone : (judge {} twiceModule {} twiceFunction "twice" []).survey =
        .ok ⟨[⟨1, 0, 1, .check ⟨.inst 0, 8, .load, false⟩⟩], 1⟩ := by decide +kernel
    exact Except.ok.inj (hsurvey.symm.trans hone)
  obtain ⟨hfirst, hsecured⟩ := hiff 0 _ 1 1 _ ⟨.inst 0, 8, .load, false⟩ rfl rfl rfl rfl
  obtain ⟨hsecond, -⟩ := hiff 0 _ 2 2 _ ⟨.inst 0, 8, .load, false⟩ rfl rfl rfl rfl
  have hsite : (⟨1, 0, 1, .check ⟨.inst 0, 8, .load, false⟩⟩ : Site) ∈
      [(⟨1, 0, 1, .check ⟨.inst 0, 8, .load, false⟩⟩ : Site)] := List.mem_cons_self
  refine ⟨m', outcome, g, _, hrun, hg, hsurvey, (hsecured hsite).2, ?_⟩
  by_contra hfresh
  have hchecked := hsecond.mpr ⟨(hfirst.mp hsite).1, fun hrepeats => hfresh hrepeats.2⟩
  simp at hchecked

end Module

end Redzone
