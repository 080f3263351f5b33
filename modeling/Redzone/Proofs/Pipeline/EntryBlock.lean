import Redzone.Proofs.Pipeline.WellFormed

/-!
# Parameters behind a check

A check that is made in line cuts its block: the access and all that stands behind it go on in
another block.  No other edit takes an instruction out of its block.  Sites are visited from the
last to the first, so the places of the sites that are still to come are those of the original
function, and an instruction leaves its block if and only if such a check is made in front of it
(`Draft.Visits.standsIn_iff`).

A verification wants parameters in the entry block, but not in front of everything else there.  A
parameter behind a checked access is moved out of the entry block, and then a verification refuses
what the instrumentation leaves (`Module.paramsAfter_of_edited`).
-/

namespace Redzone

/-! ### Instructions and their blocks -/

namespace Func

variable {ordered : Prop} {f g : Func} {n : Nat} {mapping : ShadowMapping} {symbols : SymbolTable}
  {b c pos i : Nat} {code : List Instruction}

/-- Instruction `i` stands in block `b`. -/
def StandsIn (f : Func) (b : BlockId) (i : InstId) : Prop := ∃ pos, f.At b pos i

theorem At.unique {q : Nat} (h : f.At b pos i) (h' : f.At c q i) (hnodup : f.listed.Nodup) :
    b = c ∧ pos = q := by
  obtain ⟨blk, hblk, hget⟩ := h
  obtain ⟨blk', hblk', hget'⟩ := h'
  exact place_unique hnodup hblk hget hblk' hget'

theorem standsIn_insertCode (hinsert : f.insertCode c pos code = .ok g) (hi : i < f.insts.size) :
    g.StandsIn b i ↔ f.StandsIn b i := by
  constructor
  · rintro ⟨q, hat⟩
    rcases (at_insertCode hinsert).mp hat with ⟨-, hold⟩ | ⟨k, -, -, -, rfl⟩ | ⟨p, -, rfl, -, hold⟩
    · exact ⟨q, hold⟩
    · omega
    · exact ⟨p, hold⟩
  · rintro ⟨q, hat⟩
    by_cases hbefore : b = c → q < pos
    · exact ⟨q, (at_insertCode hinsert).mpr (.inl ⟨hbefore, hat⟩)⟩
    · obtain ⟨rfl, hle⟩ := Classical.not_imp.mp hbefore
      exact ⟨q + code.length,
        (at_insertCode hinsert).mpr (.inr (.inr ⟨q, Nat.le_of_not_lt hle, rfl, rfl, hat⟩))⟩

/-- What an edit lists was listed before or is new. -/
theorem Edit.mem_listed_of_lt (h : Edit ordered n mapping symbols f g) (hlisted : i ∈ g.listed)
    (hi : i < f.insts.size) : i ∈ f.listed := by
  have hnew : ∀ count, i ∈ f.listed ++ List.range' f.insts.size count → i ∈ f.listed := by
    intro count hmem
    refine (List.mem_append.mp hmem).resolve_right fun hrange => ?_
    exact absurd (List.mem_range'_1.mp hrange).1 (Nat.not_le.mpr hi)
  cases h with
  | @line _ pos _ code _ _ _ hinsert =>
      obtain ⟨blk, hblk, -, rfl⟩ := insertCode_eq_ok hinsert
      exact hnew _ ((listed_graft_perm hblk (insertCode_perm f blk pos code)).mem_iff.mp hlisted)
  | @check c _ _ pos size _ addr _ _ _ _ _ _ hinsert =>
      obtain ⟨blk, hblk, -, -, rfl⟩ := Check.insert_eq_ok hinsert
      exact hnew _
        ((listed_graft_perm hblk (Check.insert_perm c f blk pos addr size)).mem_iff.mp hlisted)
  | replace _ _ _ _ _ hg =>
      subst hg
      exact hlisted

theorem Edits.mem_listed_of_lt (h : Edits ordered n mapping symbols f g) (hlisted : i ∈ g.listed)
    (hi : i < f.insts.size) : i ∈ f.listed := by
  induction h with
  | refl => exact hlisted
  | tail hedits hedit ih =>
      exact ih (hedit.mem_listed_of_lt hlisted
        (hi.trans_le (Edits.extended hedits).size_insts_le))

end Func

/-! ### The parts of a frame -/

section

variable {f : Func} {n b i : Nat} {d d' : Draft}

/-- A step of adding a frame leaves instructions in their blocks. -/
theorem FrameStep.standsIn_iff (h : FrameStep f n d d') (hi : i < d.func.insts.size) :
    (d'.func.StandsIn b i ↔ d.func.StandsIn b i) ∧ i < d'.func.insts.size := by
  cases h with
  | prologue _ _ _ hinsert =>
      exact ⟨Func.standsIn_insertCode hinsert hi,
        hi.trans_le (Func.extends_insertCode hinsert).size_insts_le⟩
  | edit hedit =>
      cases hedit with
      | landmark _ _ _ _ _ _ hinsert =>
          exact ⟨Func.standsIn_insertCode hinsert hi,
            hi.trans_le (Func.extends_insertCode hinsert).size_insts_le⟩
      | @slot _ _ _ _ _ _ g _ _ _ _ _ _ hinsert hfunc =>
          have hstands : g.StandsIn b i ↔ d.func.StandsIn b i := Func.standsIn_insertCode hinsert hi
          rw [hfunc, Func.size_insts_setInst]
          exact ⟨hstands, hi.trans_le (Func.extends_insertCode hinsert).size_insts_le⟩

theorem FrameSteps.standsIn_iff (h : FrameSteps f n d d') (hi : i < d.func.insts.size) :
    (d'.func.StandsIn b i ↔ d.func.StandsIn b i) ∧ i < d'.func.insts.size := by
  induction h with
  | refl => exact ⟨Iff.rfl, hi⟩
  | tail _ hstep ih =>
      obtain ⟨hstands, hlt⟩ := hstep.standsIn_iff (b := b) ih.2
      exact ⟨hstands.trans ih.1, hlt⟩

end

/-! ### The visits of sites -/

/-- At this site a check is made in line, and what stands at place `pos` of block `b` is cut off by
it. -/
def Site.CutsOff (outlined : Bool) (site : Site) (b : BlockId) (pos : Nat) : Prop :=
  outlined = false ∧ site.isCheck = true ∧ site.block = b ∧ site.pos ≤ pos

/-- A guard is new code, with the access behind it unless it checks in line. -/
theorem Guard.exists_front {outlined : Bool} {g : Func} {config : Config} {symbols : SymbolTable}
    {access : MemAccess} {n : InstId} {front tail : List InstId}
    (h : Guard outlined g config symbols access n front tail) :
    ∃ count, front = List.range' n count ++ (if outlined = false then [] else tail) := by
  unfold Guard at h
  cases outlined with
  | true =>
      obtain ⟨routine, -, -, hfront⟩ :=
        (show CallGuard g config symbols access n front tail from h).code
      exact ⟨_, hfront⟩
  | false =>
      cases (show InlineGuard g config symbols access n front tail from h) with
      | fixed => exact ⟨10, (List.append_nil _).symm⟩
      | unusual => exact ⟨13, (List.append_nil _).symm⟩

namespace Draft

variable {config : Config} {outlined : Bool} {d d' : Draft} {site : Site} {sites : List Site}
  {b i : Nat}

/-- What a visit puts into the block of its site.  The rest of the block follows unless a check is
made in line. -/
theorem Visited.block (h : Visited config outlined d d' site) :
    ∃ blk blk' count, d.func.blocks[site.block]? = some blk ∧ site.pos ≤ blk.insts.length ∧
      d'.func.blocks[site.block]? = some blk' ∧
      blk'.insts = blk.insts.take site.pos ++ List.range' d.func.insts.size count ++
        (if outlined = false ∧ site.isCheck = true then [] else blk.insts.drop site.pos) := by
  cases h with
  | @check _ _ blk front hkind _ _ hblk hget hturns hguard =>
      obtain ⟨count, hfront⟩ := hguard.exists_front
      have hcheck : site.isCheck = true := by rw [Site.isCheck, hkind]
      refine ⟨blk, _, count, hblk, (List.getElem?_eq_some_iff.mp hget).1.le,
        hturns.getElem?_blocks_self hblk, ?_⟩
      simp only [hfront, hcheck, and_true, List.append_assoc]
  | @bulk _ _ _ _ _ blk g _ hkind _ _ hblk hget hturns _ _ hfunc =>
      have hcheck : site.isCheck = false := by rw [Site.isCheck, hkind]
      have hself := hturns.getElem?_blocks_self hblk
      rw [← Func.blocks_setInst, ← hfunc] at hself
      refine ⟨blk, _, 1, hblk, (List.getElem?_eq_some_iff.mp hget).1.le, hself, ?_⟩
      simp [hcheck]

theorem Visited.block_of_ne (h : Visited config outlined d d' site) (hne : b ≠ site.block)
    (hb : b < d.func.blocks.size) : d'.func.blocks[b]? = d.func.blocks[b]? := by
  cases h with
  | check _ _ _ _ _ hturns _ => exact hturns.getElem?_blocks_of_ne hne hb
  | bulk _ _ _ _ _ hturns _ _ hfunc => exact hfunc ▸ hturns.getElem?_blocks_of_ne hne hb

/-- Where a visit leaves an instruction that was there: at its place, a few places further, or in
another block. -/
theorem Visited.at_iff (h : Visited config outlined d d' site) :
    ∃ count, ∀ b q i, b < d.func.blocks.size → i < d.func.insts.size →
      (d'.func.At b q i ↔ (b = site.block → q < site.pos) ∧ d.func.At b q i ∨
        ¬ (outlined = false ∧ site.isCheck = true) ∧ b = site.block ∧
          ∃ p, site.pos ≤ p ∧ q = p + count ∧ d.func.At b p i) := by
  obtain ⟨blk, blk', count, hblk, hpos, hblk', hinsts⟩ := h.block
  refine ⟨count, fun b q i hb hi => ?_⟩
  by_cases hblock : b = site.block
  · subst hblock
    rw [Func.at_iff hblk', hinsts, Func.getElem?_splice_eq_some_iff hpos]
    have hnew : ¬ ∃ k < count, q = site.pos + k ∧ i = d.func.insts.size + k := by
      rintro ⟨k, -, -, rfl⟩
      omega
    simp only [hnew, false_or, Func.at_iff hblk, true_and, forall_const]
    refine or_congr_right ?_
    -- behind the new code there is the rest of the block, or nothing
    split
    · rename_i hcut
      simp [hcut]
    · rename_i hkept
      simp only [hkept, not_false_eq_true, true_and, List.getElem?_drop]
      constructor
      · rintro ⟨k, rfl, hget⟩
        exact ⟨site.pos + k, Nat.le_add_right _ _, by omega, hget⟩
      · rintro ⟨p, hp, rfl, hget⟩
        obtain ⟨k, rfl⟩ := Nat.exists_eq_add_of_le hp
        exact ⟨k, by omega, hget⟩
  · simp [Func.At, h.block_of_ne hblock hb, hblock]

theorem Visited.lt_size_blocks (h : Visited config outlined d d' site)
    (hb : b < d.func.blocks.size) : b < d'.func.blocks.size := by
  by_cases hblock : b = site.block
  · obtain ⟨-, blk', -, -, -, hblk', -⟩ := h.block
    exact hblock ▸ Func.lt_size_of_getElem? hblk'
  · have hsame := (h.block_of_ne hblock hb).trans (Array.getElem?_eq_getElem hb)
    exact Func.lt_size_of_getElem? hsame

/-- An instruction stays in its block unless a check that is made in line cuts it off. -/
theorem Visits.standsIn_iff (h : Visits config outlined d sites d') (hb : b < d.func.blocks.size)
    (hi : i < d.func.insts.size) :
    d'.func.StandsIn b i ↔
      ∃ pos, d.func.At b pos i ∧ ∀ site ∈ sites, ¬ site.CutsOff outlined b pos := by
  induction h with
  | nil => simp [Func.StandsIn]
  | @cons d d₁ _ site rest hready _ hvisited _ ih =>
      obtain ⟨count, hat⟩ := hvisited.at_iff
      rw [ih (hvisited.lt_size_blocks hb) (hi.trans_le hvisited.size_le)]
      simp only [List.forall_mem_cons]
      constructor
      · rintro ⟨q, hq, hspared⟩
        rcases (hat b q i hb hi).mp hq with ⟨hbefore, hold⟩ | ⟨hkept, hblock, p, hp, rfl, hold⟩
        · refine ⟨q, hold, fun hcut => ?_, hspared⟩
          exact absurd (hbefore hcut.2.2.1.symm) (Nat.not_lt.mpr hcut.2.2.2)
        · refine ⟨p, hold, fun hcut => hkept ⟨hcut.1, hcut.2.1⟩, fun other hother hcut => ?_⟩
          exact hspared other hother
            ⟨hcut.1, hcut.2.1, hcut.2.2.1, hcut.2.2.2.trans (Nat.le_add_right _ _)⟩
      · rintro ⟨p, hold, hsite, hspared⟩
        by_cases hbefore : b = site.block → p < site.pos
        · exact ⟨p, (hat b p i hb hi).mpr (.inl ⟨hbefore, hold⟩), hspared⟩
        · obtain ⟨rfl, hp⟩ := Classical.not_imp.mp hbefore
          have hp := Nat.le_of_not_lt hp
          refine ⟨p + count, (hat _ _ i hb hi).mpr (.inr ⟨fun hcheck => ?_, rfl, p, hp, rfl, hold⟩),
            fun other hother hcut => ?_⟩
          · exact hsite ⟨hcheck.1, hcheck.2, rfl, hp⟩
          · -- a site that is still to come is in front of this one, so it cuts off both places or
            -- none
            rcases (List.pairwise_cons.mp hready.order).1 other hother with hlt | ⟨-, hlt⟩
            · exact absurd hcut.2.2.1 hlt.ne
            · exact hspared other hother ⟨hcut.1, hcut.2.1, hcut.2.2.1, hlt.le.trans hp⟩

end Draft

/-! ### The instrumented function -/

/-- One of the checks of a survey that are made in line cuts off what stands at place `pos` of block
`b`. -/
def Survey.CutsOff (config : Config) (survey : Survey) (b : BlockId) (pos : Nat) : Prop :=
  ∃ site ∈ survey.sites, site.CutsOff (outlines config survey.sites) b pos

/-- What becomes of the parameters of `f` in the instrumented function `g`. -/
structure Func.ParamsAfter (f g : Func) (config : Config) (survey : Survey)
    (symbols : SymbolTable) : Prop where
  isParam : ∀ i, g.IsParam i ↔ f.IsParam i
  listed : ∀ i ∈ f.listed, f.IsParam i → g.listed.count i = 1
  /-- A parameter stays in the entry block if no check in line is made in front of it. -/
  entry : ∀ pos i, f.At 0 pos i → f.IsParam i → (g.StandsIn 0 i ↔ ¬ survey.CutsOff config 0 pos)
  /-- A verification has nothing to find but parameters that are cut off. -/
  verify : g.verify symbols = .ok [] ↔
    ∀ pos i, f.At 0 pos i → f.IsParam i → ¬ survey.CutsOff config 0 pos
  /-- Parameters in front of everything else are safe. -/
  leading : f.ParamsLead → ∀ pos i, f.At 0 pos i → f.IsParam i → ¬ survey.CutsOff config 0 pos

namespace Module

variable {config : Config} {m m' : Module} {id : FuncId} {f : Func} {store : Annotations}
  {outcome : Outcome} {survey : Survey} {symbols symbols' : SymbolTable} {d d' : Draft}

theorem standsIn_of_visits {b pos i : Nat} (hsound : f.Sound symbols)
    (hvisits : Draft.Visits config (outlines config survey.sites) { func := f, symbols := symbols }
      survey.sites.reverse d) (hat : f.At b pos i) :
    d.func.StandsIn b i ↔ ¬ survey.CutsOff config b pos := by
  rw [hvisits.standsIn_iff hat.lt_size (hsound.closed.lt_size hat.mem_listed)]
  constructor
  · rintro ⟨q, hat', hspared⟩ ⟨site, hsite, hcut⟩
    obtain ⟨-, rfl⟩ := hat.unique hat' hsound.nodup
    exact hspared site (List.mem_reverse.mpr hsite) hcut
  · intro hnone
    exact ⟨pos, hat, fun site hsite hcut => hnone ⟨site, List.mem_reverse.mp hsite, hcut⟩⟩

/-- A function that was made by edits has its parameters where its instructions are. -/
theorem paramsAfter_of_edited {ordered : Prop} {mapping : ShadowMapping}
    (hverify : f.verify symbols = .ok []) (hgrows : symbols.GrowsTo symbols')
    (hedited : d.Edited ordered mapping f) (hsymbols : d.symbols.GrowsTo symbols')
    (hstands : ∀ pos i, f.At 0 pos i → (d.func.StandsIn 0 i ↔ ¬ survey.CutsOff config 0 pos)) :
    f.ParamsAfter { d.func with sanitized := true } config survey symbols' := by
  obtain ⟨hname, hsound, hentry⟩ := verify_func_eq_nil_iff.mp hverify
  have hextended := hedited.edits.extended
  have hnodup := hedited.sound.nodup
  have hcut : d.func.ParamsInEntry ↔
      ∀ pos i, f.At 0 pos i → f.IsParam i → ¬ survey.CutsOff config 0 pos := by
    constructor
    · intro hinEntry pos i hat hparam
      obtain ⟨c, q, hat'⟩ := Func.exists_at_of_mem_listed (hextended.listed i hat.mem_listed)
      obtain ⟨instruction, hinst, hisParam⟩ := hedited.edits.isParam_iff.mpr hparam
      obtain rfl := hinEntry c q i instruction hat' hinst hisParam
      exact (hstands pos i hat).mp ⟨q, hat'⟩
    · -- a parameter that is found in a block was a parameter of the entry block, and it is still
      -- there
      intro hspared c q i instruction hat' hinst hisParam
      have hparam : f.IsParam i := hedited.edits.isParam_iff.mp ⟨instruction, hinst, hisParam⟩
      obtain ⟨old, hold, hisOld⟩ := hparam
      have hlisted := hedited.edits.mem_listed_of_lt hat'.mem_listed
        (Array.getElem?_eq_some_iff.mp hold).1
      obtain ⟨b, pos, hat⟩ := Func.exists_at_of_mem_listed hlisted
      obtain rfl := hentry b pos i old hat hold hisOld
      obtain ⟨p, hat''⟩ := (hstands pos i hat).mpr (hspared pos i hat ⟨old, hold, hisOld⟩)
      exact (hat'.unique hat'' hnodup).1
  refine
    { isParam := fun i => hedited.edits.isParam_iff
      listed := fun i hi _ => List.count_eq_one_of_mem hnodup (hextended.listed i hi)
      entry := fun pos i hat _ => hstands pos i hat
      verify := ?_
      leading := fun hlead => hcut.mp (hedited.edits.paramsLead hlead).paramsInEntry }
  rw [← hcut, verify_func_eq_nil_iff]
  refine ⟨fun h => h.2.2, fun h => ⟨?_, (hedited.sound.mono hsymbols.size_le).mark, h⟩⟩
  obtain ⟨text, htext⟩ := SymbolTable.contains_iff.mp hname
  rw [← Func.name_of_shell hextended.shell] at htext
  exact SymbolTable.contains_iff.mpr ⟨text, hgrows _ _ htext⟩

/-- What an instrumentation makes of the parameters of a function without findings.  Each of them is
still there, once, and it is still in the entry block unless a check that is made in line stands in
front of it there. -/
theorem instrumentFunction_params (hf : m.functions[id]? = some f)
    (hverify : f.verify m.symbols = .ok [])
    (hrun : m.instrumentFunction config id store = .ok (m', .ok outcome)) :
    ∃ name g, m.resolve f.name = .ok name ∧ m'.functions[id]? = some g ∧
      (f.isExempt name = true ∧ g = f ∨
        f.isExempt name = false ∧ ∃ marked survey, f.scopedSlots = .ok marked ∧
          (judge config m store f name marked).survey = .ok survey ∧
          f.ParamsAfter g config survey m'.symbols) := by
  have hsound := sound_of_verify hverify
  obtain ⟨-, name, hname, ⟨hexempt, rfl⟩ | ⟨hexempt, marked, survey, slots, hmarked, hsurvey,
    hslots, hsurveyed⟩⟩ := instrumentFunction_cases hf hrun
  · exact ⟨name, f, hname, hf, .inl ⟨hexempt, rfl⟩⟩
  obtain ⟨d, hvisits, hvisited, hleaves⟩ := instrumentSurveyed_edits hf hverify hname hsurvey hslots
    hsurveyed (fun hordered : False => hordered.elim)
  have hstands : ∀ pos i, f.At 0 pos i → (d.func.StandsIn 0 i ↔ ¬ survey.CutsOff config 0 pos) :=
    fun pos i => standsIn_of_visits hsound hvisits
  obtain ⟨-, hleaves⟩ | ⟨frame, d', description, -, -, hframe, hframed, hleaves⟩ := hleaves
  · refine ⟨name, _, hname, hleaves.function, .inr ⟨hexempt, marked, survey, hmarked, hsurvey, ?_⟩⟩
    exact paramsAfter_of_edited hverify (hvisits.growsTo.trans hleaves.symbols) hvisited
      hleaves.symbols hstands
  · have hsteps := hvisits.frameSteps hslots hvisited.sound.nodup hframe
    refine ⟨name, _, hname, hleaves.function, .inr ⟨hexempt, marked, survey, hmarked, hsurvey, ?_⟩⟩
    refine paramsAfter_of_edited hverify
      ((hvisits.growsTo.trans (FrameSteps.growsTo hsteps)).trans hleaves.symbols) hframed
      hleaves.symbols fun pos i hat => ?_
    have hlt : i < d.func.insts.size := (hsound.closed.lt_size hat.mem_listed).trans_le
      hvisited.edits.extended.size_insts_le
    exact (FrameSteps.standsIn_iff hsteps hlt).1.trans (hstands pos i hat)

end Module

/-- A function that loads before it takes its second parameter. -/
def lateFunction : Func where
  name := 0
  params := [.ptr 0, .int]
  ret := none
  insts := #[⟨.param 0, .ptr 0, [], false⟩, ⟨.load (.inst 0) 4 none, .int, [], false⟩,
    ⟨.param 1, .int, [], false⟩, ⟨.ret none, .unit, [], false⟩]
  blocks := #[{ argStart := 0, insts := [0, 1, 2, 3] }]

def lateModule : Module where
  name := "late"
  symbols := (SymbolTable.empty.intern "late").1
  functions := #[lateFunction]

theorem exists_instrumentFunction_late :
    ∃ m' outcome g, lateModule.instrumentFunction {} 0 {} = .ok (m', .ok outcome) ∧
      m'.functions[0]? = some g ∧ ¬ g.StandsIn 0 2 := by
  obtain ⟨m', outcome, hrun, hsucceeds⟩ := Module.exists_of_succeeds
    (lateModule.instrumentFunction {} 0 {})
    (fun m' _ => m'.functions[0]?.any fun g => g.blocks[0]?.all fun blk => 2 ∉ blk.insts)
    (by decide +kernel)
  obtain ⟨g, hg, hmoved⟩ := (Option.any_eq_true _ _).mp hsucceeds
  refine ⟨m', outcome, g, hrun, hg, ?_⟩
  rintro ⟨pos, blk, hblk, hget⟩
  rw [hblk] at hmoved
  exact of_decide_eq_true hmoved (List.mem_of_getElem? hget)

/-- The second parameter is cut off, and a verification finds it. -/
theorem instrumentFunction_params_late :
    ∃ m' outcome g, lateModule.instrumentFunction {} 0 {} = .ok (m', .ok outcome) ∧
      m'.functions[0]? = some g ∧ g.IsParam 2 ∧ g.listed.count 2 = 1 ∧ ¬ g.StandsIn 0 2 ∧
      g.verify m'.symbols ≠ .ok [] := by
  obtain ⟨m', outcome, g, hrun, hg, hmoved⟩ := exists_instrumentFunction_late
  obtain ⟨name, g', hname, hg', ⟨hexempt, -⟩ | ⟨-, marked, survey, -, -, hparams⟩⟩ :=
    Module.instrumentFunction_params
      (show lateModule.functions[0]? = some lateFunction from rfl) (by decide +kernel) hrun
  · obtain rfl : "late" = name := Except.ok.inj ((by rfl : _ = Except.ok "late").symm.trans hname)
    exact absurd hexempt (by decide +kernel)
  · obtain rfl : g = g' := Option.some.inj (hg.symm.trans hg')
    have hat : lateFunction.At 0 2 2 := ⟨_, rfl, rfl⟩
    have hparam : lateFunction.IsParam 2 := ⟨_, rfl, rfl⟩
    refine ⟨m', outcome, g, hrun, hg, (hparams.isParam 2).mpr hparam,
      hparams.listed 2 (by decide) hparam, hmoved, fun hverify => hmoved ?_⟩
    exact (hparams.entry 2 2 hat hparam).mpr (hparams.verify.mp hverify 2 2 hat hparam)

/-- Not every parameter stays in the entry block. -/
theorem not_forall_instrumentFunction_params :
    ¬ ∀ (config : Config) (m m' : Module) (id : FuncId) (f g : Func) (store : Annotations)
      (outcome : Outcome), m.functions[id]? = some f → f.verify m.symbols = .ok [] →
      m.instrumentFunction config id store = .ok (m', .ok outcome) → m'.functions[id]? = some g →
      ∀ i ∈ f.listed, f.IsParam i → g.StandsIn 0 i := by
  intro h
  obtain ⟨m', outcome, g, hrun, hg, hmoved⟩ := exists_instrumentFunction_late
  exact hmoved (h {} lateModule m' 0 lateFunction g {} outcome rfl (by decide +kernel) hrun hg 2
    (by decide) ⟨_, rfl, rfl⟩)

end Redzone
