import Redzone.Proofs.Check.Guard
import Redzone.Proofs.Survey
import Redzone.Proofs.Verified

/-!
# Visiting the sites

A visit of a site that is at its place succeeds, and `Visited` says all that it can do: it puts a
guard in front of an access, or it turns a bulk operation into a call.  What the visits of all sites
keep follows from what one visit keeps: sites are visited from the last to the first, so that a
visit never moves a site that is still to come (`Ready.visited`), and none of them can fail
(`Ready.visits`).
-/

namespace Redzone

namespace Draft

/-- All that a visit can do. -/
inductive Visited (config : Config) (outlined : Bool) (d d' : Draft) (site : Site) : Prop
  | check {access : MemAccess} {i : Instruction} {blk : Block} {front : List InstId}
      (hkind : site.kind = .check access) (hinst : d.func.insts[site.inst]? = some i)
      (haccess : i.op.access? = some access) (hblk : d.func.blocks[site.block]? = some blk)
      (hget : blk.insts[site.pos]? = some site.inst)
      (hturns : d.func.Turns d'.func site.block blk site.pos front)
      (hguard : Guard outlined d'.func config d'.symbols access d.func.insts.size front
        (blk.insts.drop site.pos)) (happroach : d.func.Approaches d'.func site.inst)
  | bulk {kind : Bulk} {dest source length : Value} {i : Instruction} {blk : Block} {g : Func}
      {routine : SymbolId} (hkind : site.kind = .bulk)
      (hinst : d.func.insts[site.inst]? = some i) (hop : i.op = .bulk kind dest source length)
      (hblk : d.func.blocks[site.block]? = some blk)
      (hget : blk.insts[site.pos]? = some site.inst)
      (hturns : d.func.Turns g site.block blk site.pos
        (d.func.insts.size :: blk.insts.drop site.pos))
      (hholds : g.Holds d.func.insts.size [.symbolAddr routine])
      (hname : d'.symbols.names[routine]? = some (EntryPoint.bulk kind))
      (hfunc : d'.func = g.setInst site.inst
        { i with op := .call (.inst d.func.insts.size) [dest, source, length] })

/-- The pointer of an access is an operand. -/
theorem ptr_mem_operands {op : Op} {access : MemAccess} (h : op.access? = some access) :
    access.ptr ∈ op.operands := by
  cases op <;> simp_all [Op.access?, Op.operands] <;> simp [← h]

variable {config : Config} {outlined : Bool} {d d' : Draft} {site : Site}

theorem replaceBulk_visited {kind : Bulk} {dest source length : Value} {i : Instruction}
    {blk : Block} (hkind : site.kind = .bulk) (hinst : d.func.insts[site.inst]? = some i)
    (hop : i.op = .bulk kind dest source length)
    (hblk : d.func.blocks[site.block]? = some blk) (hget : blk.insts[site.pos]? = some site.inst) :
    ∃ d', d.replaceBulk site = .ok d' ∧ d.symbols.GrowsTo d'.symbols ∧
      Visited config outlined d d' site := by
  have hpos : site.pos ≤ blk.insts.length := (List.getElem?_eq_some_iff.mp hget).1.le
  refine ⟨_, replaceBulk_eq hinst hop hblk hpos, d.symbols.growsTo_intern _,
    .bulk hkind hinst hop hblk hget ⟨_, _, rfl, ?_, refers_addedCode ?_⟩ Func.holds_graft
      (d.symbols.names_intern _) rfl⟩
  · conv => rhs; rw [← List.take_append_drop site.pos blk.insts]
    rw [Check.length_addedCode, List.length_singleton, List.range'_one, List.flatMap_nil,
      List.append_nil, List.append_assoc]
    exact (List.perm_append_singleton _ _).symm.append_left _
  · rw [List.forall_mem_singleton]
    constructor <;> simp [Op.operands, Op.successors]

/-- A visit of a site that is at its place does something. -/
theorem visit_visited (config : Config) (outlined : Bool) (hclosed : d.func.Closed)
    (hplace : site.InPlace d.func) (hsuits : site.SuitsKind d.func) :
    ∃ d', d.visit config outlined site = .ok d' ∧ d.symbols.GrowsTo d'.symbols ∧
      Visited config outlined d d' site := by
  have hisplace := Site.isInPlace_iff.mpr hplace
  obtain ⟨blk, hblk, hget⟩ := hplace
  obtain ⟨i, hinst, hsuits⟩ := hsuits
  rw [visit, require_of hisplace, ok_bind, handle]
  cases hkind : site.kind with
  | check access =>
      rw [hkind] at hsuits
      obtain ⟨i', hinst', hrefers⟩ :=
        hclosed site.inst (Func.mem_listed hblk (List.mem_of_getElem? hget))
      obtain rfl : i = i' := Option.some.inj (hinst.symm.trans hinst')
      have hptr := hrefers.operand access.ptr (ptr_mem_operands hsuits)
      cases outlined with
      | true =>
          obtain ⟨d', front, heq, hturns, hgrows, hguard, happroach⟩ :=
            callCheck_guards config hinst hblk hget hptr
          exact ⟨d', heq, hgrows, .check hkind hinst hsuits hblk hget hturns hguard happroach⟩
      | false =>
          obtain ⟨d', front, heq, hturns, hgrows, hguard, happroach⟩ :=
            inlineCheck_guards config hinst hblk hget hptr
          exact ⟨d', heq, hgrows, .check hkind hinst hsuits hblk hget hturns hguard happroach⟩
  | bulk =>
      rw [hkind] at hsuits
      cases hop : i.op with
      | bulk kind dest source length => exact replaceBulk_visited hkind hinst hop hblk hget
      | _ => simp [hop, Op.isBulk] at hsuits

theorem Visited.size_le (hvisited : Visited config outlined d d' site) :
    d.func.insts.size ≤ d'.func.insts.size := by
  cases hvisited with
  | check _ _ _ _ _ hturns _ => exact hturns.size_le
  | bulk _ _ _ _ _ hturns _ _ hfunc =>
      rw [hfunc, Func.size_insts_setInst]
      exact hturns.size_le

theorem Visited.shell (hvisited : Visited config outlined d d' site) :
    d'.func.shell = d.func.shell := by
  cases hvisited with
  | check _ _ _ _ _ hturns _ =>
      obtain ⟨code, fresh, hgraft, -, -⟩ := hturns.graft
      rw [hgraft, Func.shell_graft]
  | bulk _ _ _ _ _ hturns _ _ hfunc =>
      obtain ⟨code, fresh, hgraft, -, -⟩ := hturns.graft
      rw [hfunc, Func.shell_setInst, hgraft, Func.shell_graft]

/-! ### Sites that are still to come -/

/-- A draft whose function is sound and has the sites that are still to be visited, the next one
first, at their places. -/
structure Ready (d : Draft) (sites : List Site) : Prop where
  closed : d.func.Closed
  nodup : d.func.listed.Nodup
  place : ∀ site ∈ sites, site.InPlace d.func
  suits : ∀ site ∈ sites, site.SuitsKind d.func
  order : sites.Pairwise fun next later => later.Before next

/-- A visit leaves the places in front of it alone. -/
theorem inPlace_of_turns {g : Func} {blk : Block} {front : List InstId} {other : Site}
    (hturns : d.func.Turns g site.block blk site.pos front)
    (hblk : d.func.blocks[site.block]? = some blk) (hget : blk.insts[site.pos]? = some site.inst)
    (hother : other.InPlace d.func) (hbefore : other.Before site) : other.InPlace g := by
  obtain ⟨blk', hblk', hget'⟩ := hother
  by_cases hblock : other.block = site.block
  · have hpos : other.pos < site.pos := by
      rcases hbefore with hlt | ⟨-, hlt⟩
      · exact absurd hblock hlt.ne
      · exact hlt
    rw [hblock] at hblk'
    obtain rfl : blk = blk' := Option.some.inj (hblk.symm.trans hblk')
    have hlength := (List.getElem?_eq_some_iff.mp hget).1
    refine ⟨_, hblock ▸ hturns.getElem?_blocks_self hblk, ?_⟩
    rw [List.getElem?_append_left (by rw [List.length_take]; omega), List.getElem?_take,
      if_pos hpos, hget']
  · refine ⟨blk', ?_, hget'⟩
    rw [hturns.getElem?_blocks_of_ne hblock (Func.lt_size_of_getElem? hblk'), hblk']

theorem closed_setInst {g : Func} {i : InstId} {instruction : Instruction} (hclosed : g.Closed)
    (hi : i < g.insts.size) (hrefers : instruction.op.Refers g.insts.size g.blocks.size) :
    (g.setInst i instruction).Closed := by
  intro j hj
  rw [Func.size_insts_setInst, Func.blocks_setInst]
  by_cases hji : j = i
  · subst hji
    exact ⟨instruction, Func.getElem?_insts_setInst_self hi _, hrefers⟩
  · rw [Func.getElem?_insts_setInst_of_ne hji]
    exact hclosed j hj

theorem Ready.inst_ne {rest : List Site} (h : d.Ready (site :: rest)) :
    ∀ other ∈ rest, other.inst ≠ site.inst := by
  intro other hother heq
  obtain ⟨blk, hblk, hget⟩ := h.place site List.mem_cons_self
  obtain ⟨blk', hblk', hget'⟩ := h.place other (List.mem_cons_of_mem site hother)
  obtain ⟨hblock, hpos⟩ := Func.place_unique h.nodup hblk' (heq ▸ hget') hblk hget
  rcases (List.pairwise_cons.mp h.order).1 other hother with hlt | ⟨-, hlt⟩
  · exact absurd hblock hlt.ne
  · exact absurd hpos hlt.ne

theorem Ready.visited {rest : List Site} (h : d.Ready (site :: rest))
    (hvisited : Visited config outlined d d' site) : d'.Ready rest := by
  have hbefore := (List.pairwise_cons.mp h.order).1
  have horder := (List.pairwise_cons.mp h.order).2
  have hlt : ∀ other ∈ rest, other.inst < d.func.insts.size := by
    intro other hother
    obtain ⟨i, hi, -⟩ := h.suits other (List.mem_cons_of_mem _ hother)
    exact (Array.getElem?_eq_some_iff.mp hi).1
  have hplace := fun other hother => h.place other (List.mem_cons_of_mem site hother)
  cases hvisited with
  | check _ _ _ hblk hget hturns _ =>
      refine ⟨hturns.closed hblk h.closed, hturns.nodup hblk h.closed h.nodup, ?_, ?_, horder⟩
      · intro other hother
        exact inPlace_of_turns hturns hblk hget (hplace other hother) (hbefore other hother)
      · intro other hother
        obtain ⟨i, hi, hkind⟩ := h.suits other (List.mem_cons_of_mem _ hother)
        exact ⟨i, (hturns.getElem?_insts (hlt other hother)).trans hi, hkind⟩
  -- the bulk operation is also replaced, so that no other site may be the same instruction
  | @bulk kind dest source length i blk g routine hkind hinst hop hblk hget hturns hholds hname
      hfunc =>
      have hclosed := hturns.closed hblk h.closed
      obtain ⟨i', hinst', hrefers⟩ :=
        h.closed site.inst (Func.mem_listed hblk (List.mem_of_getElem? hget))
      obtain rfl : i = i' := Option.some.inj (hinst.symm.trans hinst')
      have hsite : site.inst < d.func.insts.size := (Array.getElem?_eq_some_iff.mp hinst).1
      rw [hop] at hrefers
      obtain ⟨⟨origin, hsymbol⟩, -⟩ := Func.holds_cons.mp hholds
      have hlast := (Array.getElem?_eq_some_iff.mp hsymbol).1
      refine ⟨hfunc ▸ closed_setInst hclosed (hsite.trans_le hturns.size_le) ⟨?_, ?_⟩, ?_, ?_, ?_,
        horder⟩
      · rw [Op.operands, List.forall_mem_cons]
        exact ⟨hlast, fun v hv => (hrefers.operand v hv).mono hturns.size_le⟩
      · simp [Op.successors]
      · rw [hfunc]
        exact hturns.nodup hblk h.closed h.nodup
      · intro other hother
        have hg := inPlace_of_turns hturns hblk hget (hplace other hother) (hbefore other hother)
        rw [hfunc]
        exact hg
      · intro other hother
        obtain ⟨j, hj, hsuits⟩ := h.suits other (List.mem_cons_of_mem _ hother)
        refine ⟨j, ?_, hsuits⟩
        rw [hfunc, Func.getElem?_insts_setInst_of_ne (h.inst_ne other hother),
          hturns.getElem?_insts (hlt other hother), hj]

/-- The visits of the sites of a list, one after the other. -/
inductive Visits (config : Config) (outlined : Bool) : Draft → List Site → Draft → Prop
  | nil (d : Draft) : Visits config outlined d [] d
  | cons {d d' d'' : Draft} {site : Site} {rest : List Site} (hready : d.Ready (site :: rest))
      (hgrows : d.symbols.GrowsTo d'.symbols) (hvisited : Visited config outlined d d' site)
      (hrest : Visits config outlined d' rest d'') : Visits config outlined d (site :: rest) d''

/-- Sites that are at their places can be visited. -/
theorem Ready.visits {sites : List Site} (h : d.Ready sites) :
    ∃ d', sites.foldlM (visit config outlined) d = .ok d' ∧
      Visits config outlined d sites d' := by
  induction sites generalizing d with
  | nil => exact ⟨d, rfl, .nil d⟩
  | cons site rest ih =>
      obtain ⟨d₁, hvisit, hgrows, hvisited⟩ := visit_visited config outlined h.closed
        (h.place site List.mem_cons_self) (h.suits site List.mem_cons_self)
      obtain ⟨d', hfold, hvisits⟩ := ih (h.visited hvisited)
      exact ⟨d', by rw [List.foldlM_cons, hvisit]; exact hfold, .cons h hgrows hvisited hvisits⟩

theorem Visits.ready {sites : List Site} (h : Visits config outlined d sites d')
    (hready : d.Ready sites) : d'.Ready [] := by
  induction h with
  | nil => exact hready
  | cons hready _ hvisited _ ih => exact ih (hready.visited hvisited)

theorem Visits.shell {sites : List Site} (h : Visits config outlined d sites d') :
    d'.func.shell = d.func.shell := by
  induction h with
  | nil => rfl
  | cons _ _ hvisited _ ih => exact ih.trans hvisited.shell

theorem Visits.growsTo {sites : List Site} (h : Visits config outlined d sites d') :
    d.symbols.GrowsTo d'.symbols := by
  induction h with
  | nil => exact .refl _
  | cons _ hgrows _ _ ih => exact hgrows.trans ih

end Draft

/-- The sites of a survey are at their places, and the last one is visited first. -/
theorem Module.ready_of_survey {config : Config} {m : Module} {store : Annotations} {f : Func}
    {name : String} {marked : List InstId} {survey : Survey} (hclosed : f.Closed)
    (hnodup : f.listed.Nodup)
    (hsurvey : (judge config m store f name marked).survey = .ok survey) :
    Draft.Ready { func := f, symbols := m.symbols } survey.sites.reverse where
  closed := hclosed
  nodup := hnodup
  place site hsite := (Judge.survey_suits hsurvey site (List.mem_reverse.mp hsite)).1
  suits site hsite := (Judge.survey_suits hsurvey site (List.mem_reverse.mp hsite)).2
  order := List.pairwise_reverse.mpr (Judge.survey_pairwise hsurvey)

/-- The checks of a function are calls if there are many. -/
def outlines (config : Config) (sites : List Site) : Bool :=
  config.callsThreshold < (sites.filter Site.isCheck).length

/-- An instrumentation visits the sites of a survey. -/
theorem Module.instrumentFunction_visits {config : Config} {m m' : Module} {id : FuncId} {f : Func}
    {store : Annotations} {outcome : Outcome} (hf : m.functions[id]? = some f)
    (hverified : f.Verified m.symbols)
    (hrun : m.instrumentFunction config id store = .ok (m', .ok outcome)) :
    ∃ name, m.resolve f.name = .ok name ∧
      (f.isExempt name = true ∧ m' = m ∨
        f.isExempt name = false ∧ ∃ marked survey slots d, f.scopedSlots = .ok marked ∧
          (judge config m store f name marked).survey = .ok survey ∧
          (if config.stack then f.frameSlots config else .ok []) = .ok slots ∧
          Draft.Ready { func := f, symbols := m.symbols } survey.sites.reverse ∧
          Draft.Visits config (outlines config survey.sites)
            { func := f, symbols := m.symbols } survey.sites.reverse d ∧
          (slots = [] ∧ m'.Leaves id d ∨
            ∃ frame d' description, slots ≠ [] ∧
              (Frame.layOut (slotVariables slots) config.mapping.granularity = .ok frame ∧
                frame.size < 1 <<< 32) ∧
              d.addFrame config name slots frame = .ok (d', description) ∧ m'.Leaves id d')) := by
  obtain ⟨-, name, hname, hexempt | ⟨hexempt, marked, survey, slots, hmarked, hsurvey, hslots,
    hsurveyed⟩⟩ := instrumentFunction_cases hf hrun
  · exact ⟨name, hname, .inl hexempt⟩
  · have hready := ready_of_survey hverified.closed hverified.nodup hsurvey
    obtain ⟨d, hd, hleaves⟩ :=
      instrumentSurveyed_cases (Array.getElem?_eq_some_iff.mp hf).1 hsurveyed
    obtain ⟨d', hfold, hvisits⟩ := hready.visits
    obtain rfl : d = d' := Except.ok.inj (hd.symm.trans hfold)
    exact ⟨name, hname, .inr ⟨hexempt, marked, survey, slots, d, hmarked, hsurvey, hslots, hready,
      hvisits, hleaves⟩⟩

end Redzone
