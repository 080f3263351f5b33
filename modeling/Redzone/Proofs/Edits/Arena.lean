import Redzone.Proofs.Edits.Chain
import Redzone.Proofs.Frame.Placement
import Redzone.Proofs.Frame.Shadow
import Redzone.Proofs.Frame.Slots

/-!
# What becomes of the instructions that were there

An instrumentation adds instructions to the arena and replaces two kinds of the old ones: bulk
memory operations that have a checking twin become calls of it, and slots that move into a frame
become addresses within the frame.  All other instructions stay as they are, and of a replaced one
only the operation changes.
-/

namespace Redzone

/-! ### The sites of bulk memory operations -/

theorem Config.replaces_of_isBulk {config : Config} {i : Instruction} (h : i.op.isBulk = false) :
    config.replaces i = false := by
  simp [replaces, h]

theorem Op.isBulk_of_intervenes {op : Op} (h : op.intervenes = false) : op.isBulk = false := by
  cases op <;> first | rfl | cases h

namespace Judge

variable {judge : Judge}

/-- The survey of some code finds the bulk memory operations that are to be replaced. -/
theorem surveyFrom_bulk_iff {checked : List (Value × Nat)} {b : BlockId} {pos : Nat}
    {rest : List InstId} {survey : Survey} {inst : InstId}
    (h : judge.surveyFrom b pos checked rest = .ok survey) :
    (∃ site ∈ survey.sites, site.kind = .bulk ∧ site.inst = inst) ↔
      inst ∈ rest ∧ ∃ i, judge.func.insts[inst]? = some i ∧ judge.config.replaces i = true := by
  induction rest generalizing pos checked survey with
  | nil =>
      cases h
      simp
  | cons first rest ih =>
      obtain ⟨i, verdict, others, hinst, hjudged, hothers, hsites⟩ := surveyFrom_cons h
      have hfirst : (∃ site ∈ verdict.sites first b pos, site.kind = .bulk ∧ site.inst = inst) ↔
          first = inst ∧ judge.config.replaces i = true := by
        cases hjudged with
        | unrelated hop _ =>
            simp [Verdict.sites, Config.replaces_of_isBulk (Op.isBulk_of_intervenes hop)]
        | barrier _ hkept => simp [Verdict.sites, hkept]
        | replace _ hreplaces => simp [Verdict.sites, hreplaces]
        | skip haccess _ =>
            simp [Verdict.sites, Config.replaces_of_isBulk (Op.isBulk_of_access haccess)]
        | check haccess _ =>
            simp [Verdict.sites, Config.replaces_of_isBulk (Op.isBulk_of_access haccess)]
      simp only [hsites, List.mem_append, or_and_right, exists_or, ih hothers, hfirst,
        List.mem_cons]
      refine or_congr_left ⟨?_, ?_⟩
      · rintro ⟨rfl, hreplaces⟩
        exact ⟨rfl, i, hinst, hreplaces⟩
      · rintro ⟨rfl, i', hinst', hreplaces⟩
        obtain rfl := Option.some.inj (hinst.symm.trans hinst')
        exact ⟨rfl, hreplaces⟩

theorem survey_bulk_iff {survey : Survey} {inst : InstId} (h : judge.survey = .ok survey) :
    (∃ site ∈ survey.sites, site.kind = .bulk ∧ site.inst = inst) ↔
      inst ∈ judge.func.listed ∧
        ∃ i, judge.func.insts[inst]? = some i ∧ judge.config.replaces i = true := by
  have hblocks : ∀ (blocks : List Block) (b : BlockId) (survey : Survey),
      judge.surveyBlocks b blocks = .ok survey →
      ((∃ site ∈ survey.sites, site.kind = .bulk ∧ site.inst = inst) ↔
        inst ∈ blocks.flatMap Block.insts ∧
          ∃ i, judge.func.insts[inst]? = some i ∧ judge.config.replaces i = true) := by
    intro blocks
    induction blocks with
    | nil =>
        intro b survey h
        cases h
        simp
    | cons blk rest ih =>
        intro b survey h
        obtain ⟨first, hfirst, h⟩ := bind_eq_ok h
        obtain ⟨others, hothers, h⟩ := bind_eq_ok h
        cases h
        simp only [Survey.append, List.mem_append, or_and_right, exists_or, List.flatMap_cons,
          surveyFrom_bulk_iff hfirst, ih _ others hothers]
  exact hblocks _ 0 survey h

end Judge

/-! ### Visits -/

namespace Draft

variable {config : Config} {outlined : Bool} {d d' : Draft} {site : Site} {sites : List Site}
  {i : InstId} {instruction : Instruction}

theorem Visited.keeps_of_ne (h : Visited config outlined d d' site)
    (hne : site.kind = .bulk → site.inst ≠ i) (hinst : d.func.insts[i]? = some instruction) :
    d'.func.insts[i]? = some instruction := by
  have hlt := (Array.getElem?_eq_some_iff.mp hinst).1
  cases h with
  | check _ _ _ _ _ hturns _ => rwa [hturns.getElem?_insts hlt]
  | bulk hkind _ _ _ _ hturns _ _ hfunc =>
      rw [hfunc, Func.getElem?_insts_setInst_of_ne (hne hkind).symm, hturns.getElem?_insts hlt]
      exact hinst

theorem Visits.keeps_of_ne (h : Visits config outlined d sites d')
    (hne : ∀ site ∈ sites, site.kind = .bulk → site.inst ≠ i)
    (hinst : d.func.insts[i]? = some instruction) : d'.func.insts[i]? = some instruction := by
  induction h with
  | nil => exact hinst
  | cons _ _ hvisited _ ih =>
      rw [List.forall_mem_cons] at hne
      exact ih hne.2 (hvisited.keeps_of_ne hne.1 hinst)

/-- A bulk memory operation becomes a call of its checking twin with the same operands. -/
theorem Visits.replaces {kind : Bulk} {dest source length : Value}
    (h : Visits config outlined d sites d') (hsite : site ∈ sites) (hkind : site.kind = .bulk)
    (hinst : d.func.insts[site.inst]? = some instruction)
    (hop : instruction.op = .bulk kind dest source length) :
    ∃ callee routine, d'.func.insts[site.inst]? =
        some { instruction with op := .call (.inst callee) [dest, source, length] } ∧
      d'.func.Holds callee [.symbolAddr routine] ∧
      d'.symbols.names[routine]? = some (EntryPoint.bulk kind) := by
  induction h with
  | nil => cases hsite
  | @cons d d₁ d' first rest hready hgrows hvisited hrest ih =>
      rcases List.mem_cons.mp hsite with rfl | hsite
      · have hlt : ∀ other ∈ rest, other.inst < d.func.insts.size := by
          intro other hother
          obtain ⟨i, hi, -⟩ := hready.suits other (List.mem_cons_of_mem site hother)
          exact (Array.getElem?_eq_some_iff.mp hi).1
        cases hvisited with
        | check hkind' => cases hkind.symm.trans hkind'
        | @bulk kind' dest' source' length' i blk g routine _ hi hop' hblk hget hturns hholds hname
            hfunc =>
            obtain rfl := Option.some.inj (hinst.symm.trans hi)
            obtain ⟨rfl, rfl, rfl, rfl⟩ : kind = kind' ∧ dest = dest' ∧ source = source' ∧
                length = length' := by simpa using hop.symm.trans hop'
            have hsize := (Array.getElem?_eq_some_iff.mp hinst).1
            refine ⟨d.func.insts.size, routine, ?_, ?_, hrest.growsTo _ _ hname⟩
            · refine hrest.keeps_of_ne (fun other hother _ => hready.inst_ne other hother) ?_
              rw [hfunc, Func.getElem?_insts_setInst_self (hsize.trans_le hturns.size_le)]
            · intro k op hk
              obtain ⟨origin, hcallee⟩ := hfunc ▸ hholds.setInst hsize _ k op hk
              refine ⟨origin, hrest.keeps_of_ne (fun other hother _ => ?_) hcallee⟩
              exact ((hlt other hother).trans_le (Nat.le_add_right _ k)).ne
      · have hne := hready.inst_ne site hsite
        exact ih hsite (hvisited.keeps_of_ne (fun _ => hne.symm) hinst)

end Draft

/-! ### Frames -/

namespace FrameCode

variable {code : FrameCode} {slots : List Slot} {vars : List StackVariable} {f g : Func}
  {d d' : Draft} {i : InstId} {instruction : Instruction}

theorem placeSlot_keeps {var : StackVariable} (h : code.placeSlot slots f var = .ok g)
    (hne : ∀ slot, slots[var.index]? = some slot → slot.inst ≠ i)
    (hinst : f.insts[i]? = some instruction) : g.insts[i]? = some instruction := by
  rcases placeSlot_cases h with
    ⟨rfl, -⟩ | ⟨slot, b, blk, pos, g', instruction', hslot, -, -, hinsert, -, rfl⟩
  · exact hinst
  · rw [Func.getElem?_insts_setInst_of_ne (hne slot hslot).symm]
    exact Func.getElem?_insts_insertCode hinst hinsert

theorem placeSlot_lists {var : StackVariable} (h : code.placeSlot slots f var = .ok g) :
    (∀ i ∈ f.listed, i ∈ g.listed) ∧ f.insts.size ≤ g.insts.size := by
  rcases placeSlot_cases h with
    ⟨rfl, -⟩ | ⟨slot, b, blk, pos, g', instruction', -, -, -, hinsert, -, rfl⟩
  · exact ⟨fun i hi => hi, le_rfl⟩
  · refine ⟨(Func.extends_insertCode hinsert).listed, ?_⟩
    rw [Func.size_insts_setInst]
    exact (Func.extends_insertCode hinsert).size_insts_le

theorem placeSlots_keeps (h : vars.foldlM (code.placeSlot slots) f = .ok g)
    (hne : ∀ var ∈ vars, ∀ slot, slots[var.index]? = some slot → slot.inst ≠ i)
    (hinst : f.insts[i]? = some instruction) : g.insts[i]? = some instruction := by
  refine foldlM_keeps (fun f : Func => f.insts[i]? = some instruction) ?_ hinst h
  exact fun _ _ var hvar hinst hplace => placeSlot_keeps hplace (hne var hvar) hinst

/-- A slot becomes the sum of the frame and the distance of its variable. -/
theorem placeSlots_replaces {var : StackVariable} {slot : Slot}
    (h : vars.foldlM (code.placeSlot slots) f = .ok g)
    (hslots : (slots.map Slot.inst).Nodup) (hvars : (vars.map StackVariable.index).Nodup)
    (hlisted : ∀ slot ∈ slots, slot.inst ∈ f.listed ∧ slot.inst < f.insts.size)
    (hvar : var ∈ vars) (hslot : slots[var.index]? = some slot)
    (hinst : f.insts[slot.inst]? = some instruction) :
    ∃ distance, g.insts[slot.inst]? =
        some { instruction with op := .ptrAdd code.base (.inst distance) } ∧
      g.insts[distance]? = some { op := .iconst var.offset, ty := .int } := by
  -- the slot of another variable is another instruction
  have hdistinct : ∀ other : StackVariable, other.index ≠ var.index → ∀ slot',
      slots[other.index]? = some slot' → slot'.inst ≠ slot.inst := by
    intro other hindex slot' hslot' heq
    have hlt : other.index < (slots.map Slot.inst).length := by
      rw [List.length_map]
      exact (List.getElem?_eq_some_iff.mp hslot').1
    apply hindex
    apply (List.getElem?_inj hlt hslots).mp
    rw [List.getElem?_map, List.getElem?_map, hslot', hslot, Option.map_some, Option.map_some, heq]
  induction vars generalizing f with
  | nil => cases hvar
  | cons first rest ih =>
      obtain ⟨f₁, hf₁, h⟩ := foldlM_cons_eq_ok h
      rw [List.map_cons, List.nodup_cons] at hvars
      rcases List.mem_cons.mp hvar with rfl | hvar
      · obtain ⟨hlist, hlt⟩ := hlisted slot (List.mem_of_getElem? hslot)
        rcases placeSlot_cases hf₁ with ⟨-, hnone⟩ |
          ⟨slot', b, blk, pos, g', instruction', hslot', -, -, hinsert, hinst', rfl⟩
        · exact absurd (hnone slot hslot) (Func.exists_locate hlist)
        · obtain rfl := Option.some.inj (hslot.symm.trans hslot')
          have hkept := Func.getElem?_insts_insertCode hinst hinsert
          obtain rfl := Option.some.inj (hkept.symm.trans hinst')
          refine ⟨f.insts.size, placeSlots_keeps h (fun other hother => ?_) ?_,
            placeSlots_keeps h (fun other hother slot' hslot' => ?_) ?_⟩
          · refine hdistinct other fun heq => hvars.1 ?_
            exact heq ▸ List.mem_map_of_mem hother
          · exact Func.getElem?_insts_setInst_self (Array.getElem?_eq_some_iff.mp hkept).1 _
          · exact (hlisted slot' (List.mem_of_getElem? hslot')).2.ne
          · rw [Func.getElem?_insts_setInst_of_ne hlt.ne']
            exact Func.getElem?_insts_insertCode_add hinsert 0
      · have hne : first.index ≠ var.index := by
          rintro heq
          exact hvars.1 (heq ▸ List.mem_map_of_mem hvar)
        obtain ⟨hlists, hsize⟩ := placeSlot_lists hf₁
        refine ih h hvars.2 (fun other hother => ?_) hvar
          (placeSlot_keeps hf₁ (hdistinct first hne) hinst)
        exact ⟨hlists _ (hlisted other hother).1, (hlisted other hother).2.trans_le hsize⟩

theorem placeMarkers_keeps {markers : List Marker} (h : markers.foldlM code.placeMarker d = .ok d')
    (hinst : d.func.insts[i]? = some instruction) : d'.func.insts[i]? = some instruction := by
  refine foldlM_keeps (fun d : Draft => d.func.insts[i]? = some instruction) ?_ hinst h
  intro d d' marker _ hinst hmarker
  rcases placeMarker_cases hmarker with
    ⟨rfl, -⟩ | ⟨writes, -, b, blk, pos, origin, ops, -, -, -, -, hinsert⟩
  · exact hinst
  · exact Func.getElem?_insts_insertCode hinst hinsert

theorem placeExits_keeps {exits : List (BlockId × Nat)}
    (h : exits.foldlM code.placeExit d = .ok d')
    (hinst : d.func.insts[i]? = some instruction) : d'.func.insts[i]? = some instruction := by
  refine foldlM_keeps (fun d : Draft => d.func.insts[i]? = some instruction) ?_ hinst h
  intro d d' exit _ hinst hexit
  obtain ⟨-, writes, ops, -, -, hinsert⟩ := placeExit_eq_ok hexit
  exact Func.getElem?_insts_insertCode hinst hinsert

end FrameCode

theorem Frame.index_layOut {slots : List Slot} {granularity : Nat} {frame : Frame}
    (h : Frame.layOut (slotVariables slots) granularity = .ok frame) :
    (frame.vars.map StackVariable.index).Perm (List.range slots.length) := by
  have hindex : (slotVariables slots).map StackVariable.index = List.range slots.length := by
    rw [slotVariables, List.map_map, List.range_eq_range', ← List.zipIdx_map_snd 0 slots]
    rfl
  have hperm := (layOut_eq_ok h).2.2.map fun nature => nature.2.2
  rw [List.map_map, List.map_map] at hperm
  exact hindex ▸ hperm

/-- Every slot becomes an address within the frame, and of what was there nothing else changes. -/
theorem Draft.addFrame_arena {config : Config} {name : String} {slots : List Slot} {frame : Frame}
    {granularity : Nat} {d d' : Draft} {description : Global}
    (h : d.addFrame config name slots frame = .ok (d', description))
    (hlayout : Frame.layOut (slotVariables slots) granularity = .ok frame)
    (hnodup : (slots.map Slot.inst).Nodup)
    (hlisted : ∀ slot ∈ slots, slot.inst ∈ d.func.listed ∧ slot.inst < d.func.insts.size) :
    d'.func.Holds d.func.insts.size [.stackSlot frame.size frame.align] ∧
      (∀ i instruction, (∀ slot ∈ slots, slot.inst ≠ i) → d.func.insts[i]? = some instruction →
        d'.func.insts[i]? = some instruction) ∧
      ∀ k slot instruction, slots[k]? = some slot → d.func.insts[slot.inst]? = some instruction →
        ∃ var ∈ frame.vars, var.index = k ∧ ∃ distance,
          d'.func.insts[slot.inst]? = some { instruction with
            op := .ptrAdd (.inst d.func.insts.size) (.inst distance) } ∧
          d'.func.insts[distance]? = some { op := .iconst var.offset, ty := .int } := by
  obtain ⟨atEntry, markers, symbol, symbols, d₁, code, f₂, d₃, exits, -, -, -, -, hprologue,
    hplaced, hmarked, -, hleft, -⟩ := addFrame_eq_ok h
  obtain ⟨rfl, -, blk, pos, writes, poison, hblk, -, -, -, hinsert⟩ :=
    FrameCode.prologue_eq_ok hprologue
  -- markers and exits only add to the arena; slots change their own instructions
  have hbehind : ∀ i instruction, f₂.insts[i]? = some instruction →
      d'.func.insts[i]? = some instruction := fun i instruction hinst =>
    FrameCode.placeExits_keeps hleft (FrameCode.placeMarkers_keeps hmarked hinst)
  have hkeeps : ∀ i instruction, (∀ slot ∈ slots, slot.inst ≠ i) →
      d₁.func.insts[i]? = some instruction → d'.func.insts[i]? = some instruction := by
    intro i instruction hne hinst
    refine hbehind i instruction (FrameCode.placeSlots_keeps hplaced ?_ hinst)
    exact fun var _ slot hslot => hne slot (List.mem_of_getElem? hslot)
  refine ⟨?_, fun i instruction hne hinst => ?_, fun k slot instruction hslot hinst => ?_⟩
  · obtain ⟨hholds, -⟩ := Func.listed_of_insertCode hblk hinsert
    intro k op hop
    have hcode : (prologueCode config.mapping d.func.insts.size frame.size frame.align symbol
        d.func.name ++ poison)[k]? = some op := by
      cases k with
      | zero => exact hop
      | succ k => cases hop
    obtain ⟨origin, hinst⟩ := hholds k op hcode
    refine ⟨origin, hkeeps _ _ (fun slot hslot => ?_) hinst⟩
    exact ((hlisted slot hslot).2.trans_le (Nat.le_add_right _ k)).ne
  · exact hkeeps i instruction hne (Func.getElem?_insts_insertCode hinst hinsert)
  · have hindex := Frame.index_layOut hlayout
    have hk : k ∈ frame.vars.map StackVariable.index :=
      hindex.mem_iff.mpr (List.mem_range.mpr (List.getElem?_eq_some_iff.mp hslot).1)
    obtain ⟨var, hvar, rfl⟩ := List.mem_map.mp hk
    have hextends : d.func.Extends d₁.func := Func.extends_insertCode hinsert
    obtain ⟨distance, hslot', hdistance⟩ := FrameCode.placeSlots_replaces hplaced hnodup
      (hindex.nodup_iff.mpr List.nodup_range)
      (fun slot hslot => ⟨hextends.listed _ (hlisted slot hslot).1,
        (hlisted slot hslot).2.trans_le hextends.size_insts_le⟩) hvar hslot
      (Func.getElem?_insts_insertCode hinst hinsert)
    exact ⟨var, hvar, rfl, distance, hbehind _ _ hslot', hbehind _ _ hdistance⟩

end Redzone
