import Redzone.Proofs.Edits.Frame
import Redzone.Proofs.Frame.Shadow
import Redzone.Proofs.Frame.Slots

/-!
# Definitions stay in front of uses

The instrumentation of a function is a sequence of edits (`Module.instrumentFunction_edited`): the
visits of the survey, and then the parts of a frame if slots are merged.  So all that edits keep is
kept by an instrumentation.  The first thing that follows is that definitions still come before uses
on every path.
-/

namespace Redzone

/-! ### The alignment of a frame -/

theorem isPowerOfTwo_max {a b : Nat} (ha : isPowerOfTwo a = true) (hb : isPowerOfTwo b = true) :
    isPowerOfTwo (max a b) = true := by
  rcases le_total a b with hle | hle
  · rwa [max_eq_right hle]
  · rwa [max_eq_left hle]

theorem isPowerOfTwo_shiftLeft (scale : Nat) : isPowerOfTwo (1 <<< scale) = true := by
  simp [isPowerOfTwo, Nat.one_shiftLeft, Nat.log2_two_pow]

theorem isPowerOfTwo_of_slotVariables {slots : List Slot}
    (hslots : ∀ slot ∈ slots, isPowerOfTwo slot.align = true) :
    ∀ var ∈ slotVariables slots, isPowerOfTwo var.align = true := by
  intro var hvar
  obtain ⟨⟨slot, index⟩, hslot, rfl⟩ := List.mem_map.mp hvar
  exact hslots slot (List.fst_mem_of_mem_zipIdx hslot)

/-- A frame is aligned as a granule or as one of its variables. -/
theorem Frame.isPowerOfTwo_align {slots : List Slot} {granularity : Nat} {frame : Frame}
    (h : Frame.layOut (slotVariables slots) granularity = .ok frame)
    (hgranularity : isPowerOfTwo granularity = true)
    (hslots : ∀ slot ∈ slots, isPowerOfTwo slot.align = true) :
    isPowerOfTwo frame.align = true := by
  obtain ⟨first, rest, hsorted, rfl⟩ := layOut_parts h
  apply isPowerOfTwo_max hgranularity
  have hfirst : first ∈ (slotVariables slots).map raiseAlign :=
    (sortByAlign_perm _).mem_iff.mp (hsorted ▸ List.mem_cons_self)
  obtain ⟨var, hvar, rfl⟩ := List.mem_map.mp hfirst
  exact isPowerOfTwo_max (isPowerOfTwo_of_slotVariables hslots var hvar) (by decide)

/-! ### The instrumented function -/

/-- The slots of a sound function are aligned. -/
theorem Func.isPowerOfTwo_of_slots {f : Func} {symbols : SymbolTable} {config : Config}
    {slots : List Slot} (hsound : f.Sound symbols)
    (hslots : (if config.stack then f.frameSlots config else .ok []) = .ok slots) :
    ∀ slot ∈ slots, isPowerOfTwo slot.align = true := by
  intro slot hslot
  obtain ⟨hsublist, hmade⟩ := slots_eq_ok hslots
  obtain ⟨instruction, hinst, hop⟩ := hmade slot hslot
  obtain ⟨b, pos, hat⟩ := exists_at_of_mem_listed (hsublist.subset (List.mem_map_of_mem hslot))
  have hshape := (shape_of_instruction (hsound.instruction hat hinst) (by rw [hop]; rfl)).2
  by_contra halign
  simp [Scope.shape, hop, halign] at hshape

namespace Module

theorem sound_of_verify {f : Func} {symbols : SymbolTable} (hverify : f.verify symbols = .ok []) :
    f.Sound symbols := by
  obtain ⟨name, -, hbody⟩ := bind_eq_ok hverify
  exact (Func.verifyBody_eq_nil_iff.mp hbody).1

/-- The visits of the sites of a survey consist of edits. -/
theorem visits_edited {config : Config} {m : Module} {store : Annotations} {f : Func}
    {name : String}
    {marked : List InstId} {survey : Survey} {outlined : Bool} {d : Draft} {ordered : Prop}
    (hverify : f.verify m.symbols = .ok [])
    (hsurvey : (judge config m store f name marked).survey = .ok survey)
    (hd : Draft.visitAll config outlined { func := f, symbols := m.symbols } survey.sites = .ok d)
    (hordered : ordered → f.DefinedBeforeUse) :
    Draft.Visits config outlined { func := f, symbols := m.symbols } survey.sites.reverse d ∧
      d.Edited ordered config.mapping f := by
  have hsound := sound_of_verify hverify
  have hready := ready_of_survey hsound.closed hsound.nodup hsurvey
  obtain ⟨d', hfold, hvisits⟩ := hready.visits
  obtain rfl : d = d' := Except.ok.inj (hd.symm.trans hfold)
  have hstart : Draft.Edited ordered config.mapping f { func := f, symbols := m.symbols } :=
    ⟨.refl, hsound, hordered⟩
  refine ⟨hvisits, hready.edited hstart (fun site hsite => ?_) hfold⟩
  obtain ⟨i, hi, -⟩ := hready.suits site hsite
  exact (Array.getElem?_eq_some_iff.mp hi).1

/-- The addition of a frame behind the visits consists of edits, too, whichever function they are
counted from. -/
theorem frame_edited {config : Config} {m : Module} {f before : Func} {name : String}
    {sites : List Site} {slots : List Slot} {outlined : Bool} {d d' : Draft} {frame : Frame}
    {description : Global} {ordered ordered' : Prop} (hverify : f.verify m.symbols = .ok [])
    (hvisits : Draft.Visits config outlined { func := f, symbols := m.symbols } sites d)
    (hvisited : d.Edited ordered config.mapping f)
    (hedited : d.Edited ordered' config.mapping before) (hle : f.insts.size ≤ before.insts.size)
    (hname : m.symbols.names[f.name]? = some name)
    (hslots : (if config.stack then f.frameSlots config else .ok []) = .ok slots)
    (hlayout : Frame.layOut (slotVariables slots) config.mapping.granularity = .ok frame)
    (hframe : d.addFrame config name slots frame = .ok (d', description)) :
    d'.Edited ordered' config.mapping before := by
  refine hedited.addFrame ?_ ?_ ?_ hframe
  · exact Frame.isPowerOfTwo_align hlayout (isPowerOfTwo_shiftLeft _)
      (Func.isPowerOfTwo_of_slots (sound_of_verify hverify) hslots)
  · have hsame : d.func.shell.name = f.shell.name := congrArg Func.name hvisits.shell
    rw [show d.func.name = f.name from hsame]
    exact decide_eq_true (Array.getElem?_eq_some_iff.mp (hvisits.growsTo _ _ hname)).1
  · intro slot hslot
    obtain ⟨instruction, hinst, hop⟩ := (Func.slots_eq_ok hslots).2 slot hslot
    refine ⟨(Array.getElem?_eq_some_iff.mp hinst).1.trans_le hle, hvisited.edits.noParam ?_,
      hvisited.edits.terminates ?_⟩
    · exact ⟨instruction, hinst, by rw [hop]; rfl⟩
    · exact ⟨instruction, hinst, by rw [hop]; rfl⟩

/-- What is done about a survey consists of edits. -/
theorem instrumentSurveyed_edits {config : Config} {m m' : Module} {id : FuncId} {f : Func}
    {store : Annotations} {name : String} {marked : List InstId} {survey : Survey}
    {slots : List Slot} {outcome : Outcome} {ordered : Prop} (hf : m.functions[id]? = some f)
    (hverify : f.verify m.symbols = .ok []) (hname : m.resolve f.name = .ok name)
    (hsurvey : (judge config m store f name marked).survey = .ok survey)
    (hslots : (if config.stack then f.frameSlots config else .ok []) = .ok slots)
    (hsurveyed : m.instrumentSurveyed config id f name survey slots = .ok (m', .ok outcome))
    (hordered : ordered → f.DefinedBeforeUse) :
    ∃ d, Draft.Visits config (outlines config survey.sites)
        { func := f, symbols := m.symbols } survey.sites.reverse d ∧
      d.Edited ordered config.mapping f ∧
      (slots = [] ∧ m'.Leaves id d ∨
        ∃ frame d' description, slots ≠ [] ∧
          Frame.layOut (slotVariables slots) config.mapping.granularity = .ok frame ∧
          d.addFrame config name slots frame = .ok (d', description) ∧
          d'.Edited ordered config.mapping f ∧ m'.Leaves id d') := by
  obtain ⟨d, hd, hleaves⟩ :=
    instrumentSurveyed_cases (Array.getElem?_eq_some_iff.mp hf).1 hsurveyed
  obtain ⟨hvisits, hvisited⟩ := visits_edited hverify hsurvey hd hordered
  refine ⟨d, hvisits, hvisited, ?_⟩
  obtain hnone | ⟨frame, d', description, hsome, ⟨hlayout, -⟩, hframe, hleaves⟩ := hleaves
  · exact .inl hnone
  · refine .inr ⟨frame, d', description, hsome, hlayout, hframe, ?_, hleaves⟩
    exact frame_edited hverify hvisits hvisited hvisited le_rfl (SymbolTable.names_of_resolve hname)
      hslots hlayout hframe

/-- An instrumentation visits the sites of a survey and may add a frame, and both consist of
edits. -/
theorem instrumentFunction_edits {config : Config} {m m' : Module} {id : FuncId} {f : Func}
    {store : Annotations} {outcome : Outcome} {ordered : Prop} (hf : m.functions[id]? = some f)
    (hverify : f.verify m.symbols = .ok [])
    (hrun : m.instrumentFunction config id store = .ok (m', .ok outcome))
    (hordered : ordered → f.DefinedBeforeUse) :
    ∃ name, m.resolve f.name = .ok name ∧
      (f.isExempt name = true ∧ m' = m ∨
        f.isExempt name = false ∧ ∃ marked survey slots d,
          (judge config m store f name marked).survey = .ok survey ∧
          (if config.stack then f.frameSlots config else .ok []) = .ok slots ∧
          Draft.Visits config (outlines config survey.sites)
            { func := f, symbols := m.symbols } survey.sites.reverse d ∧
          d.Edited ordered config.mapping f ∧
          (slots = [] ∧ m'.Leaves id d ∨
            ∃ frame d' description, slots ≠ [] ∧
              Frame.layOut (slotVariables slots) config.mapping.granularity = .ok frame ∧
              d.addFrame config name slots frame = .ok (d', description) ∧
              d'.Edited ordered config.mapping f ∧ m'.Leaves id d')) := by
  obtain ⟨-, name, hname, hexempt | ⟨hexempt, marked, survey, slots, -, hsurvey, hslots,
    hsurveyed⟩⟩ := instrumentFunction_cases hf hrun
  · exact ⟨name, hname, .inl hexempt⟩
  · obtain ⟨d, hd⟩ :=
      instrumentSurveyed_edits hf hverify hname hsurvey hslots hsurveyed hordered
    exact ⟨name, hname, .inr ⟨hexempt, marked, survey, slots, d, hsurvey, hslots, hd⟩⟩

/-- What an instrumentation leaves was made by edits, if it changes anything. -/
theorem instrumentFunction_edited {config : Config} {m m' : Module} {id : FuncId} {f : Func}
    {store : Annotations} {outcome : Outcome} {ordered : Prop} (hf : m.functions[id]? = some f)
    (hverify : f.verify m.symbols = .ok [])
    (hrun : m.instrumentFunction config id store = .ok (m', .ok outcome))
    (hordered : ordered → f.DefinedBeforeUse) :
    m' = m ∨ ∃ d, m'.Leaves id d ∧ d.Edited ordered config.mapping f := by
  obtain ⟨name, -, ⟨-, hsame⟩ | ⟨-, marked, survey, slots, d, -, -, -, hvisited,
    ⟨-, hleaves⟩ | ⟨frame, d', description, -, -, -, hframed, hleaves⟩⟩⟩ :=
    instrumentFunction_edits hf hverify hrun hordered
  · exact .inl hsame
  · exact .inr ⟨d, hleaves, hvisited⟩
  · exact .inr ⟨d', hleaves, hframed⟩

/-- In an instrumented function definitions come before uses on every path, if they did before. -/
theorem instrumentFunction_definedBeforeUse {config : Config} {m m' : Module} {id : FuncId}
    {f : Func} {store : Annotations} {outcome : Outcome} (hf : m.functions[id]? = some f)
    (hverify : f.verify m.symbols = .ok []) (hdefined : f.DefinedBeforeUse)
    (hrun : m.instrumentFunction config id store = .ok (m', .ok outcome)) :
    ∃ g, m'.functions[id]? = some g ∧ g.DefinedBeforeUse := by
  rcases instrumentFunction_edited hf hverify hrun (fun _ : True => hdefined) with
    rfl | ⟨d, hleaves, hedited⟩
  · exact ⟨f, hf, hdefined⟩
  · have hafter := hedited.orderly trivial
    exact ⟨_, hleaves.function, Func.DefinedBeforeUse.of_same_code (f := d.func) rfl rfl hafter⟩

end Module

/-! ### Values that are known in front of a block -/

namespace Func

/-- Go through the rest of a block, where the values `seen` are defined.  It reads only what is
defined, and when it branches to another block, the values that are `known` there are defined. -/
def walk (f : Func) (known : BlockId → List Value) (seen : List Value) : List InstId → Bool
  | [] => true
  | i :: rest =>
      (match f.insts[i]? with
        | none => true
        | some instruction =>
            instruction.op.operands.all seen.contains &&
              instruction.op.successors.all fun c =>
                match f.blocks[c]? with
                | none => true
                | some blk => (known c).all (blk.argValues ++ .inst i :: seen).contains) &&
        f.walk known (.inst i :: seen) rest

/-- Values that are defined whenever control gets to a block suffice for all that is read. -/
def provides (f : Func) (known : BlockId → List Value) : Bool :=
  (match f.blocks[0]? with
    | none => true
    | some blk => (known 0).all blk.argValues.contains) &&
  f.blocks.toList.zipIdx.all fun (blk, b) => f.walk known (known b) blk.insts

variable {f : Func} {known : BlockId → List Value}

theorem walk_of_provides (h : f.provides known = true) {b : BlockId} {blk : Block}
    (hblk : f.blocks[b]? = some blk) : f.walk known (known b) blk.insts = true := by
  rw [provides, Bool.and_eq_true, List.all_eq_true] at h
  exact h.2 (blk, b) (List.mk_mem_zipIdx_iff_getElem?.mpr (by simpa using hblk))

/-- On every path control gets through a block with no more than it has passed. -/
theorem walk_of_path (h : f.provides known = true) {b : BlockId} {pos : Nat} {defined : List Value}
    (hpath : f.Path b pos defined) {blk : Block} (hblk : f.blocks[b]? = some blk) :
    ∃ seen, seen ⊆ defined ∧ f.walk known seen (blk.insts.drop pos) = true := by
  induction hpath generalizing blk with
  | @entry entry hentry =>
      obtain rfl := Option.some.inj (hentry.symm.trans hblk)
      refine ⟨known 0, fun v hv => ?_, walk_of_provides h hblk⟩
      simp only [provides, hblk, Bool.and_eq_true, List.all_eq_true, List.contains_iff_mem] at h
      exact h.1 v hv
  | @next b pos i defined _ hat ih =>
      obtain ⟨seen, hseen, hwalk⟩ := ih hblk
      obtain ⟨hlt, rfl⟩ := List.getElem?_eq_some_iff.mp ((at_iff hblk).mp hat)
      rw [List.drop_eq_getElem_cons hlt, walk, Bool.and_eq_true] at hwalk
      exact ⟨_, List.cons_subset_cons _ hseen, hwalk.2⟩
  | @jump b c pos i instruction target defined _ hat hinst hc htarget ih =>
      obtain rfl := Option.some.inj (htarget.symm.trans hblk)
      obtain ⟨blk', hblk', hget⟩ := hat
      obtain ⟨seen, hseen, hwalk⟩ := ih hblk'
      obtain ⟨hlt, rfl⟩ := List.getElem?_eq_some_iff.mp hget
      rw [List.drop_eq_getElem_cons hlt, walk, hinst] at hwalk
      simp only [Bool.and_eq_true, List.all_eq_true] at hwalk
      have hknown := hwalk.1.2 c hc
      simp only [htarget, List.all_eq_true, List.contains_iff_mem] at hknown
      refine ⟨known c, fun v hv => ?_, walk_of_provides h htarget⟩
      rcases List.mem_append.mp (hknown v hv) with hv | hv
      · exact List.mem_append_left _ hv
      · exact List.mem_append_right _ (List.cons_subset_cons _ hseen hv)

/-- Definitions come before uses if a set of values for every block says so. -/
theorem definedBeforeUse_of_provides (known : BlockId → List Value)
    (h : f.provides known = true) : f.DefinedBeforeUse := by
  rintro b pos i instruction ⟨blk, hblk, hget⟩ hinst v hv defined hpath
  obtain ⟨seen, hseen, hwalk⟩ := walk_of_path h hpath hblk
  obtain ⟨hlt, rfl⟩ := List.getElem?_eq_some_iff.mp hget
  rw [List.drop_eq_getElem_cons hlt] at hwalk
  simp only [walk, hinst, Bool.and_eq_true, List.all_eq_true, List.contains_iff_mem] at hwalk
  exact hseen (hwalk.1.1 v hv)

end Func

/-- A function that copies bytes to the stack and follows them from offset to offset. -/
def chaseFunction : Func where
  name := 0
  params := [.ptr 0, .int]
  ret := some .int
  insts := #[⟨.param 0, .ptr 0, [], false⟩, ⟨.param 1, .int, [], false⟩,
    ⟨.stackSlot 24 8, .ptr 0, [], false⟩,
    ⟨.bulk .copy (.inst 2) (.inst 0) (.inst 1), .unit, [], false⟩, ⟨.iconst 0, .int, [], false⟩,
    ⟨.br { block := 1, args := [.inst 4] }, .unit, [], false⟩,
    ⟨.ptrAdd (.inst 2) (.arg 0), .ptr 0, [], false⟩, ⟨.load (.inst 6) 3 none, .int, [], false⟩,
    ⟨.icmp .lt (.inst 7) (.inst 1), .bool, [], false⟩,
    ⟨.brif (.inst 8) { block := 1, args := [.inst 7] } { block := 2 }, .unit, [], false⟩,
    ⟨.ret (some (.inst 7)), .unit, [], false⟩]
  blocks := #[{ argStart := 0, insts := [0, 1, 2, 3, 4, 5] },
    { argStart := 0, argCount := 1, insts := [6, 7, 8, 9] }, { argStart := 1, insts := [10] }]
  blockArgs := #[.int]

def chaseModule : Module where
  name := "chase"
  symbols := (SymbolTable.empty.intern "chase").1
  functions := #[chaseFunction]

theorem definedBeforeUse_chaseFunction : chaseFunction.DefinedBeforeUse :=
  Func.definedBeforeUse_of_provides
    (fun b => if b = 1 then [.arg 0, .inst 1, .inst 2] else if b = 2 then [.inst 7] else [])
    (by decide +kernel)

theorem exists_instrumentFunction_chase :
    ∃ m' outcome, chaseModule.instrumentFunction {} 0 {} = .ok (m', .ok outcome) ∧
      outcome.stats.checked = 1 ∧ outcome.stats.replaced = 1 ∧
      outcome.stats.stackVariables = 1 := by
  obtain ⟨m', outcome, hrun, hsucceeds⟩ := Module.exists_of_succeeds
    (chaseModule.instrumentFunction {} 0 {})
    (fun _ outcome => decide (outcome.stats.checked = 1 ∧ outcome.stats.replaced = 1 ∧
      outcome.stats.stackVariables = 1)) (by decide +kernel)
  exact ⟨m', outcome, hrun, of_decide_eq_true hsucceeds⟩

theorem instrumentFunction_definedBeforeUse_chase :
    ∃ m' outcome g, chaseModule.instrumentFunction {} 0 {} = .ok (m', .ok outcome) ∧
      (outcome.stats.checked = 1 ∧ outcome.stats.replaced = 1 ∧
        outcome.stats.stackVariables = 1) ∧
      m'.functions[0]? = some g ∧ g.DefinedBeforeUse := by
  obtain ⟨m', outcome, hrun, hstats⟩ := exists_instrumentFunction_chase
  obtain ⟨g, hg, hdefined⟩ := Module.instrumentFunction_definedBeforeUse
    (show chaseModule.functions[0]? = some chaseFunction from rfl) (by decide +kernel)
    definedBeforeUse_chaseFunction hrun
  exact ⟨m', outcome, g, hrun, hstats, hg, hdefined⟩

end Redzone
