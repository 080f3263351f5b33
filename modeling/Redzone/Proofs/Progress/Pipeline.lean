import Redzone.Proofs.Pipeline.Current
import Redzone.Proofs.Pipeline.Preserved
import Redzone.Proofs.Progress.Globals

/-!
# A run over a well-formed module comes to an end

A sound function can be surveyed, its sites can be visited, and a frame can be added to it; all that
can go wrong is that the frame is too large (`Surveyed.exists_run`).

For a whole run this has to be known of every function at the time when its turn comes, and by then
the module has changed: globals have redzones, constructors have brackets, routines are declared and
earlier functions are finished.  `Module.Underway` is the invariant.  A function is settled, or it
is what it was in the beginning but for brackets, which make no difference to its survey or to its
frame (`hasFrame_iff`).

* `Prepares.underway`: the run over the globals establishes it.
* `Underway.exists_step`: one function keeps it, or its frame is too large.
* `Underway.exists_run`: by induction, all functions are instrumented, up to the first whose frame
  is too large.  That frame is one of the module in the beginning.
-/

namespace Redzone

/-- Whether a function is instrumented does not depend on brackets. -/
theorem Func.Aside.isExempt_eq {f g : Func} (h : f.Aside g) (name : String) :
    g.isExempt name = f.isExempt name := by
  have hblocks : g.blocks.isEmpty = f.blocks.isEmpty := by
    rw [Array.isEmpty, Array.isEmpty, h.blocks]
  have hexcluded : g.noSanitize = f.noSanitize :=
    show g.shell.noSanitize = f.shell.noSanitize from congrArg Func.noSanitize h.shell
  have hmark : g.sanitized = f.sanitized :=
    show g.shell.sanitized = f.shell.sanitized from congrArg Func.sanitized h.shell
  unfold isExempt isDeclaration
  rw [hblocks, hexcluded, hmark]

namespace Module

variable {config : Config} {m m' m₁ m₂ : Module} {id : FuncId} {store : Annotations} {f : Func}
  {name : String} {survey : Survey} {slots : List Slot} {d : Draft}

/-! ### One function -/

/-- A sound function can be surveyed, and all its sites can be visited. -/
theorem exists_surveyed (store : Annotations) (hvalid : config.validate = .ok ())
    (hf : m.functions[id]? = some f) (hname : m.symbols.names[f.name]? = some name)
    (hexempt : f.isExempt name = false) (hsound : f.Sound m.symbols)
    (hglobals : ∀ g ∈ m.globals, g.Fits) :
    ∃ survey slots d, Surveyed config m id store f name survey slots d ∧ d.func.InArena ∧
      m.instrumentFunction config id store =
        m.instrumentSurveyed config id f name survey slots := by
  have hbody : f.isDeclaration = false := by
    unfold Func.isExempt at hexempt
    simp only [Bool.or_eq_false_iff] at hexempt
    exact hexempt.1.1.1
  obtain ⟨marked, hmarked⟩ := hsound.exists_scopedSlots
  obtain ⟨survey, hsurvey⟩ : ∃ survey, (judge config m store f name marked).survey = .ok survey :=
    Judge.exists_survey (fun g hg => (hglobals g (Array.mem_toList_iff.mp hg)).padding) hsound
  obtain ⟨slots, hslots⟩ :
      ∃ slots, (if config.stack then f.frameSlots config else .ok []) = .ok slots := by
    split
    · exact hsound.exists_frameSlots config hbody
    · exact ⟨[], rfl⟩
  have hready := ready_of_survey hsound.closed hsound.nodup hsurvey
  obtain ⟨d, hd, harena⟩ : ∃ d, Draft.visitAll config (outlines config survey.sites)
      { func := f, symbols := m.symbols } survey.sites = .ok d ∧ d.func.InArena := by
    obtain ⟨d, hd, hvisits⟩ := hready.visits
    exact ⟨d, hd, fun i hi => (hvisits.ready hready).closed.lt_size hi⟩
  refine ⟨survey, slots, d,
    ⟨hvalid, hf, hname, hexempt, ⟨marked, hmarked, hsurvey⟩, hslots, hd⟩, harena, ?_⟩
  unfold judge at hsurvey
  unfold instrumentFunction
  rw [hvalid, hf]
  dsimp only
  rw [resolve, SymbolTable.resolve_eq_ok_iff.mpr hname, ok_bind, if_neg (by simp [hexempt])]
  unfold instrumentBody
  rw [hmarked, ok_bind]
  dsimp only
  rw [hsurvey]
  exact bind_ite_of_eq_ok hslots

/-- The slots of a sound function are aligned, so that a frame for them holds its variables. -/
theorem Surveyed.holds {frame : Frame} (h : Surveyed config m id store f name survey slots d)
    (hsound : f.Sound m.symbols)
    (hframe : Frame.layOut (slotVariables slots) config.mapping.granularity = .ok frame) :
    frame.Holds :=
  Frame.holds_of_slotVariables hframe (isPowerOfTwo_shiftLeft _)
    (Func.isPowerOfTwo_of_slots hsound h.slots)

/-- A frame is only laid out if there are slots, and a valid scale gives granules that are
supported. -/
theorem checkInput_eq_ok (hvalid : config.validate = .ok ()) (hslots : slots ≠ []) :
    Frame.checkInput (slotVariables slots) config.mapping.granularity = .ok () := by
  obtain ⟨hleast, hmost⟩ := scale_of_validate hvalid
  rw [Frame.checkInput, require_of (by simpa [slotVariables] using hslots), ok_bind]
  exact require_of ⟨isPowerOfTwo_shiftLeft _, ShadowMapping.le_granularity hleast,
    ShadowMapping.granularity_le hmost⟩

/-- A surveyed function is finished unless its frame is too large. -/
theorem Surveyed.exists_run (h : Surveyed config m id store f name survey slots d)
    (hsound : f.Sound m.symbols) (harena : d.func.InArena) :
    (∃ m' outcome, m.instrumentSurveyed config id f name survey slots = .ok (m', .ok outcome) ∧
        ∀ frame, slots ≠ [] →
          Frame.layOut (slotVariables slots) config.mapping.granularity = .ok frame →
          frame.size < 1 <<< 32) ∨
      ∃ m' frame, m.instrumentSurveyed config id f name survey slots =
          .ok (m', .error (.frameTooLarge name frame.size)) ∧ slots ≠ [] ∧
        Frame.layOut (slotVariables slots) config.mapping.granularity = .ok frame ∧
        1 <<< 32 ≤ frame.size := by
  have hvisits := h.visits
  unfold outlines at hvisits
  unfold instrumentSurveyed
  dsimp only
  rw [hvisits, ok_bind]
  by_cases hslots : slots = []
  · rw [if_pos (List.isEmpty_iff.mpr hslots)]
    exact .inl ⟨_, _, rfl, fun frame hne => absurd hslots hne⟩
  obtain ⟨frame, hframe⟩ : ∃ frame,
      Frame.layOut (slotVariables slots) config.mapping.granularity = .ok frame := by
    refine Frame.exists_layOut config.mapping.granularity_pos ?_
    simpa [slotVariables] using hslots
  rw [if_neg (by simpa using hslots), checkInput_eq_ok h.valid hslots, ok_bind, hframe, ok_bind]
  by_cases hsmall : frame.size < 1 <<< 32
  · -- the entry block is still there
    obtain ⟨hgrown, -⟩ := h.growsInto
    have hpos : 0 < d.func.blocks.size := by
      have hexempt := h.exempt
      unfold Func.isExempt at hexempt
      simp only [Bool.or_eq_false_iff, Func.isDeclaration, Array.isEmpty_eq_false_iff] at hexempt
      exact (Array.size_pos_iff.mpr hexempt.1.1.1).trans_le hgrown.size
    obtain ⟨d', description, hd'⟩ : ∃ d' description,
        d.addFrame config name slots frame = .ok (d', description) :=
      Draft.exists_addFrame (h.holds hsound hframe) harena (Array.getElem?_eq_getElem hpos)
    rw [if_pos hsmall, hd', ok_bind]
    refine .inl ⟨_, _, rfl, fun frame' _ hframe' => ?_⟩
    exact Except.ok.inj hframe' ▸ hsmall
  · rw [if_neg hsmall]
    exact .inr ⟨_, frame, rfl, hslots, rfl, Nat.le_of_not_lt hsmall⟩

/-- The function numbered `id` is to be instrumented, and it gets a frame. -/
def HasFrame (config : Config) (m : Module) (id : FuncId) (name : String) (frame : Frame) : Prop :=
  ∃ f slots, m.functions[id]? = some f ∧ m.symbols.names[f.name]? = some name ∧
    f.isExempt name = false ∧ config.stack = true ∧ f.frameSlots config = .ok slots ∧ slots ≠ [] ∧
    Frame.layOut (slotVariables slots) config.mapping.granularity = .ok frame

/-- A sound function is instrumented unless its frame is too large. -/
theorem exists_instrumentFunction (store : Annotations) (hvalid : config.validate = .ok ())
    (hf : m.functions[id]? = some f) (hname : m.symbols.names[f.name]? = some name)
    (hexempt : f.isExempt name = false) (hsound : f.Sound m.symbols)
    (hglobals : ∀ g ∈ m.globals, g.Fits) :
    (∃ m' outcome, m.instrumentFunction config id store = .ok (m', .ok outcome) ∧
        ∀ name' frame, m.HasFrame config id name' frame → frame.size < 1 <<< 32) ∨
      ∃ m' frame, m.instrumentFunction config id store =
          .ok (m', .error (.frameTooLarge name frame.size)) ∧
        m.HasFrame config id name frame ∧ 1 <<< 32 ≤ frame.size := by
  obtain ⟨survey, slots, d, hsurveyed, harena, heq⟩ :=
    exists_surveyed store hvalid hf hname hexempt hsound hglobals
  rw [heq]
  have hslots := hsurveyed.slots
  rcases hsurveyed.exists_run hsound harena with
    ⟨m', outcome, hrun, hsmall⟩ | ⟨m', frame, hrun, hne, hframe, hlarge⟩
  · refine .inl ⟨m', outcome, hrun, ?_⟩
    rintro name' frame ⟨f', slots', hf', -, -, hstack, hslots', hne, hframe⟩
    obtain rfl := Option.some.inj (hf.symm.trans hf')
    rw [if_pos hstack] at hslots
    obtain rfl := Except.ok.inj (hslots.symm.trans hslots')
    exact hsmall frame hne hframe
  · have hstack : config.stack = true := by
      by_contra hoff
      rw [if_neg hoff] at hslots
      exact hne (Except.ok.inj hslots).symm
    rw [if_pos hstack] at hslots
    exact .inr ⟨m', frame, hrun, ⟨f, slots, hf, hname, hexempt, hstack, hslots, hne, hframe⟩,
      hlarge⟩

/-! ### Modules on the way -/

/-- What a run over `m` has come to. -/
structure Underway (config : Config) (m m' : Module) : Prop where
  symbols : m.symbols.GrowsTo m'.symbols
  size : m.functions.size ≤ m'.functions.size
  named : ∀ f ∈ m'.functions, ∃ name, m'.symbols.names[f.name]? = some name
  fits : ∀ g ∈ m'.globals, g.Fits
  sizes : ∀ (id : GlobalId) (g : Global), m.globals[id]? = some g → ∃ g',
    m'.globals[id]? = some g' ∧
    g'.size ≤ g.size + globalRedzone g.size config.mapping.granularity
  functions : ∀ (id : FuncId) (g : Func), m'.functions[id]? = some g →
    (m'.Settled id ∧ ∀ name frame, m.HasFrame config id name frame → frame.size < 1 <<< 32) ∨
      ∃ f, m.functions[id]? = some f ∧ f.Aside g ∧ g.Sound m'.symbols

theorem HasFrame.lt_size {frame : Frame} (h : m.HasFrame config id name frame) :
    id < m.functions.size := by
  obtain ⟨f, -, hf, -⟩ := h
  exact (Array.getElem?_eq_some_iff.mp hf).1

/-- The functions of a module whose globals have been instrumented are exempt, or they are as they
were. -/
theorem Prepares.underway (h : Prepares config m m') : Underway config m m' where
  symbols := h.symbols
  size := by
    by_contra hlt
    obtain ⟨g, hg, -⟩ := h.wraps.old m'.functions.size _ (Array.getElem?_eq_getElem (by omega))
    exact absurd (Array.getElem?_eq_some_iff.mp hg).1 (Nat.lt_irrefl _)
  named f hf := SymbolTable.contains_iff.mp (h.named f.name (.inr ⟨f, hf, rfl⟩))
  fits := h.fits
  sizes := h.sizes
  functions id g hg := by
    by_cases hid : id < m.functions.size
    · obtain ⟨g', hg', haside, hsound⟩ := h.wraps.old id _ (Array.getElem?_eq_getElem hid)
      obtain rfl := Option.some.inj (hg.symm.trans hg')
      exact .inr ⟨_, Array.getElem?_eq_getElem hid, haside, hsound⟩
    · obtain ⟨name, hname⟩ := SymbolTable.contains_iff.mp
        (h.named g.name (.inr ⟨g, Array.mem_of_getElem? hg, rfl⟩))
      refine .inl ⟨⟨g, name, hg, hname, ?_⟩, fun _ _ hframe => absurd hframe.lt_size hid⟩
      rcases h.wraps.new id g (Nat.le_of_not_lt hid) hg with hmark | hdeclaration
      · simp [Func.isExempt, hmark]
      · simp [Func.isExempt, hdeclaration]

namespace Underway

/-- Brackets make no difference to frames. -/
theorem hasFrame_iff {g : Func} {frame : Frame} (h : Underway config m m₁) (hformed : m.WellFormed)
    (hf : m.functions[id]? = some f) (hg : m₁.functions[id]? = some g) (haside : f.Aside g)
    (hsound : g.Sound m₁.symbols) :
    m₁.HasFrame config id name frame ↔ m.HasFrame config id name frame := by
  obtain ⟨known, hknown⟩ := SymbolTable.contains_iff.mp
    (hformed.named f.name (.inr ⟨f, Array.mem_of_getElem? hf, rfl⟩))
  have hsame : g.name = f.name := Func.name_of_shell haside.shell
  have hnames : m₁.symbols.names[g.name]? = m.symbols.names[f.name]? := by
    rw [hsame, hknown, h.symbols _ _ hknown]
  have hslots : f.isExempt name = false → g.frameSlots config = f.frameSlots config := by
    intro hexempt
    unfold Func.isExempt at hexempt
    simp only [Bool.or_eq_false_iff] at hexempt
    exact haside.frameSlots_eq (hformed.sound f (Array.mem_of_getElem? hf)).1 hsound
      hexempt.1.1.1 config
  constructor
  · rintro ⟨g', slots, hg', hname, hexempt, hstack, hframe, hlayout⟩
    obtain rfl := Option.some.inj (hg.symm.trans hg')
    rw [haside.isExempt_eq] at hexempt
    rw [hslots hexempt] at hframe
    exact ⟨f, slots, hf, hnames ▸ hname, hexempt, hstack, hframe, hlayout⟩
  · rintro ⟨f', slots, hf', hname, hexempt, hstack, hframe, hlayout⟩
    obtain rfl := Option.some.inj (hf.symm.trans hf')
    rw [← hslots hexempt] at hframe
    exact ⟨g, slots, hg, hnames ▸ hname, haside.isExempt_eq name ▸ hexempt, hstack, hframe, hlayout⟩

/-- A function that is finished is settled, and nothing else has changed. -/
theorem finished {outcome : Outcome} (h : Underway config m m₁)
    (hrun : m₁.instrumentFunction config id store = .ok (m₂, .ok outcome))
    (hsmall : ∀ name frame, m.HasFrame config id name frame → frame.size < 1 <<< 32) :
    Underway config m m₂ := by
  obtain ⟨hadvances, hsettled⟩ := instrumentFunction_advances hrun
  obtain ⟨f₀, name₀, hf₀, hname₀, ⟨-, rfl, -⟩ | ⟨d, description, hextends, hdescription, hm₂⟩⟩ :=
    (instrumentFunction_run hrun).finished
  · exact h
  obtain ⟨hself, hothers⟩ := functions_placed hf₀ hextends hm₂
  have hglobals : m₂.globals = m₁.globals ++ description.toList.toArray := by
    have hdeclares : Declares (fun _ => True) (m₁.placed id d description) m₂ :=
      hm₂ ▸ declares_declareAll fun _ _ => trivial
    rw [hdeclares.rest]
    rfl
  refine ⟨h.symbols.trans hadvances.symbols, h.size.trans hadvances.size_le, fun g hg => ?_,
    fun g hg => ?_, fun other g hg => ?_, fun other g hg => ?_⟩
  · -- names: of old functions and of declarations
    obtain ⟨other, hother⟩ := Array.getElem?_of_mem hg
    by_cases hlt : other < m₁.functions.size
    · obtain ⟨g', hg', hsame⟩ := hadvances.names other _ (Array.getElem?_eq_getElem hlt)
      obtain rfl := Option.some.inj (hother.symm.trans hg')
      obtain ⟨name, hname⟩ := h.named _ (Array.getElem_mem hlt)
      exact ⟨name, by rw [hsame, hadvances.symbols _ _ hname]⟩
    · obtain ⟨g', name, hg', hname, -⟩ := hadvances.added other (Nat.le_of_not_lt hlt)
        (Array.getElem?_eq_some_iff.mp hother).1
      obtain rfl := Option.some.inj (hother.symm.trans hg')
      exact ⟨name, hname⟩
  · rw [hglobals, Array.mem_append] at hg
    rcases hg with hg | hg
    · exact h.fits g hg
    · obtain ⟨symbol, text, -, rfl⟩ := hdescription g (by simpa using hg)
      exact fits_descriptionGlobal symbol text
  · obtain ⟨g', hg', hle⟩ := h.sizes other g hg
    refine ⟨g', ?_, hle⟩
    rw [hglobals, Array.getElem?_append_left (Array.getElem?_eq_some_iff.mp hg').1, hg']
  · -- functions: this one, the others that were there, the declarations
    by_cases heq : other = id
    · subst heq
      exact .inl ⟨hsettled, hsmall⟩
    by_cases hlt : other < m₁.functions.size
    · have hold := hothers other _ heq (Array.getElem?_eq_getElem hlt)
      obtain rfl := Option.some.inj (hg.symm.trans hold)
      rcases h.functions other _ (Array.getElem?_eq_getElem hlt) with
        ⟨hsettled', hsmall'⟩ | ⟨f, hf, haside, hsound⟩
      · exact .inl ⟨hadvances.settled other hsettled', hsmall'⟩
      · exact .inr ⟨f, hf, haside, hsound.mono hadvances.symbols.size_le⟩
    · refine .inl ⟨hadvances.added other (Nat.le_of_not_lt hlt)
        (Array.getElem?_eq_some_iff.mp hg).1, fun _ _ hframe => ?_⟩
      exact absurd (hframe.lt_size.trans_le h.size) hlt

/-- A step of a run can be taken, or a frame is too large. -/
theorem exists_step (h : Underway config m m₁) (hformed : m.WellFormed)
    (hvalid : config.validate = .ok ()) (store : Annotations) (hid : id < m₁.functions.size) :
    (∃ m₂ outcome, m₁.instrumentFunction config id store = .ok (m₂, .ok outcome) ∧
        Underway config m m₂) ∨
      ∃ m₂ name frame, m₁.instrumentFunction config id store =
          .ok (m₂, .error (.frameTooLarge name frame.size)) ∧
        m.HasFrame config id name frame ∧ 1 <<< 32 ≤ frame.size := by
  have hg : m₁.functions[id]? = some m₁.functions[id] := Array.getElem?_eq_getElem hid
  rcases h.functions id _ hg with ⟨hsettled, -⟩ | ⟨f, hf, haside, hsound⟩
  · exact .inl ⟨m₁, {}, instrumentFunction_of_settled hvalid hsettled, h⟩
  obtain ⟨name, hname⟩ := h.named _ (Array.getElem_mem hid)
  by_cases hexempt : m₁.functions[id].isExempt name = true
  · exact .inl ⟨m₁, {}, instrumentFunction_of_settled hvalid ⟨_, name, hg, hname, hexempt⟩, h⟩
  rcases exists_instrumentFunction store hvalid hg hname (Bool.eq_false_of_not_eq_true hexempt)
    hsound h.fits with ⟨m₂, outcome, hrun, hsmall⟩ | ⟨m₂, frame, hrun, hframe, hlarge⟩
  · refine .inl ⟨m₂, outcome, hrun, h.finished hrun fun name' frame hframe => ?_⟩
    exact hsmall name' frame ((h.hasFrame_iff hformed hf hg haside hsound).mpr hframe)
  · exact .inr ⟨m₂, name, frame, hrun, (h.hasFrame_iff hformed hf hg haside hsound).mp hframe,
      hlarge⟩

/-- Functions are instrumented one after the other, up to the first whose frame is too large. -/
theorem exists_run (h : Underway config m m₁) (hformed : m.WellFormed)
    (hvalid : config.validate = .ok ()) (store : Annotations) (preserved : Preserved)
    {ids : List FuncId} (hids : ∀ id ∈ ids, id < m₁.functions.size) :
    ∃ m₂ result, m₁.instrumentFunctions config store preserved ids = .ok (m₂, result) ∧
      ((∃ done, result = .ok done ∧ Underway config m m₂) ∨
        ∃ id name frame, result = .error (.frameTooLarge name frame.size) ∧
          m.HasFrame config id name frame ∧ 1 <<< 32 ≤ frame.size) := by
  induction ids generalizing m₁ preserved with
  | nil => exact ⟨m₁, _, rfl, .inl ⟨_, rfl, h⟩⟩
  | cons id rest ih =>
      rw [List.forall_mem_cons] at hids
      rw [instrumentFunctions]
      rcases h.exists_step hformed hvalid store hids.1 with
        ⟨m₂, outcome, hrun, h₂⟩ | ⟨m₂, name, frame, hrun, hframe⟩
      · obtain ⟨hadvances, f, name, hf, hname, -⟩ := instrumentFunction_advances hrun
        obtain ⟨m₃, result, hothers, hresult⟩ := ih h₂ (preserved.intersect outcome.preserved)
          fun other hother => (hids.2 other hother).trans_le hadvances.size_le
        rw [hrun, ok_bind]
        dsimp only
        rw [function, hf, ok_bind, resolve, SymbolTable.resolve_eq_ok_iff.mpr hname, ok_bind,
          hothers]
        refine ⟨m₃, _, rfl, ?_⟩
        rcases hresult with ⟨done, rfl, hunderway⟩ | ⟨other, name', frame, rfl, hframe⟩
        · exact .inl ⟨_, rfl, hunderway⟩
        · exact .inr ⟨other, name', frame, rfl, hframe⟩
      · rw [hrun, ok_bind]
        exact ⟨m₂, _, rfl, .inr ⟨id, name, frame, rfl, hframe⟩⟩

/-- When all functions are settled, no frame was too large. -/
theorem small_of_settled (h : Underway config m m') {frame : Frame} (hsettled : m'.Settled id)
    (hframe : m.HasFrame config id name frame) : frame.size < 1 <<< 32 := by
  obtain ⟨g, known, hg, hknown, hexempt⟩ := hsettled
  rcases h.functions id g hg with ⟨-, hsmall⟩ | ⟨f, hf, haside, -⟩
  · exact hsmall name frame hframe
  · obtain ⟨f', slots, hf', hname, hbare, -⟩ := hframe
    obtain rfl := Option.some.inj (hf.symm.trans hf')
    have hsame : g.name = f.name := Func.name_of_shell haside.shell
    obtain rfl := Option.some.inj ((hsame ▸ hknown).symm.trans (h.symbols _ _ hname))
    rw [haside.isExempt_eq, hbare] at hexempt
    cases hexempt

/-- The pointers of a function that is still to be instrumented are as far from their start as they
were. -/
theorem away {g : Func} (h : Underway config m m') (hends : ∀ f ∈ m.functions, ∀ v, ∃ k, f.Away k v)
    (hg : m'.functions[id]? = some g) (hname : m'.symbols.names[g.name]? = some name)
    (hexempt : g.isExempt name = false) (v : Value) : ∃ k ≤ g.insts.size, g.Away k v := by
  rcases h.functions id g hg with ⟨⟨g', name', hg', hname', hexempt'⟩, -⟩ | ⟨f, hf, haside, -⟩
  · obtain rfl := Option.some.inj (hg.symm.trans hg')
    obtain rfl := Option.some.inj (hname.symm.trans hname')
    rw [hexempt] at hexempt'
    cases hexempt'
  · obtain ⟨k, hk⟩ := hends f (Array.mem_of_getElem? hf) v
    exact ⟨k, (haside.away hk).le_size, haside.away hk⟩

end Underway

end Module

namespace Pipeline

variable {p : Pipeline} {m stage : Module}

/-- A module that some step of a run starts from. -/
def Reaches (p : Pipeline) (m stage : Module) : Prop :=
  stage = m ∨ ∃ count first done, p.runFirst m count = .ok first ∧ first.result = .ok done ∧
    first.module = stage

theorem validate_cases (config : Config) :
    (3 ≤ config.scale ∧ config.scale ≤ 6) ∧ config.validate = .ok () ∨
      ¬ (3 ≤ config.scale ∧ config.scale ≤ 6) ∧
        config.validate = .error (.unsupportedScale config.scale) := by
  unfold Config.validate minScale maxScale
  by_cases hscale : 3 ≤ config.scale ∧ config.scale ≤ 6
  · exact .inl ⟨hscale, if_pos hscale⟩
  · exact .inr ⟨hscale, if_neg hscale⟩

theorem Reaches.underway (h : p.Reaches m stage) (hformed : m.WellFormed) :
    m.Underway p.config stage := by
  rcases h with rfl | ⟨count, first, done, hfirst, hdone, rfl⟩
  · exact (hformed.prepares p.config).underway
  unfold runFirst at hfirst
  dsimp only [Cache.clear, Cache.annotations] at hfirst
  rcases validate_cases p.config with ⟨-, hvalid⟩ | ⟨-, hinvalid⟩
  · obtain ⟨m₁, outcome, hglobals, hprepares⟩ :=
      Module.exists_instrumentGlobals (Annotations.ofModule m) hformed hvalid
    obtain ⟨m₂, result, hrun, hresult⟩ := hprepares.underway.exists_run hformed hvalid
      (Annotations.ofModule m) outcome.preserved
      (fun id hid => List.mem_range.mp (List.mem_of_mem_take (i := count) hid))
    rw [hglobals, ok_bind] at hfirst
    dsimp only at hfirst
    rw [Cache.invalidate_eq, runFunctions_eq rfl, hrun] at hfirst
    cases hfirst
    rcases hresult with ⟨-, -, hunderway⟩ | ⟨id, name, frame, rfl, -⟩
    · exact hunderway
    · cases hdone
  · rw [Module.instrumentGlobals, hinvalid] at hfirst
    cases hfirst
    cases hdone

/-- A run over a module in which nothing is wrong meets no fault: it follows no reference that leads
nowhere, takes nothing below zero and fails no test.  It ends in an error if the scale is none that
is supported or some function gets a frame of more than 32 bits, and else in a report.  In each
module that a step starts from, the padding and the contents of globals are no larger than the
globals, which have at most grown by their redzone.  The searches on the way come to an end if every
pointer is made by finitely many additions, and not in a circle (`Func.Circles`): then the additions
of a function that is still to be instrumented are no more than it has instructions.  The variables
of a frame belong to slots that are there. -/
theorem run_total {m : Module} (hverify : m.verify = .ok []) (p : Pipeline) :
    (∃ q m' result, p.run m = .ok (q, m', result) ∧
      (∀ report, result = .ok report → (3 ≤ p.config.scale ∧ p.config.scale ≤ 6) ∧
        ∀ id name frame, m.HasFrame p.config id name frame → frame.size < 1 <<< 32) ∧
      ∀ cause, result = .error cause →
        ¬ (3 ≤ p.config.scale ∧ p.config.scale ≤ 6) ∧ cause = .unsupportedScale p.config.scale ∨
          (3 ≤ p.config.scale ∧ p.config.scale ≤ 6) ∧ ∃ id name frame,
            m.HasFrame p.config id name frame ∧ 1 <<< 32 ≤ frame.size ∧
              cause = .frameTooLarge name frame.size) ∧
      (∀ stage, p.Reaches m stage →
        (∀ g ∈ stage.globals, g.padding ≤ g.size ∧
          ∀ init, g.init = some init → init.size ≤ g.size) ∧
        (∀ (id : GlobalId) g g', m.globals[id]? = some g → stage.globals[id]? = some g' →
          g.size + globalRedzone g.size p.config.mapping.granularity < 1 <<< 64 →
            g'.size < 1 <<< 64) ∧
        ((∀ f ∈ m.functions, ∀ v, ∃ k, f.Away k v) →
          ∀ (id : FuncId) f name, stage.functions[id]? = some f →
            stage.symbols.names[f.name]? = some name → f.isExempt name = false →
              ∀ v, ∃ k ≤ f.insts.size, f.Away k v)) ∧
      ∀ slots frame, Frame.layOut (slotVariables slots) p.config.mapping.granularity = .ok frame →
        ∀ var ∈ frame.vars, var.index < slots.length := by
  have hformed := Module.verify_eq_nil_iff.mp hverify
  refine ⟨?_, fun stage hstage => ?_, fun slots frame hframe var hvar =>
    Frame.index_lt_of_layOut hframe hvar⟩
  · rw [run_eq]
    unfold Module.instrumentAll
    -- the scale is looked at first, and then nothing can fail but a frame
    rcases validate_cases p.config with ⟨hscale, hvalid⟩ | ⟨hscale, hinvalid⟩
    · obtain ⟨m₁, outcome, hglobals, hprepares⟩ :=
        Module.exists_instrumentGlobals (Annotations.ofModule m) hformed hvalid
      obtain ⟨m₂, result, hrun, hresult⟩ := hprepares.underway.exists_run hformed hvalid
        (Annotations.ofModule m) outcome.preserved (fun id hid => List.mem_range.mp hid)
      rw [hglobals, ok_bind]
      dsimp only
      rw [hrun, ok_bind]
      refine ⟨_, _, _, rfl, ?_⟩
      rcases hresult with ⟨done, rfl, hunderway⟩ | ⟨id, name, frame, rfl, hframe, hlarge⟩
      · refine ⟨fun report _ => ⟨hscale, fun id name frame hframe => ?_⟩, nofun⟩
        have hsettled := (Module.instrumentFunctions_advances hrun).2
        refine hunderway.small_of_settled (hsettled id (List.mem_range.mpr ?_)) hframe
        exact hframe.lt_size.trans_le hprepares.underway.size
      · refine ⟨nofun, fun cause hcause => .inr ⟨hscale, id, name, frame, hframe, hlarge, ?_⟩⟩
        exact (Except.error.inj hcause).symm
    · rw [Module.instrumentGlobals, hinvalid]
      refine ⟨_, _, _, rfl, nofun, fun cause hcause => .inl ⟨hscale, ?_⟩⟩
      exact (Except.error.inj hcause).symm
  · -- whatever a stage is given, it is a module on the way
    have hunderway := hstage.underway hformed
    refine ⟨fun g hg => ⟨(hunderway.fits g hg).padding, (hunderway.fits g hg).init⟩, ?_, ?_⟩
    · intro id g g' hg hg' hfits
      obtain ⟨g₁, hg₁, hle⟩ := hunderway.sizes id g hg
      obtain rfl := Option.some.inj (hg'.symm.trans hg₁)
      exact hle.trans_lt hfits
    · intro hends id f name hf hname hexempt
      exact hunderway.away hends hf hname hexempt

end Pipeline

theorem exists_run_huge :
    ∃ p' m', Pipeline.run { config := {} } hugeModule =
      .ok (p', m', .error (.frameTooLarge "huge" 4294967584)) := by
  have hfails : (match Pipeline.run { config := {} } hugeModule with
      | .ok (_, _, .error cause) => decide (cause = .frameTooLarge "huge" 4294967584)
      | _ => false) = true := by decide +kernel
  split at hfails
  · rename_i p' m' cause hrun
    exact ⟨p', m', of_decide_eq_true hfails ▸ hrun⟩
  · cases hfails

/-- A module whose run ends in an error has a frame to blame, and one whose run ends in a report has
none. -/
theorem run_total_huge :
    (∃ p' m', Pipeline.run { config := {} } hugeModule =
        .ok (p', m', .error (.frameTooLarge "huge" 4294967584)) ∧
      ∃ id frame, hugeModule.HasFrame {} id "huge" frame ∧ frame.size = 4294967584) ∧
      ∃ p' m' report, Pipeline.run { config := callingConfig } chaseModule =
          .ok (p', m', .ok report) ∧
        ∀ id name frame, chaseModule.HasFrame callingConfig id name frame →
          frame.size < 1 <<< 32 := by
  constructor
  · obtain ⟨p', m', hrun⟩ := exists_run_huge
    obtain ⟨⟨q, m₁, result, hrun', -, herror⟩, -⟩ := Pipeline.run_total
      (m := hugeModule) (by decide +kernel) { config := {} }
    obtain ⟨rfl, rfl, rfl⟩ : q = p' ∧ m₁ = m' ∧ result = _ := by
      simpa using hrun'.symm.trans hrun
    rcases herror _ rfl with ⟨-, hcause⟩ | ⟨-, id, name, frame, hframe, -, hcause⟩
    · cases hcause
    · obtain ⟨rfl, hsize⟩ : "huge" = name ∧ 4294967584 = frame.size := by simpa using hcause
      exact ⟨q, m₁, hrun, id, frame, hframe, hsize.symm⟩
  · obtain ⟨p', m', report, hrun, -, -⟩ := exists_run_calling
    obtain ⟨⟨q, m₁, result, hrun', hreport, -⟩, -⟩ := Pipeline.run_total
      (m := chaseModule) (by decide +kernel) { config := callingConfig }
    obtain ⟨rfl, rfl, rfl⟩ : q = p' ∧ m₁ = m' ∧ result = _ := by
      simpa using hrun'.symm.trans hrun
    exact ⟨q, m₁, report, hrun, (hreport report rfl).2⟩

end Redzone
