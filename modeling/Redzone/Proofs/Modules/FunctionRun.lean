import Redzone.Proofs.Modules.Change
import Redzone.Proofs.Modules.Draft
import Redzone.Proofs.Visits

/-!
# Runs over a function

`FunctionRun` lists what the instrumentation of a function can come to, errors included, and
`instrumentFunction_run` says that there is nothing else.  A run that is finished leaves the module
as it was but for its symbols, one function, at most one more global and declarations of routines.
-/

namespace Redzone

/-! ### Errors before anything is changed -/

theorem bind_eq_error {ε α β : Type} {first : Except ε α} {next : α → Except ε β} {e : ε}
    (h : first >>= next = .error e) :
    first = .error e ∨ ∃ a, first = .ok a ∧ next a = .error e := by
  cases first with
  | error cause => exact .inl (congrArg Except.error (Except.error.inj h))
  | ok a => exact .inr ⟨a, rfl, h⟩

theorem lift_ne_error {α : Type} (first : Except Fault α) (cause : InstrumentError) :
    Failure.lift first ≠ .error (.error cause) := by
  cases first <;> nofun

theorem Config.ne_frameTooLarge_of_validate {config : Config} {cause : InstrumentError}
    (h : config.validate = .error cause) (name : String) (bytes : Nat) :
    cause ≠ .frameTooLarge name bytes := by
  unfold validate at h
  split at h <;> cases h
  nofun

namespace Judge

variable {judge : Judge} {cause : InstrumentError}

theorem instruction_error {checked : List (Value × Nat)} {inst : InstId} {i : Instruction}
    (h : judge.instruction checked inst i = .error (.error cause)) :
    cause = .emptyAccess judge.name inst := by
  unfold instruction at h
  split at h
  · cases h
  · cases h
  · cases h
  · split at h
    · cases h
    · unfold access at h
      split at h
      · cases h
      · split at h
        · cases h
          rfl
        · split at h
          · cases h
          · rcases bind_eq_error h with h | ⟨safe, -, h⟩
            · exact absurd h (lift_ne_error _ _)
            · cases h

theorem surveyFrom_error {b : BlockId} {pos : Nat} {checked : List (Value × Nat)}
    {insts : List InstId} (h : judge.surveyFrom b pos checked insts = .error (.error cause)) :
    ∃ inst, cause = .emptyAccess judge.name inst := by
  induction insts generalizing pos checked with
  | nil => cases h
  | cons inst rest ih =>
      rw [surveyFrom] at h
      rcases bind_eq_error h with h | ⟨i, -, h⟩
      · exact absurd h (lift_ne_error _ _)
      rcases bind_eq_error h with h | ⟨verdict, -, h⟩
      · exact ⟨inst, instruction_error h⟩
      -- whatever the verdict is, the rest of the block is surveyed
      cases verdict with
      | unrelated => exact ih h
      | barrier => exact ih h
      | replace | skip | check =>
          rcases bind_eq_error h with h | ⟨survey, -, h⟩
          · exact ih h
          · cases h

/-- A survey ends in an error only at an access without a size. -/
theorem survey_error (h : judge.survey = .error (.error cause)) :
    ∃ inst, cause = .emptyAccess judge.name inst := by
  unfold survey at h
  generalize 0 = b, judge.func.blocks.toList = blocks at h
  induction blocks generalizing b with
  | nil => cases h
  | cons blk rest ih =>
      rw [surveyBlocks] at h
      rcases bind_eq_error h with h | ⟨first, -, h⟩
      · exact surveyFrom_error h
      rcases bind_eq_error h with h | ⟨others, -, h⟩
      · exact ih _ h
      · cases h

end Judge

/-! ### Frames, where there are slots -/

/-- Slots are merged into a frame, if there are any. -/
inductive Draft.MergesSlots (config : Config) (name : String) :
    List Slot → Draft → Draft → Option Global → Prop
  | plain {d : Draft} : MergesSlots config name [] d d none
  | frame {slots : List Slot} {d d' : Draft} {frame : Frame} {description : Global}
      (hslots : slots ≠ [])
      (hframe : Frame.layOut (slotVariables slots) config.mapping.granularity = .ok frame)
      (hd' : d.addFrame config name slots frame = .ok (d', description)) :
      MergesSlots config name slots d d' (some description)

theorem Draft.MergesSlots.extends {config : Config} {name : String} {slots : List Slot}
    {d d' : Draft} {description : Option Global}
    (h : d.MergesSlots config name slots d' description) :
    d.Extends d' ∧ ∀ g, description = some g → ∃ symbol text,
      d'.symbols.names[symbol]? = some (EntryPoint.stackDescription name) ∧
        g = descriptionGlobal symbol text := by
  cases h with
  | plain =>
      refine ⟨.refl d, fun g hg => ?_⟩
      cases hg
  | frame _ _ hd' =>
      obtain ⟨hextends, symbol, hsymbol, hdescription⟩ := addFrame_extends hd'
      refine ⟨hextends, fun g hg => ?_⟩
      cases hg
      exact ⟨symbol, _, hsymbol, hdescription⟩

namespace Module

variable {config : Config} {m m' m₁ m₂ : Module} {id : FuncId} {store : Annotations} {f : Func}
  {name : String} {survey : Survey} {slots : List Slot} {d : Draft} {P : String → Prop}

/-! ### Declarations -/

/-- A module has declarations of some routines more than another one. -/
structure Declares (P : String → Prop) (m m' : Module) : Prop where
  rest : m' = { m with symbols := m'.symbols, functions := m'.functions }
  symbols : m.symbols.GrowsTo m'.symbols
  functions : ∃ added : List Func, m'.functions.toList = m.functions.toList ++ added ∧
    ∀ f ∈ added, f.isDeclaration = true ∧
      ∃ name, P name ∧ m'.symbols.names[f.name]? = some name

namespace Declares

theorem refl (m : Module) : Declares P m m := ⟨rfl, .refl _, [], by simp⟩

theorem trans (h : Declares P m m₁) (h' : Declares P m₁ m₂) : Declares P m m₂ where
  rest := by
    rw [h'.rest, h.rest]
  symbols := h.symbols.trans h'.symbols
  functions := by
    obtain ⟨added, hadded, hnames⟩ := h.functions
    obtain ⟨more, hmore, hnames'⟩ := h'.functions
    refine ⟨added ++ more, by rw [hmore, hadded, List.append_assoc], fun f hf => ?_⟩
    rcases List.mem_append.mp hf with hf | hf
    · obtain ⟨hdeclaration, name, hname, hsymbol⟩ := hnames f hf
      exact ⟨hdeclaration, name, hname, h'.symbols _ _ hsymbol⟩
    · exact hnames' f hf

/-- The functions that were there before are there still. -/
theorem function (h : Declares P m m') (hf : m.functions[id]? = some f) :
    m'.functions[id]? = some f := by
  obtain ⟨added, hadded, -⟩ := h.functions
  rw [← Array.getElem?_toList, hadded, List.getElem?_append_left, Array.getElem?_toList, hf]
  exact (Array.getElem?_eq_some_iff.mp hf).1

theorem function_of_size_le (h : Declares P m m') (hid : m.functions.size ≤ id)
    (hf : m'.functions[id]? = some f) :
    f.isDeclaration = true ∧ ∃ name, P name ∧ m'.symbols.names[f.name]? = some name := by
  obtain ⟨added, hadded, hnames⟩ := h.functions
  rw [← Array.getElem?_toList, hadded, List.getElem?_append_right hid] at hf
  exact hnames f (List.mem_of_getElem? hf)

theorem size_le (h : Declares P m m') : m.functions.size ≤ m'.functions.size := by
  obtain ⟨added, hadded, -⟩ := h.functions
  have hlength := congrArg List.length hadded
  rw [List.length_append, Array.length_toList, Array.length_toList] at hlength
  exact hlength ▸ Nat.le_add_right _ _

end Declares

theorem declares_declare {params : List Ty} {ret : Option Ty} (hname : P name) :
    Declares P m (m.declare name params ret).1 := by
  have hsymbol := m.symbols.names_intern name
  rcases m.declare_cases name params ret with heq | ⟨heq, -⟩
  · rw [heq]
    exact ⟨rfl, m.symbols.growsTo_intern name, [], by simp [intern]⟩
  · rw [heq]
    refine ⟨rfl, m.symbols.growsTo_intern name,
      [{ name := (m.intern name).2, params := params, ret := ret }],
        by simp [addFunction, intern], ?_⟩
    intro f hf
    obtain rfl := List.mem_singleton.mp hf
    exact ⟨rfl, name, hname, hsymbol⟩

theorem declares_declareAll {uses : RuntimeUses} (h : ∀ name, uses.Has name → P name) :
    Declares P m (uses.declareAll m) := by
  unfold RuntimeUses.Has at h
  unfold RuntimeUses.declareAll
  generalize uses.routines.entries = entries at h
  induction entries generalizing m with
  | nil => exact .refl m
  | cons entry rest ih =>
      exact (declares_declare (h entry.1 List.mem_cons_self)).trans
        (ih fun name hname => h name (List.mem_cons_of_mem _ hname))

/-! ### Runs that are finished -/

/-- A module with an instrumented function and the description of its frame, before routines are
declared. -/
def placed (m : Module) (id : FuncId) (d : Draft) (description : Option Global) : Module :=
  { m with
    symbols := d.symbols
    functions := m.functions.setIfInBounds id { d.func with sanitized := true }
    globals := m.globals ++ description.toList.toArray }

theorem finish_eq {before : Func} {description : Option Global} {stats : Stats} :
    m.finish id before d description stats =
      (d.uses.declareAll (m.placed id d description),
        .ok
          { changed := d.func.insts.size ≠ before.insts.size
            preserved := preservedBy before d.func
            stats := stats }) := by
  cases description with
  | none => simp [finish, placed, adopt, setFunction]
  | some g => simp [finish, placed, adopt, setFunction, addGlobal]

/-! ### All that can happen -/

/-- A function that is surveyed, with the slots for its frame and the draft that has its checks. -/
structure Surveyed (config : Config) (m : Module) (id : FuncId) (store : Annotations) (f : Func)
    (name : String) (survey : Survey) (slots : List Slot) (d : Draft) : Prop where
  valid : config.validate = .ok ()
  function : m.functions[id]? = some f
  named : m.symbols.names[f.name]? = some name
  exempt : f.isExempt name = false
  judged : ∃ marked, f.scopedSlots = .ok marked ∧
    (judge config m store f name marked).survey = .ok survey
  slots : (if config.stack then f.frameSlots config else .ok []) = .ok slots
  visits : Draft.visitAll config (outlines config survey.sites) { func := f, symbols := m.symbols }
    survey.sites = .ok d

/-- The counts that are reported for a function. -/
def surveyStats (survey : Survey) (slots : List Slot) : Stats :=
  let checks := survey.sites.filter Site.isCheck
  { checked := checks.length
    skipped := survey.skipped
    replaced := survey.sites.length - checks.length
    stackVariables := slots.length }

/-- What is reported of a function whose draft is finished. -/
def outcomeOf (f : Func) (survey : Survey) (slots : List Slot) (d : Draft) : Outcome where
  changed := d.func.insts.size ≠ f.insts.size
  preserved := preservedBy f d.func
  stats := surveyStats survey slots

/-- The draft that the checks are added to, and what becomes of it. -/
theorem Surveyed.extends (h : Surveyed config m id store f name survey slots d) :
    Draft.Extends { func := f, symbols := m.symbols } d := Draft.visitAll_extends h.visits

/-- What the instrumentation of a function can come to. -/
inductive FunctionRun (config : Config) (m : Module) (id : FuncId) (store : Annotations) :
    Module → Except InstrumentError Outcome → Prop
  | refused {cause : InstrumentError} (hcause : ∀ name bytes, cause ≠ .frameTooLarge name bytes) :
      FunctionRun config m id store m (.error cause)
  | exempt {f : Func} {name : String} (hvalid : config.validate = .ok ())
      (hf : m.functions[id]? = some f) (hname : m.symbols.names[f.name]? = some name)
      (hexempt : f.isExempt name = true) : FunctionRun config m id store m (.ok {})
  | tooLarge {f : Func} {name : String} {survey : Survey} {slots : List Slot} {d : Draft}
      {frame : Frame} (hsurveyed : Surveyed config m id store f name survey slots d)
      (hslots : slots ≠ [])
      (hframe : Frame.layOut (slotVariables slots) config.mapping.granularity = .ok frame)
      (hlarge : 1 <<< 32 ≤ frame.size) :
      FunctionRun config m id store (m.adopt id d) (.error (.frameTooLarge name frame.size))
  | plain {f : Func} {name : String} {survey : Survey} {d : Draft}
      (hsurveyed : Surveyed config m id store f name survey [] d) :
      FunctionRun config m id store (m.finish id f d none (surveyStats survey [])).1
        (m.finish id f d none (surveyStats survey [])).2
  | framed {f : Func} {name : String} {survey : Survey} {slots : List Slot} {d d' : Draft}
      {frame : Frame} {description : Global}
      (hsurveyed : Surveyed config m id store f name survey slots d) (hslots : slots ≠ [])
      (hframe : Frame.layOut (slotVariables slots) config.mapping.granularity = .ok frame)
      (hsmall : frame.size < 1 <<< 32)
      (hd' : d.addFrame config name slots frame = .ok (d', description)) :
      FunctionRun config m id store
        (m.finish id f d' (some description) (surveyStats survey slots)).1
        (m.finish id f d' (some description) (surveyStats survey slots)).2

theorem Surveyed.run {result : Result}
    (hsurveyed : Surveyed config m id store f name survey slots d)
    (h : m.instrumentSurveyed config id f name survey slots = .ok result) :
    FunctionRun config m id store result.1 result.2 := by
  unfold instrumentSurveyed at h
  obtain ⟨d₁, hd₁, h⟩ := bind_eq_ok h
  obtain rfl : d₁ = d := Except.ok.inj (hd₁.symm.trans hsurveyed.visits)
  dsimp only at h
  split at h
  · rename_i hslots
    obtain rfl := List.isEmpty_iff.mp hslots
    cases h
    exact .plain hsurveyed
  · rename_i hslots
    rw [List.isEmpty_iff] at hslots
    obtain ⟨-, -, h⟩ := bind_eq_ok h
    obtain ⟨frame, hframe, h⟩ := bind_eq_ok h
    split at h
    · rename_i hsmall
      obtain ⟨⟨d', description⟩, hd', h⟩ := bind_eq_ok h
      cases h
      exact .framed hsurveyed hslots hframe hsmall hd'
    · rename_i hlarge
      cases h
      exact .tooLarge hsurveyed hslots hframe (Nat.le_of_not_lt hlarge)

theorem instrumentBody_run {result : Result} (hvalid : config.validate = .ok ())
    (hf : m.functions[id]? = some f) (hname : m.symbols.names[f.name]? = some name)
    (hexempt : f.isExempt name = false)
    (h : m.instrumentBody config id f name store = .ok result) :
    FunctionRun config m id store result.1 result.2 := by
  obtain ⟨marked, hmarked, h⟩ := bind_eq_ok h
  dsimp only at h
  split at h
  · cases h
  · rename_i cause hsurvey
    cases h
    obtain ⟨inst, rfl⟩ := Judge.survey_error hsurvey
    exact .refused nofun
  · rename_i survey hsurvey
    have hrest : ∃ slots, (if config.stack then f.frameSlots config else .ok []) = .ok slots ∧
        m.instrumentSurveyed config id f name survey slots = .ok result := by
      split at h
      · rename_i hstack
        rw [if_pos hstack]
        exact bind_eq_ok h
      · rename_i hstack
        rw [if_neg hstack]
        exact ⟨[], rfl, h⟩
    obtain ⟨slots, hslots, hrest⟩ := hrest
    obtain ⟨d, hd, -⟩ := bind_eq_ok hrest
    exact Surveyed.run
      ⟨hvalid, hf, hname, hexempt, ⟨marked, hmarked, hsurvey⟩, hslots, hd⟩ hrest

/-- There is nothing else that the instrumentation of a function can come to. -/
theorem instrumentFunction_run {result : Except InstrumentError Outcome}
    (h : m.instrumentFunction config id store = .ok (m', result)) :
    FunctionRun config m id store m' result := by
  unfold instrumentFunction at h
  cases hvalid : config.validate with
  | error cause =>
      rw [hvalid] at h
      cases h
      exact .refused (config.ne_frameTooLarge_of_validate hvalid)
  | ok valid =>
      rw [hvalid] at h
      cases hf : m.functions[id]? with
      | none =>
          rw [hf] at h
          cases h
          exact .refused nofun
      | some f =>
          rw [hf] at h
          obtain ⟨name, hname, h⟩ := bind_eq_ok h
          replace hname := SymbolTable.names_of_resolve hname
          split at h
          · rename_i hexempt
            cases h
            exact .exempt hvalid hf hname hexempt
          · rename_i hexempt
            exact instrumentBody_run hvalid hf hname (Bool.eq_false_of_not_eq_true hexempt) h

/-- An instrumentation that succeeds leaves an exempt function alone and finishes any other one. -/
theorem FunctionRun.completed {outcome : Outcome}
    (h : FunctionRun config m id store m' (.ok outcome)) :
    ∃ f name, m.functions[id]? = some f ∧ m.symbols.names[f.name]? = some name ∧
      (f.isExempt name = true ∧ m' = m ∧ outcome = {} ∨
        ∃ survey slots d d' description, Surveyed config m id store f name survey slots d ∧
          d.MergesSlots config name slots d' description ∧
          m' = d'.uses.declareAll (m.placed id d' description) ∧
          outcome = outcomeOf f survey slots d') := by
  generalize hresult : Except.ok outcome = result at h
  cases h with
  | refused => cases hresult
  | tooLarge => cases hresult
  | exempt _ hf hname hexempt =>
      cases hresult
      exact ⟨_, _, hf, hname, .inl ⟨hexempt, rfl, rfl⟩⟩
  | plain hsurveyed =>
      rw [finish_eq] at hresult ⊢
      cases hresult
      exact ⟨_, _, hsurveyed.function, hsurveyed.named,
        .inr ⟨_, [], _, _, none, hsurveyed, .plain, rfl, rfl⟩⟩
  | framed hsurveyed hslots hframe _ hd' =>
      rw [finish_eq] at hresult ⊢
      cases hresult
      exact ⟨_, _, hsurveyed.function, hsurveyed.named,
        .inr ⟨_, _, _, _, some _, hsurveyed, .frame hslots hframe hd', rfl, rfl⟩⟩

/-- What there is to know about the draft of a function that was finished. -/
theorem FunctionRun.finished {outcome : Outcome}
    (h : FunctionRun config m id store m' (.ok outcome)) :
    ∃ f name, m.functions[id]? = some f ∧ m.symbols.names[f.name]? = some name ∧
      (f.isExempt name = true ∧ m' = m ∧ outcome = {} ∨
        ∃ d description, Draft.Extends { func := f, symbols := m.symbols } d ∧
          (∀ g, description = some g → ∃ symbol text,
            d.symbols.names[symbol]? = some (EntryPoint.stackDescription name) ∧
              g = descriptionGlobal symbol text) ∧
          m' = d.uses.declareAll (m.placed id d description)) := by
  obtain ⟨f, name, hf, hname, hexempt | ⟨survey, slots, d, d', description, hsurveyed, hslots, hm',
      -⟩⟩ :=
    h.completed
  · exact ⟨f, name, hf, hname, .inl hexempt⟩
  · obtain ⟨hframe, hdescription⟩ := hslots.extends
    exact ⟨f, name, hf, hname,
      .inr ⟨d', description, hsurveyed.extends.trans hframe, hdescription, hm'⟩⟩

end Module

end Redzone
