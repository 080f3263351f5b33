import Redzone.Proofs.Order.Declarations
import Redzone.Proofs.Order.Survey

/-!
# The same run over different modules

A run over a function reads the function, the symbol table and the globals.  In a module that has
grown, but not in what the function's code refers to, it does the same as in the module that was
there before: the two drafts are alike, the frames have the same descriptions, and the outcomes are
the same (`Module.FunctionRun.twin`).
-/

namespace Redzone

/-- Globals that are the same but for the numbers of their names. -/
structure Global.Alike (first second : SymbolTable) (g g' : Global) : Prop where
  named : first.Same second g.name g'.name
  rest : g' = { g with name := g'.name }

namespace Func

variable {f g : Func} {symbols first second : SymbolTable}

/-- A well-formed function means the same with all symbol tables that have become of the one that it
was made for. -/
theorem Sound.alike (hsound : f.Sound symbols) (hname : symbols.contains f.name = true)
    (hfirst : symbols.GrowsTo first) (hsecond : symbols.GrowsTo second) :
    f.Alike first second f where
  erased := rfl
  named := by
    obtain ⟨name, hname⟩ := SymbolTable.contains_iff.mp hname
    exact ⟨name, hfirst _ _ hname, hsecond _ _ hname⟩
  code i hi instruction instruction' hinst hinst' := by
    obtain rfl := Option.some.inj (hinst.symm.trans hinst')
    cases hop : instruction.op with
    | symbolAddr symbol =>
        obtain ⟨name, hname⟩ := SymbolTable.contains_iff.mp (hsound.contains_symbol hi hinst hop)
        exact .symbol ⟨name, hfirst _ _ hname, hsecond _ _ hname⟩
    | _ => exact .plain rfl

theorem Alike.mark (h : f.Alike first second g) :
    ({ f with sanitized := true } : Func).Alike first second { g with sanitized := true } where
  erased := by
    have herased := h.erased
    simp only [Func.erased, Func.mk.injEq] at herased ⊢
    simp only [herased, and_self]
  named := h.named
  code := h.code

end Func

namespace Draft

variable {config : Config} {name : String} {slots : List Slot} {d d' e e' : Draft}
  {description description' : Option Global} {first second : SymbolTable}

/-- The draft with its function marked. -/
def marked (d : Draft) : Draft := { d with func := { d.func with sanitized := true } }

theorem MergesSlots.alike (h : MergesSlots config name slots d e description)
    (h' : MergesSlots config name slots d' e' description') (halike : d.Alike first second d') :
    e.Alike first second e' ∧
      Option.Rel (Global.Alike e.symbols e'.symbols) description description' := by
  cases h with
  | plain =>
      cases h' with
      | plain => exact ⟨halike, .none⟩
      | frame hslots => exact absurd rfl hslots
  | frame hslots hframe hd =>
      cases h' with
      | plain => exact absurd rfl hslots
      | frame _ hframe' hd' =>
          obtain rfl := Except.ok.inj (hframe.symm.trans hframe')
          obtain ⟨hafter, symbol, symbol', hsame, rfl, rfl⟩ := alike_addFrame halike hd hd'
          exact ⟨hafter, .some ⟨hsame, rfl⟩⟩

end Draft

namespace Module

variable {config : Config} {m m' q q' : Module} {id : FuncId} {store : Annotations} {f : Func}
  {name : String} {survey survey' : Survey} {slots slots' : List Slot} {d d' : Draft}
  {outcome outcome' : Outcome}

/-! ### What a run that succeeds does -/

/-- A module with another draft of a function and the description of its frame. -/
def put (m : Module) (id : FuncId) (d : Draft) (description : Option Global) : Module :=
  { m with
    symbols := d.symbols
    functions := m.functions.setIfInBounds id d.func
    globals := m.globals ++ description.toList.toArray }

/-- What a run that succeeds does to a module: there is another draft of one function, at most one
global more, and routines are declared. -/
structure Effect (m : Module) (id : FuncId) (d : Draft) (description : Option Global)
    (m' : Module) : Prop where
  function : ∃ f, m.functions[id]? = some f ∧ d.func.name = f.name
  symbols : m.symbols.GrowsTo d.symbols
  regular : d.uses.Regular
  described : ∀ g, description = some g → ∃ name, d.symbols.names[g.name]? = some name ∧
    EntryPoint.isGenerated name = true
  result : m' = d.uses.declareAll (m.put id d description)

theorem Effect.lt_size {description : Option Global} (h : Effect m id d description m') :
    id < m.functions.size := by
  obtain ⟨f, hf, -⟩ := h.function
  exact (Array.getElem?_eq_some_iff.mp hf).1

theorem effect_of_exempt (hf : m.functions[id]? = some f) :
    Effect m id { func := f, symbols := m.symbols } none m where
  function := ⟨f, hf, rfl⟩
  symbols := .refl _
  regular := RuntimeUses.regular_empty
  described g hg := by cases hg
  result := by
    obtain ⟨hlt, rfl⟩ := Array.getElem?_eq_some_iff.mp hf
    have hset : m.functions.setIfInBounds id m.functions[id] = m.functions := by
      simp [Array.setIfInBounds, hlt]
    simp [RuntimeUses.declareAll, put, Dict.empty, hset]

theorem Surveyed.effect {description : Option Global}
    (h : Surveyed config m id store f name survey slots d)
    (hslots : d.MergesSlots config name slots d' description) :
    Effect m id d'.marked description (d'.uses.declareAll (m.placed id d' description)) := by
  obtain ⟨hframe, hdescription⟩ := hslots.extends
  have hextends := h.extends.trans hframe
  have hname : d'.func.name = f.name := Func.name_of_shell hextends.shell
  refine ⟨⟨f, h.function, hname⟩, hextends.symbols,
    hextends.regular RuntimeUses.regular_empty, fun g hg => ?_, rfl⟩
  obtain ⟨symbol, text, hsymbol, rfl⟩ := hdescription g hg
  exact ⟨_, hsymbol, isGenerated_stackDescription name⟩

theorem FunctionRun.effect (h : FunctionRun config m id store m' (.ok outcome)) :
    ∃ d description, Effect m id d description m' := by
  obtain ⟨f, name, hf, -, ⟨-, rfl, -⟩ | ⟨_, _, _, d, description, hsurveyed, hslots, rfl, -⟩⟩ :=
    h.completed
  · exact ⟨_, none, effect_of_exempt hf⟩
  · exact ⟨d.marked, description, hsurveyed.effect hslots⟩

/-! ### The same run over a module that has grown -/

/-- A module has grown, but not in what the code of a function refers to. -/
structure Outgrows (id : FuncId) (m q : Module) : Prop where
  symbols : m.symbols.GrowsTo q.symbols
  function : q.functions[id]? = m.functions[id]?
  globals : ∃ added : List Global, q.globals.toList = m.globals.toList ++ added ∧
    ∀ g ∈ added, m.symbols.contains g.name = false

theorem Surveyed.twin (h : Surveyed config m id store f name survey slots d)
    (h' : Surveyed config q id store f name survey' slots' d') (hgrown : Outgrows id m q)
    (hsound : f.Sound m.symbols) :
    survey' = survey ∧ slots' = slots ∧ d.Alike m.symbols q.symbols d' := by
  obtain ⟨marked, hmarked, hsurvey⟩ := h.judged
  obtain ⟨marked', hmarked', hsurvey'⟩ := h'.judged
  obtain rfl := Except.ok.inj (hmarked.symm.trans hmarked')
  obtain ⟨added, hadded, hunknown⟩ := hgrown.globals
  have hjudge : judge config q store f name marked =
      (judge config m store f name marked).withGlobals added := by
    rw [judge, judge, Judge.withGlobals, hadded]
  rw [hjudge, Judge.survey_withGlobals hsound hunknown] at hsurvey'
  obtain rfl := Except.ok.inj (hsurvey.symm.trans hsurvey')
  obtain rfl := Except.ok.inj (h.slots.symm.trans h'.slots)
  have hstart : Draft.Alike m.symbols q.symbols { func := f, symbols := m.symbols }
      { func := f, symbols := q.symbols } :=
    ⟨hsound.alike (SymbolTable.contains_iff.mpr ⟨name, h.named⟩) (.refl _) hgrown.symbols, rfl,
      [], rfl, rfl⟩
  exact ⟨rfl, rfl, Draft.alike_visitAll hstart h.visits h'.visits⟩

theorem outcomeOf_congr {first second : SymbolTable} (h : d.Alike first second d') :
    outcomeOf f survey slots d' = outcomeOf f survey slots d := by
  unfold outcomeOf preservedBy
  rw [h.func.size, h.func.blocks]

/-- A run over a function of a module that has grown does the same and reports the same. -/
theorem FunctionRun.twin (h : FunctionRun config m id store m' (.ok outcome))
    (h' : FunctionRun config q id store q' (.ok outcome')) (hgrown : Outgrows id m q)
    (hsound : ∀ f ∈ m.functions, f.Sound m.symbols) :
    outcome' = outcome ∧ ∃ d d' description description', Effect m id d description m' ∧
      Effect q id d' description' q' ∧ d.Alike m.symbols q.symbols d' ∧
      Option.Rel (Global.Alike d.symbols d'.symbols) description description' := by
  obtain ⟨f, name, hf, hname, h⟩ := h.completed
  obtain ⟨f', name', hf', hname', h'⟩ := h'.completed
  rw [hgrown.function] at hf'
  obtain rfl := Option.some.inj (hf.symm.trans hf')
  obtain rfl := Option.some.inj ((hgrown.symbols _ _ hname).symm.trans hname')
  replace hsound := hsound f (Array.mem_of_getElem? hf)
  rcases h with ⟨hexempt, rfl, rfl⟩ | ⟨survey, slots, d, e, description, hsurveyed, hslots, rfl,
    rfl⟩
  · rcases h' with ⟨-, rfl, rfl⟩ | ⟨_, _, _, _, _, hsurveyed', -⟩
    · refine ⟨rfl, _, _, none, none, effect_of_exempt hf,
        effect_of_exempt (hgrown.function.trans hf), ⟨?_, rfl, [], rfl, rfl⟩, .none⟩
      exact hsound.alike (SymbolTable.contains_iff.mpr ⟨name, hname⟩) (.refl _) hgrown.symbols
    · rw [hsurveyed'.exempt] at hexempt
      cases hexempt
  · rcases h' with ⟨hexempt, -⟩ | ⟨survey', slots', d', e', description', hsurveyed', hslots', rfl,
      rfl⟩
    · rw [hsurveyed.exempt] at hexempt
      cases hexempt
    · obtain ⟨rfl, rfl, halike⟩ := hsurveyed.twin hsurveyed' hgrown hsound
      obtain ⟨hafter, hdescription⟩ := hslots.alike hslots' halike
      exact ⟨outcomeOf_congr hafter, e.marked, e'.marked, description, description',
        hsurveyed.effect hslots, hsurveyed'.effect hslots',
        ⟨hafter.func.mark, hafter.uses, hafter.symbols⟩, hdescription⟩

end Module

end Redzone
