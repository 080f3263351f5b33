import Redzone.Instrument.Function
import Redzone.Proofs.Edit

/-!
# What an instrumentation of a function comes to

An instrumentation that succeeds leaves an exempt function as it was, and else surveys the function,
visits the sites and puts a frame in front if slots are merged (`instrumentFunction_cases`,
`instrumentSurveyed_cases`).  The symbol table only grows on the way: a symbol keeps its name
(`SymbolTable.GrowsTo`).
-/

namespace Redzone

/-! ### Growing symbol tables -/

namespace SymbolTable

/-- Every symbol of the first table is one of the second, with the same name. -/
def GrowsTo (first second : SymbolTable) : Prop :=
  ∀ (symbol : SymbolId) (name : String),
    first.names[symbol]? = some name → second.names[symbol]? = some name

theorem GrowsTo.refl (table : SymbolTable) : table.GrowsTo table := fun _ _ h => h

theorem GrowsTo.trans {first second third : SymbolTable} (h : first.GrowsTo second)
    (h' : second.GrowsTo third) : first.GrowsTo third :=
  fun symbol name hname => h' symbol name (h symbol name hname)

theorem names_of_resolve {table : SymbolTable} {symbol : SymbolId} {name : String}
    (h : table.resolve symbol = .ok name) : table.names[symbol]? = some name := by
  unfold resolve at h
  split at h <;> cases h
  assumption

variable (table : SymbolTable) (name : String)

theorem growsTo_intern : table.GrowsTo (table.intern name).1 := by
  intro symbol other hother
  unfold intern
  split
  · exact hother
  · have hlt := (Array.getElem?_eq_some_iff.mp hother).1
    simp only [Array.getElem?_push]
    rw [if_neg hlt.ne, hother]

/-- The number that a name gets stands for it. -/
theorem names_intern : (table.intern name).1.names[(table.intern name).2]? = some name := by
  unfold intern
  split
  · rename_i symbol hsymbol
    obtain ⟨hlt, hget, -⟩ := List.idxOf?_eq_some_iff.mp hsymbol
    exact Array.getElem?_eq_some_iff.mpr ⟨by simpa using hlt, by simpa using hget⟩
  · simp

end SymbolTable

/-! ### Modules -/

namespace Module

/-- A module has the functions and the symbols of another one, and perhaps more. -/
structure GrowsTo (first second : Module) : Prop where
  symbols : first.symbols.GrowsTo second.symbols
  functions : ∀ (id : FuncId) (f : Func),
    first.functions[id]? = some f → second.functions[id]? = some f

theorem GrowsTo.refl (m : Module) : m.GrowsTo m := ⟨.refl _, fun _ _ h => h⟩

theorem GrowsTo.trans {first second third : Module} (h : first.GrowsTo second)
    (h' : second.GrowsTo third) : first.GrowsTo third :=
  ⟨h.symbols.trans h'.symbols, fun id f hf => h'.functions id f (h.functions id f hf)⟩

theorem growsTo_declare (m : Module) (name : String) (params : List Ty) (ret : Option Ty) :
    m.GrowsTo (m.declare name params ret).1 := by
  unfold declare
  simp only
  split
  · exact ⟨m.symbols.growsTo_intern name, fun _ _ h => h⟩
  · refine ⟨m.symbols.growsTo_intern name, fun id f hf => ?_⟩
    have hlt := (Array.getElem?_eq_some_iff.mp hf).1
    simp only [addFunction, intern, Array.getElem?_push]
    rw [if_neg hlt.ne, hf]

theorem growsTo_declareAll (uses : RuntimeUses) (m : Module) : m.GrowsTo (uses.declareAll m) := by
  unfold RuntimeUses.declareAll
  generalize uses.routines.entries = entries
  induction entries generalizing m with
  | nil => exact .refl m
  | cons entry rest ih => exact (m.growsTo_declare _ _ _).trans (ih _)

/-- What a run that is finished leaves. -/
theorem finish_spec {m m' : Module} {id : FuncId} {before : Func} {d : Draft}
    {description : Option Global} {stats : Stats} {result : Except InstrumentError Outcome}
    (hid : id < m.functions.size) (h : m.finish id before d description stats = (m', result)) :
    m'.functions[id]? = some { d.func with sanitized := true } ∧
      d.symbols.GrowsTo m'.symbols := by
  unfold finish at h
  simp only [Prod.mk.injEq] at h
  obtain ⟨rfl, -⟩ := h
  constructor
  · refine (growsTo_declareAll d.uses _).functions id _ ?_
    cases description <;> simp [adopt, setFunction, addGlobal, hid]
  · refine SymbolTable.GrowsTo.trans ?_ (growsTo_declareAll d.uses _).symbols
    cases description <;> exact .refl _

/-- The function that an instrumentation leaves and the symbols it refers to. -/
structure Leaves (m' : Module) (id : FuncId) (d : Draft) : Prop where
  function : m'.functions[id]? = some { d.func with sanitized := true }
  symbols : d.symbols.GrowsTo m'.symbols

theorem instrumentSurveyed_cases {config : Config} {m m' : Module} {id : FuncId} {f : Func}
    {name : String} {survey : Survey} {slots : List Slot} {outcome : Outcome}
    (hid : id < m.functions.size)
    (h : m.instrumentSurveyed config id f name survey slots = .ok (m', .ok outcome)) :
    ∃ d, Draft.visitAll config
        (decide (config.callsThreshold < (survey.sites.filter Site.isCheck).length))
        { func := f, symbols := m.symbols } survey.sites = .ok d ∧
      (slots = [] ∧ m'.Leaves id d ∨
        ∃ frame d' description, slots ≠ [] ∧
          (Frame.layOut (slotVariables slots) config.mapping.granularity = .ok frame ∧
            frame.size < 1 <<< 32) ∧
          d.addFrame config name slots frame = .ok (d', description) ∧ m'.Leaves id d') := by
  unfold instrumentSurveyed at h
  obtain ⟨d, hd, h⟩ := bind_eq_ok h
  refine ⟨d, hd, ?_⟩
  simp only at h
  split at h
  · rename_i hslots
    obtain ⟨hfunction, hsymbols⟩ := finish_spec hid (Except.ok.inj h)
    exact .inl ⟨List.isEmpty_iff.mp hslots, hfunction, hsymbols⟩
  · rename_i hslots
    obtain ⟨-, -, h⟩ := bind_eq_ok h
    obtain ⟨frame, hframe, h⟩ := bind_eq_ok h
    split at h
    · rename_i hsize
      obtain ⟨⟨d', description⟩, hd', h⟩ := bind_eq_ok h
      obtain ⟨hfunction, hsymbols⟩ := finish_spec hid (Except.ok.inj h)
      exact .inr ⟨frame, d', description, fun hnil => hslots (List.isEmpty_iff.mpr hnil),
        ⟨hframe, hsize⟩, hd', hfunction, hsymbols⟩
    · cases h

/-- What a function is judged by. -/
def judge (config : Config) (m : Module) (store : Annotations) (f : Func) (name : String)
    (marked : List InstId) : Judge :=
  ⟨config, m.globals.toList, store, f, name, marked⟩

/-- A run can be computed to succeed, with something true of what it leaves. -/
theorem exists_of_succeeds (run : Except Fault Result) (p : Module → Outcome → Bool)
    (h : (run.toOption.any fun result => result.2.toOption.any (p result.1)) = true) :
    ∃ m outcome, run = .ok (m, .ok outcome) ∧ p m outcome = true := by
  obtain ⟨⟨m, result⟩, rfl, hresult⟩ := exists_of_any h
  obtain ⟨outcome, rfl, hp⟩ := exists_of_any (show result.toOption.any (p m) = true from hresult)
  exact ⟨m, outcome, rfl, hp⟩

theorem scale_of_validate {config : Config} (h : config.validate = .ok ()) :
    minScale ≤ config.mapping.scale ∧ config.mapping.scale ≤ maxScale := by
  unfold Config.validate at h
  split at h
  · assumption
  · cases h

/-- An instrumentation that succeeds: the function is exempt, or it is surveyed and changed. -/
theorem instrumentFunction_cases {config : Config} {m m' : Module} {id : FuncId} {f : Func}
    {store : Annotations} {outcome : Outcome} (hf : m.functions[id]? = some f)
    (h : m.instrumentFunction config id store = .ok (m', .ok outcome)) :
    config.validate = .ok () ∧ ∃ name, m.resolve f.name = .ok name ∧
      (f.isExempt name = true ∧ m' = m ∨
        f.isExempt name = false ∧ ∃ marked survey slots, f.scopedSlots = .ok marked ∧
          (judge config m store f name marked).survey = .ok survey ∧
          (if config.stack then f.frameSlots config else .ok []) = .ok slots ∧
          m.instrumentSurveyed config id f name survey slots = .ok (m', .ok outcome)) := by
  unfold instrumentFunction at h
  cases hvalid : config.validate with
  | error cause =>
      rw [hvalid] at h
      cases h
  | ok valid =>
      rw [hvalid, hf] at h
      refine ⟨rfl, ?_⟩
      obtain ⟨name, hname, h⟩ := bind_eq_ok h
      refine ⟨name, hname, ?_⟩
      split at h
      · rename_i hexempt
        cases h
        exact .inl ⟨hexempt, rfl⟩
      · rename_i hexempt
        obtain ⟨marked, hmarked, h⟩ := bind_eq_ok h
        refine .inr ⟨by simpa using hexempt, marked, ?_⟩
        simp only at h
        split at h
        · cases h
        · cases h
        · rename_i survey hsurvey
          split at h
          · rename_i hstack
            obtain ⟨slots, hslots, h⟩ := bind_eq_ok h
            exact ⟨survey, slots, hmarked, hsurvey, by rw [if_pos hstack, hslots], h⟩
          · rename_i hstack
            exact ⟨survey, [], hmarked, hsurvey, by rw [if_neg hstack], h⟩

end Module

end Redzone
