import Redzone.Proofs.Frame.Path
import Redzone.Proofs.Modules.AddedCode
import Redzone.Proofs.Pipeline.Idempotent

/-!
# A run over a function touches nothing else

Declarations of routines are appended, each under a name that no other function has (`Provides`).
With that, a run over a function leaves the rest of the module as it was, and the module has every
function that the new code calls (`instrumentFunction_confined`).
-/

namespace Redzone

theorem SymbolTable.GrowsTo.isPrefix {first second : SymbolTable} (h : first.GrowsTo second) :
    first.names.toList <+: second.names.toList := by
  rw [List.prefix_iff_getElem?]
  intro symbol hlt
  rw [Array.getElem?_toList]
  exact h symbol _ (Array.getElem?_eq_getElem hlt)

/-- A function with a name and a signature, and nothing else. -/
def Func.IsBare (f : Func) : Prop := f = { name := f.name, params := f.params, ret := f.ret }

namespace Module

variable {config : Config} {m m' m₁ m₂ : Module} {id : FuncId} {store : Annotations}
  {P Q : String → Prop} {name : String}

/-! ### Declarations -/

/-- Declarations have been appended to a module, each under a name of its own, and it has the
functions of which the names are asked for. -/
structure Provides (P : String → Prop) (m m' : Module) : Prop where
  rest : m' = { m with symbols := m'.symbols, functions := m'.functions }
  symbols : m.symbols.GrowsTo m'.symbols
  kept : ∀ (j : FuncId) (f : Func), m.functions[j]? = some f → m'.functions[j]? = some f
  appended : ∀ (j : FuncId) (f : Func), m.functions.size ≤ j → m'.functions[j]? = some f →
    f.IsBare ∧ (∃ name, m'.symbols.names[f.name]? = some name) ∧
      ∀ (k : FuncId) (g : Func), m'.functions[k]? = some g → g.name = f.name → k = j
  provided : ∀ name, P name → m'.HasFunction name

namespace Provides

theorem refl (m : Module) : Provides (fun _ => False) m m where
  rest := rfl
  symbols := .refl _
  kept _ _ hf := hf
  appended _ _ hj hf := absurd (Array.getElem?_eq_some_iff.mp hf).1 (Nat.not_lt.mpr hj)
  provided _ hfalse := hfalse.elim

theorem hasFunction (h : Provides P m m') (hname : m.HasFunction name) : m'.HasFunction name := by
  obtain ⟨f, hf, hsymbol⟩ := hname
  obtain ⟨j, hj⟩ := Array.mem_iff_getElem?.mp hf
  exact ⟨f, Array.mem_of_getElem? (h.kept j f hj), h.symbols _ _ hsymbol⟩

theorem trans (h : Provides P m m₁) (h' : Provides Q m₁ m₂) :
    Provides (fun name => P name ∨ Q name) m m₂ where
  rest := by rw [h'.rest, h.rest]
  symbols := h.symbols.trans h'.symbols
  kept j f hf := h'.kept j f (h.kept j f hf)
  appended j f hj hf := by
    rcases Nat.lt_or_ge j m₁.functions.size with hlt | hge
    · -- it was appended first, and what was appended later has other names
      have hkept := h'.kept j _ (Array.getElem?_eq_getElem hlt)
      obtain rfl := Option.some.inj (hkept.symm.trans hf)
      obtain ⟨hbare, ⟨name, hname⟩, hunique⟩ := h.appended j _ hj (Array.getElem?_eq_getElem hlt)
      refine ⟨hbare, ⟨name, h'.symbols _ _ hname⟩, fun k g hg hsame => ?_⟩
      rcases Nat.lt_or_ge k m₁.functions.size with hk | hk
      · have hgkept := h'.kept k _ (Array.getElem?_eq_getElem hk)
        obtain rfl := Option.some.inj (hgkept.symm.trans hg)
        exact hunique k _ (Array.getElem?_eq_getElem hk) hsame
      · exact ((h'.appended k g hk hg).2.2 j _ hf hsame.symm).symm
    · exact h'.appended j f hge hf
  provided name hname := by
    rcases hname with hname | hname
    · exact h'.hasFunction (h.provided name hname)
    · exact h'.provided name hname

theorem mono (h : Provides P m m') (hmono : ∀ name, Q name → P name) : Provides Q m m' :=
  { h with provided := fun name hname => h.provided name (hmono name hname) }

end Provides

theorem hasFunction_declare (m : Module) (name : String) (params : List Ty) (ret : Option Ty) :
    (m.declare name params ret).1.HasFunction name := by
  have hsymbol := m.symbols.names_intern name
  unfold declare
  dsimp only
  split
  · rename_i id hid
    obtain ⟨hlt, hname, -⟩ := Array.findIdx?_eq_some_iff_getElem.mp hid
    refine ⟨_, Array.getElem_mem hlt, ?_⟩
    rw [of_decide_eq_true hname]
    exact hsymbol
  · exact ⟨_, Array.mem_push_self, hsymbol⟩

theorem provides_declare (m : Module) (name : String) (params : List Ty) (ret : Option Ty) :
    Provides (· = name) m (m.declare name params ret).1 := by
  have hprovided : ∀ other, other = name → (m.declare name params ret).1.HasFunction other := by
    rintro other rfl
    exact hasFunction_declare m other params ret
  rcases m.declare_cases name params ret with heq | ⟨heq, hnew⟩
  · rw [heq] at hprovided ⊢
    exact ⟨rfl, m.symbols.growsTo_intern name, fun _ _ hf => hf,
      fun j f hj hf => absurd (Array.getElem?_eq_some_iff.mp hf).1 (Nat.not_lt.mpr hj), hprovided⟩
  · rw [heq] at hprovided ⊢
    refine ⟨rfl, m.symbols.growsTo_intern name, fun _ _ hf => getElem?_push_of_some _ hf, ?_,
      hprovided⟩
    intro j f hj hf
    -- only the last function is new
    have hpush : ∀ (k : FuncId) (g : Func), (m.functions.push
        { name := (m.intern name).2, params := params, ret := ret })[k]? = some g →
          g = { name := (m.intern name).2, params := params, ret := ret } ∧ k = m.functions.size ∨
            g ∈ m.functions ∧ k < m.functions.size := by
      intro k g hg
      rw [Array.getElem?_push] at hg
      split at hg
      · rename_i hk
        exact .inl ⟨(Option.some.inj hg).symm, hk⟩
      · exact .inr ⟨Array.mem_of_getElem? hg, (Array.getElem?_eq_some_iff.mp hg).1⟩
    rcases hpush j f hf with ⟨rfl, rfl⟩ | ⟨-, hlt⟩
    · refine ⟨rfl, ⟨name, m.symbols.names_intern name⟩, fun k g hg hsame => ?_⟩
      rcases hpush k g hg with ⟨-, hk⟩ | ⟨hmem, -⟩
      · exact hk
      · exact absurd hsame (hnew g hmem)
    · exact absurd hlt (Nat.not_lt.mpr hj)

theorem provides_declareAll (uses : RuntimeUses) (m : Module) :
    Provides uses.Has m (uses.declareAll m) := by
  obtain ⟨⟨entries⟩⟩ := uses
  induction entries generalizing m with
  | nil => exact (Provides.refl m).mono fun name hname => RuntimeUses.not_has_empty name hname
  | cons entry rest ih =>
      obtain ⟨name, signature⟩ := entry
      refine ((provides_declare m name signature.params signature.ret).trans (ih _)).mono ?_
      intro other hother
      exact List.mem_cons.mp hother

/-! ### Runs over a function -/

/-- What a run over function `id` leaves of a module.  Nothing but names, functions and globals is
different.  Names and globals are added behind those that were there: of globals one at most, the
description of the frame that slots of the function were moved to.  Other functions stay, and
declarations are appended, each under a name of its own.  Where the function has a call that it did
not have before, it is one of a function of the module by its name. -/
structure Confined (config : Config) (m : Module) (id : FuncId) (m' : Module) : Prop where
  rest : m' = { m with symbols := m'.symbols, functions := m'.functions, globals := m'.globals }
  symbols : m.symbols.names.toList <+: m'.symbols.names.toList
  globals : m'.globals = m.globals ∨
    ∃ f name slots g, m.functions[id]? = some f ∧ m.symbols.names[f.name]? = some name ∧
      config.stack = true ∧ f.frameSlots config = .ok slots ∧ slots ≠ [] ∧
      m'.globals = m.globals.push g ∧
      m'.symbols.names[g.name]? = some (EntryPoint.stackDescription name) ∧
      g.linkage = .priv ∧ g.constant = true ∧ g.isDeclaration = false
  functions : ∀ (j : FuncId) (f : Func), j ≠ id → m.functions[j]? = some f →
    m'.functions[j]? = some f
  appended : ∀ (j : FuncId) (f : Func), m.functions.size ≤ j → m'.functions[j]? = some f →
    f.IsBare ∧ ∃ name, m'.symbols.names[f.name]? = some name ∧
      ∀ (k : FuncId) (g : Func), m'.functions[k]? = some g →
        m'.symbols.names[g.name]? = some name → k = j
  calls : ∃ f f', m.functions[id]? = some f ∧ m'.functions[id]? = some f' ∧
    ∀ (i : InstId) (instruction : Instruction) (callee : Value) (args : List Value),
      f'.insts[i]? = some instruction → instruction.op = .call callee args →
      f.insts[i]?.map Instruction.op ≠ some instruction.op →
      ∃ (k : InstId) (loaded : Instruction) (symbol : SymbolId) (name : String),
        callee = .inst k ∧ f'.insts[k]? = some loaded ∧ loaded.op = .symbolAddr symbol ∧
        m'.symbols.names[symbol]? = some name ∧ ∃ g ∈ m'.functions, g.name = symbol

theorem confined_refl {f : Func} (hf : m.functions[id]? = some f) : m.Confined config id m where
  rest := rfl
  symbols := List.prefix_refl _
  globals := .inl rfl
  functions _ _ _ hg := hg
  appended _ _ hj hg := absurd (Array.getElem?_eq_some_iff.mp hg).1 (Nat.not_lt.mpr hj)
  calls := by
    refine ⟨f, f, hf, hf, fun i instruction callee args hinst _ hnew => ?_⟩
    exact absurd (by rw [hinst, Option.map_some]) hnew

section

variable {f : Func} {survey : Survey} {slots : List Slot} {d d' : Draft}
  {description : Option Global}

/-- One global at most is added, and none without slots. -/
theorem Surveyed.globals_placed (h : Surveyed config m id store f name survey slots d)
    (hmerges : d.MergesSlots config name slots d' description) :
    (m.placed id d' description).globals = m.globals ∨
      config.stack = true ∧ f.frameSlots config = .ok slots ∧ slots ≠ [] ∧
        ∃ symbol text, (m.placed id d' description).globals =
            m.globals.push (descriptionGlobal symbol text) ∧
          d'.symbols.names[symbol]? = some (EntryPoint.stackDescription name) := by
  have hslots := h.slots
  cases hmerges with
  | plain => exact .inl (by simp [placed])
  | @frame _ _ _ frame _ hne _ hd' =>
      obtain ⟨-, symbol, hsymbol, rfl⟩ := Draft.addFrame_extends hd'
      right
      split at hslots
      · rename_i hstack
        exact ⟨hstack, hslots, hne, symbol, frame.description, by simp [placed], hsymbol⟩
      · cases hslots
        exact absurd rfl hne

theorem Surveyed.confined (h : Surveyed config m id store f name survey slots d)
    (hmerges : d.MergesSlots config name slots d' description) :
    m.Confined config id (d'.uses.declareAll (m.placed id d' description)) := by
  have hprovides := provides_declareAll d'.uses (m.placed id d' description)
  generalize d'.uses.declareAll (m.placed id d' description) = m' at hprovides
  have hlt := (Array.getElem?_eq_some_iff.mp h.function).1
  have hgrows : d'.symbols.GrowsTo m'.symbols := hprovides.symbols
  have hglobals : m'.globals = (m.placed id d' description).globals := by rw [hprovides.rest]
  have hplaced : (m.placed id d' description).functions[id]? =
      some { d'.func with sanitized := true } := Array.getElem?_setIfInBounds_self_of_lt hlt
  refine
    { rest := by
        rw [hglobals]
        exact hprovides.rest
      symbols := (h.extends.symbols.trans (hmerges.extends.1.symbols.trans hgrows)).isPrefix
      globals := ?_
      functions := ?_
      appended := ?_
      calls := ⟨f, _, h.function, hprovides.kept id _ hplaced, ?_⟩ }
  · rw [hglobals]
    rcases h.globals_placed hmerges with heq | ⟨hstack, hslots, hne, symbol, text, heq, hsymbol⟩
    · exact .inl heq
    · exact .inr ⟨f, name, slots, _, h.function, h.named, hstack, hslots, hne, heq,
        hgrows _ _ hsymbol, rfl, rfl, rfl⟩
  · intro j g hj hg
    apply hprovides.kept j g
    rwa [placed, Array.getElem?_setIfInBounds_ne hj.symm]
  · intro j g hj hg
    rw [← Array.size_setIfInBounds] at hj
    obtain ⟨hbare, ⟨name, hname⟩, hunique⟩ := hprovides.appended j g hj hg
    exact ⟨hbare, name, hname, fun k other hother hsame =>
      hunique k other hother (SymbolTable.eq_of_names hsame hname)⟩
  · intro i instruction callee args hinst hop hnew
    -- a new call is one of a routine, and routines that are called are declared
    have hadds : d'.Adds f fun _ => True := by
      cases hmerges with
      | plain => exact h.adds_visits fun _ _ _ _ => trivial
      | frame _ _ hd' => exact h.adds_addFrame (fun _ _ _ _ => trivial) hd'
    rcases hadds.calls i instruction callee args hinst hop with
      ⟨old, hold, hsame⟩ | ⟨k, hcallee, -, loaded, symbol, name, hloaded, hsymbol, hname, huses⟩
    · exact absurd (by rw [hold, Option.map_some, hsame]) hnew
    · obtain ⟨g, hg, hgname⟩ := hprovides.provided name huses
      exact ⟨k, loaded, symbol, name, hcallee, hloaded, hsymbol, hgrows _ _ hname, g, hg,
        SymbolTable.eq_of_names hgname (hgrows _ _ hname)⟩

end

/-- A run over a function that succeeds touches nothing but that function. -/
theorem instrumentFunction_confined {outcome : Outcome}
    (h : m.instrumentFunction config id store = .ok (m', .ok outcome)) :
    m.Confined config id m' := by
  obtain ⟨f, name, hf, -, ⟨-, rfl, -⟩ | ⟨survey, slots, d, d', description, hsurveyed, hmerges, rfl,
      -⟩⟩ :=
    (instrumentFunction_run h).completed
  · exact confined_refl hf
  · exact hsurveyed.confined hmerges

theorem exists_instrumentFunction_scope :
    ∃ m' outcome, scopeModule.instrumentFunction scopeConfig 0 {} = .ok (m', .ok outcome) ∧
      m'.globals.size = 1 := by
  obtain ⟨m', outcome, hrun, h⟩ := exists_of_succeeds
    (scopeModule.instrumentFunction scopeConfig 0 {}) (fun m' _ => m'.globals.size = 1)
    (by decide +kernel)
  exact ⟨m', outcome, hrun, of_decide_eq_true h⟩

theorem instrumentFunction_confined_scope :
    ∃ m' outcome, scopeModule.instrumentFunction scopeConfig 0 {} = .ok (m', .ok outcome) ∧
      scopeModule.Confined scopeConfig 0 m' ∧ m'.globals.size = 1 := by
  obtain ⟨m', outcome, hrun, hglobals⟩ := exists_instrumentFunction_scope
  exact ⟨m', outcome, hrun, instrumentFunction_confined hrun, hglobals⟩

end Module

end Redzone
