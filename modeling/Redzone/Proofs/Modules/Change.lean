import Redzone.Globals.Descriptor
import Redzone.Proofs.Edits.Params
import Redzone.Proofs.Instrumented
import Redzone.Proofs.Modules.OwnSymbol

/-!
# Changes of a module

An instrumentation changes a module in a few ways only: it adds globals and functions under names of
its own, declares routines, gives globals a redzone, rewrites functions and lists its constructor
and destructor.  `Module.Change` is one such change, and `Module.Changes` any number of them, with
the symbols that were made on the way.  What they do not reach stays as it was.
-/

namespace Redzone

/-! ### Redzones -/

/-- The redzone that `globalRedzone?` gives where the bounds leave one. -/
def globalRedzone (size granularity : Nat) : Nat :=
  let least := minGlobalRedzone granularity
  let quarter := min (max (size / least / 4 * least) least) maxGlobalRedzone
  if size % least = 0 then quarter else quarter + (least - size % least)

theorem minGlobalRedzone_pos (granularity : Nat) : 0 < minGlobalRedzone granularity :=
  lt_of_lt_of_le (by decide) (le_max_right granularity 32)

theorem minGlobalRedzone_le {mapping : ShadowMapping} (hscale : mapping.scale ≤ maxScale) :
    minGlobalRedzone mapping.granularity ≤ maxGlobalRedzone :=
  max_le ((ShadowMapping.granularity_le hscale).trans (by decide)) (by decide)

theorem globalRedzone?_eq_ok_iff {size granularity redzone : Nat} :
    globalRedzone? size granularity = .ok redzone ↔
      minGlobalRedzone granularity ≤ maxGlobalRedzone ∧
        globalRedzone size granularity = redzone := by
  have hmod := Nat.mod_lt size (minGlobalRedzone_pos granularity)
  unfold globalRedzone? globalRedzone
  dsimp only
  by_cases hbound : minGlobalRedzone granularity ≤ maxGlobalRedzone
  · rw [if_pos hbound, and_iff_right hbound]
    split
    · rw [Except.ok.injEq]
    · -- what is taken away is less than the least redzone
      rw [checkedSub_eq_ok_iff, and_iff_right (by omega), Nat.add_sub_assoc hmod.le]
  · rw [if_neg hbound]
    simp [hbound]

namespace Initializer

theorem size_fields_append (first second : List ConstField) :
    (fields (first ++ second)).size = (fields first).size + (fields second).size := by
  induction first with
  | nil => simp [size]
  | cons part rest ih =>
      simp only [size, List.cons_append, List.foldr_cons] at ih ⊢
      rw [ih, Nat.add_assoc]

/-- Where anything is written out, zeros are written behind it. -/
theorem size_extend {init : Initializer} (h : init ≠ .zero) (count : Nat) :
    (init.extend count).size = init.size + count := by
  cases init with
  | zero => exact absurd rfl h
  | bytes data => rfl
  | fields parts => exact size_fields_append parts [.zero count]

theorem padTo_eq_ok_iff {init padded : Initializer} {size : Nat} :
    init.padTo size = .ok padded ↔
      init.size ≤ size ∧ init.extend (size - init.size) = padded := by
  constructor
  · intro h
    obtain ⟨tail, htail, h⟩ := bind_eq_ok h
    obtain ⟨hle, rfl⟩ := checkedSub_eq_ok_iff.mp htail
    exact ⟨hle, Except.ok.inj h⟩
  · rintro ⟨hle, rfl⟩
    rw [padTo, checkedSub_of_le hle, ok_bind]

end Initializer

namespace Global

variable {g g' : Global} {granularity : Nat}

/-- A global that has got a redzone. -/
def grown (granularity : Nat) (g : Global) : Global :=
  let redzone := globalRedzone g.size granularity
  { g with
    size := g.size + redzone
    padding := g.padding + redzone
    align := max g.align (minGlobalRedzone granularity)
    init := g.init.map fun init => init.extend (g.size + redzone - init.size) }

theorem withRedzone_eq_ok (h : g.withRedzone granularity = .ok g') : g' = g.grown granularity := by
  obtain ⟨redzone, hredzone, h⟩ := bind_eq_ok h
  obtain ⟨-, rfl⟩ := globalRedzone?_eq_ok_iff.mp hredzone
  obtain ⟨padded, hpadded, h⟩ := bind_eq_ok h
  cases h
  unfold grown
  cases hinit : g.init with
  | none =>
      rw [hinit] at hpadded
      cases hpadded
      rfl
  | some init =>
      rw [hinit] at hpadded
      obtain ⟨init', hinit', hpadded⟩ := bind_eq_ok hpadded
      cases hpadded
      obtain ⟨-, rfl⟩ := Initializer.padTo_eq_ok_iff.mp hinit'
      rfl

/-- Contents that are no larger than their global leave room for a redzone. -/
theorem withRedzone_of_le (hbound : minGlobalRedzone granularity ≤ maxGlobalRedzone)
    (hinit : ∀ init, g.init = some init → init.size ≤ g.size) :
    g.withRedzone granularity = .ok (g.grown granularity) := by
  rw [withRedzone, globalRedzone?_eq_ok_iff.mpr ⟨hbound, rfl⟩, ok_bind, grown]
  cases hsome : g.init with
  | none => rfl
  | some init =>
      have hpadded := Initializer.padTo_eq_ok_iff.mpr ⟨(hinit init hsome).trans
        (Nat.le_add_right g.size (globalRedzone g.size granularity)), rfl⟩
      rw [Option.mapM_some, hpadded]
      rfl

end Global

/-! ### Changes -/

/-- A global is big enough for its contents and aligned as it should be. -/
structure Global.Fits (g : Global) : Prop where
  align : isPowerOfTwo g.align = true
  padding : g.padding ≤ g.size
  init : ∀ init, g.init = some init → init.size ≤ g.size

/-- What changes may do to a module, beyond the addition of globals. -/
structure Reach where
  /-- Globals that may get a redzone. -/
  padded : GlobalId → Prop := fun _ => False
  /-- Functions that may be rewritten. -/
  rewritten : FuncId → Prop := fun _ => False
  /-- Whether functions and entries of the constructor and destructor lists may be added at all. -/
  code : Prop := False

namespace Module

/-- One change of a module, and the symbols that are made for it. -/
inductive Change (granularity : Nat) (reach : Reach) : Module → List OwnSymbol → Module → Prop
  /-- Names become known, and symbols are kept. -/
  | grow {m : Module} {symbols : SymbolTable} {used : List SymbolId}
      (hgrows : m.symbols.GrowsTo symbols) :
      Change granularity reach m [] { m with symbols := symbols, used := used }
  | global {m : Module} {g : Global} {own : OwnSymbol}
      (hname : m.symbols.names[g.name]? = some own.text) (hfits : g.Fits) :
      Change granularity reach m [own] (m.addGlobal g).1
  | pad {m : Module} {id : GlobalId} {g : Global} (hid : reach.padded id)
      (hg : m.globals[id]? = some g) :
      Change granularity reach m [] (m.setGlobal id (g.grown granularity))
  | function {m : Module} {f : Func} {own : OwnSymbol} (hcode : reach.code)
      (hname : m.symbols.names[f.name]? = some own.text) (hsound : f.Sound m.symbols)
      (hparams : f.ParamsLead) : Change granularity reach m [own] (m.addFunction f).1
  | declare {m : Module} {name : String} {params : List Ty} {ret : Option Ty} (hcode : reach.code)
      (hroutine : IsRoutine name) : Change granularity reach m [] (m.declare name params ret).1
  | rewrite {m : Module} {id : FuncId} {f f' : Func} (hcode : reach.code) (hid : reach.rewritten id)
      (hf : m.functions[id]? = some f) (hname : f'.name = f.name)
      (hkeeps : f.Sound m.symbols → f.ParamsLead → f'.Sound m.symbols ∧ f'.ParamsLead) :
      Change granularity reach m [] (m.setFunction id f')
  | list {m : Module} {ctors dtors : List ListEntry} (hcode : reach.code)
      (hlisted : ∀ entry ∈ ctors ++ dtors, ∃ f ∈ m.functions, f.name = entry.function) :
      Change granularity reach m []
        { m with ctors := m.ctors ++ ctors, dtors := m.dtors ++ dtors }

/-- Changes, one after the other. -/
inductive Changes (granularity : Nat) (reach : Reach) : Module → List OwnSymbol → Module → Prop
  | refl (m : Module) : Changes granularity reach m [] m
  | step {m m₁ m₂ : Module} {made more : List OwnSymbol} (h : Changes granularity reach m made m₁)
      (hchange : Change granularity reach m₁ more m₂) : Changes granularity reach m (made ++ more)
        m₂

variable {granularity : Nat} {reach reach' : Reach} {m m' m₁ m₂ : Module}
  {made more : List OwnSymbol}

theorem Change.changes (h : Change granularity reach m made m') :
    Changes granularity reach m made m' := .step (.refl m) h

namespace Changes

theorem trans (h : Changes granularity reach m made m₁)
    (h' : Changes granularity reach m₁ more m₂) :
    Changes granularity reach m (made ++ more) m₂ := by
  induction h' with
  | refl => rwa [List.append_nil]
  | step _ hchange ih =>
      rw [← List.append_assoc]
      exact .step ih hchange

end Changes

/-- The reach of one change may be part of a larger one. -/
theorem Change.mono (h : Change granularity reach m made m')
    (hpadded : ∀ id, reach.padded id → reach'.padded id)
    (hrewritten : ∀ id, reach.rewritten id → reach'.rewritten id)
    (hcode : reach.code → reach'.code) : Change granularity reach' m made m' := by
  cases h with
  | grow hgrows => exact .grow hgrows
  | global hname hfits => exact .global hname hfits
  | pad hid hg => exact .pad (hpadded _ hid) hg
  | function hreach hname hsound hparams => exact .function (hcode hreach) hname hsound hparams
  | declare hreach hroutine => exact .declare (hcode hreach) hroutine
  | rewrite hreach hid hf hname hkeeps =>
      exact .rewrite (hcode hreach) (hrewritten _ hid) hf hname hkeeps
  | list hreach hlisted => exact .list (hcode hreach) hlisted

theorem Changes.mono (h : Changes granularity reach m made m')
    (hpadded : ∀ id, reach.padded id → reach'.padded id)
    (hrewritten : ∀ id, reach.rewritten id → reach'.rewritten id)
    (hcode : reach.code → reach'.code) : Changes granularity reach' m made m' := by
  induction h with
  | refl => exact .refl _
  | step _ hchange ih => exact .step ih (hchange.mono hpadded hrewritten hcode)

/-! ### What changes leave alone -/

/-- What stays as it was, whatever the symbols are that were made. -/
structure Keeps (reach : Reach) (m m' : Module) : Prop where
  symbols : m.symbols.GrowsTo m'.symbols
  globals : ∀ (id : GlobalId) (g : Global), ¬ reach.padded id → m.globals[id]? = some g →
    m'.globals[id]? = some g
  functions : ∀ (id : FuncId) (f : Func), ¬ reach.rewritten id → m.functions[id]? = some f →
    m'.functions[id]? = some f
  code : ¬ reach.code → m'.functions = m.functions ∧ m'.ctors = m.ctors ∧ m'.dtors = m.dtors
  metadata : m'.nodes = m.nodes ∧ m'.named = m.named
  size : m.globals.size ≤ m'.globals.size ∧ m.functions.size ≤ m'.functions.size

namespace Keeps

theorem refl (m : Module) : Keeps reach m m :=
  ⟨.refl _, fun _ _ _ h => h, fun _ _ _ h => h, fun _ => ⟨rfl, rfl, rfl⟩, ⟨rfl, rfl⟩, le_rfl,
    le_rfl⟩

theorem trans (h : Keeps reach m m₁) (h' : Keeps reach m₁ m₂) : Keeps reach m m₂ where
  symbols := h.symbols.trans h'.symbols
  globals id g hid hg := h'.globals id g hid (h.globals id g hid hg)
  functions id f hid hf := h'.functions id f hid (h.functions id f hid hf)
  code hcode := by
    obtain ⟨hfunctions, hctors, hdtors⟩ := h.code hcode
    obtain ⟨hfunctions', hctors', hdtors'⟩ := h'.code hcode
    exact ⟨hfunctions'.trans hfunctions, hctors'.trans hctors, hdtors'.trans hdtors⟩
  metadata := ⟨h'.metadata.1.trans h.metadata.1, h'.metadata.2.trans h.metadata.2⟩
  size := ⟨h.size.1.trans h'.size.1, h.size.2.trans h'.size.2⟩

end Keeps

theorem getElem?_push_of_some {α : Type} {xs : Array α} {i : Nat} {x : α} (y : α)
    (h : xs[i]? = some x) : (xs.push y)[i]? = some x := by
  rw [Array.getElem?_push_lt (Array.getElem?_eq_some_iff.mp h).1]
  exact congrArg some (Array.getElem?_eq_some_iff.mp h).2

/-- A routine is declared unless there is a function of its name. -/
theorem declare_cases (m : Module) (name : String) (params : List Ty) (ret : Option Ty) :
    (m.declare name params ret).1 = (m.intern name).1 ∨
      (m.declare name params ret).1 = ((m.intern name).1.addFunction
          { name := (m.intern name).2, params := params, ret := ret }).1 ∧
        ∀ f ∈ m.functions, f.name ≠ (m.intern name).2 := by
  unfold declare
  simp only
  split
  · exact .inl rfl
  · rename_i hnone
    refine .inr ⟨rfl, fun f hf heq => ?_⟩
    have hall := Array.findIdx?_eq_none_iff.mp hnone f hf
    rw [heq, decide_eq_false_iff_not] at hall
    exact hall rfl

theorem Change.keeps (h : Change granularity reach m made m') : Keeps reach m m' := by
  cases h with
  | grow hgrows =>
      exact ⟨hgrows, fun _ _ _ h => h, fun _ _ _ h => h, fun _ => ⟨rfl, rfl, rfl⟩, ⟨rfl, rfl⟩,
        le_rfl, le_rfl⟩
  | global =>
      refine ⟨.refl _, fun _ _ _ h => getElem?_push_of_some _ h, fun _ _ _ h => h,
        fun _ => ⟨rfl, rfl, rfl⟩, ⟨rfl, rfl⟩, ?_, le_rfl⟩
      simp [addGlobal]
  | @pad id _ hid =>
      refine ⟨.refl _, fun id' g hid' hg => ?_, fun _ _ _ h => h, fun _ => ⟨rfl, rfl, rfl⟩,
        ⟨rfl, rfl⟩, ?_, le_rfl⟩
      · have hne : id ≠ id' := fun heq => hid' (heq ▸ hid)
        rw [setGlobal, Array.getElem?_setIfInBounds_ne hne, hg]
      · simp [setGlobal]
  | function hcode =>
      refine ⟨.refl _, fun _ _ _ h => h, fun _ _ _ h => getElem?_push_of_some _ h,
        fun hnone => absurd hcode hnone, ⟨rfl, rfl⟩, le_rfl, ?_⟩
      simp [addFunction]
  | @declare name params ret hcode =>
      have hgrows := m.growsTo_declare name params ret
      have hrest : (m.declare name params ret).1.globals = m.globals ∧
          ((m.declare name params ret).1.nodes = m.nodes ∧
            (m.declare name params ret).1.named = m.named) ∧
          m.functions.size ≤ (m.declare name params ret).1.functions.size := by
        -- a routine that is there already is not declared again
        rcases m.declare_cases name params ret with heq | ⟨heq, -⟩
        · exact heq ▸ ⟨rfl, ⟨rfl, rfl⟩, le_rfl⟩
        · rw [heq]
          exact ⟨rfl, ⟨rfl, rfl⟩, by simp [addFunction, intern]⟩
      obtain ⟨hglobals, hmetadata, hsize⟩ := hrest
      exact ⟨hgrows.symbols, fun _ _ _ h => hglobals ▸ h, fun id f _ h => hgrows.functions id f h,
        fun hnone => absurd hcode hnone, hmetadata, hglobals ▸ le_rfl, hsize⟩
  | @rewrite id _ _ hcode hid =>
      refine ⟨.refl _, fun _ _ _ h => h, fun id' f hid' hf => ?_, fun hnone => absurd hcode hnone,
        ⟨rfl, rfl⟩, le_rfl, ?_⟩
      · have hne : id ≠ id' := fun heq => hid' (heq ▸ hid)
        rw [setFunction, Array.getElem?_setIfInBounds_ne hne, hf]
      · simp [setFunction]
  | list hcode =>
      exact ⟨.refl _, fun _ _ _ h => h, fun _ _ _ h => h, fun hnone => absurd hcode hnone,
        ⟨rfl, rfl⟩, le_rfl, le_rfl⟩

theorem Changes.keeps (h : Changes granularity reach m made m') : Keeps reach m m' := by
  induction h with
  | refl => exact .refl _
  | step _ hchange ih => exact ih.trans hchange.keeps

end Module

end Redzone
