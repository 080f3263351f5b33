import Redzone.Proofs.Modules.Brackets
import Redzone.Proofs.Modules.Confined
import Redzone.Proofs.Modules.Registration
import Redzone.Proofs.Pipeline.WellFormed

/-!
# The check of the initialization order

A run over the globals brackets a function once for every time that it is listed as a constructor
behind the module's own (`GlobalsRun.bracketed_functions`).

A list of constructors has symbols, and a symbol may be listed several times.  In a well-formed
module each stands for one function (`WellFormed.functionBySymbol_eq_some_iff`), so that the
brackets of one function are counted by its listings (`count_initializers`), and one bracketing
after the other adds up (`bracketed_of_brackets`).  Functions that are not listed stay as they are,
and the functions that the run adds call neither of the two routines (`GlobalsRun.calls_of_added`).
So all calls of these routines are known.
-/

namespace Redzone

/-! ### Initializers -/

namespace Module

variable {m m' : Module} {id : FuncId} {f g : Func} {before after moduleName : SymbolId}
  {count : Nat}

/-- How often a function is listed among the constructors that run behind the module's own. -/
def lateListings (m : Module) (f : Func) : Nat :=
  if f.isDeclaration then 0
  else m.ctors.countP fun entry =>
    decide (EntryPoint.ctorPriority < entry.priority) && entry.function == f.name

theorem isDeclaration_of_lateListings (h : m.lateListings f ≠ 0) : f.isDeclaration = false := by
  by_contra hdeclared
  rw [Bool.not_eq_false] at hdeclared
  exact h (if_pos hdeclared)

/-- A function of a well-formed module is the one that its symbol stands for. -/
theorem WellFormed.functionBySymbol_eq_some_iff (hformed : m.WellFormed)
    (hf : m.functions[id]? = some f)
    {symbol : SymbolId} : m.functionBySymbol symbol = some id ↔ symbol = f.name := by
  obtain ⟨hlt, hget⟩ := Array.getElem?_eq_some_iff.mp hf
  rw [functionBySymbol, Array.findIdx?_eq_some_iff_getElem]
  constructor
  · rintro ⟨_, hname, -⟩
    rw [hget] at hname
    exact (of_decide_eq_true hname).symm
  · rintro rfl
    refine ⟨hlt, by simp [hget], fun j hj => ?_⟩
    rw [decide_eq_true_eq]
    intro hname
    exact hj.ne (hformed.eq_of_functionName (Array.getElem?_eq_getElem (hj.trans hlt)) hf hname)

theorem count_initializers (hformed : m.WellFormed) (hf : m.functions[id]? = some f) :
    m.initializers.count id = m.lateListings f := by
  unfold initializers lateListings
  split
  · rename_i hdeclared
    rw [List.count_eq_zero, List.mem_filter, hf]
    simp [hdeclared]
  · rename_i hdefined
    rw [List.count_filter (by simp [hf, hdefined]), List.count_filterMap, List.countP_filter]
    refine List.countP_congr fun entry _ => ?_
    simp [hformed.functionBySymbol_eq_some_iff hf, and_comm]

theorem getElem?_setFunction_self (hg : m.functions[id]? = some g) (f : Func) :
    (m.setFunction id f).functions[id]? = some f :=
  Array.getElem?_setIfInBounds_self_of_lt (Array.getElem?_eq_some_iff.mp hg).1

/-- Brackets of the functions numbered `ids`, of which one may be listed several times. -/
theorem bracketed_of_brackets {ids : List FuncId} {symbols : SymbolTable} (hsound : f.Sound symbols)
    (hid : m.functions[id]? = some g) (hg : Func.Bracketed before after moduleName count f g)
    (h : ids.foldlM (bracketFunction before after moduleName) m = .ok m') :
    ∃ g', m'.functions[id]? = some g' ∧
      Func.Bracketed before after moduleName (count + ids.count id) f g' := by
  induction ids generalizing m g count with
  | nil =>
      cases h
      exact ⟨g, hid, hg⟩
  | cons first rest ih =>
      obtain ⟨m₁, hm₁, h⟩ := foldlM_cons_eq_ok h
      obtain ⟨old, new, hold, hnew, rfl⟩ := bracketFunction_eq_ok hm₁
      by_cases hfirst : first = id
      · subst hfirst
        obtain rfl := Option.some.inj (hid.symm.trans hold)
        have hnext := hg.trans (Func.bracketed_of_bracket hg.closes hnew) hsound
        rw [List.count_cons_self, Nat.add_comm (rest.count first), ← Nat.add_assoc]
        exact ih (getElem?_setFunction_self hold new) hnext h
      · rw [List.count_cons_of_ne hfirst]
        refine ih ?_ hg h
        rw [setFunction, Array.getElem?_setIfInBounds_ne hfirst, hid]

theorem size_functions_of_brackets {ids : List FuncId}
    (h : ids.foldlM (bracketFunction before after moduleName) m = .ok m') :
    m'.functions.size = m.functions.size := by
  induction ids generalizing m with
  | nil =>
      cases h
      rfl
  | cons first rest ih =>
      obtain ⟨m₁, hm₁, h⟩ := foldlM_cons_eq_ok h
      obtain ⟨old, new, -, -, rfl⟩ := bracketFunction_eq_ok hm₁
      rw [ih h, setFunction, Array.size_setIfInBounds]

end Module

/-- Brackets of a module's constructors. -/
theorem Annex.bracketInitializers_bracketed {a a' : Annex} {uses uses' : RuntimeUses}
    {wrapped : Nat} (h : a.bracketInitializers uses = .ok (a', uses', wrapped)) :
    a'.module.functions.size = a.module.functions.size ∧ ∃ before after moduleName,
      a'.module.symbols.names[before]? = some EntryPoint.beforeDynamicInit ∧
      a'.module.symbols.names[after]? = some EntryPoint.afterDynamicInit ∧
      ∀ (id : FuncId) (f : Func) (symbols : SymbolTable), a.module.functions[id]? = some f →
        f.Sound symbols → ∃ g, a'.module.functions[id]? = some g ∧
          Func.Bracketed before after moduleName (a.module.initializers.count id) f g := by
  obtain ⟨m, hm, rfl, -, -⟩ := bracketInitializers_eq_ok h
  have hnames : Makes 0 {} _ _ a.bracketNames := a.makes_bracketNames
  have hsame := (hnames.keeps.code not_false).1
  have hsymbols : m.symbols = a.bracketNames.module.symbols := by
    rw [Module.rest_of_brackets hm]
  refine ⟨?_, (a.moduleName.1.intern EntryPoint.beforeDynamicInit).2,
    ((a.moduleName.1.intern EntryPoint.beforeDynamicInit).1.intern EntryPoint.afterDynamicInit).2,
    a.moduleName.2, ?_, ?_, fun id f symbols hf hsound => ?_⟩
  · exact (Module.size_functions_of_brackets hm).trans (congrArg Array.size hsame)
  · exact hsymbols ▸ SymbolTable.growsTo_intern _ _ _ _ (names_intern _ _)
  · exact hsymbols ▸ names_intern _ _
  · have hg := Module.bracketed_of_brackets hsound ((congrArg (·[id]?) hsame).trans hf)
      (.refl _ _ _ hsound.closes) hm
    rwa [Nat.zero_add] at hg

theorem exists_mem_of_forall₂ {α β : Type} {R : α → β → Prop} {as : List α} {bs : List β} {a : α}
    (h : List.Forall₂ R as bs) (ha : a ∈ as) : ∃ b ∈ bs, R a b :=
  exists_of_forall₂_mem h.flip ha

theorem eq_of_getElem?_push {α : Type} {xs : Array α} {x y : α} {i : Nat} (hi : xs.size ≤ i)
    (hy : (xs.push x)[i]? = some y) : y = x := by
  rw [Array.getElem?_push] at hy
  split at hy
  · exact (Option.some.inj hy).symm
  · exact absurd (Array.getElem?_eq_some_iff.mp hy).1 (Nat.not_lt.mpr hi)

/-! ### Runs -/

namespace GlobalsRun

variable {config : Config} {m : Module} {store : Annotations} {ids : List GlobalId} {id : FuncId}
  {f g : Func}

/-- Constructors are bracketed for the sake of a global that gets a redzone. -/
theorem isBracketed_of_dynInit (run : GlobalsRun config m store ids) (hproper : Proper m ids)
    (horder : config.initOrder = true) (hkernel : config.kernel = false) {other : GlobalId}
    (hother : other ∈ ids) (hdynInit : (store.get other).dynInit = true) :
    run.isBracketed = true := by
  obtain ⟨-, -, hdescribes⟩ := run.padded_spec hproper
  obtain ⟨r, hr, hdescribed⟩ := exists_mem_of_forall₂ hdescribes hother
  have hany : run.globals.any Registered.dynInit = true :=
    List.any_eq_true.mpr ⟨r, hr, hdescribed.dynInit.trans hdynInit⟩
  rw [isBracketed, horder, hkernel, hany]
  rfl

/-- The functions of the program are bracketed as often as they are listed. -/
theorem bracketed_functions (run : GlobalsRun config m store ids) (hproper : Proper m ids)
    (hbracketed : run.isBracketed = true) :
    run.bracketed.module.functions.size = m.functions.size ∧ ∃ before after moduleName,
      run.bracketed.module.symbols.names[before]? = some EntryPoint.beforeDynamicInit ∧
      run.bracketed.module.symbols.names[after]? = some EntryPoint.afterDynamicInit ∧
      ∀ (id : FuncId) (f : Func), m.functions[id]? = some f → ∃ g,
        run.bracketed.module.functions[id]? = some g ∧
        Func.Bracketed before after moduleName (m.lateListings f) f g := by
  have hbrackets := run.brackets
  rw [isBracketed] at hbracketed
  rw [if_pos hbracketed] at hbrackets
  obtain ⟨hsize, before, after, moduleName, hbefore, hafter, hall⟩ :=
    Annex.bracketInitializers_bracketed hbrackets
  -- up to here no function has changed, nor the list of constructors
  obtain ⟨hfunctions, hctors, -⟩ := (run.named_spec hproper).keeps.code not_false
  rw [hfunctions] at hsize
  rw [hfunctions, Module.initializers_congr hfunctions hctors] at hall
  refine ⟨hsize, before, after, moduleName, hbefore, hafter, fun id f hf => ?_⟩
  rw [← Module.count_initializers hproper.formed hf]
  exact hall id f _ hf (hproper.formed.sound f (Array.mem_of_getElem? hf)).1

/-- A function of the program in the end. -/
theorem function_module (run : GlobalsRun config m store ids) (hproper : Proper m ids)
    {before after moduleName : SymbolId} (hf : m.functions[id]? = some f)
    (hg : run.bracketed.module.functions[id]? = some g)
    (hbrackets : Func.Bracketed before after moduleName (m.lateListings f) f g) :
    run.module.functions[id]? = some g ∧
      (g.calls run.module.symbols).Perm
        (List.replicate (m.lateListings f)
          (Func.openingCall run.module.symbols before moduleName) ++
          (f.calls run.module.symbols ++
            List.replicate (m.lateListings f * f.returns) (plainCall run.module.symbols after))) ∧
      (m.lateListings f = 0 → g = f) := by
  have hlast : run.module.functions[id]? = some g :=
    run.growsTo_module.functions id g (Module.getElem?_push_of_some _ hg)
  have hsame : m.lateListings f = 0 → g = f := by
    intro hnone
    rw [← Module.count_initializers hproper.formed hf, List.count_eq_zero] at hnone
    obtain ⟨made, hchanges, -⟩ := run.changes hproper
    have hkept := hchanges.keeps.functions id f (fun hreach => hnone hreach.2) hf
    exact Option.some.inj (hlast.symm.trans hkept)
  refine ⟨hlast, ?_, hsame⟩
  by_cases hnone : m.lateListings f = 0
  · rw [hsame hnone, hnone]
    simp
  · have hsound := (hproper.formed.sound f (Array.mem_of_getElem? hf)).1
    exact hbrackets.calls_perm hsound (Module.isDeclaration_of_lateListings hnone)

/-- The functions that a run adds. -/
theorem added_functions (run : GlobalsRun config m store ids)
    (hid : run.bracketed.module.functions.size ≤ id) (hg : run.module.functions[id]? = some g) :
    g = run.ctor ∨
      (∃ r, run.registration = some r ∧ g = (run.started.makeDtor run.uses r).2.2) ∨ g.IsBare := by
  have hprovides : Module.Provides run.closed.2.Has run.closed.1 run.module :=
    Module.provides_declareAll _ _
  have hctor : run.started.module.functions[id]? = some g → g = run.ctor :=
    eq_of_getElem?_push hid
  rcases Nat.lt_or_ge id run.closed.1.functions.size with hlt | hge
  · have hkept := hprovides.kept id _ (Array.getElem?_eq_getElem hlt)
    replace hg := (Array.getElem?_eq_getElem hlt).trans (hkept.symm.trans hg)
    unfold closed at hg
    split at hg
    · exact .inl (hctor hg)
    · rename_i r hr
      have hmakes : Annex.Makes 0 {} _ _ _ := run.started.makes_makeDtor run.uses r
      have hsame := (hmakes.keeps.code not_false).1
      rcases Nat.lt_or_ge id run.started.module.functions.size with hstarted | hlast
      · have hold := Array.getElem?_eq_getElem hstarted
        have hpush := Module.getElem?_push_of_some (run.started.makeDtor run.uses r).2.2
          ((congrArg (·[id]?) hsame).trans hold)
        exact .inl (hctor (hold.trans (hpush.symm.trans hg)))
      · rw [← hsame] at hlast
        exact .inr (.inl ⟨r, hr, eq_of_getElem?_push hlast hg⟩)
  · exact .inr (.inr (hprovides.appended id g hge hg).1)

theorem routines_of_registration (run : GlobalsRun config m store ids) {r : Registration}
    (hr : run.registration = some r) :
    r.register = config.scheme.register ∧ r.unregister = config.scheme.unregister := by
  rcases run.registers with ⟨-, -, hnone⟩ | ⟨r', -, hadded, hr'⟩
  · rw [hr] at hnone
    cases hnone
  · obtain rfl := Option.some.inj (hr.symm.trans hr')
    obtain ⟨hregister, hunregister, -⟩ :=
      Annex.addRegistration_arguments hadded run.symbols_registered
    exact ⟨hregister, hunregister⟩

/-- The module's own constructor and destructor call other routines, and declarations call none. -/
theorem calls_of_added (run : GlobalsRun config m store ids)
    (hid : run.bracketed.module.functions.size ≤ id) (hg : run.module.functions[id]? = some g)
    {call : RoutineCall} (hcall : call ∈ g.calls run.module.symbols) :
    call.callee ≠ some (.address EntryPoint.beforeDynamicInit) ∧
      call.callee ≠ some (.address EntryPoint.afterDynamicInit) := by
  have hother : ∀ name ∈ [EntryPoint.init, EntryPoint.versionCheck, config.scheme.register,
      config.scheme.unregister], some (Argument.address name) ≠
        some (.address EntryPoint.beforeDynamicInit) ∧
      some (Argument.address name) ≠ some (.address EntryPoint.afterDynamicInit) := by
    cases config.scheme <;> decide +kernel
  rcases run.added_functions hid hg with rfl | ⟨r, hr, rfl⟩ | hbare
  · have hcalls := Annex.calls_makeCtor (run.symbols_bracketed.trans run.growsTo_module.symbols)
    rw [ctor, hcalls, List.mem_append] at hcall
    rcases hcall with hcall | hcall
    · obtain ⟨name, hname, rfl⟩ := List.mem_map.mp hcall
      unfold Annex.starters at hname
      split at hname
      · cases hname
      · exact hother name (List.mem_append_left _ hname)
    · obtain ⟨r, hr, rfl⟩ := List.mem_map.mp hcall
      rw [(run.routines_of_registration (Option.mem_toList.mp hr)).1]
      exact hother _ (by simp)
  · have hgrows : run.closed.1.GrowsTo run.module := Module.growsTo_declareAll _ _
    rw [closed, hr] at hgrows
    rw [Annex.calls_makeDtor hgrows.symbols, List.mem_singleton] at hcall
    rw [hcall, (run.routines_of_registration hr).2]
    exact hother _ (by simp)
  · rw [hbare] at hcall
    cases hcall

end GlobalsRun

namespace Module

/-- Where a run over the globals of a verified module without reserved names checks the order of
initialization for some global, a function is bracketed once for every time that it is listed as a
constructor behind the module's own.  Each time, a call of the one routine is put behind the
parameters of its entry block, and a call of the other in front of every return.  A function that is
not listed stays as it is, and the functions that are added call neither. -/
theorem instrumentGlobals_brackets {config : Config} {m m' : Module} {store : Annotations}
    {outcome : Outcome} (hverify : m.verify = .ok []) (hnames : m.Unreserved)
    (horder : config.initOrder = true) (hkernel : config.kernel = false)
    (hglobals : config.globals = true)
    (hdynamic : ∃ id, m.IsEligible config.mapping.granularity store id ∧
      (store.get id).dynInit = true)
    (h : m.instrumentGlobals config store = .ok (m', .ok outcome)) :
    ∃ before after moduleName,
      m'.symbols.names[before]? = some EntryPoint.beforeDynamicInit ∧
      m'.symbols.names[after]? = some EntryPoint.afterDynamicInit ∧
      (∀ (id : FuncId) (f : Func), m.functions[id]? = some f → ∃ g, m'.functions[id]? = some g ∧
        Func.Bracketed before after moduleName (m.lateListings f) f g ∧
        (g.calls m'.symbols).Perm
          (List.replicate (m.lateListings f) (Func.openingCall m'.symbols before moduleName) ++
            (f.calls m'.symbols ++
              List.replicate (m.lateListings f * f.returns) (plainCall m'.symbols after))) ∧
        (m.lateListings f = 0 → g = f)) ∧
      ∀ (id : FuncId) (g : Func), m.functions.size ≤ id → m'.functions[id]? = some g →
        ∀ call ∈ g.calls m'.symbols,
          call.callee ≠ some (.address EntryPoint.beforeDynamicInit) ∧
          call.callee ≠ some (.address EntryPoint.afterDynamicInit) := by
  have hformed := verify_eq_nil_iff.mp hverify
  cases (instrumentGlobals_run h).2 with
  | present hctor =>
      obtain ⟨f, hf, hname⟩ := isSome_functionByName_iff.mp hctor
      exact absurd ⟨f.name, hname, .inr ⟨f, hf, rfl⟩⟩ (hnames.not_taken ⟨.ctor, "", fun _ => rfl⟩)
  | idle _ _ _ hkernel' =>
      rw [hkernel] at hkernel'
      cases hkernel'
  | @changed candidates hctor hcandidates run =>
      obtain ⟨other, heligible, hdynInit⟩ := hdynamic
      have hproper := GlobalsRun.Proper.of_candidates hformed hcandidates
      obtain ⟨-, -, hids⟩ := candidates_spec hcandidates
      have hbracketed := run.isBracketed_of_dynInit hproper horder hkernel
        ((hids other).mpr ⟨hglobals, heligible⟩) hdynInit
      obtain ⟨hsize, before, after, moduleName, hbefore, hafter, hall⟩ :=
        run.bracketed_functions hproper hbracketed
      have hgrows := run.growsTo_module
      refine ⟨before, after, moduleName, hgrows.symbols _ _ hbefore, hgrows.symbols _ _ hafter,
        fun id f hf => ?_, fun id g hid hg call hcall => run.calls_of_added (hsize ▸ hid) hg hcall⟩
      obtain ⟨g, hg, hbrackets⟩ := hall id f hf
      obtain ⟨hlast, hcalls, hsame⟩ := run.function_module hproper hf hg hbrackets
      exact ⟨g, hlast, hbrackets, hcalls, hsame⟩

end Module

/-! ### A stock -/

/-- A constructor that returns or passes on an unwind. -/
def fillFunction : Func where
  name := 0
  params := []
  ret := none
  insts := #[⟨.bconst true, .bool, [], false⟩, ⟨.brif (.inst 0) ⟨1, []⟩ ⟨2, []⟩, .unit, [], false⟩,
    ⟨.ret none, .unit, [], false⟩, ⟨.unwind, .unit, [], false⟩]
  blocks := #[{ argStart := 0, insts := [0, 1] }, { argStart := 0, insts := [2] },
    { argStart := 0, insts := [3] }]

/-- A module with a dynamically initialized global. -/
def stockModule : Module where
  name := "stock"
  symbols := ⟨#["fill", "count"], by decide⟩
  functions := #[fillFunction]
  globals := #[{ name := 1, size := 8, align := 8 }]
  nodes := #[⟨[.global 0, .null, .string "count", .int 1, .int 0]⟩]
  named := Dict.empty.alter Annotations.listName fun _ => [0]
  ctors := [⟨100, 0⟩]

theorem unreserved_stock : stockModule.Unreserved := Module.unreserved_of_names (by decide +kernel)

theorem isEligible_stock :
    stockModule.IsEligible ({} : Config).mapping.granularity (.ofModule stockModule) 0 ∧
      ((Annotations.ofModule stockModule).get 0).dynInit = true :=
  ⟨⟨_, "count", rfl, rfl, by decide +kernel⟩, by decide +kernel⟩

/-- The block that passes on an unwind gets no call. -/
theorem exists_instrumentGlobals_stock :
    ∃ m' outcome g blk instruction,
      stockModule.instrumentGlobals {} (.ofModule stockModule) = .ok (m', .ok outcome) ∧
      m'.functions[0]? = some g ∧ g.blocks[2]? = some blk ∧ blk.insts = [3] ∧
      g.insts[3]? = some instruction ∧ instruction.op.isExit = true := by
  obtain ⟨m', outcome, hrun, hsucceeds⟩ := Module.exists_of_succeeds
    (stockModule.instrumentGlobals {} (.ofModule stockModule))
    (fun m' _ => m'.functions[0]?.any fun g => (g.blocks[2]?.any fun blk => blk.insts = [3]) &&
      g.insts[3]?.any fun instruction => instruction.op.isExit) (by decide +kernel)
  obtain ⟨g, hg, h⟩ := (Option.any_eq_true _ _).mp hsucceeds
  rw [Bool.and_eq_true] at h
  obtain ⟨blk, hblk, hinsts⟩ := (Option.any_eq_true _ _).mp h.1
  obtain ⟨instruction, hinst, hexit⟩ := (Option.any_eq_true _ _).mp h.2
  exact ⟨m', outcome, g, blk, instruction, hrun, hg, hblk, of_decide_eq_true hinsts, hinst, hexit⟩

theorem instrumentGlobals_brackets_stock :
    ∃ m' outcome g before after moduleName,
      stockModule.instrumentGlobals {} (.ofModule stockModule) = .ok (m', .ok outcome) ∧
      m'.functions[0]? = some g ∧
      m'.symbols.names[before]? = some EntryPoint.beforeDynamicInit ∧
      m'.symbols.names[after]? = some EntryPoint.afterDynamicInit ∧
      Func.Bracketed before after moduleName 1 fillFunction g := by
  obtain ⟨m', outcome, g, _, _, hrun, hg, -⟩ := exists_instrumentGlobals_stock
  obtain ⟨before, after, moduleName, hbefore, hafter, hfunctions, -⟩ :=
    Module.instrumentGlobals_brackets (by decide +kernel) unreserved_stock rfl rfl rfl
      ⟨0, isEligible_stock⟩ hrun
  obtain ⟨g', hg', hbracketed, -⟩ := hfunctions 0 fillFunction rfl
  obtain rfl := Option.some.inj (hg.symm.trans hg')
  exact ⟨m', outcome, g, before, after, moduleName, hrun, hg, hbefore, hafter, hbracketed⟩

/-- Not every exit of a constructor takes the poison of other modules back. -/
theorem not_forall_instrumentGlobals_brackets :
    ¬ ∀ (config : Config) (m m' : Module) (store : Annotations) (outcome : Outcome),
      m.verify = .ok [] → m.Unreserved → config.initOrder = true → config.kernel = false →
      config.globals = true →
      (∃ id, m.IsEligible config.mapping.granularity store id ∧ (store.get id).dynInit = true) →
      m.instrumentGlobals config store = .ok (m', .ok outcome) →
      ∀ (id : FuncId) (f g : Func), m.functions[id]? = some f → 0 < m.lateListings f →
        m'.functions[id]? = some g →
        ∀ (b : BlockId) (blk : Block) (front : List InstId) (last : InstId)
          (instruction : Instruction), g.blocks[b]? = some blk → blk.insts = front ++ [last] →
          g.insts[last]? = some instruction → instruction.op.isExit = true →
          ∃ after closing, m'.symbols.names[after]? = some EntryPoint.afterDynamicInit ∧
            g.IsPiece (closingOps after) closing ∧ closing <:+ front := by
  intro h
  obtain ⟨m', outcome, g, blk, instruction, hrun, hg, hblk, hinsts, hinst, hexit⟩ :=
    exists_instrumentGlobals_stock
  obtain ⟨after, closing, -, ⟨n, rfl, -⟩, hsuffix⟩ :=
    h {} stockModule m' _ outcome (by decide +kernel)
    unreserved_stock rfl rfl rfl ⟨0, isEligible_stock⟩ hrun 0 fillFunction g rfl (by decide) hg 2
      blk [] 3
    instruction hblk hinsts hinst hexit
  simp [closingOps] at hsuffix

end Redzone
