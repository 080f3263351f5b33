import Redzone.Proofs.Modules.Appended

/-!
# Redzones of globals

A global starts out with an image: what its contents write out, and zeros behind it.  A redzone
extends the image by zeros and leaves the object as it was (`Global.grows_grown`).  A run over the
globals gives a redzone to every global that there is no reason to skip, and it changes neither the
other globals nor the functions, except for the constructors that it brackets.
-/

namespace Redzone

/-! ### Images -/

/-- A byte of a global at the start of the program: a value, or part of the address of a symbol. -/
inductive ImageByte
  | value (byte : UInt8)
  | addr (symbol : SymbolId) (index : Nat)
  deriving DecidableEq

/-- The bytes of a field.  Integers are in two's complement, with the lowest byte first. -/
def ConstField.image : ConstField → List ImageByte
  | int value width => (List.range width).map fun i => .value (UInt8.ofInt (value / 256 ^ i))
  | addr symbol => (List.range 8).map (ImageByte.addr symbol)
  | bytes data => data.map ImageByte.value
  | zero count => List.replicate count (.value 0)

/-- The bytes that are written out. -/
def Initializer.written : Initializer → List ImageByte
  | zero => []
  | bytes data => data.map ImageByte.value
  | fields parts => parts.flatMap ConstField.image

/-- Contents of `size` bytes: what is not written out is zero. -/
def Initializer.image (size : Nat) (init : Initializer) : List ImageByte :=
  init.written ++ List.replicate (size - init.size) (.value 0)

/-- What a global contains at the start of the program, unless it is defined elsewhere. -/
def Global.image? (g : Global) : Option (List ImageByte) := g.init.map (Initializer.image g.size)

theorem ConstField.length_image (part : ConstField) : part.image.length = part.size := by
  cases part <;> simp [image, size]

theorem Initializer.length_written (init : Initializer) : init.written.length = init.size := by
  cases init with
  | zero => rfl
  | bytes data => exact List.length_map _
  | fields parts =>
      simp only [written, size]
      induction parts with
      | nil => rfl
      | cons part rest ih =>
          rw [List.flatMap_cons, List.length_append, ih, part.length_image, List.foldr_cons]

theorem Initializer.length_image {init : Initializer} {size : Nat} (h : init.size ≤ size) :
    (init.image size).length = size := by
  rw [image, List.length_append, length_written, List.length_replicate]
  omega

/-- Padded contents are those from before with zeros behind them, as long as the global; if they
were all zero, nothing is written out. -/
structure Initializer.Pads (init : Initializer) (total : Nat) (padded : Initializer) : Prop where
  zero : init = .zero → padded = .zero
  size : init ≠ .zero → padded.size = total
  written : init ≠ .zero →
    padded.written = init.written ++ List.replicate (total - init.size) (.value 0)

theorem Initializer.pads_extend {init : Initializer} {size : Nat} (h : init.size ≤ size) :
    init.Pads size (init.extend (size - init.size)) where
  zero hzero := by rw [hzero, extend]
  size hne := by rw [size_extend hne, Nat.add_sub_cancel' h]
  written hne := by
    cases init with
    | zero => exact absurd rfl hne
    | bytes data => simp [extend, Initializer.written, ConstField.image]
    | fields parts => simp [extend, Initializer.written, ConstField.image]

/-- Zeros that are written out make no difference. -/
theorem Initializer.Pads.image {init padded : Initializer} {size : Nat}
    (h : init.Pads size padded) : padded.image size = init.image size := by
  by_cases hzero : init = .zero
  · rw [h.zero hzero, hzero]
  · rw [Initializer.image, h.written hzero, h.size hzero, Nat.sub_self, List.replicate_zero,
      List.append_nil, Initializer.image]

theorem Initializer.image_add {init : Initializer} {size : Nat} (h : init.size ≤ size)
    (more : Nat) :
    init.image (size + more) = init.image size ++ List.replicate more (.value 0) := by
  rw [image, image, List.append_assoc, List.replicate_append_replicate]
  congr 2
  omega

/-! ### Growth -/

/-- A global grows by its redzone: the object and its contents stay, zeros follow, and the alignment
is that of a global with a redzone. -/
structure Global.Grows (granularity : Nat) (g g' : Global) : Prop where
  size : g'.size = g.size + globalRedzone g.size granularity
  objectSize : g'.objectSize = g.objectSize
  align : g'.align = minGlobalRedzone granularity
  image : ∃ image, image.length = g.size ∧ g.image? = some image ∧
    g'.image? = some (image ++ List.replicate (globalRedzone g.size granularity) (.value 0))
  init : ∃ init padded, g.init = some init ∧ g'.init = some padded ∧ init.Pads g'.size padded
  rest : { g' with size := g.size, align := g.align, padding := g.padding, init := g.init } = g

namespace Global

variable {granularity : Nat} {g : Global} {name : String} {facts : GlobalFacts}

theorem grows_grown (hfits : g.Fits) (h : g.skipReason? granularity name facts = none) :
    g.Grows granularity (g.grown granularity) := by
  obtain ⟨⟨init, hinit⟩, -, halign⟩ := of_skipReason?_eq_none h
  have hsize : init.size ≤ g.size := hfits.init init hinit
  let redzone := globalRedzone g.size granularity
  let padded := init.extend (g.size + redzone - init.size)
  have hpadded : (g.grown granularity).init = some padded := by
    rw [grown, hinit]
    rfl
  have hpads : init.Pads (g.size + redzone) padded :=
    Initializer.pads_extend (hsize.trans (Nat.le_add_right _ _))
  refine ⟨rfl, Nat.add_sub_add_right _ _ _, max_eq_right halign,
    ⟨init.image g.size, Initializer.length_image hsize, ?_, ?_⟩,
    ⟨init, padded, hinit, hpadded, hpads⟩, rfl⟩
  · rw [image?, hinit]
    rfl
  · calc (g.grown granularity).image? = some (padded.image (g.size + redzone)) := by
          rw [image?, hpadded]
          rfl
      _ = some (init.image (g.size + redzone)) := by rw [hpads.image]
      _ = some (init.image g.size ++ List.replicate redzone (.value 0)) := by
          rw [Initializer.image_add hsize]

end Global

/-! ### Runs -/

namespace GlobalsRun

variable {config : Config} {m : Module} {store : Annotations} {ids : List GlobalId}

/-- The globals of the program after a run. -/
theorem globals_module (run : GlobalsRun config m store ids) (hproper : Proper m ids)
    {id : GlobalId} {g : Global} (hg : m.globals[id]? = some g) :
    run.module.globals[id]? =
      some (if id ∈ ids then g.grown config.mapping.granularity else g) := by
  obtain ⟨hpadded, -⟩ := run.padded_spec hproper
  obtain ⟨made, hchanges, -⟩ := run.changes hproper
  split
  · -- the redzone comes in the first stage, and the others only append
    rename_i hid
    exact run.global_module (hpadded id hid g hg)
  · rename_i hid
    exact hchanges.keeps.globals id g hid hg

end GlobalsRun

namespace Module

/-- A run over the globals of a verified module gives redzones to the globals that there is no
reason to skip.  It counts them and the others, and of what was there it changes nothing else but
constructors that run while the initialization order is checked. -/
theorem instrumentGlobals_redzones {config : Config} {m m' : Module} {store : Annotations}
    {outcome : Outcome} (hverify : m.verify = .ok [])
    (h : m.instrumentGlobals config store = .ok (m', .ok outcome))
    (hchanged : outcome.changed = true) :
    (∀ (id : GlobalId) (g : Global), m.globals[id]? = some g → ∃ name g',
        m.symbols.names[g.name]? = some name ∧ m'.globals[id]? = some g' ∧
        if config.globals = true ∧
            g.skipReason? config.mapping.granularity name (store.get id) = none then
          g.Grows config.mapping.granularity g'
        else
          g' = g) ∧
      m.symbols.GrowsTo m'.symbols ∧
      (config.globals = true →
        outcome.stats.globals + outcome.stats.skippedGlobals = m.globals.size) ∧
      ∀ (id : FuncId) (f : Func), m.functions[id]? = some f → m'.functions[id]? = some f ∨
        id ∈ m.initializers ∧ config.initOrder = true ∧ config.kernel = false ∧
          ∃ other, config.globals = true ∧ m.IsEligible config.mapping.granularity store other ∧
            (store.get other).dynInit = true := by
  have hformed := verify_eq_nil_iff.mp hverify
  cases (instrumentGlobals_run h).2 with
  | present => cases hchanged
  | idle => cases hchanged
  | @changed candidates _ hcandidates run =>
      have hproper := GlobalsRun.Proper.of_candidates hformed hcandidates
      obtain ⟨-, hcount, hids⟩ := candidates_spec hcandidates
      obtain ⟨-, -, hdescribes⟩ := run.padded_spec hproper
      obtain ⟨made, hchanges, -⟩ := run.changes hproper
      refine ⟨fun id g hg => ?_, hchanges.keeps.symbols, fun hglobals => ?_, fun id f hf => ?_⟩
      · obtain ⟨name, hname⟩ := SymbolTable.contains_iff.mp (hformed.contains_global hg)
        have hmem : id ∈ candidates.ids ↔ config.globals = true ∧
            g.skipReason? config.mapping.granularity name (store.get id) = none := by
          rw [hids id]
          refine and_congr_right fun _ => ⟨?_, fun hreason => ⟨g, name, hg, hname, hreason⟩⟩
          rintro ⟨g', name', hg', hname', hreason⟩
          obtain rfl := Option.some.inj (hg.symm.trans hg')
          obtain rfl := Option.some.inj (hname.symm.trans hname')
          exact hreason
        refine ⟨name, _, hname, run.globals_module hproper hg, ?_⟩
        split
        · rename_i heligible
          rw [if_pos (hmem.mpr heligible)]
          exact Global.grows_grown (hformed.fits g (Array.mem_of_getElem? hg)) heligible.2
        · rename_i hskipped
          exact if_neg fun hid => hskipped (hmem.mp hid)
      · rw [← (hcount hglobals).1, hdescribes.length_eq]
      · -- a function that is within reach of the run is bracketed, for the sake of some global
        by_cases hrewritten : run.isBracketed = true ∧ id ∈ m.initializers
        · obtain ⟨hbracketed, hid⟩ := hrewritten
          rw [GlobalsRun.isBracketed, Bool.and_eq_true, Bool.and_eq_true, Bool.not_eq_true',
            List.any_eq_true] at hbracketed
          obtain ⟨⟨hinitOrder, hkernel⟩, r, hr, hdynInit⟩ := hbracketed
          obtain ⟨other, hother, hdescribed⟩ := exists_of_forall₂_mem hdescribes hr
          obtain ⟨hglobals, heligible⟩ := (hids other).mp hother
          exact .inr ⟨hid, hinitOrder, hkernel, other, hglobals, heligible,
            hdescribed.dynInit ▸ hdynInit⟩
        · exact .inl (hchanges.keeps.functions id f hrewritten hf)

end Module

/-! ### A shop -/

/-- A constructor that fills a global. -/
def stockFunction : Func where
  name := 1
  params := []
  ret := none
  linkage := .internal
  insts := #[⟨.symbolAddr 2, .ptr 0, [], false⟩, ⟨.iconst 7, .int, [], false⟩,
    ⟨.store (.inst 1) (.inst 0) 4 none, .unit, [], false⟩, ⟨.ret none, .unit, [], false⟩]
  blocks := #[{ argStart := 0, insts := [0, 1, 2, 3] }]

/-- A module with a global that a constructor fills, and one that each thread has for itself. -/
def shopModule : Module where
  name := "shop"
  symbols := ⟨#["chase", "open_shop", "stock", "till"], by decide⟩
  functions := #[chaseFunction, stockFunction]
  globals := #[{ name := 2, size := 12, align := 4, init := some (.bytes [1, 2, 3]) },
    { name := 3, size := 8, align := 8, threadLocal := true }]
  nodes := #[⟨[.global 0, .null, .string "stock", .int 1, .int 0]⟩]
  named := Dict.empty.alter Annotations.listName fun _ => [0]
  ctors := [⟨defaultPriority, 1⟩]

theorem exists_instrumentGlobals_shop :
    ∃ m' outcome, shopModule.instrumentGlobals {} (.ofModule shopModule) = .ok (m', .ok outcome) ∧
      outcome.changed = true ∧ outcome.stats.globals = 1 ∧ outcome.stats.wrapped = 1 := by
  obtain ⟨m', outcome, hrun, hsucceeds⟩ := Module.exists_of_succeeds
    (shopModule.instrumentGlobals {} (.ofModule shopModule))
    (fun _ outcome => decide (outcome.changed = true ∧ outcome.stats.globals = 1 ∧
      outcome.stats.wrapped = 1)) (by decide +kernel)
  exact ⟨m', outcome, hrun, of_decide_eq_true hsucceeds⟩

theorem instrumentGlobals_redzones_shop :
    ∃ m' outcome, shopModule.instrumentGlobals {} (.ofModule shopModule) = .ok (m', .ok outcome) ∧
      outcome.stats.globals + outcome.stats.skippedGlobals = 2 ∧
      (∀ g, shopModule.globals[0]? = some g → ∃ g', m'.globals[0]? = some g' ∧ g.Grows 8 g') ∧
      m'.globals[1]? = shopModule.globals[1]? := by
  obtain ⟨m', outcome, hrun, hchanged, -⟩ := exists_instrumentGlobals_shop
  obtain ⟨hglobals, -, hcount, -⟩ :=
    Module.instrumentGlobals_redzones (by decide +kernel) hrun hchanged
  refine ⟨m', outcome, hrun, hcount rfl, fun g hg => ?_, ?_⟩
  · obtain ⟨name, g', hname, hg', hcases⟩ := hglobals 0 g hg
    cases hg
    cases hname
    rw [if_pos (by decide +kernel)] at hcases
    exact ⟨g', hg', hcases⟩
  · obtain ⟨name, g', hname, hg', hcases⟩ := hglobals 1 _ rfl
    cases hname
    rw [if_neg (by decide +kernel)] at hcases
    rw [hg', hcases]
    rfl

end Redzone
