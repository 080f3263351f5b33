import Redzone.Proofs.Modules.Change
import Redzone.Verify.Module

/-!
# Well-formed modules

A verification goes through the names, the lists, the globals, the metadata and the functions of a
module.  `Module.verify_eq_nil_iff` says what a module is like in which it finds nothing.
-/

namespace Redzone

/-! ### Names and their numbers -/

namespace SymbolTable

variable {table : SymbolTable} {symbol other : SymbolId} {name : String}

theorem resolve_eq_ok_iff : table.resolve symbol = .ok name ↔ table.names[symbol]? = some name := by
  refine ⟨names_of_resolve, fun h => ?_⟩
  rw [resolve, h]

theorem eq_of_names (h : table.names[symbol]? = some name) (h' : table.names[other]? = some name) :
    symbol = other := by
  have hlt : symbol < table.names.toList.length := by
    simpa using (Array.getElem?_eq_some_iff.mp h).1
  apply (List.getElem?_inj hlt table.nodup).mp
  rw [Array.getElem?_toList, Array.getElem?_toList, h, h']

theorem get?_eq_some_iff :
    table.get? name = some symbol ↔ table.names[symbol]? = some name := by
  rw [get?, List.idxOf?_eq_some_iff]
  constructor
  · rintro ⟨hlt, hname, -⟩
    rw [← Array.getElem?_toList, List.getElem?_eq_getElem hlt, hname]
  · intro hname
    rw [← Array.getElem?_toList] at hname
    obtain ⟨hlt, hget⟩ := List.getElem?_eq_some_iff.mp hname
    refine ⟨hlt, hget, fun other hother heq => hother.ne ?_⟩
    have hother := List.getElem?_eq_getElem (hother.trans hlt)
    rw [heq] at hother
    rw [Array.getElem?_toList] at hname hother
    exact eq_of_names hother hname

theorem contains_iff : table.contains symbol = true ↔ ∃ name, table.names[symbol]? = some name := by
  rw [contains, decide_eq_true_iff]
  constructor
  · intro hlt
    exact ⟨_, Array.getElem?_eq_getElem hlt⟩
  · rintro ⟨name, hname⟩
    exact (Array.getElem?_eq_some_iff.mp hname).1

theorem GrowsTo.contains {table' : SymbolTable} (h : table.GrowsTo table')
    (hsymbol : table.contains symbol = true) : table'.contains symbol = true := by
  obtain ⟨name, hname⟩ := contains_iff.mp hsymbol
  exact contains_iff.mpr ⟨name, h symbol name hname⟩

theorem mapM_resolve_eq_ok_iff {α : Type} {key : α → SymbolId} {l : List α} {names : List String} :
    (l.mapM fun a => table.resolve (key a)) = .ok names ↔
      l.map (fun a => table.names[key a]?) = names.map some := by
  induction l generalizing names with
  | nil =>
      cases names with
      | nil => exact iff_of_true rfl rfl
      | cons => exact iff_of_false nofun nofun
  | cons a rest ih =>
      rw [List.mapM_cons]
      constructor
      · intro h
        obtain ⟨name, hname, h⟩ := bind_eq_ok h
        obtain ⟨others, hothers, h⟩ := bind_eq_ok h
        obtain rfl := Except.ok.inj h
        rw [List.map_cons, List.map_cons, names_of_resolve hname, ih.mp hothers]
      · intro h
        cases names with
        | nil => cases h
        | cons name others =>
            rw [List.map_cons, List.map_cons, List.cons.injEq] at h
            rw [resolve_eq_ok_iff.mpr h.1, ok_bind, ih.mpr h.2]
            rfl

end SymbolTable

/-! ### What a verification finds -/

namespace Module

variable {m : Module}

theorem repeatedNames_eq_nil_iff {seen names : List String} :
    repeatedNames seen names = [] ↔ names.Nodup ∧ ∀ name ∈ names, name ∉ seen := by
  induction names generalizing seen with
  | nil => simp [repeatedNames]
  | cons name rest ih =>
      rw [repeatedNames]
      split
      · rename_i hseen
        simp [hseen]
      · rename_i hseen
        rw [ih, List.nodup_cons, List.forall_mem_cons]
        simp only [List.mem_cons, not_or]
        constructor
        · rintro ⟨hnodup, hrest⟩
          exact ⟨⟨fun hmem => (hrest name hmem).1 rfl, hnodup⟩, hseen, fun other hother =>
            (hrest other hother).2⟩
        · rintro ⟨⟨hname, hnodup⟩, -, hrest⟩
          refine ⟨hnodup, fun other hother => ⟨?_, hrest other hother⟩⟩
          rintro rfl
          exact hname hother

theorem functionBySymbol_eq_none_iff {symbol : SymbolId} :
    m.functionBySymbol symbol = none ↔ ∀ f ∈ m.functions, f.name ≠ symbol := by
  simp [functionBySymbol]

theorem verifyEntry_eq_nil_iff {entry : ListEntry} :
    m.verifyEntry entry = .ok [] ↔ ∃ f ∈ m.functions, f.name = entry.function := by
  unfold verifyEntry
  split
  · rename_i id hid
    refine iff_of_true rfl ?_
    by_contra hnone
    rw [functionBySymbol_eq_none_iff.mpr fun f hf heq => hnone ⟨f, hf, heq⟩] at hid
    cases hid
  · rename_i hnone
    rw [functionBySymbol_eq_none_iff] at hnone
    refine iff_of_false (fun h => ?_) fun ⟨f, hf, heq⟩ => hnone f hf heq
    obtain ⟨name, -, h⟩ := bind_eq_ok h
    cases h

theorem globalDefects_eq_nil_iff {seen : List SymbolId} {g : Global} :
    m.globalDefects seen g = [] ↔
      g.name ∉ seen ∧ (∀ f ∈ m.functions, f.name ≠ g.name) ∧ g.Fits := by
  have hcollides : (m.functionBySymbol g.name).isSome = false ↔
      ∀ f ∈ m.functions, f.name ≠ g.name := by
    rw [Option.isSome_eq_false_iff, Option.isNone_iff_eq_none, functionBySymbol_eq_none_iff]
  simp only [globalDefects, List.append_eq_nil_iff]
  rw [← hcollides]
  constructor
  · rintro ⟨⟨⟨⟨hseen, hfunction⟩, halign⟩, hpadding⟩, hinit⟩
    refine ⟨?_, ?_, ?_, ?_, fun init hsome => ?_⟩
    · by_contra hmem
      rw [if_pos hmem] at hseen
      cases hseen
    · by_contra hsome
      rw [Bool.not_eq_false] at hsome
      rw [if_pos hsome] at hfunction
      cases hfunction
    · by_contra hnot
      rw [if_neg hnot] at halign
      cases halign
    · by_contra hlt
      rw [if_pos (Nat.lt_of_not_le hlt)] at hpadding
      cases hpadding
    · by_contra hlt
      simp only [hsome, if_pos (Nat.lt_of_not_le hlt)] at hinit
      cases hinit
  · rintro ⟨hseen, hfunction, halign, hpadding, hinit⟩
    refine ⟨⟨⟨⟨if_neg hseen, if_neg ?_⟩, if_pos halign⟩, if_neg (Nat.not_lt.mpr hpadding)⟩, ?_⟩
    · rw [hfunction]
      exact Bool.false_ne_true
    · cases hsome : g.init with
      | none => rfl
      | some init => exact if_neg (Nat.not_lt.mpr (hinit init hsome))

theorem verifyGlobals_eq_nil_iff {seen : List SymbolId} {globals : List Global} :
    m.verifyGlobals seen globals = .ok [] ↔
      ((globals.map Global.name).Nodup ∧ ∀ g ∈ globals, g.name ∉ seen) ∧
        ∀ g ∈ globals, m.symbols.contains g.name = true ∧
          (∀ f ∈ m.functions, f.name ≠ g.name) ∧ g.Fits := by
  induction globals generalizing seen with
  | nil => simp [verifyGlobals]
  | cons g rest ih =>
      have hcons : m.verifyGlobals seen (g :: rest) = .ok [] ↔
          m.symbols.contains g.name = true ∧ m.globalDefects seen g = [] ∧
            m.verifyGlobals (g.name :: seen) rest = .ok [] := by
        constructor
        · intro h
          obtain ⟨name, hname, h⟩ := bind_eq_ok h
          obtain ⟨findings, hfindings, h⟩ := bind_eq_ok h
          obtain ⟨hdefects, rfl⟩ := List.append_eq_nil_iff.mp (Except.ok.inj h)
          exact ⟨SymbolTable.contains_iff.mpr ⟨name, SymbolTable.names_of_resolve hname⟩,
            List.map_eq_nil_iff.mp hdefects, hfindings⟩
        · rintro ⟨hcontains, hdefects, hfindings⟩
          obtain ⟨name, hname⟩ := SymbolTable.contains_iff.mp hcontains
          rw [verifyGlobals, resolve, SymbolTable.resolve_eq_ok_iff.mpr hname, ok_bind, hfindings,
            ok_bind, hdefects]
          rfl
      rw [hcons, globalDefects_eq_nil_iff, ih, List.map_cons, List.nodup_cons, List.forall_mem_cons,
        List.forall_mem_cons]
      simp only [List.mem_map, List.mem_cons, not_or, not_exists, not_and]
      constructor
      · rintro ⟨hcontains, ⟨hseen, hg⟩, ⟨hnodup, hrest⟩, hall⟩
        exact ⟨⟨⟨fun g' hg' heq => (hrest g' hg').1 heq, hnodup⟩, hseen,
          fun g' hg' => (hrest g' hg').2⟩, ⟨hcontains, hg⟩, hall⟩
      · rintro ⟨⟨⟨hnew, hnodup⟩, hseen, hrest⟩, ⟨hcontains, hg⟩, hall⟩
        exact ⟨hcontains, ⟨hseen, hg⟩, ⟨hnodup, fun g' hg' => ⟨hnew g' hg', hrest g' hg'⟩⟩, hall⟩

theorem verify_func_eq_nil_iff {f : Func} {symbols : SymbolTable} :
    f.verify symbols = .ok [] ↔
      symbols.contains f.name = true ∧ f.Sound symbols ∧ f.ParamsInEntry := by
  constructor
  · intro h
    obtain ⟨name, hname, hbody⟩ := bind_eq_ok h
    exact ⟨SymbolTable.contains_iff.mpr ⟨name, SymbolTable.names_of_resolve hname⟩,
      Func.verifyBody_eq_nil_iff.mp hbody⟩
  · rintro ⟨hcontains, hbody⟩
    obtain ⟨name, hname⟩ := SymbolTable.contains_iff.mp hcontains
    rw [Func.verify, SymbolTable.resolve_eq_ok_iff.mpr hname, ok_bind]
    exact Func.verifyBody_eq_nil_iff.mpr hbody

/-- A symbol names a global or a function of a module. -/
def Names (m : Module) (symbol : SymbolId) : Prop :=
  (∃ g ∈ m.globals, g.name = symbol) ∨ ∃ f ∈ m.functions, f.name = symbol

/-- A module in which nothing is wrong. -/
structure WellFormed (m : Module) : Prop where
  named : ∀ symbol, m.Names symbol → m.symbols.contains symbol = true
  functionNames : (m.functions.toList.map Func.name).Nodup
  globalNames : (m.globals.toList.map Global.name).Nodup
  apart : ∀ g ∈ m.globals, ∀ f ∈ m.functions, f.name ≠ g.name
  fits : ∀ g ∈ m.globals, g.Fits
  listed : ∀ entry ∈ m.ctors ++ m.dtors, ∃ f ∈ m.functions, f.name = entry.function
  metadata : m.metadataDefects = []
  sound : ∀ f ∈ m.functions, f.Sound m.symbols ∧ f.ParamsInEntry

/-- Functions have different names if they have different symbols. -/
theorem repeatedNames_functions_eq_nil_iff {names : List String}
    (h : (m.functions.toList.mapM fun f => m.resolve f.name) = .ok names) :
    repeatedNames [] names = [] ↔ (m.functions.toList.map Func.name).Nodup := by
  have hmap := SymbolTable.mapM_resolve_eq_ok_iff.mp h
  have hsome : ∀ symbol ∈ m.functions.toList.map Func.name,
      ∃ name, m.symbols.names[symbol]? = some name := by
    intro symbol hsymbol
    obtain ⟨f, hf, rfl⟩ := List.mem_map.mp hsymbol
    obtain ⟨name, -, hname⟩ := mapM_eq_ok h f hf
    exact ⟨name, SymbolTable.names_of_resolve hname⟩
  have hcompose : m.functions.toList.map (fun f => m.symbols.names[f.name]?) =
      (m.functions.toList.map Func.name).map fun symbol => m.symbols.names[symbol]? := by
    rw [List.map_map]
    rfl
  rw [repeatedNames_eq_nil_iff, and_iff_left (by simp),
    ← List.nodup_map_iff (Option.some_injective _), ← hmap, hcompose]
  refine ⟨List.Nodup.of_map _, fun hnodup => hnodup.map_on fun symbol hsymbol other _ heq => ?_⟩
  obtain ⟨name, hname⟩ := hsome symbol hsymbol
  exact SymbolTable.eq_of_names hname (heq ▸ hname)

/-- Nothing is found in a module exactly if it is well formed. -/
theorem verify_eq_nil_iff : m.verify = .ok [] ↔ m.WellFormed := by
  constructor
  · intro h
    obtain ⟨names, hnames, h⟩ := bind_eq_ok h
    obtain ⟨entries, hentries, h⟩ := bind_eq_ok h
    obtain ⟨globals, hglobals, h⟩ := bind_eq_ok h
    obtain ⟨hbefore, hfunctions⟩ := (flatten_mapM_eq_nil_iff _).mp h
    simp only [List.append_eq_nil_iff, List.map_eq_nil_iff] at hbefore
    obtain ⟨⟨⟨hrepeated, hentries'⟩, rfl⟩, hmetadata⟩ := hbefore
    obtain ⟨⟨hglobalNames, -⟩, hglobals⟩ := verifyGlobals_eq_nil_iff.mp hglobals
    -- constructors and destructors are verified in a fold of their own
    have hlisted := ((flatten_mapM_eq_nil_iff []).mp
      (show ((m.ctors ++ m.dtors).mapM m.verifyEntry >>= fun found => .ok ([] ++ found.flatten)) =
        .ok [] by rw [hentries, ok_bind, hentries', List.append_nil])).2
    simp only [Array.mem_toList_iff, verify_func_eq_nil_iff] at hfunctions hglobals
    refine ⟨?_, (repeatedNames_functions_eq_nil_iff hnames).mp hrepeated, hglobalNames,
      fun g hg => (hglobals g hg).2.1, fun g hg => (hglobals g hg).2.2,
      fun entry hentry => verifyEntry_eq_nil_iff.mp (hlisted entry hentry), hmetadata,
      fun f hf => (hfunctions f hf).2⟩
    rintro symbol (⟨g, hg, rfl⟩ | ⟨f, hf, rfl⟩)
    · exact (hglobals g hg).1
    · exact (hfunctions f hf).1
  · intro h
    have hnamed : ∀ f ∈ m.functions, m.symbols.contains f.name = true :=
      fun f hf => h.named _ (.inr ⟨f, hf, rfl⟩)
    -- a verification looks up all names before it looks at anything else
    obtain ⟨names, hnames⟩ : ∃ names,
        (m.functions.toList.mapM fun f => m.resolve f.name) = .ok names := by
      refine ⟨m.functions.toList.map fun f => m.symbols.names.getD f.name "",
        SymbolTable.mapM_resolve_eq_ok_iff.mpr ?_⟩
      rw [List.map_map]
      refine List.map_congr_left fun f hf => ?_
      obtain ⟨name, hname⟩ := SymbolTable.contains_iff.mp (hnamed f (Array.mem_toList_iff.mp hf))
      simp [hname]
    have hglobals : m.verifyGlobals [] m.globals.toList = .ok [] := by
      refine verifyGlobals_eq_nil_iff.mpr ⟨⟨h.globalNames, by simp⟩, fun g hg => ?_⟩
      rw [Array.mem_toList_iff] at hg
      exact ⟨h.named _ (.inl ⟨g, hg, rfl⟩), h.apart g hg, h.fits g hg⟩
    obtain ⟨entries, hentries, hnil⟩ := bind_eq_ok ((flatten_mapM_eq_nil_iff []).mpr
      ⟨rfl, fun entry hentry => verifyEntry_eq_nil_iff.mpr (h.listed entry hentry)⟩)
    rw [verify, hnames, ok_bind, hentries, ok_bind, hglobals, ok_bind,
      (repeatedNames_functions_eq_nil_iff hnames).mpr h.functionNames, h.metadata,
      Except.ok.inj hnil]
    refine (flatten_mapM_eq_nil_iff _).mpr ⟨rfl, fun f hf => verify_func_eq_nil_iff.mpr ?_⟩
    rw [Array.mem_toList_iff] at hf
    exact ⟨hnamed f hf, h.sound f hf⟩

end Module

end Redzone
