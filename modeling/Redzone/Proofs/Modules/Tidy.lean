import Redzone.Proofs.Edits.Run
import Redzone.Proofs.Modules.WellFormed

/-!
# Changes keep a module well formed

A change may make symbols for what it adds, and it leaves the module well formed if these are new.
Whether they are depends on the names that are taken, and these are the old ones, the symbols that
were made and names of routines (`Changes.taken_cases`).  So changes keep a module tidy if they make
no symbol twice and all of them are new to the module that they start from (`Changes.tidy`).
-/

namespace Redzone

namespace Module

variable {m : Module}

/-- A text is the name of a global or a function. -/
def Taken (m : Module) (text : String) : Prop :=
  ∃ symbol, m.symbols.names[symbol]? = some text ∧ m.Names symbol

/-- A well-formed module that is ready for changes: parameters lead, and no global has the name of a
routine. -/
structure Tidy (m : Module) : Prop extends WellFormed m where
  paramsLead : ∀ f ∈ m.functions, f.ParamsLead
  unclaimed : ∀ g ∈ m.globals, ∀ name, m.symbols.names[g.name]? = some name → ¬ IsRoutine name

/-- Nothing that metadata refers to gets lost. -/
theorem metadataDefects_eq_nil {m' : Module} (h : m.metadataDefects = [])
    (hmetadata : m'.nodes = m.nodes ∧ m'.named = m.named)
    (hsize : m.globals.size ≤ m'.globals.size) : m'.metadataDefects = [] := by
  have hoperand : ∀ node operand, m.operandDefects node operand = [] →
      m'.operandDefects node operand = [] := by
    intro node operand
    cases operand with
    | global id =>
        simp only [operandDefects]
        intro hid
        by_cases hlt : id < m.globals.size
        · rw [if_pos (hlt.trans_le hsize)]
        · rw [if_neg hlt] at hid
          cases hid
    | node id =>
        simp only [operandDefects, hmetadata.1]
        exact fun h => h
    | _ => exact fun h => h
  simp only [metadataDefects, hmetadata.1, hmetadata.2, List.append_eq_nil_iff,
    List.flatMap_eq_nil_iff] at h ⊢
  exact ⟨h.1, fun node hnode operand hmem => hoperand _ _ (h.2 node hnode operand hmem)⟩

theorem map_setIfInBounds {α β : Type} {xs : Array α} {i : Nat} {x y : α} (key : α → β)
    (h : xs[i]? = some x) (hkey : key y = key x) :
    (xs.setIfInBounds i y).toList.map key = xs.toList.map key := by
  rw [Array.toList_setIfInBounds, List.map_set, hkey]
  apply List.ext_getElem?
  intro j
  rw [List.getElem?_set]
  split
  · rename_i hij
    subst hij
    obtain ⟨hi, rfl⟩ := Array.getElem?_eq_some_iff.mp h
    simp [hi]
  · rfl

variable {m' : Module} {symbols : SymbolTable}

namespace Tidy

theorem grow (h : m.Tidy) (hgrows : m.symbols.GrowsTo symbols) (used : List SymbolId) :
    Tidy { m with symbols := symbols, used := used } where
  named symbol hsymbol := hgrows.contains (h.named symbol hsymbol)
  functionNames := h.functionNames
  globalNames := h.globalNames
  apart := h.apart
  fits := h.fits
  listed := h.listed
  metadata := metadataDefects_eq_nil h.metadata ⟨rfl, rfl⟩ le_rfl
  sound f hf := ⟨(h.sound f hf).1.mono hgrows.size_le, (h.sound f hf).2⟩
  paramsLead := h.paramsLead
  unclaimed g hg name hname := by
    obtain ⟨name', hname'⟩ := SymbolTable.contains_iff.mp (h.named _ (.inl ⟨g, hg, rfl⟩))
    obtain rfl := Option.some.inj ((hgrows _ _ hname').symm.trans hname)
    exact h.unclaimed g hg name' hname'

theorem addGlobal {g : Global} (h : m.Tidy) (hname : m.symbols.contains g.name = true)
    (hnew : ¬ m.Names g.name) (hfits : g.Fits)
    (hunclaimed : ∀ name, m.symbols.names[g.name]? = some name → ¬ IsRoutine name) :
    (m.addGlobal g).1.Tidy where
  named := by
    rintro symbol (⟨g', hg', rfl⟩ | hf)
    · rcases Array.mem_push.mp hg' with hg' | rfl
      · exact h.named _ (.inl ⟨g', hg', rfl⟩)
      · exact hname
    · exact h.named _ (.inr hf)
  functionNames := h.functionNames
  globalNames := by
    simp only [Module.addGlobal, Array.toList_push, List.map_append, List.map_singleton]
    refine List.Nodup.append h.globalNames (List.nodup_singleton _) ?_
    rw [List.disjoint_singleton]
    intro hmem
    obtain ⟨g', hg', heq⟩ := List.mem_map.mp hmem
    exact hnew (.inl ⟨g', Array.mem_toList_iff.mp hg', heq⟩)
  apart g' hg' f hf := by
    rcases Array.mem_push.mp hg' with hg' | rfl
    · exact h.apart g' hg' f hf
    · exact fun heq => hnew (.inr ⟨f, hf, heq⟩)
  fits g' hg' := by
    rcases Array.mem_push.mp hg' with hg' | rfl
    · exact h.fits g' hg'
    · exact hfits
  listed := h.listed
  metadata := metadataDefects_eq_nil h.metadata ⟨rfl, rfl⟩ (by simp [Module.addGlobal])
  sound := h.sound
  paramsLead := h.paramsLead
  unclaimed g' hg' := by
    rcases Array.mem_push.mp hg' with hg' | rfl
    · exact h.unclaimed g' hg'
    · exact hunclaimed

theorem addFunction {f : Func} (h : m.Tidy) (hname : m.symbols.contains f.name = true)
    (hnew : ¬ m.Names f.name) (hsound : f.Sound m.symbols) (hparams : f.ParamsLead) :
    (m.addFunction f).1.Tidy where
  named := by
    rintro symbol (hg | ⟨f', hf', rfl⟩)
    · exact h.named _ (.inl hg)
    · rcases Array.mem_push.mp hf' with hf' | rfl
      · exact h.named _ (.inr ⟨f', hf', rfl⟩)
      · exact hname
  functionNames := by
    simp only [Module.addFunction, Array.toList_push, List.map_append, List.map_singleton]
    refine List.Nodup.append h.functionNames (List.nodup_singleton _) ?_
    rw [List.disjoint_singleton]
    intro hmem
    obtain ⟨f', hf', heq⟩ := List.mem_map.mp hmem
    exact hnew (.inr ⟨f', Array.mem_toList_iff.mp hf', heq⟩)
  globalNames := h.globalNames
  apart g hg f' hf' := by
    rcases Array.mem_push.mp hf' with hf' | rfl
    · exact h.apart g hg f' hf'
    · exact fun heq => hnew (.inl ⟨g, hg, heq.symm⟩)
  fits := h.fits
  listed entry hentry := by
    obtain ⟨f', hf', heq⟩ := h.listed entry hentry
    exact ⟨f', Array.mem_push.mpr (.inl hf'), heq⟩
  metadata := metadataDefects_eq_nil h.metadata ⟨rfl, rfl⟩ le_rfl
  sound f' hf' := by
    rcases Array.mem_push.mp hf' with hf' | rfl
    · exact h.sound f' hf'
    · exact ⟨hsound, hparams.paramsInEntry⟩
  paramsLead f' hf' := by
    rcases Array.mem_push.mp hf' with hf' | rfl
    · exact h.paramsLead f' hf'
    · exact hparams
  unclaimed := h.unclaimed

theorem setGlobal {id : GlobalId} {g g' : Global} (h : m.Tidy) (hg : m.globals[id]? = some g)
    (hname : g'.name = g.name) (hfits : g'.Fits) : (m.setGlobal id g').Tidy := by
  have hnames := map_setIfInBounds Global.name hg hname
  have hmem : ∀ other ∈ m.globals.setIfInBounds id g', other = g' ∨ other ∈ m.globals :=
    fun other hother => (Array.mem_or_eq_of_mem_setIfInBounds hother).symm
  have hold : g ∈ m.globals := Array.mem_of_getElem? hg
  refine ⟨⟨?_, h.functionNames, ?_, fun other hother => ?_, fun other hother => ?_, h.listed, ?_,
    h.sound⟩, h.paramsLead, fun other hother => ?_⟩
  · rintro symbol (⟨other, hother, rfl⟩ | hf)
    · rcases hmem other hother with rfl | hother
      · rw [hname]
        exact h.named _ (.inl ⟨g, hold, rfl⟩)
      · exact h.named _ (.inl ⟨other, hother, rfl⟩)
    · exact h.named _ (.inr hf)
  · exact hnames ▸ h.globalNames
  · rcases hmem other hother with rfl | hother
    · rw [hname]
      exact h.apart g hold
    · exact h.apart other hother
  · rcases hmem other hother with rfl | hother
    · exact hfits
    · exact h.fits other hother
  · exact metadataDefects_eq_nil h.metadata ⟨rfl, rfl⟩ (by simp [Module.setGlobal])
  · rcases hmem other hother with rfl | hother
    · rw [hname]
      exact h.unclaimed g hold
    · exact h.unclaimed other hother

theorem setFunction {id : FuncId} {f f' : Func} (h : m.Tidy) (hf : m.functions[id]? = some f)
    (hname : f'.name = f.name) (hsound : f'.Sound m.symbols) (hparams : f'.ParamsLead) :
    (m.setFunction id f').Tidy := by
  have hnames := map_setIfInBounds Func.name hf hname
  have hmem : ∀ other ∈ m.functions.setIfInBounds id f', other = f' ∨ other ∈ m.functions :=
    fun other hother => (Array.mem_or_eq_of_mem_setIfInBounds hother).symm
  have hold : f ∈ m.functions := Array.mem_of_getElem? hf
  refine ⟨⟨?_, ?_, h.globalNames, fun g hg other hother => ?_, h.fits, fun entry hentry => ?_, ?_,
    fun other hother => ?_⟩, fun other hother => ?_, h.unclaimed⟩
  · rintro symbol (hg | ⟨other, hother, rfl⟩)
    · exact h.named _ (.inl hg)
    · rcases hmem other hother with rfl | hother
      · rw [hname]
        exact h.named _ (.inr ⟨f, hold, rfl⟩)
      · exact h.named _ (.inr ⟨other, hother, rfl⟩)
  · exact hnames ▸ h.functionNames
  · rcases hmem other hother with rfl | hother
    · rw [hname]
      exact h.apart g hg f hold
    · exact h.apart g hg other hother
  · obtain ⟨other, hother, heq⟩ := h.listed entry hentry
    have hlisted : entry.function ∈ m.functions.toList.map Func.name :=
      List.mem_map.mpr ⟨other, Array.mem_toList_iff.mpr hother, heq⟩
    rw [← hnames] at hlisted
    obtain ⟨other', hother', heq'⟩ := List.mem_map.mp hlisted
    exact ⟨other', Array.mem_toList_iff.mp hother', heq'⟩
  · exact metadataDefects_eq_nil h.metadata ⟨rfl, rfl⟩ le_rfl
  · rcases hmem other hother with rfl | hother
    · exact ⟨hsound, hparams.paramsInEntry⟩
    · exact h.sound other hother
  · rcases hmem other hother with rfl | hother
    · exact hparams
    · exact h.paramsLead other hother

theorem list {ctors dtors : List ListEntry} (h : m.Tidy)
    (hlisted : ∀ entry ∈ ctors ++ dtors, ∃ f ∈ m.functions, f.name = entry.function) :
    Tidy { m with ctors := m.ctors ++ ctors, dtors := m.dtors ++ dtors } :=
  ⟨⟨h.named, h.functionNames, h.globalNames, h.apart, h.fits, fun entry hentry => by
      simp only [List.mem_append] at hentry
      rcases hentry with (hentry | hentry) | hentry | hentry
      · exact h.listed entry (List.mem_append_left _ hentry)
      · exact hlisted entry (List.mem_append_left _ hentry)
      · exact h.listed entry (List.mem_append_right _ hentry)
      · exact hlisted entry (List.mem_append_right _ hentry),
    metadataDefects_eq_nil h.metadata ⟨rfl, rfl⟩ le_rfl, h.sound⟩, h.paramsLead, h.unclaimed⟩

end Tidy

/-- A redzone fits behind a global that fits. -/
theorem fits_grown {g : Global} {granularity : Nat}
    (hgranularity : isPowerOfTwo granularity = true) (h : g.Fits) :
    (g.grown granularity).Fits where
  align := isPowerOfTwo_max h.align (isPowerOfTwo_max hgranularity (by decide))
  padding := Nat.add_le_add_right h.padding _
  init init hinit := by
    obtain ⟨old, hold, rfl⟩ := Option.map_eq_some_iff.mp hinit
    have hle : old.size ≤ (g.grown granularity).size :=
      (h.init old hold).trans (Nat.le_add_right _ _)
    by_cases hzero : old = .zero
    · rw [hzero]
      exact Nat.zero_le _
    · rw [Initializer.size_extend hzero]
      exact (Nat.add_sub_cancel' hle).le

/-- A change keeps a module tidy if the symbols that it makes are new. -/
theorem Change.tidy {granularity : Nat} {reach : Reach} {made : List OwnSymbol}
    (h : Change granularity reach m made m') (hgranularity : isPowerOfTwo granularity = true)
    (htidy : m.Tidy) (hnew : ∀ own ∈ made, ¬ m.Taken own.text) : m'.Tidy := by
  cases h with
  | grow hgrows => exact htidy.grow hgrows _
  | @global g own hname hfits =>
      refine htidy.addGlobal (SymbolTable.contains_iff.mpr ⟨_, hname⟩)
        (fun hnames => hnew own List.mem_cons_self ⟨_, hname, hnames⟩) hfits fun name hname' => ?_
      rw [← Option.some.inj (hname.symm.trans hname')]
      exact own.not_isRoutine
  | @pad id g _ hg =>
      exact htidy.setGlobal hg rfl
        (fits_grown hgranularity (htidy.fits g (Array.mem_of_getElem? hg)))
  | @function f own _ hname hsound hparams =>
      exact htidy.addFunction (SymbolTable.contains_iff.mpr ⟨_, hname⟩)
        (fun hnames => hnew own List.mem_cons_self ⟨_, hname, hnames⟩) hsound hparams
  | @declare name params ret _ hroutine =>
      have hgrown := htidy.grow (m.symbols.growsTo_intern name) m.used
      have hsymbol : (m.intern name).1.symbols.names[(m.intern name).2]? = some name :=
        m.symbols.names_intern name
      rcases m.declare_cases name params ret with heq | ⟨heq, hnone⟩
      · exact heq ▸ hgrown
      · rw [heq]
        refine hgrown.addFunction (SymbolTable.contains_iff.mpr ⟨_, hsymbol⟩) ?_ ?_ ?_
        · -- a global of the routine's name would claim it, and a function would have been found
          rintro (⟨g, hg, hname⟩ | ⟨f, hf, hname⟩)
          · exact hgrown.unclaimed g hg name (hname ▸ hsymbol) hroutine
          · exact hnone f hf hname
        · refine ⟨?_, ?_, ?_, ?_⟩ <;> simp [Func.listed]
        · intro b pos i hat
          simp [Func.At] at hat
  | @rewrite id f f' _ _ hf hname hkeeps =>
      have hmem := Array.mem_of_getElem? hf
      obtain ⟨hsound, hparams⟩ := hkeeps (htidy.sound f hmem).1 (htidy.paramsLead f hmem)
      exact htidy.setFunction hf hname hsound hparams
  | list _ hlisted => exact htidy.list hlisted

/-! ### Names that are taken -/

/-- Symbols of globals and functions are in the symbol table. -/
def AllNamed (m : Module) : Prop := ∀ symbol, m.Names symbol → m.symbols.contains symbol = true

/-- What goes by a symbol after a change did so before, it was made, or it is a routine. -/
theorem Change.names_cases {granularity : Nat} {reach : Reach} {made : List OwnSymbol}
    (h : Change granularity reach m made m') {symbol : SymbolId} (hnames : m'.Names symbol) :
    m.Names symbol ∨ ∃ text, m'.symbols.names[symbol]? = some text ∧
      ((∃ own ∈ made, own.text = text) ∨ IsRoutine text) := by
  cases h with
  | grow | list => exact .inl hnames
  | @global g own hname =>
      rcases hnames with ⟨g', hg', rfl⟩ | hf
      · rcases Array.mem_push.mp hg' with hg' | rfl
        · exact .inl (.inl ⟨g', hg', rfl⟩)
        · exact .inr ⟨_, hname, .inl ⟨own, List.mem_cons_self, rfl⟩⟩
      · exact .inl (.inr hf)
  | @pad id g _ hg =>
      rcases hnames with ⟨g', hg', rfl⟩ | hf
      · refine .inl (.inl ?_)
        rcases Array.mem_or_eq_of_mem_setIfInBounds hg' with hg' | rfl
        · exact ⟨g', hg', rfl⟩
        · exact ⟨g, Array.mem_of_getElem? hg, rfl⟩
      · exact .inl (.inr hf)
  | @function f own _ hname =>
      rcases hnames with hg | ⟨f', hf', rfl⟩
      · exact .inl (.inl hg)
      · rcases Array.mem_push.mp hf' with hf' | rfl
        · exact .inl (.inr ⟨f', hf', rfl⟩)
        · exact .inr ⟨_, hname, .inl ⟨own, List.mem_cons_self, rfl⟩⟩
  | @declare name params ret _ hroutine =>
      rcases m.declare_cases name params ret with heq | ⟨heq, -⟩
      · rw [heq] at hnames
        exact .inl hnames
      · rw [heq] at hnames ⊢
        rcases hnames with hg | ⟨f', hf', rfl⟩
        · exact .inl (.inl hg)
        · rcases Array.mem_push.mp hf' with hf' | rfl
          · exact .inl (.inr ⟨f', hf', rfl⟩)
          · exact .inr ⟨name, m.symbols.names_intern name, .inr hroutine⟩
  | @rewrite id f f' _ _ hf hname =>
      rcases hnames with hg | ⟨other, hother, rfl⟩
      · exact .inl (.inl hg)
      · refine .inl (.inr ?_)
        rcases Array.mem_or_eq_of_mem_setIfInBounds hother with hother | rfl
        · exact ⟨other, hother, rfl⟩
        · exact ⟨f, Array.mem_of_getElem? hf, hname.symm⟩

/-- The names that are taken after a change. -/
theorem Change.taken_cases {granularity : Nat} {reach : Reach} {made : List OwnSymbol}
    (h : Change granularity reach m made m') (hnamed : m.AllNamed) :
    m'.AllNamed ∧ ∀ text, m'.Taken text →
      m.Taken text ∨ (∃ own ∈ made, own.text = text) ∨ IsRoutine text := by
  refine ⟨fun symbol hnames => ?_, fun text ⟨symbol, hsymbol, hnames⟩ => ?_⟩
  · rcases h.names_cases hnames with hold | ⟨text, htext, -⟩
    · exact h.keeps.symbols.contains (hnamed symbol hold)
    · exact SymbolTable.contains_iff.mpr ⟨text, htext⟩
  · rcases h.names_cases hnames with hold | ⟨text', htext', hcases⟩
    · -- what was named before still has the text that it had
      obtain ⟨text', htext'⟩ := SymbolTable.contains_iff.mp (hnamed symbol hold)
      obtain rfl := Option.some.inj ((h.keeps.symbols _ _ htext').symm.trans hsymbol)
      exact .inl ⟨symbol, htext', hold⟩
    · obtain rfl := Option.some.inj (htext'.symm.trans hsymbol)
      exact .inr hcases

theorem Changes.taken_cases {granularity : Nat} {reach : Reach} {made : List OwnSymbol}
    (h : Changes granularity reach m made m') (hnamed : m.AllNamed) :
    m'.AllNamed ∧ ∀ text, m'.Taken text →
      m.Taken text ∨ (∃ own ∈ made, own.text = text) ∨ IsRoutine text := by
  induction h with
  | refl => exact ⟨hnamed, fun text htaken => .inl htaken⟩
  | step _ hchange ih =>
      obtain ⟨hnamed₁, htaken₁⟩ := ih
      obtain ⟨hnamed₂, htaken₂⟩ := hchange.taken_cases hnamed₁
      refine ⟨hnamed₂, fun text htaken => ?_⟩
      rcases htaken₂ text htaken with htaken | ⟨own, hown, htext⟩ | hroutine
      · rcases htaken₁ text htaken with htaken | ⟨own, hown, htext⟩ | hroutine
        · exact .inl htaken
        · exact .inr (.inl ⟨own, List.mem_append_left _ hown, htext⟩)
        · exact .inr (.inr hroutine)
      · exact .inr (.inl ⟨own, List.mem_append_right _ hown, htext⟩)
      · exact .inr (.inr hroutine)

/-- Changes keep a module tidy if they make every symbol once and all of them are new to it. -/
theorem Changes.tidy {granularity : Nat} {reach : Reach} {made : List OwnSymbol}
    (h : Changes granularity reach m made m') (hgranularity : isPowerOfTwo granularity = true)
    (htidy : m.Tidy) (hnodup : made.Nodup) (hnew : ∀ own ∈ made, ¬ m.Taken own.text) : m'.Tidy := by
  induction h with
  | refl => exact htidy
  | step hchanges hchange ih =>
      rw [List.nodup_append'] at hnodup
      obtain ⟨hmade, hmore, hdisjoint⟩ := hnodup
      have htidy₁ := ih hmade fun own hown => hnew own (List.mem_append_left _ hown)
      refine hchange.tidy hgranularity htidy₁ fun own hown htaken => ?_
      rcases (hchanges.taken_cases htidy.named).2 _ htaken with htaken | ⟨other, hother, htext⟩ |
        hroutine
      · exact hnew own (List.mem_append_right _ hown) htaken
      · obtain rfl := OwnSymbol.text_injective htext
        exact hdisjoint hother hown
      · exact own.not_isRoutine hroutine

/-! ### Reserved names -/

/-- A module whose program has no reserved names. -/
def Unreserved (m : Module) : Prop := ∀ text, m.Taken text → EntryPoint.isReserved text = false

theorem Unreserved.not_taken (h : m.Unreserved) (own : OwnSymbol) : ¬ m.Taken own.text := by
  intro htaken
  have hfree := h _ htaken
  rw [own.isReserved_text] at hfree
  cases hfree

theorem unreserved_of_names (h : ∀ name ∈ m.symbols.names, EntryPoint.isReserved name = false) :
    m.Unreserved := fun text ⟨_, hsymbol, _⟩ => h text (Array.mem_of_getElem? hsymbol)

theorem tidy_of_verify (hverify : m.verify = .ok []) (hnames : m.Unreserved)
    (hlead : ∀ f ∈ m.functions, f.ParamsLead) : m.Tidy where
  toWellFormed := verify_eq_nil_iff.mp hverify
  paramsLead := hlead
  unclaimed g hg name hname hroutine := by
    have hfree := hnames name ⟨g.name, hname, .inl ⟨g, hg, rfl⟩⟩
    rw [hroutine.isReserved] at hfree
    cases hfree

end Module

end Redzone
