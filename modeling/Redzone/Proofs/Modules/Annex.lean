import Redzone.Globals.Registration
import Redzone.Proofs.Modules.Tidy

/-!
# What an annex adds to a module

An instrumentation that extends a module makes symbols, and no two of them may be the same.  They
differ for one of two reasons.

* Strings and places are numbered and the module's name is made once.  `Counts` says that a symbol
  of these kinds is made while one annex becomes another; what was counted first is not counted
  later (`Counts.not_counts`).
* Symbols of the other kinds differ by what they are made for.  This is known to the caller only.

So `Annex.Makes` has a predicate `P` for the second kind, and `Makes.trans` joins two stages if
their predicates exclude each other.  Where one of them makes counted symbols only there is nothing
to show (`Makes.trans_left`, `Makes.trans_right`).

Every function of an annex then has one lemma that says what it makes.  The longest are those about
lists of globals, `addRedzones_eq_ok` and `makes_descriptors`: the later elements are described in a
module that the earlier ones have changed, so that what is known of them has to be led back to the
module in the beginning.
-/

namespace Redzone

/-! ### Lists that belong together -/

theorem exists_of_forall₂_mem {α β : Type} {R : α → β → Prop} {as : List α} {bs : List β} {b : β}
    (h : List.Forall₂ R as bs) (hb : b ∈ bs) : ∃ a ∈ as, R a b := by
  induction h with
  | nil => cases hb
  | @cons a _ _ _ hfirst _ ih =>
      rcases List.mem_cons.mp hb with rfl | hb
      · exact ⟨a, List.mem_cons_self, hfirst⟩
      · obtain ⟨a', ha', hrel⟩ := ih hb
        exact ⟨a', List.mem_cons_of_mem _ ha', hrel⟩

theorem forall₂_mem {α β : Type} {R : α → β → Prop} {as : List α} {bs : List β}
    (h : List.Forall₂ R as bs) : List.Forall₂ (fun a b => R a b ∧ a ∈ as ∧ b ∈ bs) as bs := by
  obtain ⟨hlength, hzip⟩ := List.forall₂_iff_zip.mp h
  exact List.forall₂_iff_zip.mpr ⟨hlength, fun hmem => ⟨hzip hmem, List.of_mem_zip hmem⟩⟩

/-! ### Symbols that are made -/

/-- Symbols of the kind are told apart by what the annex remembers. -/
def OwnKind.isCounted : OwnKind → Bool
  | string | location | moduleName => true
  | _ => false

namespace Annex

/-- A symbol that is made while `a` becomes `a'` and is counted: it has a new number, or it is the
module's name, which there was not before. -/
inductive Counts (a a' : Annex) (own : OwnSymbol) : Prop
  | numbered {k : Nat} (hkind : own.kind = .string ∨ own.kind = .location)
      (hsuffix : own.suffix = toString k) (hle : a.strings ≤ k) (hlt : k < a'.strings)
  | moduleName (hkind : own.kind = .moduleName) (hbefore : a.moduleName? = none)
      (hafter : a'.moduleName? ≠ none)

/-- `a'` was made from `a` by changes; the symbols that were made are counted or satisfy `P`. -/
structure Makes (granularity : Nat) (reach : Reach) (P : OwnSymbol → Prop) (a a' : Annex) :
    Prop where
  changes : ∃ made, Module.Changes granularity reach a.module made a'.module ∧ made.Nodup ∧
    ∀ own ∈ made, a.Counts a' own ∨ own.kind.isCounted = false ∧ P own
  strings : a.strings ≤ a'.strings
  moduleName : a.moduleName? ≠ none → a'.moduleName? ≠ none
  known : (∀ symbol, a.moduleName? = some symbol → a.module.symbols.contains symbol = true) →
    ∀ symbol, a'.moduleName? = some symbol → a'.module.symbols.contains symbol = true

variable {granularity : Nat} {reach : Reach} {P Q : OwnSymbol → Prop} {a a' a₁ a₂ : Annex}
  {own : OwnSymbol}

theorem Counts.isCounted (h : a.Counts a' own) : own.kind.isCounted = true := by
  cases h with
  | numbered hkind => rcases hkind with hkind | hkind <;> rw [hkind] <;> rfl
  | moduleName hkind => rw [hkind]; rfl

/-- What was counted first is not counted later. -/
theorem Counts.not_counts (h : a.Counts a₁ own) : ¬ a₁.Counts a₂ own := by
  intro h'
  cases h with
  | numbered hkind hsuffix _ hlt =>
      cases h' with
      | numbered _ hsuffix' hle =>
          rw [Nat.repr_inj.mp (hsuffix.symm.trans hsuffix')] at hlt
          exact absurd hle (Nat.not_le.mpr hlt)
      | moduleName hkind' => rcases hkind with hkind | hkind <;> cases hkind.symm.trans hkind'
  | moduleName hkind _ hafter =>
      cases h' with
      | numbered hkind' => rcases hkind' with hkind' | hkind' <;> cases hkind.symm.trans hkind'
      | moduleName _ hbefore => exact hafter hbefore

namespace Makes

theorem refl (a : Annex) : Makes granularity reach P a a :=
  ⟨⟨[], .refl _, List.nodup_nil, by simp⟩, le_rfl, fun h => h, fun h => h⟩

theorem keeps (h : Makes granularity reach P a a') : Module.Keeps reach a.module a'.module := by
  obtain ⟨made, hchanges, -⟩ := h.changes
  exact hchanges.keeps

/-- The symbols of the instrumentation's own that are taken in the end. -/
theorem taken_cases (h : Makes granularity reach P a a') (hnamed : a.module.AllNamed) :
    a'.module.AllNamed ∧ ∀ own : OwnSymbol, a'.module.Taken own.text →
      a.module.Taken own.text ∨ own.kind.isCounted = true ∨ P own := by
  obtain ⟨made, hchanges, -, hmade⟩ := h.changes
  obtain ⟨hnamed', htaken⟩ := hchanges.taken_cases hnamed
  refine ⟨hnamed', fun own hown => ?_⟩
  rcases htaken _ hown with hold | ⟨other, hother, htext⟩ | hroutine
  · exact .inl hold
  · obtain rfl := OwnSymbol.text_injective htext
    exact .inr ((hmade other hother).imp Counts.isCounted And.right)
  · exact absurd hroutine own.not_isRoutine

theorem mono (h : Makes granularity reach P a a') (hPQ : ∀ own, P own → Q own) :
    Makes granularity reach Q a a' := by
  obtain ⟨made, hchanges, hnodup, hmade⟩ := h.changes
  exact ⟨⟨made, hchanges, hnodup, fun own hown => (hmade own hown).imp_right fun h =>
    ⟨h.1, hPQ own h.2⟩⟩, h.strings, h.moduleName, h.known⟩

/-- Symbols that are made one after the other differ if those do that are not counted. -/
theorem trans (h : Makes granularity reach P a a₁) (h' : Makes granularity reach Q a₁ a₂)
    (hdisjoint : ∀ own, P own → ¬ Q own) :
    Makes granularity reach (fun own => P own ∨ Q own) a a₂ := by
  obtain ⟨made, hchanges, hnodup, hmade⟩ := h.changes
  obtain ⟨more, hchanges', hnodup', hmore⟩ := h'.changes
  have hearly : ∀ {own}, a.Counts a₁ own → a.Counts a₂ own := by
    intro own hcounts
    cases hcounts with
    | numbered hkind hsuffix hle hlt => exact .numbered hkind hsuffix hle (hlt.trans_le h'.strings)
    | moduleName hkind hbefore hafter => exact .moduleName hkind hbefore (h'.moduleName hafter)
  have hlate : ∀ {own}, a₁.Counts a₂ own → a.Counts a₂ own := by
    intro own hcounts
    cases hcounts with
    | numbered hkind hsuffix hle hlt => exact .numbered hkind hsuffix (h.strings.trans hle) hlt
    | moduleName hkind hbefore hafter =>
        refine .moduleName hkind ?_ hafter
        by_contra hsome
        exact h.moduleName hsome hbefore
  refine ⟨⟨made ++ more, hchanges.trans hchanges', ?_, fun own hown => ?_⟩,
    h.strings.trans h'.strings, fun hsome => h'.moduleName (h.moduleName hsome),
    fun hknown => h'.known (h.known hknown)⟩
  · refine List.nodup_append'.mpr ⟨hnodup, hnodup', fun own hown hown' => ?_⟩
    rcases hmade own hown with hcounts | ⟨hfree, hP⟩
    · rcases hmore own hown' with hcounts' | ⟨hfree, -⟩
      · exact hcounts.not_counts hcounts'
      · exact absurd hcounts.isCounted (by rw [hfree]; exact Bool.false_ne_true)
    · rcases hmore own hown' with hcounts' | ⟨-, hQ⟩
      · exact absurd hcounts'.isCounted (by rw [hfree]; exact Bool.false_ne_true)
      · exact hdisjoint own hP hQ
  · rcases List.mem_append.mp hown with hown | hown
    · exact (hmade own hown).imp hearly fun h => ⟨h.1, .inl h.2⟩
    · exact (hmore own hown).imp hlate fun h => ⟨h.1, .inr h.2⟩

theorem trans_left (h : Makes granularity reach (fun _ => False) a a₁)
    (h' : Makes granularity reach Q a₁ a₂) : Makes granularity reach Q a a₂ :=
  (h.trans h' fun _ => False.elim).mono fun _ => Or.rec False.elim id

theorem trans_right (h : Makes granularity reach P a a₁)
    (h' : Makes granularity reach (fun _ => False) a₁ a₂) : Makes granularity reach P a a₂ :=
  (h.trans h' fun _ _ => id).mono fun _ => Or.rec id False.elim

theorem mono_reach {reach' : Reach} (h : Makes granularity reach P a a')
    (hpadded : ∀ id, reach.padded id → reach'.padded id)
    (hrewritten : ∀ id, reach.rewritten id → reach'.rewritten id)
    (hcode : reach.code → reach'.code) : Makes granularity reach' P a a' := by
  obtain ⟨made, hchanges, hmade⟩ := h.changes
  exact ⟨⟨made, hchanges.mono hpadded hrewritten hcode, hmade⟩, h.strings, h.moduleName, h.known⟩

theorem padded_mono {some more : GlobalId → Prop} (h : Makes granularity { padded := some } P a a')
    (hmore : ∀ id, some id → more id) : Makes granularity { padded := more } P a a' :=
  h.mono_reach hmore (fun _ => id) id

theorem widen (h : Makes granularity {} P a a') : Makes granularity reach P a a' :=
  h.mono_reach (fun _ => False.elim) (fun _ => False.elim) False.elim

theorem of_changes {made : List OwnSymbol}
    (h : Module.Changes granularity reach a.module made a'.module) (hnodup : made.Nodup)
    (hmade : ∀ own ∈ made, a.Counts a' own ∨ own.kind.isCounted = false ∧ P own)
    (hstrings : a.strings ≤ a'.strings) (hname : a'.moduleName? = a.moduleName?) :
    Makes granularity reach P a a' := by
  refine ⟨⟨made, h, hnodup, hmade⟩, hstrings, fun hsome => hname ▸ hsome,
    fun hknown symbol hsymbol => ?_⟩
  exact h.keeps.symbols.contains (hknown symbol (hname ▸ hsymbol))

theorem of_change {m : Module} {made : List OwnSymbol}
    (h : Module.Change granularity reach a.module made m) (hnodup : made.Nodup)
    (hmade : ∀ own ∈ made, own.kind.isCounted = false ∧ P own) :
    Makes granularity reach P a { a with module := m } :=
  of_changes h.changes hnodup (fun own hown => .inr (hmade own hown)) le_rfl rfl

end Makes

/-! ### Names and constants -/

theorem makes_intern (a : Annex) (name : String) : Makes granularity reach P a (a.intern name).1 :=
  .of_change (m := (a.module.intern name).1) (.grow (a.module.symbols.growsTo_intern name))
    List.nodup_nil (by simp)

theorem names_intern (a : Annex) (name : String) :
    (a.intern name).1.module.symbols.names[(a.intern name).2]? = some name :=
  a.module.symbols.names_intern name

theorem makes_keep (a : Annex) (symbol : SymbolId) : Makes granularity reach P a (a.keep symbol) :=
  .of_change (m := { a.module with used := a.module.used ++ [symbol] }) (.grow (.refl _))
    List.nodup_nil (by simp)

theorem makes_addGlobal {g : Global} (own : OwnSymbol)
    (hname : a.module.symbols.names[g.name]? = some own.text)
    (hfits : g.Fits) (hfree : own.kind.isCounted = false) :
    Makes granularity reach (· = own) a (a.addGlobal g) :=
  .of_change (.global hname hfits) (List.nodup_singleton own) (by simp [hfree])

theorem changes_addConstant (a : Annex) (own : OwnSymbol) (init : Initializer) {align : Nat}
    (halign : isPowerOfTwo align = true) :
    Module.Changes granularity reach a.module [own]
      (a.addConstant own.text init align).1.module := by
  refine (Module.Change.changes (.grow (a.module.symbols.growsTo_intern own.text))).trans
    (Module.Change.global (a.names_intern own.text) ⟨halign, Nat.zero_le _, ?_⟩).changes
  intro other hother
  rw [← Option.some.inj hother]

/-- The symbol of a string or a place with a number. -/
def numbered (kind : OwnKind) (hkind : kind.isFixed = false) (k : Nat) : OwnSymbol :=
  ⟨kind, toString k, fun hfixed => by rw [hkind] at hfixed; cases hfixed⟩

theorem changes_addString (a : Annex) (text : String) :
    Module.Changes granularity reach a.module [numbered .string rfl a.strings]
      (a.addString text).1.module :=
  changes_addConstant { a with strings := a.strings + 1 } (numbered .string rfl a.strings) _
    (by decide)

theorem makes_addString (a : Annex) (text : String) :
    Makes granularity reach P a (a.addString text).1 := by
  refine .of_changes (a.changes_addString text) (List.nodup_singleton _) (fun own hown => .inl ?_)
    (Nat.le_succ _) rfl
  obtain rfl := List.mem_singleton.mp hown
  exact .numbered (.inl rfl) rfl le_rfl (Nat.lt_succ_self _)

theorem makes_moduleName (a : Annex) : Makes granularity reach P a a.moduleName.1 ∧
    a.moduleName.1.moduleName? = some a.moduleName.2 := by
  unfold moduleName
  cases hname : a.moduleName? with
  | some symbol => exact ⟨.refl a, hname⟩
  | none =>
      have hchanges : Module.Changes granularity reach a.module [⟨.moduleName, "", fun _ => rfl⟩]
          (a.addConstant (EntryPoint.generated "module_name")
            (.bytes (zeroTerminated a.module.name)) 1).1.module :=
        changes_addConstant a ⟨.moduleName, "", fun _ => rfl⟩ _ (by decide)
      refine ⟨⟨⟨_, hchanges, List.nodup_singleton _, fun own hown => .inl ?_⟩, le_rfl,
        fun _ => Option.some_ne_none _, fun _ symbol hsymbol => ?_⟩, rfl⟩
      · obtain rfl := List.mem_singleton.mp hown
        exact .moduleName rfl hname (Option.some_ne_none _)
      · rw [← Option.some.inj hsymbol]
        exact SymbolTable.contains_iff.mpr ⟨_, a.names_intern _⟩

theorem makes_addLocation (a : Annex) (loc : SourceLocation) :
    Makes granularity reach P a (a.addLocation loc).1 := by
  refine .of_changes ((a.changes_addString loc.file).trans (changes_addConstant _
    (numbered .location rfl a.strings) _ (by decide))) ?_ (fun own hown => .inl ?_)
    (Nat.le_succ _) rfl
  · rw [List.singleton_append, List.nodup_cons]
    exact ⟨by simp [numbered], List.nodup_singleton _⟩
  · rw [List.singleton_append, List.mem_cons, List.mem_singleton] at hown
    rcases hown with rfl | rfl
    · exact .numbered (.inl rfl) rfl le_rfl (Nat.lt_succ_self _)
    · exact .numbered (.inr rfl) rfl le_rfl (Nat.lt_succ_self _)

theorem makes_locationField (a : Annex) (loc : SourceLocation) :
    Makes granularity reach P a (a.locationField loc).1 := by
  unfold locationField
  split
  · exact .refl a
  · exact a.makes_addLocation loc

theorem size_locationField (a : Annex) (loc : SourceLocation) :
    (a.locationField loc).2.size = 8 := by
  unfold locationField
  split <;> rfl

theorem makes_indicatorField (a : Annex) (config : Config) (name : String) (g : Global) :
    Makes granularity reach (· = ⟨.indicator, name, by simp [OwnKind.isFixed]⟩) a
      (a.indicatorField config name g).1 := by
  unfold indicatorField
  split
  · refine (a.makes_intern _).trans_left (makes_addGlobal
      ⟨.indicator, name, by simp [OwnKind.isFixed]⟩ (a.names_intern _) ?_ rfl)
    refine ⟨(by decide : isPowerOfTwo 1 = true), Nat.zero_le _, fun init hinit => ?_⟩
    cases hinit
    exact Nat.zero_le _
  · exact .refl a

theorem size_indicatorField (a : Annex) (config : Config) (name : String) (g : Global) :
    (a.indicatorField config name g).2.size = 8 := by
  unfold indicatorField
  split <;> rfl

/-! ### Redzones and descriptors -/

/-- What is registered of the global numbered `id`. -/
structure Describes (granularity : Nat) (store : Annotations) (m : Module) (id : GlobalId)
    (r : Registered) : Prop where
  symbol : ∃ g, m.globals[id]? = some g ∧ r.symbol = g.name
  named : m.symbols.contains r.symbol = true
  dynInit : r.dynInit = (store.get id).dynInit
  size : (Initializer.fields r.descriptor).size = EntryPoint.descriptorSize
  fields : ∀ g, m.globals[id]? = some g → ∃ name module location indicator,
    r.descriptor = [.addr g.name, .word g.objectSize, .word (g.grown granularity).size, name,
      module, .word (if (store.get id).dynInit then 1 else 0), location, indicator]

/-- The indicator of a global. -/
def Indicates (m : Module) (id : GlobalId) (own : OwnSymbol) : Prop :=
  own.kind = .indicator ∧ ∃ g, m.globals[id]? = some g ∧ m.symbols.names[g.name]? = some own.suffix

theorem addRedzone_eq_ok {config : Config} {store : Annotations} {id : GlobalId} {r : Registered}
    (h : addRedzone config store a id = .ok (a', r)) :
    ∃ g, a.module.globals[id]? = some g ∧
      a'.module.globals[id]? = some (g.grown config.mapping.granularity) ∧
      Makes config.mapping.granularity { padded := (· = id) } (Indicates a.module id) a a' ∧
      Describes config.mapping.granularity store a.module id r := by
  unfold addRedzone at h
  obtain ⟨g, hg, h⟩ := bind_eq_ok h
  obtain ⟨name, hname, h⟩ := bind_eq_ok h
  have hg : a.module.globals[id]? = some g := by
    unfold Module.global at hg
    split at hg <;> cases hg
    assumption
  have hname := SymbolTable.names_of_resolve hname
  obtain ⟨size, hsize, h⟩ := bind_eq_ok h
  obtain ⟨-, rfl⟩ := checkedSub_eq_ok_iff.mp hsize
  obtain ⟨grown, hwith, h⟩ := bind_eq_ok h
  obtain rfl := Global.withRedzone_eq_ok hwith
  -- the redzone comes first, and then what describes the global
  have hpad : Makes config.mapping.granularity { padded := (· = id) } (fun _ => False) a
      { a with module := a.module.setGlobal id (g.grown config.mapping.granularity) } :=
    .of_change (.pad rfl hg) List.nodup_nil (by simp)
  have hgrown : (a.module.setGlobal id (g.grown config.mapping.granularity)).globals[id]? =
      some (g.grown config.mapping.granularity) :=
    Array.getElem?_setIfInBounds_self_of_lt (Array.getElem?_eq_some_iff.mp hg).1
  have hrest : ∀ (text : String) (loc : SourceLocation) (first : Annex),
      Makes config.mapping.granularity {} (· = ⟨.indicator, name, by simp [OwnKind.isFixed]⟩) first
        (((first.addString text).1.moduleName.1.locationField loc).1.indicatorField config name
          g).1 :=
    fun text loc first => (first.makes_addString text).trans_left
      ((makes_moduleName _).1.trans_left ((makes_locationField _ loc).trans_left
        (makes_indicatorField _ config name g)))
  dsimp only at h
  cases h
  refine ⟨g, hg, (hrest _ _ _).keeps.globals id _ not_false hgrown,
    hpad.trans_left ((hrest _ _ _).widen.mono ?_), ⟨g, hg, rfl⟩,
    SymbolTable.contains_iff.mpr ⟨name, hname⟩, rfl, ?_, fun g' hg' => ?_⟩
  · rintro own rfl
    exact ⟨rfl, g, hg, hname⟩
  · simp only [Initializer.size, List.foldr_cons, List.foldr_nil, size_locationField,
      size_indicatorField]
    rfl
  · obtain rfl := Option.some.inj (hg.symm.trans hg')
    exact ⟨_, _, _, _, rfl⟩

/-- Redzones are given to globals one after the other, and nothing else of them changes. -/
theorem addRedzones_eq_ok {config : Config} {store : Annotations} {ids : List GlobalId}
    {registered : List Registered} (h : addRedzones config store a ids = .ok (a', registered))
    (hnodup : ids.Nodup)
    (hdistinct : ∀ i ∈ ids, ∀ j ∈ ids, ∀ g g', a.module.globals[i]? = some g →
      a.module.globals[j]? = some g' → g.name = g'.name → i = j)
    (hnamed : ∀ i ∈ ids, ∃ g, a.module.globals[i]? = some g ∧
      a.module.symbols.contains g.name = true) :
    (∀ i ∈ ids, ∀ g, a.module.globals[i]? = some g →
        a'.module.globals[i]? = some (g.grown config.mapping.granularity)) ∧
      Makes config.mapping.granularity { padded := (· ∈ ids) }
        (fun own => ∃ i ∈ ids, Indicates a.module i own) a a' ∧
      List.Forall₂ (Describes config.mapping.granularity store a.module) ids registered := by
  induction ids generalizing a registered with
  | nil =>
      cases h
      exact ⟨by simp, .refl _, .nil⟩
  | cons id rest ih =>
      unfold addRedzones at h
      obtain ⟨⟨a₁, first⟩, hfirst, h⟩ := bind_eq_ok h
      obtain ⟨⟨a₂, others⟩, hothers, h⟩ := bind_eq_ok h
      cases h
      rw [List.nodup_cons] at hnodup
      obtain ⟨g, hg, hgrown, hmakes, hdescribes⟩ := addRedzone_eq_ok hfirst
      -- the globals that follow are what they were
      have hkept : ∀ i ∈ rest, ∀ g, a.module.globals[i]? = some g →
          a₁.module.globals[i]? = some g := by
        intro i hi g' hg'
        refine hmakes.keeps.globals i g' ?_ hg'
        rintro rfl
        exact hnodup.1 hi
      -- and so they can be led back to the module in the beginning
      have hback : ∀ i ∈ rest, ∀ g, a₁.module.globals[i]? = some g →
          a.module.globals[i]? = some g := by
        intro i hi g' hg'
        obtain ⟨g₀, hg₀, -⟩ := hnamed i (List.mem_cons_of_mem _ hi)
        rw [← Option.some.inj ((hkept i hi g₀ hg₀).symm.trans hg')]
        exact hg₀
      have hnames : ∀ i ∈ rest, ∀ g name, a.module.globals[i]? = some g →
          a₁.module.symbols.names[g.name]? = some name →
          a.module.symbols.names[g.name]? = some name := by
        intro i hi g' name hg' hname
        obtain ⟨g₀, hg₀, hcontains⟩ := hnamed i (List.mem_cons_of_mem _ hi)
        obtain rfl := Option.some.inj (hg'.symm.trans hg₀)
        obtain ⟨name', hname'⟩ := SymbolTable.contains_iff.mp hcontains
        rw [← Option.some.inj ((hmakes.keeps.symbols _ _ hname').symm.trans hname)]
        exact hname'
      obtain ⟨hpadded, hmakes', hdescribes'⟩ := ih hothers hnodup.2
        (fun i hi j hj g g' hg hg' => hdistinct i (List.mem_cons_of_mem _ hi) j
          (List.mem_cons_of_mem _ hj) g g' (hback i hi g hg) (hback j hj g' hg'))
        (fun i hi => by
          obtain ⟨g', hg', hcontains⟩ := hnamed i (List.mem_cons_of_mem _ hi)
          exact ⟨g', hkept i hi g' hg', hmakes.keeps.symbols.contains hcontains⟩)
      refine ⟨fun i hi g' hg' => ?_, ?_, .cons hdescribes ?_⟩
      · rcases List.mem_cons.mp hi with rfl | hi
        · obtain rfl := Option.some.inj (hg.symm.trans hg')
          exact hmakes'.keeps.globals i _ hnodup.1 hgrown
        · exact hpadded i hi g' (hkept i hi g' hg')
      · have hback' : ∀ i ∈ rest, ∀ own, Indicates a₁.module i own → Indicates a.module i own := by
          rintro i hi own ⟨hkind, g', hg', hname⟩
          have hg' := hback i hi g' hg'
          exact ⟨hkind, g', hg', hnames i hi g' own.suffix hg' hname⟩
        refine ((hmakes.padded_mono fun i hi => hi ▸ List.mem_cons_self).trans
          (hmakes'.padded_mono fun i => List.mem_cons_of_mem id) ?_).mono ?_
        · -- an indicator that is made twice belongs to globals of one name, which there are not
          rintro own ⟨-, g₀, hg₀, hname⟩ ⟨i, hi, hindicates⟩
          obtain ⟨-, g', hg', hname'⟩ := hback' i hi own hindicates
          obtain rfl := hdistinct id List.mem_cons_self i (List.mem_cons_of_mem _ hi) g₀ g' hg₀ hg'
            (SymbolTable.eq_of_names hname hname')
          exact hnodup.1 hi
        · rintro own (hindicates | ⟨i, hi, hindicates⟩)
          · exact ⟨id, List.mem_cons_self, hindicates⟩
          · exact ⟨i, List.mem_cons_of_mem _ hi, hback' i hi own hindicates⟩
      · refine (forall₂_mem hdescribes').imp fun i r ⟨hdescribed, hi, _⟩ => ?_
        obtain ⟨⟨g', hg', hsymbol⟩, hcontains, hdynInit, hsize, hfields⟩ := hdescribed
        have hg' := hback i hi g' hg'
        obtain ⟨name, hname⟩ := SymbolTable.contains_iff.mp hcontains
        refine ⟨⟨g', hg', hsymbol⟩, SymbolTable.contains_iff.mpr ⟨name, ?_⟩, hdynInit, hsize,
          fun g hg => hfields g (hkept i hi g hg)⟩
        rw [hsymbol] at hname ⊢
        exact hnames i hi g' name hg' hname

/-! ### Registration -/

/-- A symbol that is made for the descriptor of the global called `name`. -/
def Tags (name : String) (own : OwnSymbol) : Prop :=
  (own.kind = .descriptor ∨ own.kind = .binder) ∧ own.suffix = name

theorem addDescriptor_eq_ok {place name : String} {associated : Option SymbolId} {r : Registered}
    {symbol : SymbolId} (h : a.addDescriptor place associated r = .ok (a', symbol))
    (hname : a.module.symbols.names[r.symbol]? = some name)
    (hsize : (Initializer.fields r.descriptor).size = EntryPoint.descriptorSize) :
    Makes granularity {} (· = ⟨.descriptor, name, by simp [OwnKind.isFixed]⟩) a a' := by
  unfold addDescriptor at h
  obtain ⟨name', hname', h⟩ := bind_eq_ok h
  obtain rfl := Option.some.inj (hname.symm.trans (SymbolTable.names_of_resolve hname'))
  dsimp only at h
  cases h
  refine (a.makes_intern _).trans_left ((makes_keep _ _).trans_left (makes_addGlobal
    ⟨.descriptor, name, by simp [OwnKind.isFixed]⟩ (a.names_intern _) ?_ rfl))
  refine ⟨(by decide : isPowerOfTwo 8 = true), Nat.zero_le _, fun init hinit => ?_⟩
  cases hinit
  exact hsize.le

theorem addBinder_eq_ok {name : String} {r : Registered} {descriptor : SymbolId}
    (h : a.addBinder r descriptor = .ok a')
    (hname : a.module.symbols.names[r.symbol]? = some name) :
    Makes granularity {} (· = ⟨.binder, name, by simp [OwnKind.isFixed]⟩) a a' := by
  unfold addBinder at h
  obtain ⟨name', hname', h⟩ := bind_eq_ok h
  obtain rfl := Option.some.inj (hname.symm.trans (SymbolTable.names_of_resolve hname'))
  dsimp only at h
  cases h
  refine (a.makes_intern _).trans_left ((makes_addGlobal
    ⟨.binder, name, by simp [OwnKind.isFixed]⟩ (a.names_intern _) ?_ rfl).trans_right
      (makes_keep _ _))
  refine ⟨(by decide : isPowerOfTwo 8 = true), Nat.zero_le _, fun init hinit => ?_⟩
  cases hinit
  exact le_rfl

theorem addElfDescriptor_eq_ok {name : String} {r : Registered}
    (h : a.addElfDescriptor r = .ok a') (hname : a.module.symbols.names[r.symbol]? = some name)
    (hsize : (Initializer.fields r.descriptor).size = EntryPoint.descriptorSize) :
    Makes granularity {} (Tags name) a a' := by
  unfold addElfDescriptor at h
  obtain ⟨⟨a₁, symbol⟩, hadded, h⟩ := bind_eq_ok h
  cases h
  refine (addDescriptor_eq_ok hadded hname hsize).mono ?_
  rintro own rfl
  exact ⟨.inl rfl, rfl⟩

theorem addMachODescriptor_eq_ok {name : String} {r : Registered}
    (h : a.addMachODescriptor r = .ok a') (hname : a.module.symbols.names[r.symbol]? = some name)
    (hsize : (Initializer.fields r.descriptor).size = EntryPoint.descriptorSize) :
    Makes granularity {} (Tags name) a a' := by
  unfold addMachODescriptor at h
  obtain ⟨⟨a₁, symbol⟩, hadded, h⟩ := bind_eq_ok h
  have hfirst : Makes granularity {} _ a a₁ := addDescriptor_eq_ok hadded hname hsize
  have hsecond : Makes granularity {} _ a₁ a' :=
    addBinder_eq_ok h (hfirst.keeps.symbols _ _ hname)
  refine (hfirst.trans hsecond ?_).mono ?_
  · rintro own rfl heq
    cases congrArg OwnSymbol.kind heq
  · rintro own (rfl | rfl)
    · exact ⟨.inl rfl, rfl⟩
    · exact ⟨.inr rfl, rfl⟩

/-- Descriptors are added one after the other, under the names of their globals. -/
theorem makes_descriptors {next : Annex → Registered → Except Fault Annex}
    {registered : List Registered}
    (hnext : ∀ {a a' : Annex} {r : Registered} {name : String}, next a r = .ok a' →
      a.module.symbols.names[r.symbol]? = some name →
      (Initializer.fields r.descriptor).size = EntryPoint.descriptorSize →
      Makes granularity {} (Tags name) a a')
    (h : registered.foldlM next a = .ok a') (hnodup : (registered.map Registered.symbol).Nodup)
    (hnamed : ∀ r ∈ registered, a.module.symbols.contains r.symbol = true ∧
      (Initializer.fields r.descriptor).size = EntryPoint.descriptorSize) :
    Makes granularity {} (fun own => ∃ r ∈ registered, ∃ name,
      a.module.symbols.names[r.symbol]? = some name ∧ Tags name own) a a' := by
  induction registered generalizing a with
  | nil =>
      cases h
      exact .refl _
  | cons first rest ih =>
      obtain ⟨a₁, ha₁, h⟩ := foldlM_cons_eq_ok h
      rw [List.map_cons, List.nodup_cons] at hnodup
      rw [List.forall_mem_cons] at hnamed
      obtain ⟨name, hname⟩ := SymbolTable.contains_iff.mp hnamed.1.1
      have hfirst := hnext ha₁ hname hnamed.1.2
      have hnames : ∀ r ∈ rest, ∀ name, a₁.module.symbols.names[r.symbol]? = some name ↔
          a.module.symbols.names[r.symbol]? = some name := by
        intro r hr name
        obtain ⟨name', hname'⟩ := SymbolTable.contains_iff.mp (hnamed.2 r hr).1
        rw [hname', hfirst.keeps.symbols _ _ hname']
      have hrest := ih h hnodup.2 fun r hr =>
        ⟨hfirst.keeps.symbols.contains (hnamed.2 r hr).1, (hnamed.2 r hr).2⟩
      refine (hfirst.trans hrest ?_).mono ?_
      · rintro own ⟨-, hsuffix⟩ ⟨r, hr, name', hname', -, hsuffix'⟩
        rw [hnames r hr, ← hsuffix', hsuffix] at hname'
        exact hnodup.1 (SymbolTable.eq_of_names hname hname' ▸ List.mem_map_of_mem hr)
      · rintro own (htags | ⟨r, hr, name', hname', htags⟩)
        · exact ⟨first, List.mem_cons_self, name, hname, htags⟩
        · exact ⟨r, List.mem_cons_of_mem _ hr, name', (hnames r hr name').mp hname', htags⟩

theorem makes_addUnlessNamed (a : Annex) (own : OwnSymbol) {make : SymbolId → Global}
    (hname : ∀ symbol, (make symbol).name = symbol) (hfits : ∀ symbol, (make symbol).Fits)
    (hfree : own.kind.isCounted = false) :
    Makes granularity reach (·.kind = own.kind) a (a.addUnlessNamed own.text make).1 ∧
      (a.addUnlessNamed own.text make).1.module.symbols.contains
        (a.addUnlessNamed own.text make).2 = true := by
  have hsymbol := SymbolTable.contains_iff.mpr ⟨_, a.names_intern own.text⟩
  unfold addUnlessNamed
  dsimp only
  split
  · exact ⟨a.makes_intern _, hsymbol⟩
  · have hadded : (a.intern own.text).1.module.symbols.names[
        (make (a.intern own.text).2).name]? = some own.text := by
      rw [hname]
      exact a.names_intern _
    exact ⟨(a.makes_intern _).trans_left ((makes_addGlobal own hadded (hfits _) hfree).mono
      fun _ => congrArg OwnSymbol.kind), hsymbol⟩

theorem makes_registeredFlag (a : Annex) :
    Makes granularity reach (·.kind = .flag) a a.registeredFlag.1 ∧
      a.registeredFlag.1.module.symbols.contains a.registeredFlag.2 = true := by
  refine makes_addUnlessNamed a ⟨.flag, "", fun _ => rfl⟩ (fun _ => rfl) (fun symbol => ?_) rfl
  refine ⟨(by decide : isPowerOfTwo 8 = true), Nat.zero_le _, fun init hinit => ?_⟩
  cases hinit
  exact Nat.zero_le _

theorem makes_sectionBound (a : Annex) (own : OwnSymbol) (hfree : own.kind.isCounted = false) :
    Makes granularity reach (·.kind = own.kind) a (a.sectionBound own.text).1 ∧
      (a.sectionBound own.text).1.module.symbols.contains (a.sectionBound own.text).2 = true := by
  refine makes_addUnlessNamed a own (fun _ => rfl) (fun symbol => ?_) hfree
  exact ⟨(by decide : isPowerOfTwo 8 = true), Nat.zero_le _, nofun⟩

/-- The kinds of the symbols that are made for a registration. -/
def registrationKinds : List OwnKind :=
  [.table, .descriptor, .binder, .flag, .sectionStart, .sectionStop]

theorem addRegistration_eq_ok {registered : List Registered} {scheme : Scheme} {r : Registration}
    (h : a.addRegistration registered scheme = .ok (a', r))
    (hnodup : (registered.map Registered.symbol).Nodup)
    (hnamed : ∀ r ∈ registered, a.module.symbols.contains r.symbol = true ∧
      (Initializer.fields r.descriptor).size = EntryPoint.descriptorSize) :
    Makes granularity {} (fun own => own.kind ∈ registrationKinds) a a' ∧
      (∀ symbol ∈ r.symbols, a'.module.symbols.contains symbol = true) ∧
      IsRoutine r.register ∧ IsRoutine r.unregister := by
  -- elf and machO add descriptors one by one, each by a function of its own
  have hdescriptors : ∀ {next : Annex → Registered → Except Fault Annex} {a₁ : Annex},
      (∀ {a a' : Annex} {r : Registered} {name : String}, next a r = .ok a' →
        a.module.symbols.names[r.symbol]? = some name →
        (Initializer.fields r.descriptor).size = EntryPoint.descriptorSize →
        Makes granularity {} (Tags name) a a') → registered.foldlM next a = .ok a₁ →
      Makes granularity {} (fun own => own.kind = .descriptor ∨ own.kind = .binder) a a₁ :=
    fun hnext h => (makes_descriptors hnext h hnodup hnamed).mono
      fun own ⟨r, hr, name, hname, htags⟩ => htags.1
  cases scheme with
  | flat =>
      cases h
      refine ⟨.of_changes (changes_addConstant a ⟨.table, "", fun _ => rfl⟩ _ (by decide))
        (List.nodup_singleton _) (fun own hown => .inr ?_) le_rfl rfl, fun symbol hsymbol => ?_,
        (by decide +kernel : IsRoutine EntryPoint.registerGlobals),
        (by decide +kernel : IsRoutine EntryPoint.unregisterGlobals)⟩
      · obtain rfl := List.mem_singleton.mp hown
        exact ⟨rfl, by decide⟩
      · obtain rfl := List.mem_singleton.mp hsymbol
        exact SymbolTable.contains_iff.mpr ⟨_, a.names_intern _⟩
  | elf =>
      unfold addRegistration at h
      obtain ⟨a₁, ha₁, h⟩ := bind_eq_ok h
      dsimp only at h
      cases h
      have hfirst := hdescriptors addElfDescriptor_eq_ok ha₁
      obtain ⟨hflag, hflag'⟩ : Makes granularity {} _ a₁ _ ∧ _ := makes_registeredFlag a₁
      obtain ⟨hstart, hstart'⟩ : Makes granularity {} _ _ _ ∧ _ :=
        makes_sectionBound a₁.registeredFlag.1 ⟨.sectionStart, "", fun _ => rfl⟩ rfl
      obtain ⟨hstop, hstop'⟩ : Makes granularity {} _ _ _ ∧ _ :=
        makes_sectionBound (a₁.registeredFlag.1.sectionBound EntryPoint.elfStart).1
          ⟨.sectionStop, "", fun _ => rfl⟩ rfl
      -- the stages make symbols of different kinds
      refine ⟨(((hfirst.trans hflag ?_).trans hstart ?_).trans hstop ?_).mono ?_, ?_,
        (by decide +kernel : IsRoutine EntryPoint.registerElfGlobals),
        (by decide +kernel : IsRoutine EntryPoint.unregisterElfGlobals)⟩
      · rintro own (hkind | hkind) hkind' <;> cases hkind.symm.trans hkind'
      · rintro own ((hkind | hkind) | hkind) hkind' <;> cases hkind.symm.trans hkind'
      · rintro own (((hkind | hkind) | hkind) | hkind) hkind' <;> cases hkind.symm.trans hkind'
      · rintro own ((((hkind | hkind) | hkind) | hkind) | hkind) <;> rw [hkind] <;> decide
      · intro symbol hsymbol
        simp only [List.mem_cons, List.not_mem_nil, or_false] at hsymbol
        rcases hsymbol with rfl | rfl | rfl
        · exact (hstart.keeps.symbols.trans hstop.keeps.symbols).contains hflag'
        · exact hstop.keeps.symbols.contains hstart'
        · exact hstop'
  | machO =>
      unfold addRegistration at h
      obtain ⟨a₁, ha₁, h⟩ := bind_eq_ok h
      dsimp only at h
      cases h
      have hfirst := hdescriptors addMachODescriptor_eq_ok ha₁
      obtain ⟨hflag, hflag'⟩ : Makes granularity {} _ a₁ _ ∧ _ := makes_registeredFlag a₁
      refine ⟨(hfirst.trans hflag ?_).mono ?_, fun symbol hsymbol => ?_,
        (by decide +kernel : IsRoutine EntryPoint.registerImageGlobals),
        (by decide +kernel : IsRoutine EntryPoint.unregisterImageGlobals)⟩
      · rintro own (hkind | hkind) hkind' <;> cases hkind.symm.trans hkind'
      · rintro own ((hkind | hkind) | hkind) <;> rw [hkind] <;> decide
      · obtain rfl := List.mem_singleton.mp hsymbol
        exact hflag'

end Annex

end Redzone
