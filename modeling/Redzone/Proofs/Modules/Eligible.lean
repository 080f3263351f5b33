import Redzone.Globals.Eligible
import Redzone.Proofs.Modules.WellFormed

/-!
# Eligible globals

The globals of a module are sorted out one by one.  Those that get a redzone are the ones that there
is no reason to skip, each of them is listed once, and the others are counted (`candidates_spec`).
-/

namespace Redzone

theorem ite_some_eq_none {α : Type} {c : Prop} [Decidable c] {reason : α} {rest : Option α} :
    (if c then some reason else rest) = none ↔ ¬ c ∧ rest = none := by
  split <;> simp [*]

/-- A global that is not skipped has contents and a name of the program's, and it is not aligned
more than redzones are. -/
theorem Global.of_skipReason?_eq_none {g : Global} {granularity : Nat} {name : String}
    {facts : GlobalFacts} (h : g.skipReason? granularity name facts = none) :
    (∃ init, g.init = some init) ∧ EntryPoint.isGenerated name = false ∧
      g.align ≤ minGlobalRedzone granularity := by
  simp only [skipReason?, ite_some_eq_none] at h
  obtain ⟨-, hdeclaration, -, -, hname, -, -, halign, -⟩ := h
  refine ⟨Option.isSome_iff_exists.mp ?_, Bool.eq_false_iff.mpr hname, Nat.not_lt.mp halign⟩
  rwa [isDeclaration, Bool.not_eq_true, Option.isNone_eq_false_iff] at hdeclaration

namespace Module

variable {config : Config} {granularity : Nat} {m : Module} {store : Annotations}
  {candidates : Candidates} {id : GlobalId}

/-- There is no reason to skip the global numbered `id`. -/
def IsEligible (granularity : Nat) (m : Module) (store : Annotations) (id : GlobalId) : Prop :=
  ∃ g name, m.globals[id]? = some g ∧ m.symbols.names[g.name]? = some name ∧
    g.skipReason? granularity name (store.get id) = none

/-- The numbers of the globals that get a redzone, among those numbered from `start` on. -/
theorem candidatesFrom_spec {start : Nat} {globals : List Global}
    (h : m.candidatesFrom granularity store start globals = .ok candidates) :
    candidates.ids.Nodup ∧ candidates.ids.length + candidates.skipped = globals.length ∧
      (∀ g ∈ globals, m.symbols.contains g.name = true) ∧
      ∀ id : Nat, id ∈ candidates.ids ↔ start ≤ id ∧ ∃ g name, globals[id - start]? = some g ∧
        m.symbols.names[g.name]? = some name ∧
        g.skipReason? granularity name (store.get id) = none := by
  induction globals generalizing start candidates with
  | nil =>
      cases h
      simp
  | cons g rest ih =>
      rw [candidatesFrom] at h
      obtain ⟨name, hname, h⟩ := bind_eq_ok h
      obtain ⟨others, hothers, h⟩ := bind_eq_ok h
      have hname := SymbolTable.names_of_resolve hname
      obtain ⟨hnodup, hcount, hnamed, hids⟩ := ih hothers
      have hstart : start ∉ others.ids := by
        intro hmem
        exact absurd ((hids start).mp hmem).1 (Nat.not_succ_le_self start)
      -- a global is the first one, or it is one of the others
      have hcases : ∀ id : Nat, (start ≤ id ∧ ∃ g' name, (g :: rest)[id - start]? = some g' ∧
          m.symbols.names[g'.name]? = some name ∧
          g'.skipReason? granularity name (store.get id) = none) ↔
          id = start ∧ g.skipReason? granularity name (store.get start) = none ∨
            id ∈ others.ids := by
        intro id
        rw [hids id]
        rcases Nat.lt_trichotomy id start with hlt | rfl | hlt
        · refine iff_of_false (fun h => absurd h.1 (Nat.not_le.mpr hlt)) ?_
          rintro (⟨rfl, -⟩ | ⟨hle, -⟩)
          · exact absurd hlt (Nat.lt_irrefl id)
          · omega
        · rw [Nat.sub_self, List.getElem?_cons_zero]
          constructor
          · rintro ⟨-, g', name', ⟨⟩, hname', hreason⟩
            obtain rfl := Option.some.inj (hname.symm.trans hname')
            exact .inl ⟨rfl, hreason⟩
          · rintro (⟨-, hreason⟩ | ⟨hle, -⟩)
            · exact ⟨le_rfl, g, name, rfl, hname, hreason⟩
            · exact absurd hle (Nat.not_succ_le_self id)
        · obtain ⟨k, rfl⟩ := Nat.exists_eq_add_of_lt hlt
          rw [show start + k + 1 - start = k + 1 by omega, List.getElem?_cons_succ,
            show start + k + 1 - (start + 1) = k by omega]
          constructor
          · rintro ⟨-, hrest⟩
            exact .inr ⟨by omega, hrest⟩
          · rintro (⟨heq, -⟩ | ⟨-, hrest⟩)
            · omega
            · exact ⟨by omega, hrest⟩
      have hcontains : ∀ g' ∈ g :: rest, m.symbols.contains g'.name = true :=
        List.forall_mem_cons.mpr ⟨SymbolTable.contains_iff.mpr ⟨name, hname⟩, hnamed⟩
      dsimp only at h
      split at h
      · rename_i hreason
        cases h
        refine ⟨List.nodup_cons.mpr ⟨hstart, hnodup⟩, ?_, hcontains, fun id => ?_⟩
        · simp only [List.length_cons]
          omega
        · rw [hcases, List.mem_cons]
          simp [hreason]
      · rename_i reason hreason
        cases h
        refine ⟨hnodup, ?_, hcontains, fun id => ?_⟩
        · simp only [List.length_cons]
          omega
        · rw [hcases]
          simp [hreason]

theorem exists_candidatesFrom (start : GlobalId) {globals : List Global}
    (h : ∀ g ∈ globals, m.symbols.contains g.name = true) :
    ∃ candidates, m.candidatesFrom granularity store start globals = .ok candidates := by
  induction globals generalizing start with
  | nil => exact ⟨{}, rfl⟩
  | cons g rest ih =>
      rw [List.forall_mem_cons] at h
      obtain ⟨name, hname⟩ := SymbolTable.contains_iff.mp h.1
      obtain ⟨others, hothers⟩ := ih (start + 1) h.2
      rw [candidatesFrom, resolve, SymbolTable.resolve_eq_ok_iff.mpr hname, ok_bind, hothers,
        ok_bind]
      dsimp only
      split
      · exact ⟨_, rfl⟩
      · exact ⟨_, rfl⟩

/-- The globals that get a redzone are the eligible ones, and the others are skipped. -/
theorem candidates_spec (h : m.candidates config store = .ok candidates) :
    candidates.ids.Nodup ∧
      (config.globals = true →
        candidates.ids.length + candidates.skipped = m.globals.size ∧
          ∀ g ∈ m.globals, m.symbols.contains g.name = true) ∧
      ∀ id, id ∈ candidates.ids ↔
        config.globals = true ∧ m.IsEligible config.mapping.granularity store id := by
  unfold Module.candidates at h
  split at h
  · rename_i hglobals
    obtain ⟨hnodup, hcount, hnamed, hids⟩ := candidatesFrom_spec h
    refine ⟨hnodup, fun _ => ⟨by rw [hcount, Array.length_toList], fun g hg => ?_⟩, fun id => ?_⟩
    · exact hnamed g (Array.mem_toList_iff.mpr hg)
    · rw [hids id]
      simp [hglobals, IsEligible]
  · rename_i hglobals
    cases h
    simp [hglobals]

theorem exists_candidates (h : ∀ g ∈ m.globals, m.symbols.contains g.name = true) :
    ∃ candidates, m.candidates config store = .ok candidates := by
  unfold candidates
  split
  · exact exists_candidatesFrom 0 fun g hg => h g (Array.mem_toList_iff.mp hg)
  · exact ⟨{}, rfl⟩

end Module

end Redzone
