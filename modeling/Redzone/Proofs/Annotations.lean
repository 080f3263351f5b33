import Mathlib.Data.List.Perm.Basic
import Mathlib.Data.Nat.Basic
import Mathlib.Order.Basic
import Redzone.Annotation

/-!
# What annotations come to

The nodes that annotate one global are merged one after the other (`get?_ofModule`), so the last
name and the last location stand and flags add up.  Nodes about other globals do not take part.  As
a store lists its globals in order (`Dict.Ordered`), it is the same store however the nodes about
different globals are mixed (`ofModule_eq_of_about`).
-/

namespace Redzone

/-! ### Dictionaries in the order of their keys -/

namespace Dict

variable {β : Type} {dict dict' : Dict Nat β} {key : Nat} {value : β} {entries : List (Nat × β)}

/-- Each key is smaller than those behind it. -/
def Ordered (dict : Dict Nat β) : Prop := dict.entries.Pairwise fun entry later => entry.1 < later.1

theorem ordered_empty : (empty : Dict Nat β).Ordered := .nil

theorem lookup_eq_some_iff (h : entries.Pairwise fun entry later => entry.1 < later.1) :
    lookup key entries = some value ↔ (key, value) ∈ entries := by
  induction entries with
  | nil => simp [lookup]
  | cons entry rest ih =>
      obtain ⟨other, first⟩ := entry
      obtain ⟨hfirst, hrest⟩ := List.pairwise_cons.mp h
      rw [lookup, List.mem_cons, Prod.mk.injEq]
      split
      · rename_i heq
        subst heq
        have hnot : (other, value) ∉ rest := fun hmem => lt_irrefl other (hfirst _ hmem)
        simp [hnot, eq_comm]
      · rename_i hne
        rw [ih hrest]
        simp [Ne.symm hne]

/-- Ordered dictionaries that give the same answers are the same. -/
theorem Ordered.ext (h : dict.Ordered) (h' : dict'.Ordered)
    (hget : ∀ key, dict.get? key = dict'.get? key) : dict = dict' := by
  have hnodup : ∀ {d : Dict Nat β}, d.Ordered → d.entries.Nodup := by
    intro d hd
    refine List.Pairwise.imp ?_ hd
    rintro entry later hlt rfl
    exact lt_irrefl _ hlt
  have hperm : dict.entries.Perm dict'.entries := by
    refine (List.perm_ext_iff_of_nodup (hnodup h) (hnodup h')).mpr fun entry => ?_
    rw [← lookup_eq_some_iff h, ← lookup_eq_some_iff h']
    exact Eq.congr_left (hget entry.1)
  have heq : dict.entries = dict'.entries :=
    hperm.eq_of_pairwise (fun _ _ _ _ hlt hgt => absurd hlt (lt_asymm hgt)) h h'
  cases dict
  cases dict'
  exact congrArg Dict.mk heq

/-- A new entry in front of the first larger key keeps the order. -/
theorem pairwise_insert (h : entries.Pairwise fun entry later => entry.1 < later.1)
    (hnew : ∀ entry ∈ entries, entry.1 ≠ key) :
    (entries.takeWhile (fun entry => entry.1 < key) ++ (key, value) ::
      entries.dropWhile (fun entry => entry.1 < key)).Pairwise
        fun entry later => entry.1 < later.1 := by
  induction entries with
  | nil => exact List.pairwise_singleton _ _
  | cons entry rest ih =>
      obtain ⟨hfirst, hrest⟩ := List.pairwise_cons.mp h
      obtain ⟨hne, hnew⟩ := List.forall_mem_cons.mp hnew
      by_cases hlt : entry.1 < key
      · rw [List.takeWhile_cons_of_pos (by simpa using hlt),
          List.dropWhile_cons_of_pos (by simpa using hlt), List.cons_append]
        refine List.pairwise_cons.mpr ⟨fun later hlater => ?_, ih hrest hnew⟩
        rcases List.mem_append.mp hlater with hmem | hmem
        · exact hfirst later (List.takeWhile_subset _ hmem)
        · rcases List.mem_cons.mp hmem with rfl | hmem
          · exact hlt
          · exact hfirst later (List.dropWhile_subset _ hmem)
      · rw [List.takeWhile_cons_of_neg (by simpa using hlt),
          List.dropWhile_cons_of_neg (by simpa using hlt), List.nil_append]
        have hgt : key < entry.1 := lt_of_le_of_ne (not_lt.mp hlt) hne.symm
        refine List.pairwise_cons.mpr ⟨fun later hlater => ?_, h⟩
        rcases List.mem_cons.mp hlater with rfl | hmem
        · exact hgt
        · exact hgt.trans (hfirst later hmem)

theorem Ordered.alter (h : dict.Ordered) (key : Nat) (update : Option β → β) :
    (dict.alter key update).Ordered := by
  unfold Dict.alter
  split
  · -- the keys stay
    refine List.pairwise_map.mpr (h.imp fun {entry later} hlt => ?_)
    have hkey : ∀ (entry : Nat × β) (value : β),
        (if entry.1 = key then (key, value) else entry).1 = entry.1 := by
      intro entry value
      split
      · rename_i heq
        exact heq.symm
      · rfl
    rw [hkey, hkey]
    exact hlt
  · rename_i hnone
    refine pairwise_insert h ?_
    rintro ⟨other, value⟩ hmem rfl
    rw [get?, (lookup_eq_some_iff h).mpr hmem] at hnone
    cases hnone

end Dict

/-! ### Locations -/

namespace SourceLocation

/-- What an operand says about a line or column: a number of 32 bits, and 0 if it is no such
number. -/
def Counts (operand : MdOperand) (value : Nat) : Prop :=
  operand = .int value ∧ value < 0x100000000 ∨
    value = 0 ∧ ∀ n : Nat, n < 0x100000000 → operand ≠ .int n

/-- What an operand says about a file: a text, and nothing if it is none. -/
def Names (operand : MdOperand) (file : String) : Prop :=
  operand = .string file ∨ file = "" ∧ ∀ text, operand ≠ .string text

theorem counts_coordinate (operand : MdOperand) : Counts operand (coordinate operand) := by
  unfold Counts coordinate
  cases operand with
  | int value =>
      simp only [MdOperand.int?]
      split
      · rename_i hfits
        refine .inl ⟨?_, ?_⟩
        · rw [Int.toNat_of_nonneg hfits.1]
        · omega
      · rename_i hnot
        refine .inr ⟨rfl, ?_⟩
        rintro n hn ⟨⟩
        omega
  | _ => exact .inr ⟨rfl, fun n _ h => by cases h⟩

theorem names_string (operand : MdOperand) : Names operand (operand.string?.getD "") := by
  cases operand with
  | string text => exact .inl rfl
  | _ => exact .inr ⟨rfl, fun text h => by cases h⟩

end SourceLocation

/-! ### Merging the nodes about a global -/

theorem MdOperand.isSet_iff {operand : MdOperand} :
    operand.isSet = true ↔ ∃ value, operand = .int value ∧ value ≠ 0 := by
  cases operand <;> simp [isSet, int?]

theorem MdOperand.global?_eq_some_iff {operand : MdOperand} {id : GlobalId} :
    operand.global? = some id ↔ operand = .global id := by
  cases operand <;> simp [global?]

/-- Of values that are read one after the other, each in place of the one before, the last
stands. -/
theorem foldl_getD_eq_getLast {α β : Type} (read : α → Option β) (items : List α) (first : β) :
    items.foldl (fun value item => (read item).getD value) first =
      (items.filterMap read).getLast?.getD first := by
  induction items generalizing first with
  | nil => rfl
  | cons item rest ih =>
      rw [List.foldl_cons, ih, List.filterMap_cons]
      cases read item with
      | none => rfl
      | some value => simp [List.getLast?_cons]

theorem foldl_or_eq_any {α : Type} (test : α → Bool) (items : List α) (first : Bool) :
    items.foldl (fun value item => value || test item) first = (first || items.any test) := by
  induction items generalizing first with
  | nil => simp
  | cons item rest ih => rw [List.foldl_cons, ih, List.any_cons, Bool.or_assoc]

namespace GlobalFacts

variable {m : Module}

/-- Add what nodes tell, one after the other. -/
def mergeAll (m : Module) (nodes : List MdNode) (facts : GlobalFacts) : GlobalFacts :=
  nodes.foldl (fun facts node => facts.merge m node) facts

theorem mergeAll_location (nodes : List MdNode) (facts : GlobalFacts) :
    (facts.mergeAll m nodes).location =
      (nodes.filterMap fun node =>
        (node.operand 1).node?.map (SourceLocation.parse m)).getLast?.getD
        facts.location := by
  rw [← foldl_getD_eq_getLast]
  refine (List.foldl_hom GlobalFacts.location fun facts node => ?_).symm
  unfold merge
  cases (node.operand 1).node? <;> rfl

theorem mergeAll_name (nodes : List MdNode) (facts : GlobalFacts) :
    (facts.mergeAll m nodes).name =
      (nodes.filterMap fun node => (node.operand 2).string?).getLast?.getD facts.name := by
  rw [← foldl_getD_eq_getLast]
  exact (List.foldl_hom GlobalFacts.name fun _ _ => rfl).symm

theorem mergeAll_dynInit (nodes : List MdNode) (facts : GlobalFacts) :
    (facts.mergeAll m nodes).dynInit =
      (facts.dynInit || nodes.any fun node => (node.operand 3).isSet) := by
  rw [← foldl_or_eq_any]
  exact (List.foldl_hom GlobalFacts.dynInit fun _ _ => rfl).symm

theorem mergeAll_excluded (nodes : List MdNode) (facts : GlobalFacts) :
    (facts.mergeAll m nodes).excluded =
      (facts.excluded || nodes.any fun node => (node.operand 4).isSet) := by
  rw [← foldl_or_eq_any]
  exact (List.foldl_hom GlobalFacts.excluded fun _ _ => rfl).symm

end GlobalFacts

namespace Annotations

variable {m m' : Module} {store : Annotations} {node : MdNode} {id : GlobalId}

theorem subject?_eq_some_iff :
    subject? m node = some id ↔ (node.operand 0).global? = some id ∧ id < m.globals.size := by
  unfold subject?
  cases (node.operand 0).global? with
  | none => simp
  | some other =>
      dsimp only
      split
      · rename_i hlt
        refine ⟨fun h => ⟨h, Option.some.inj h ▸ hlt⟩, fun h => h.1⟩
      · rename_i hnot
        refine iff_of_false (fun h => by cases h) ?_
        rintro ⟨⟨⟩, hlt⟩
        exact hnot hlt

theorem merge_congr (hnodes : m'.nodes = m.nodes) (facts : GlobalFacts) :
    facts.merge m' node = facts.merge m node := by
  unfold GlobalFacts.merge SourceLocation.parse
  rw [hnodes]

/-- The nodes of a list that are about a global, in the order of the list. -/
def aboutOf (m : Module) (numbers : List NodeId) (id : GlobalId) : List MdNode :=
  (numbers.filterMap fun number => m.nodes[number]?).filter fun node => node.operand 0 = .global id

/-- The annotations of a global, in the order of their list. -/
def about (m : Module) (id : GlobalId) : List MdNode := aboutOf m (m.namedNodes listName) id

theorem mem_aboutOf {numbers : List NodeId} : node ∈ aboutOf m numbers id ↔
    ∃ number ∈ numbers, m.nodes[number]? = some node ∧ node.operand 0 = .global id := by
  simp only [aboutOf, List.mem_filter, List.mem_filterMap, decide_eq_true_eq]
  constructor
  · rintro ⟨⟨number, hmem, hnode⟩, hid⟩
    exact ⟨number, hmem, hnode, hid⟩
  · rintro ⟨number, hmem, hnode, hid⟩
    exact ⟨⟨number, hmem, hnode⟩, hid⟩

/-- A node tells something about its subject only. -/
theorem get?_addNode (hid : id < m.globals.size) (number : NodeId) :
    (addNode m store number).facts.get? id =
      (aboutOf m [number] id).foldl (fun old node => some ((old.getD {}).merge m node))
        (store.facts.get? id) := by
  unfold addNode
  cases hnode : m.nodes[number]? with
  | none => simp [aboutOf, hnode]
  | some node =>
      dsimp only
      have habout : aboutOf m [number] id = if node.operand 0 = .global id then [node] else [] := by
        simp [aboutOf, hnode, List.filter_cons]
      rw [habout]
      cases hsubject : subject? m node with
      | none =>
          have hnot : node.operand 0 ≠ .global id := by
            intro heq
            have := subject?_eq_some_iff.mpr ⟨MdOperand.global?_eq_some_iff.mpr heq, hid⟩
            rw [hsubject] at this
            cases this
          rw [if_neg hnot]
          rfl
      | some other =>
          have hglobal := MdOperand.global?_eq_some_iff.mp (subject?_eq_some_iff.mp hsubject).1
          simp only [hglobal, MdOperand.global.injEq, Dict.get?_alter]
          by_cases heq : id = other
          · subst heq
            simp
          · rw [if_neg heq, if_neg (Ne.symm heq)]
            rfl

/-- What is not a global of the module is not annotated. -/
theorem get?_addNode_of_le (hid : m.globals.size ≤ id) (number : NodeId) :
    (addNode m store number).facts.get? id = store.facts.get? id := by
  unfold addNode
  split
  · rfl
  · split
    · rfl
    · rename_i other hsubject
      have hlt := (subject?_eq_some_iff.mp hsubject).2
      rw [Dict.get?_alter, if_neg (hlt.trans_le hid).ne']

theorem aboutOf_cons (number : NodeId) (numbers : List NodeId) :
    aboutOf m (number :: numbers) id = aboutOf m [number] id ++ aboutOf m numbers id := by
  simp only [aboutOf, ← List.filter_append, ← List.filterMap_append, List.singleton_append]

theorem get?_foldl_addNode (hid : id < m.globals.size) (numbers : List NodeId)
    (store : Annotations) :
    (numbers.foldl (addNode m) store).facts.get? id =
      (aboutOf m numbers id).foldl (fun old node => some ((old.getD {}).merge m node))
        (store.facts.get? id) := by
  induction numbers generalizing store with
  | nil => rfl
  | cons number rest ih => rw [List.foldl_cons, ih, get?_addNode hid, aboutOf_cons number rest,
      List.foldl_append]

theorem foldl_some_merge (nodes : List MdNode) (old : Option GlobalFacts)
    (h : old.isSome ∨ nodes ≠ []) :
    nodes.foldl (fun old node => some ((old.getD {}).merge m node)) old =
      some ((old.getD {}).mergeAll m nodes) := by
  induction nodes generalizing old with
  | nil =>
      obtain ⟨facts, rfl⟩ := Option.isSome_iff_exists.mp (h.resolve_right fun hne => hne rfl)
      rfl
  | cons node rest ih => exact ih _ (.inl rfl)

theorem get?_ofModule (hid : id < m.globals.size) :
    (ofModule m).facts.get? id =
      if about m id = [] then none else some (({} : GlobalFacts).mergeAll m (about m id)) := by
  unfold ofModule
  rw [get?_foldl_addNode hid]
  change (about m id).foldl _ none = _
  split
  · rename_i hnone
    rw [hnone]
    rfl
  · rename_i hsome
    exact foldl_some_merge _ _ (.inr hsome)

theorem get?_ofModule_of_le (hid : m.globals.size ≤ id) : (ofModule m).facts.get? id = none := by
  have hkeeps : ∀ (numbers : List NodeId) (store : Annotations),
      (numbers.foldl (addNode m) store).facts.get? id = store.facts.get? id := by
    intro numbers
    induction numbers with
    | nil => exact fun _ => rfl
    | cons number rest ih => exact fun store => (ih _).trans (get?_addNode_of_le hid number)
  exact hkeeps _ _

theorem get_ofModule_eq_mergeAll (hid : id < m.globals.size) :
    (ofModule m).get id = ({} : GlobalFacts).mergeAll m (about m id) := by
  unfold get
  rw [get?_ofModule hid]
  split
  · rename_i hnone
    rw [hnone]
    rfl
  · rfl

theorem contains_ofModule_iff :
    (ofModule m).contains id = true ↔ id < m.globals.size ∧ ∃ node, node ∈ about m id := by
  unfold contains Dict.contains
  by_cases hid : id < m.globals.size
  · rw [get?_ofModule hid]
    cases about m id <;> simp [hid]
  · rw [get?_ofModule_of_le (Nat.le_of_not_lt hid)]
    simp [hid]

theorem get_of_not_contains (h : store.contains id = false) : store.get id = {} := by
  unfold get
  rw [Option.isSome_eq_false_iff.mp h |> Option.isNone_iff_eq_none.mp]
  rfl

/-- A store lists its globals in order. -/
theorem ordered_ofModule : (ofModule m).facts.Ordered := by
  have hkeeps : ∀ (numbers : List NodeId) (store : Annotations), store.facts.Ordered →
      (numbers.foldl (addNode m) store).facts.Ordered := by
    intro numbers
    induction numbers with
    | nil => exact fun _ h => h
    | cons number rest ih =>
        intro store h
        refine ih _ ?_
        unfold addNode
        split
        · exact h
        · split
          · exact h
          · exact h.alter _ _
  exact hkeeps _ _ Dict.ordered_empty

/-- How nodes about different globals are mixed makes no difference. -/
theorem ofModule_eq_of_about (hnodes : m'.nodes = m.nodes)
    (hsize : m'.globals.size = m.globals.size)
    (habout : ∀ id, about m' id = about m id) : ofModule m' = ofModule m := by
  have hfacts : (ofModule m').facts = (ofModule m).facts := by
    refine ordered_ofModule.ext ordered_ofModule fun id => ?_
    by_cases hid : id < m.globals.size
    · rw [get?_ofModule hid, get?_ofModule (hsize ▸ hid), habout]
      simp only [GlobalFacts.mergeAll, merge_congr hnodes]
    · rw [get?_ofModule_of_le (Nat.le_of_not_lt hid),
        get?_ofModule_of_le (hsize ▸ Nat.le_of_not_lt hid)]
  exact congrArg Annotations.mk hfacts

theorem about_perm (hnodes : m'.nodes = m.nodes)
    (hperm : (m'.namedNodes listName).Perm (m.namedNodes listName)) (id : GlobalId) :
    (about m' id).Perm (about m id) := by
  unfold about aboutOf
  rw [hnodes]
  exact (hperm.filterMap _).filter _

theorem get_ofModule (hmetadata : m'.nodes = m.nodes ∧ m'.named = m.named)
    (hsize : m.globals.size ≤ m'.globals.size) (hid : id < m.globals.size) :
    (ofModule m').get id = (ofModule m).get id := by
  rw [get_ofModule_eq_mergeAll hid, get_ofModule_eq_mergeAll (hid.trans_le hsize)]
  simp only [GlobalFacts.mergeAll, merge_congr hmetadata.1, about, aboutOf, Module.namedNodes,
    hmetadata.1, hmetadata.2]

/-- The store of a module is what its annotations come to. -/
theorem ofModule_merges (m : Module) :
    (∀ id, (ofModule m).contains id = true ↔ id < m.globals.size ∧
      ∃ number ∈ m.namedNodes listName, ∃ node,
        m.nodes[number]? = some node ∧ node.operand 0 = .global id) ∧
    (∀ id, (ofModule m).contains id = false → (ofModule m).get id = {}) ∧
    (∀ id, (ofModule m).contains id = true →
      ((ofModule m).get id).location = ((about m id).filterMap fun node =>
        (node.operand 1).node?.map (SourceLocation.parse m)).getLast?.getD {} ∧
      ((ofModule m).get id).name =
        ((about m id).filterMap fun node => (node.operand 2).string?).getLast?.getD "" ∧
      (((ofModule m).get id).dynInit = true ↔
        ∃ node ∈ about m id, ∃ value, node.operand 3 = .int value ∧ value ≠ 0) ∧
      (((ofModule m).get id).excluded = true ↔
        ∃ node ∈ about m id, ∃ value, node.operand 4 = .int value ∧ value ≠ 0)) ∧
    (∀ number, m.nodes[number]? = none → SourceLocation.parse m number = {}) ∧
    (∀ number node, m.nodes[number]? = some node →
      SourceLocation.Names (node.operand 0) (SourceLocation.parse m number).file ∧
      SourceLocation.Counts (node.operand 1) (SourceLocation.parse m number).line ∧
      SourceLocation.Counts (node.operand 2) (SourceLocation.parse m number).column) ∧
    ∀ m' : Module, m'.nodes = m.nodes → m'.globals.size = m.globals.size →
      ((∀ id, about m' id = about m id) → ofModule m' = ofModule m) ∧
      ((m'.namedNodes listName).Perm (m.namedNodes listName) → ∀ id,
        (ofModule m').contains id = (ofModule m).contains id ∧
        ((ofModule m').get id).dynInit = ((ofModule m).get id).dynInit ∧
        ((ofModule m').get id).excluded = ((ofModule m).get id).excluded) := by
  refine ⟨fun id => ?_, fun id => get_of_not_contains, fun id hcontains => ?_,
    fun number hnone => ?_, fun number node hnode => ?_, fun m' hnodes hsize =>
      ⟨ofModule_eq_of_about hnodes hsize, fun hperm id => ?_⟩⟩
  · rw [contains_ofModule_iff]
    simp only [about, mem_aboutOf]
    rw [exists_comm]
    simp only [exists_and_left]
  · have hid := (contains_ofModule_iff.mp hcontains).1
    rw [get_ofModule_eq_mergeAll hid]
    refine ⟨GlobalFacts.mergeAll_location _ _, GlobalFacts.mergeAll_name _ _, ?_, ?_⟩
    · rw [GlobalFacts.mergeAll_dynInit, Bool.false_or, List.any_eq_true]
      simp only [MdOperand.isSet_iff]
    · rw [GlobalFacts.mergeAll_excluded, Bool.false_or, List.any_eq_true]
      simp only [MdOperand.isSet_iff]
  · unfold SourceLocation.parse
    rw [hnone]
  · unfold SourceLocation.parse
    rw [hnode]
    exact ⟨SourceLocation.names_string _, SourceLocation.counts_coordinate _,
      SourceLocation.counts_coordinate _⟩
  · -- flags do not depend on the order in which they are set
    have habout := about_perm hnodes hperm id
    have hcontains : (ofModule m').contains id = (ofModule m).contains id := by
      rw [Bool.eq_iff_iff, contains_ofModule_iff, contains_ofModule_iff, hsize]
      simp only [habout.mem_iff]
    refine ⟨hcontains, ?_⟩
    by_cases hid : id < m.globals.size
    · rw [get_ofModule_eq_mergeAll hid, get_ofModule_eq_mergeAll (hsize ▸ hid)]
      simp only [GlobalFacts.mergeAll_dynInit, GlobalFacts.mergeAll_excluded, habout.any_eq,
        and_self]
    · unfold get
      rw [get?_ofModule_of_le (Nat.le_of_not_lt hid),
        get?_ofModule_of_le (hsize ▸ Nat.le_of_not_lt hid)]
      exact ⟨rfl, rfl⟩

/-- A module with two annotations of its first global and one of its second, listed in a given
order.  One entry of the list is dangling, and so is the second location of the first global. -/
def ledgerModule (numbers : List NodeId) : Module where
  name := "ledger"
  globals := #[{ name := 0, size := 4, align := 4 }, { name := 1, size := 4, align := 4 }]
  nodes := #[⟨[.global 0, .node 3, .string "first", .int 1]⟩, ⟨[.global 1, .null, .string "other"]⟩,
    ⟨[.global 0, .node 9, .int 7, .int 0, .int 5]⟩, ⟨[.string "a.c", .int 3, .int (-1)]⟩]
  named := Dict.empty.insert listName numbers

theorem ofModule_ledgerModule :
    ofModule (ledgerModule [1, 0, 8, 2]) = ofModule (ledgerModule [0, 8, 2, 1]) ∧
      ((ofModule (ledgerModule [2, 0, 1])).get 0).excluded =
        ((ofModule (ledgerModule [0, 2, 1])).get 0).excluded ∧
      (ofModule (ledgerModule [0, 8, 2, 1])).get 0 = ⟨{}, "first", true, true⟩ := by
  refine ⟨((ofModule_merges (ledgerModule [0, 8, 2, 1])).2.2.2.2.2 _ rfl rfl).1 fun id => ?_,
    (((ofModule_merges (ledgerModule [0, 2, 1])).2.2.2.2.2 _ rfl rfl).2 (by decide) 0).2.2,
      by decide⟩
  rcases id with _ | _ | id
  · decide
  · decide
  · rfl

end Annotations

end Redzone
