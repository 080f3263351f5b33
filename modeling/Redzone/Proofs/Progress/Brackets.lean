import Redzone.Proofs.Escape
import Redzone.Proofs.Modules.ModuleRun
import Redzone.Proofs.Progress.Frame

/-!
# Brackets leave frames and pointers alone

The calls that bracket a constructor read nothing but their own results.  `Func.Aside` says this of
all the code that a function `g` has more than `f`: then every pointer of `f` is made from the same
value by the same additions, every slot has the uses and the lifetime markers that it had, and so
the same slots are moved into a frame (`Aside.frameSlots_eq`).
-/

namespace Redzone

/-- An operation that has to do with neither memory nor pointers that are added to. -/
def Op.isQuiet : Op → Bool
  | .symbolAddr _ | .call .. => true
  | _ => false

theorem mapM_filter {ε α β : Type} {next next' : α → Except ε (Option β)} {p : α → Bool}
    {l : List α} {found found' : List (Option β)} (hfound : (l.filter p).mapM next = .ok found)
    (hfound' : l.mapM next' = .ok found') (hkept : ∀ a ∈ l, p a = true → next' a = next a)
    (hnew : ∀ a ∈ l, p a = false → next' a = .ok none) :
    found'.filterMap id = found.filterMap id := by
  induction l generalizing found found' with
  | nil =>
      cases hfound
      cases hfound'
      rfl
  | cons a rest ih =>
      rw [List.forall_mem_cons] at hkept hnew
      rw [List.mapM_cons] at hfound'
      obtain ⟨b, hb, hfound'⟩ := bind_eq_ok hfound'
      obtain ⟨others, hothers, hfound'⟩ := bind_eq_ok hfound'
      cases hfound'
      by_cases ha : p a = true
      · rw [List.filter_cons_of_pos ha, List.mapM_cons, ← hkept.1 ha, hb, ok_bind] at hfound
        obtain ⟨old, hold, hfound⟩ := bind_eq_ok hfound
        cases hfound
        rw [List.filterMap_cons, List.filterMap_cons, ih hold hothers hkept.2 hnew.2]
      · rw [List.filter_cons_of_neg ha] at hfound
        cases hb.symm.trans (hnew.1 (Bool.eq_false_of_not_eq_true ha))
        rw [List.filterMap_cons, ih hfound hothers hkept.2 hnew.2]
        rfl

namespace Func

variable {f g k : Func} {symbols symbols' : SymbolTable} {config : Config}

/-- Code that reads nothing but results of code from place `n` on. -/
def ReadsFrom (n : InstId) (instruction : Instruction) : Prop :=
  instruction.op.isQuiet = true ∧ ∀ v ∈ instruction.op.operands, ∃ i, n ≤ i ∧ v = .inst i

/-- A function has more code than another one, and this code reads only itself. -/
structure Aside (f g : Func) : Prop where
  shell : g.shell = f.shell
  blocks : g.blocks.size = f.blocks.size
  size : f.insts.size ≤ g.insts.size
  old : ∀ i < f.insts.size, g.insts[i]? = f.insts[i]?
  new : ∀ (i : InstId) (instruction : Instruction), f.insts.size ≤ i →
    g.insts[i]? = some instruction → ReadsFrom f.insts.size instruction
  arena : g.InArena
  listed : ∀ i < f.insts.size, i ∈ g.listed ↔ i ∈ f.listed
  entry : ∀ blk, f.blocks[0]? = some blk → ∃ blk', g.blocks[0]? = some blk' ∧
    blk'.insts.filter (· < f.insts.size) = blk.insts

namespace Aside

theorem refl (harena : f.InArena) : f.Aside f where
  shell := rfl
  blocks := rfl
  size := le_rfl
  old _ _ := rfl
  new _ _ hi hinst := absurd (Array.getElem?_eq_some_iff.mp hinst).1 (Nat.not_lt.mpr hi)
  arena := harena
  listed _ _ := Iff.rfl
  entry blk hblk := ⟨blk, hblk, List.filter_eq_self.mpr fun i hi =>
    decide_eq_true (harena i (mem_listed hblk hi))⟩

theorem insertCode {b : BlockId} {pos : Nat} {code : List Instruction} (h : f.Aside g)
    (hinsert : g.insertCode b pos code = .ok k)
    (hcode : ∀ instruction ∈ code, ReadsFrom g.insts.size instruction) : f.Aside k := by
  have harena := inArena_insertCode h.arena hinsert
  obtain ⟨blk, hblk, hpos, rfl⟩ := insertCode_eq_ok hinsert
  have hfresh : ∀ i ∈ List.range' g.insts.size code.length, f.insts.size ≤ i :=
    fun i hi => h.size.trans (List.mem_range'_1.mp hi).1
  refine ⟨h.shell, ?_, ?_, fun i hi => ?_, fun i instruction hi hinst => ?_, harena, fun i hi => ?_,
    fun entry hentry => ?_⟩
  · rw [size_blocks_graft, List.length_nil, Nat.add_zero, h.blocks]
  · rw [size_insts_graft]
    exact h.size.trans (Nat.le_add_right _ _)
  · rw [getElem?_insts_graft_of_lt (hi.trans_le h.size), h.old i hi]
  · by_cases hlt : i < g.insts.size
    · rw [getElem?_insts_graft_of_lt hlt] at hinst
      exact h.new i instruction hi hinst
    · obtain ⟨j, rfl⟩ := Nat.exists_eq_add_of_le (Nat.not_lt.mp hlt)
      rw [getElem?_insts_graft_add] at hinst
      obtain ⟨hquiet, hreads⟩ := hcode instruction (List.mem_of_getElem? hinst)
      refine ⟨hquiet, fun v hv => ?_⟩
      obtain ⟨l, hl, rfl⟩ := hreads v hv
      exact ⟨l, h.size.trans hl, rfl⟩
  · rw [mem_listed_insert hblk, h.listed i hi]
    exact ⟨Or.rec id fun hmem => absurd hi (Nat.not_lt.mpr (hfresh i hmem)), .inl⟩
  · obtain ⟨entry', hentry', hfilter⟩ := h.entry entry hentry
    by_cases hb : b = 0
    · subst hb
      obtain rfl := Option.some.inj (hblk.symm.trans hentry')
      refine ⟨_, getElem?_blocks_graft_self hblk, ?_⟩
      -- the new instructions are filtered out again
      have hnone : (List.range' g.insts.size code.length).filter (· < f.insts.size) = [] :=
        List.filter_eq_nil_iff.mpr fun i hi => by simpa using hfresh i hi
      dsimp only
      rw [List.filter_append, List.filter_append, hnone, List.append_nil, ← List.filter_append,
        List.take_append_drop, hfilter]
    · refine ⟨entry', ?_, hfilter⟩
      rw [getElem?_blocks_graft_of_ne (Ne.symm hb) (lt_size_of_getElem? hentry'), hentry']

/-! ### Pointers -/

/-- What is no quiet operation is an operation of the function as it was. -/
theorem defOp_eq_some_iff (h : f.Aside g) {v : Value} {op : Op} (hop : op.isQuiet = false) :
    g.defOp v = some op ↔ f.defOp v = some op := by
  constructor
  · intro hdef
    obtain ⟨i, instruction, rfl, hinst, rfl⟩ := defOp_eq_some hdef
    by_cases hi : i < f.insts.size
    · rw [h.old i hi] at hinst
      exact defOp_of_getElem? hinst
    · rw [(h.new i instruction (Nat.not_lt.mp hi) hinst).1] at hop
      cases hop
  · intro hdef
    obtain ⟨i, instruction, rfl, hinst, rfl⟩ := defOp_eq_some hdef
    rw [← h.old i (Array.getElem?_eq_some_iff.mp hinst).1] at hinst
    exact defOp_of_getElem? hinst

theorem pointsInto_iff (h : f.Aside g) {base ptr : Value} {sum total : Int} :
    g.PointsInto base ptr sum total ↔ f.PointsInto base ptr sum total :=
  ⟨fun hpoints => hpoints.mono (fun _ _ _ => (h.defOp_eq_some_iff rfl).mp)
      fun _ _ => (h.defOp_eq_some_iff rfl).mp,
    fun hpoints => hpoints.mono (fun _ _ _ => (h.defOp_eq_some_iff rfl).mpr)
      fun _ _ => (h.defOp_eq_some_iff rfl).mpr⟩

theorem away (h : f.Aside g) {count : Nat} {v : Value} (haway : f.Away count v) :
    g.Away count v := by
  induction haway with
  | root hroot =>
      exact .root fun inner distance hadd => hroot _ _ ((h.defOp_eq_some_iff rfl).mp hadd)
  | add hadd _ ih => exact .add ((h.defOp_eq_some_iff rfl).mpr hadd) ih

/-! ### Slots -/

theorem hasMarker_iff (h : f.Aside g) (harena : f.InArena) {slot : InstId} :
    g.HasMarker slot ↔ f.HasMarker slot := by
  constructor
  · rintro ⟨i, hi, instruction, edge, ptr, size, total, hinst, hop, hpoints⟩
    have hlt : i < f.insts.size := by
      by_contra hge
      have hquiet := (h.new i instruction (Nat.not_lt.mp hge) hinst).1
      rw [hop] at hquiet
      cases hquiet
    rw [h.old i hlt] at hinst
    exact ⟨i, (h.listed i hlt).mp hi, instruction, edge, ptr, size, total, hinst, hop,
      h.pointsInto_iff.mp hpoints⟩
  · rintro ⟨i, hi, instruction, edge, ptr, size, total, hinst, hop, hpoints⟩
    rw [← h.old i (harena i hi)] at hinst
    exact ⟨i, (h.listed i (harena i hi)).mpr hi, instruction, edge, ptr, size, total, hinst, hop,
      h.pointsInto_iff.mpr hpoints⟩

end Aside

theorem useWhole_eq_true_iff {slot : Value} {size : Nat} {ids : List InstId} {whole : Bool}
    (h : f.useWhole slot size ids = .ok whole) :
    whole = true ↔ ∀ i ∈ ids, ∀ instruction, f.insts[i]? = some instruction →
      slot ∈ instruction.op.operands → instruction.op.usesWhole slot size = true := by
  induction ids with
  | nil =>
      cases h
      simp
  | cons i rest ih =>
      rw [useWhole] at h
      obtain ⟨instruction, hinst, h⟩ := bind_eq_ok h
      replace hinst := inst_eq_ok hinst
      rw [List.forall_mem_cons]
      split at h
      · rename_i hpart
        cases h
        rw [Bool.and_eq_true, List.contains_iff_mem, Bool.not_eq_true'] at hpart
        refine ⟨fun hfalse => absurd hfalse Bool.false_ne_true, fun hall => ?_⟩
        rw [hall.1 instruction hinst hpart.1] at hpart
        exact hpart.2.symm
      · rename_i hwhole
        rw [ih h]
        refine ⟨fun hall => ⟨fun instruction' hinst' hreads => ?_, hall⟩, And.right⟩
        obtain rfl := Option.some.inj (hinst.symm.trans hinst')
        by_contra hpart
        exact hwhole (by simpa [hpart] using hreads)

namespace Aside

/-- Whether a slot might live in a register does not depend on code that does not read it. -/
theorem isPromotable_eq (h : f.Aside g) (hf : f.Sound symbols) (hg : g.Sound symbols')
    {slot : InstId} (hslot : slot < f.insts.size) (size : Nat) :
    g.isPromotable slot size = f.isPromotable slot size := by
  obtain ⟨whole, hwhole⟩ : ∃ whole, f.isPromotable slot size = .ok whole :=
    hf.exists_useWhole _ _ fun _ hi => hi
  obtain ⟨whole', hwhole'⟩ : ∃ whole, g.isPromotable slot size = .ok whole :=
    hg.exists_useWhole _ _ fun _ hi => hi
  rw [hwhole, hwhole']
  refine congrArg Except.ok (Bool.eq_iff_iff.mpr ?_)
  rw [useWhole_eq_true_iff hwhole, useWhole_eq_true_iff hwhole']
  constructor
  · intro hall i hi instruction hinst
    have hlt := (Array.getElem?_eq_some_iff.mp hinst).1
    exact hall i ((h.listed i hlt).mpr hi) instruction (by rw [h.old i hlt, hinst])
  · intro hall i hi instruction hinst hreads
    by_cases hlt : i < f.insts.size
    · exact hall i ((h.listed i hlt).mp hi) instruction (by rw [← h.old i hlt, hinst]) hreads
    · obtain ⟨j, hj, heq⟩ := (h.new i instruction (Nat.not_lt.mp hlt) hinst).2 _ hreads
      cases heq
      exact absurd hslot (Nat.not_lt.mpr hj)

/-- A slot is described as it was, if its lifetime markers still count or still do not. -/
theorem slot?_eq (h : f.Aside g) (hf : f.Sound symbols) (hg : g.Sound symbols') (config : Config)
    {marked marked' : List InstId} {i : InstId} (hi : i < f.insts.size)
    (hmarked : ∀ size align, f.defOp (.inst i) = some (.stackSlot size align) →
      (i ∈ marked' ↔ i ∈ marked)) : g.slot? config marked' i = f.slot? config marked i := by
  obtain ⟨instruction, hinst⟩ : ∃ instruction, f.insts[i]? = some instruction :=
    ⟨_, Array.getElem?_eq_getElem hi⟩
  unfold slot?
  rw [inst_of_getElem? hinst, inst_of_getElem? ((h.old i hi).trans hinst), ok_bind, ok_bind]
  cases hop : instruction.op with
  | stackSlot size align =>
      have hnames : g.slotNames = f.slotNames :=
        show g.shell.slotNames = f.shell.slotNames from congrArg Func.slotNames h.shell
      have hcontains : marked'.contains i = marked.contains i := by
        rw [Bool.eq_iff_iff, List.contains_iff_mem, List.contains_iff_mem]
        exact hmarked size align (by rw [defOp_of_getElem? hinst, hop])
      dsimp only
      rw [h.isPromotable_eq hf hg hi, hnames, hcontains]
  | _ => rfl

theorem slot?_eq_none (h : f.Aside g) (config : Config) {marked : List InstId} {i : InstId}
    {instruction : Instruction} (hi : f.insts.size ≤ i) (hinst : g.insts[i]? = some instruction) :
    g.slot? config marked i = .ok none := by
  have hquiet := (h.new i instruction hi hinst).1
  unfold slot?
  rw [inst_of_getElem? hinst, ok_bind]
  cases hop : instruction.op with
  | stackSlot =>
      rw [hop] at hquiet
      cases hquiet
  | _ => rfl

/-- The same slots are moved into a frame. -/
theorem frameSlots_eq (h : f.Aside g) (hf : f.Sound symbols) (hg : g.Sound symbols')
    (hbody : f.isDeclaration = false) (config : Config) :
    g.frameSlots config = f.frameSlots config := by
  have hsize : 0 < f.blocks.size := by
    rw [isDeclaration, Array.isEmpty_eq_false_iff] at hbody
    exact Array.size_pos_iff.mpr hbody
  have hentry : f.blocks[0]? = some f.blocks[0] := Array.getElem?_eq_getElem hsize
  obtain ⟨entry, hentry', hfilter⟩ := h.entry _ hentry
  have harena : f.InArena := fun i hi => hf.closed.lt_size hi
  -- brackets hold no slots, so that it does not matter which of them are scanned
  have hslots : ∀ marked marked' : List InstId,
      (∀ i size align, f.defOp (.inst i) = some (.stackSlot size align) →
        (i ∈ marked' ↔ i ∈ marked)) →
      (do
        let slots ← entry.insts.mapM (g.slot? config marked')
        Except.ok (slots.filterMap id)) =
      (do
        let slots ← f.blocks[0].insts.mapM (f.slot? config marked)
        Except.ok (slots.filterMap id)) := by
    intro marked marked' hmarked
    obtain ⟨found, hfound⟩ : ∃ found, f.blocks[0].insts.mapM (f.slot? config marked) = .ok found :=
      exists_mapM fun i hi => hf.exists_slot? config marked (mem_listed hentry hi)
    obtain ⟨found', hfound'⟩ : ∃ found, entry.insts.mapM (g.slot? config marked') = .ok found :=
      exists_mapM fun i hi => hg.exists_slot? config marked' (mem_listed hentry' hi)
    rw [hfound, hfound', ok_bind, ok_bind]
    rw [← hfilter] at hfound
    refine congrArg Except.ok (mapM_filter hfound hfound' (fun i _ hi => ?_) fun i hi hnew => ?_)
    · exact h.slot?_eq hf hg config (of_decide_eq_true hi) (hmarked i)
    · obtain ⟨instruction, hinst⟩ := hg.exists_inst (mem_listed hentry' hi)
      exact h.slot?_eq_none config (Nat.not_lt.mp (of_decide_eq_false hnew)) (inst_eq_ok hinst)
  unfold frameSlots
  simp only [block_of_getElem? hentry, block_of_getElem? hentry', ok_bind]
  split
  · obtain ⟨marked, hmarked⟩ := hf.exists_scopedSlots
    obtain ⟨marked', hmarked'⟩ := hg.exists_scopedSlots
    rw [hmarked, hmarked', ok_bind, ok_bind]
    refine hslots marked marked' fun i size align hslot => ?_
    rw [mem_scopedSlots_iff hmarked hslot,
      mem_scopedSlots_iff hmarked' ((h.defOp_eq_some_iff rfl).mpr hslot), h.hasMarker_iff harena]
  · exact hslots [] [] fun _ _ _ _ => Iff.rfl

end Aside

/-! ### Brackets -/

theorem readsFrom_addedCode {n : InstId} {origin : Origin} {ops : List Op}
    (hops : ∀ op ∈ ops, op.isQuiet = true ∧ ∀ v ∈ op.operands, ∃ i, n ≤ i ∧ v = .inst i) :
    ∀ instruction ∈ addedCode origin ops, ReadsFrom n instruction := by
  intro instruction hinstruction
  obtain ⟨op, hop, rfl⟩ := List.mem_map.mp hinstruction
  exact hops op hop

/-- Constructors can be bracketed, and a bracket reads only itself. -/
theorem InArena.exists_bracket (harena : f.InArena) {blk : Block} (hblk : f.blocks[0]? = some blk)
    (before after moduleName : SymbolId) :
    ∃ g, f.bracket before after moduleName = .ok g ∧ f.Aside g := by
  obtain ⟨exits, hexits⟩ := harena.exists_exits Op.isRet
  obtain ⟨pos, hpos, hplace⟩ := harena.exists_prologueLength hblk
  obtain ⟨f₁, hf₁, haside, hplace₁, -⟩ :
      ∃ f₁, exits.foldlM (callAtExit after) f = .ok f₁ ∧ f.Aside f₁ ∧ f₁.HasPlace 0 pos ∧
        ∀ exit ∈ ([] : List (BlockId × Nat)), f₁.HasPlace exit.1 exit.2 := by
    refine exists_foldlM (fun g rest => f.Aside g ∧ g.HasPlace 0 pos ∧
      ∀ exit ∈ rest, g.HasPlace (Prod.fst exit) (Prod.snd exit)) ?_
      ⟨.refl harena, hplace, fun exit hexit => .of_mem_exits hexits hexit⟩
    rintro g exit rest ⟨haside, hplace, hrest⟩
    rw [List.forall_mem_cons] at hrest
    obtain ⟨k, hk⟩ := hrest.1.exists_insertCode
      (addedCode [] [.symbolAddr after, .call (.inst g.insts.size) []])
    refine ⟨k, hk, haside.insertCode hk (readsFrom_addedCode ?_), hplace.insertCode hk,
      fun other hother => (hrest.2 other hother).insertCode hk⟩
    simp [Op.isQuiet, Op.operands]
  obtain ⟨g, hg⟩ := hplace₁.exists_insertCode (addedCode []
    [.symbolAddr moduleName, .symbolAddr before,
      .call (.inst (f₁.insts.size + 1)) [.inst f₁.insts.size]])
  refine ⟨g, ?_, haside.insertCode hg (readsFrom_addedCode ?_)⟩
  · unfold bracket
    rw [hexits, ok_bind, hpos, ok_bind, hf₁]
    exact hg
  · simp [Op.isQuiet, Op.operands]

end Func

end Redzone
