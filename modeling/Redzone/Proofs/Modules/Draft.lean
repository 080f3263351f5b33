import Redzone.Proofs.Edits.Places
import Redzone.Proofs.Frame.Steps
import Redzone.Proofs.Modules.OwnSymbol

/-!
# What becomes of a draft

A function that is being instrumented need not be well formed.  Whatever it is, all that happens to
its draft is that code is added: the function stays the same but for its code, the arena and the
symbol table only grow, and nothing but routines of the runtime is called, each with the signature
that goes with its name (`Draft.Extends`).  The visits of sites and the addition of a frame follow
this rule, step by step.
-/

namespace Redzone

/-! ### Routines that are called -/

theorem Dict.mem_of_get? {κ β : Type} [DecidableEq κ] {dict : Dict κ β} {key : κ} {value : β}
    (h : dict.get? key = some value) : (key, value) ∈ dict.entries := by
  obtain ⟨entries⟩ := dict
  change lookup key entries = some value at h
  induction entries with
  | nil => cases h
  | cons entry rest ih =>
      obtain ⟨other, found⟩ := entry
      rw [lookup] at h
      split at h
      · rename_i heq
        rw [← heq, ← Option.some.inj h]
        exact List.mem_cons_self
      · exact List.mem_cons_of_mem _ (ih h)

theorem Dict.not_mem_keys {κ β : Type} [DecidableEq κ] {dict : Dict κ β} {key : κ}
    (h : dict.get? key = none) : key ∉ dict.entries.map Prod.fst := by
  obtain ⟨entries⟩ := dict
  change lookup key entries = none at h
  induction entries with
  | nil => nofun
  | cons entry rest ih =>
      rw [lookup] at h
      split at h
      · cases h
      · rename_i hne
        rw [List.map_cons, List.mem_cons, not_or]
        exact ⟨Ne.symm hne, ih h⟩

/-- Altering a key leaves the list of keys as it is, or puts the key into it. -/
theorem Dict.keys_alter {κ β : Type} [DecidableEq κ] [LT κ] [DecidableLT κ] (dict : Dict κ β)
    (key : κ) (update : Option β → β) :
    key ∈ dict.entries.map Prod.fst ∧
        (dict.alter key update).entries.map Prod.fst = dict.entries.map Prod.fst ∨
      key ∉ dict.entries.map Prod.fst ∧
        (dict.alter key update).entries.Perm ((key, update none) :: dict.entries) := by
  unfold alter
  split
  · rename_i old hold
    refine .inl ⟨List.mem_map.mpr ⟨_, mem_of_get? hold, rfl⟩, ?_⟩
    rw [List.map_map]
    apply List.map_congr_left
    intro entry _
    by_cases heq : entry.1 = key <;> simp [heq]
  · rename_i hnone
    refine .inr ⟨not_mem_keys hnone, ?_⟩
    have hsplit := List.takeWhile_append_dropWhile
      (p := fun entry : κ × β => decide (entry.1 < key))
      (l := dict.entries)
    conv => rhs; rw [← hsplit]
    exact List.perm_middle

/-- Altering a key adds no other entry. -/
theorem Dict.mem_alter {κ β : Type} [DecidableEq κ] [LT κ] [DecidableLT κ] {dict : Dict κ β}
    {key : κ} {update : Option β → β} {entry : κ × β}
    (h : entry ∈ (dict.alter key update).entries) :
    entry = (key, update (dict.get? key)) ∨ entry ∈ dict.entries := by
  unfold alter at h
  split at h
  · rename_i old hold
    obtain ⟨entry', hentry', rfl⟩ := List.mem_map.mp h
    split
    · exact .inl (by rw [hold])
    · exact .inr hentry'
  · rename_i hnone
    rw [hnone]
    rcases List.mem_append.mp h with h | h
    · exact .inr (List.takeWhile_subset _ h)
    · rcases List.mem_cons.mp h with h | h
      · exact .inl h
      · exact .inr (List.dropWhile_subset _ h)

theorem Dict.mem_keys_alter {κ β : Type} [DecidableEq κ] [LT κ] [DecidableLT κ] {dict : Dict κ β}
    {key other : κ} {update : Option β → β} :
    other ∈ (dict.alter key update).entries.map Prod.fst ↔
      other = key ∨ other ∈ dict.entries.map Prod.fst := by
  rcases dict.keys_alter key update with ⟨hkey, hkeys⟩ | ⟨-, hperm⟩
  · rw [hkeys]
    exact ⟨.inr, fun h => h.elim (fun heq => heq ▸ hkey) id⟩
  · rw [(hperm.map Prod.fst).mem_iff, List.map_cons, List.mem_cons]

namespace EntryPoint

/-- The parameters and the result of a routine that instrumented code calls.  A routine for accesses
of one size has the size in its name; the others are told of it. -/
def signature (name : String) : Signature :=
  if startsWith name "__asan_set_shadow_" then ⟨[.int, .int], none⟩
  else if name = bulk .fill then Draft.bulkSignature .fill
  else if startsWith name "__asan_mem" then Draft.bulkSignature .copy
  else ⟨if name.toList.any Char.isDigit then [.int] else [.int, .int], none⟩

theorem signature_access (access : Access) (size : Nat) (recover : Bool) :
    signature (report access size recover) = Draft.accessSignature size ∧
      signature (check access size recover) = Draft.accessSignature size := by
  by_cases hfixed : isFixedSize size = true
  · have hall : ∀ size ∈ [1, 2, 4, 8, 16],
        signature (report access size recover) = Draft.accessSignature size ∧
          signature (check access size recover) = Draft.accessSignature size := by
      cases access <;> cases recover <;> decide +kernel
    exact hall size (by simpa [isFixedSize, or_assoc] using hfixed)
  · simp only [report, check, Draft.accessSignature, if_neg hfixed]
    cases access <;> cases recover <;> decide +kernel

theorem signature_bulk (kind : Bulk) : signature (bulk kind) = Draft.bulkSignature kind := by
  cases kind <;> decide +kernel

theorem signature_setShadow (value : UInt8) :
    signature (setShadow value) = ⟨[.int, .int], none⟩ := by
  have hstem : startsWith (setShadow value) "__asan_set_shadow_" = true :=
    startsWith_append (by decide +kernel) _
  rw [signature, if_pos hstem]

end EntryPoint

namespace RuntimeUses

/-- A routine is called. -/
def Has (uses : RuntimeUses) (name : String) : Prop := name ∈ uses.routines.entries.map Prod.fst

theorem has_add {uses : RuntimeUses} {name other : String} {signature : Signature} :
    (uses.add name signature).Has other ↔ other = name ∨ uses.Has other := Dict.mem_keys_alter

theorem not_has_empty (name : String) : ¬ (({} : RuntimeUses).Has name) := nofun

/-- Every routine is listed once, with the signature that goes with its name. -/
structure Regular (uses : RuntimeUses) : Prop where
  nodup : (uses.routines.entries.map Prod.fst).Nodup
  signature : ∀ entry ∈ uses.routines.entries, entry.2 = EntryPoint.signature entry.1

theorem regular_empty : ({} : RuntimeUses).Regular := ⟨List.nodup_nil, nofun⟩

theorem Regular.add {uses : RuntimeUses} (h : uses.Regular) (name : String) :
    (uses.add name (EntryPoint.signature name)).Regular where
  nodup := by
    rcases uses.routines.keys_alter name (fun old => old.getD (EntryPoint.signature name)) with
      ⟨-, hkeys⟩ | ⟨hnew, hperm⟩
    · exact hkeys ▸ h.nodup
    · exact (hperm.map Prod.fst).nodup_iff.mpr (List.nodup_cons.mpr ⟨hnew, h.nodup⟩)
  signature entry hentry := by
    rcases Dict.mem_alter hentry with rfl | hold
    · cases hget : uses.routines.get? name with
      | none => rfl
      | some found => exact h.signature _ (Dict.mem_of_get? hget)
    · exact h.signature entry hold

end RuntimeUses

/-! ### Drafts -/

namespace Func

variable {f g : Func} {b pos : Nat} {code : List Instruction}

theorem name_of_shell (h : g.shell = f.shell) : g.name = f.name := by
  have hname : g.shell.name = f.shell.name := by rw [h]
  exact hname

theorem insertCode_extends (h : f.insertCode b pos code = .ok g) :
    g.shell = f.shell ∧ g.insts.size = f.insts.size + code.length := by
  obtain ⟨blk, -, -, rfl⟩ := insertCode_eq_ok h
  exact ⟨shell_graft, size_insts_graft⟩

theorem setOp_extends {i : InstId} {op : Op} (h : f.setOp i op = .ok g) :
    g.shell = f.shell ∧ g.insts.size = f.insts.size := by
  obtain ⟨instruction, -, rfl⟩ := setOp_eq_ok h
  exact ⟨shell_setInst i _, size_insts_setInst i _⟩

end Func

theorem Check.insert_extends {c : Check} {f g : Func} {b pos size cont : Nat} {addr : Value}
    (h : c.insert f b pos addr size = .ok (g, cont)) :
    g.shell = f.shell ∧ f.insts.size ≤ g.insts.size := by
  obtain ⟨blk, -, -, -, rfl⟩ := insert_eq_ok h
  exact ⟨Func.shell_graft, by rw [Func.size_insts_graft]; exact Nat.le_add_right _ _⟩

namespace Draft

/-- All that an instrumentation does to a draft: code is added, which calls routines of the
runtime. -/
structure Extends (d d' : Draft) : Prop where
  shell : d'.func.shell = d.func.shell
  size : d.func.insts.size ≤ d'.func.insts.size
  symbols : d.symbols.GrowsTo d'.symbols
  uses : ∀ name, d'.uses.Has name → d.uses.Has name ∨ IsRoutine name
  regular : d.uses.Regular → d'.uses.Regular

variable {config : Config} {outlined : Bool} {d d' d₁ : Draft} {f : Func} {b pos : Nat}
  {code : List Instruction} {site : Site}

namespace Extends

theorem refl (d : Draft) : d.Extends d := ⟨rfl, le_rfl, .refl _, fun _ => .inl, id⟩

theorem trans (h : d.Extends d₁) (h' : d₁.Extends d') : d.Extends d' where
  shell := h'.shell.trans h.shell
  size := h.size.trans h'.size
  symbols := h.symbols.trans h'.symbols
  uses name hname := (h'.uses name hname).elim (h.uses name) .inr
  regular hregular := h'.regular (h.regular hregular)

theorem of_func (hf : f.shell = d.func.shell ∧ d.func.insts.size ≤ f.insts.size) :
    d.Extends { d with func := f } := ⟨hf.1, hf.2, .refl _, fun _ => .inl, id⟩

theorem of_line (h : d.func.insertCode b pos code = .ok f) : d.Extends { d with func := f } := by
  obtain ⟨hshell, hsize⟩ := Func.insertCode_extends h
  exact of_func ⟨hshell, by rw [hsize]; exact Nat.le_add_right _ _⟩

theorem of_use (d : Draft) {name : String} (hroutine : IsRoutine name) {signature : Signature}
    (hsignature : EntryPoint.signature name = signature) : d.Extends (d.use name signature).1 := by
  refine ⟨rfl, le_rfl, d.symbols.growsTo_intern name, fun other hother => ?_,
    fun hregular => hsignature ▸ hregular.add name⟩
  rcases RuntimeUses.has_add.mp hother with rfl | hother
  · exact .inr hroutine
  · exact .inl hother

theorem of_foldlM {α : Type} {d d' : Draft} {next : Draft → α → Except Fault Draft} {steps : List α}
    (hnext : ∀ {d d' : Draft} {a : α}, next d a = .ok d' → d.Extends d')
    (h : steps.foldlM next d = .ok d') : d.Extends d' :=
  foldlM_keeps (fun d' => d.Extends d') (fun _ _ _ _ hd hstep => hd.trans (hnext hstep)) (.refl d) h

end Extends

/-! ### Visits -/

theorem callCheck_extends {access : MemAccess} (h : d.callCheck config site access = .ok d') :
    d.Extends d' ∧ d.func.insts.size < d'.func.insts.size := by
  obtain ⟨i, -, h⟩ := bind_eq_ok h
  obtain ⟨f, hf, h⟩ := bind_eq_ok h
  cases h
  refine ⟨(Extends.of_use d (EntryPoint.isRoutine_check _ _ _)
    (EntryPoint.signature_access _ _ _).2).trans (.of_line hf), ?_⟩
  have hsize := (Func.insertCode_extends hf).2
  by_cases hfixed : EntryPoint.isFixedSize access.size = true
  · rw [if_pos hfixed] at hsize
    exact Nat.lt_of_lt_of_eq (Nat.lt_add_of_pos_right (Nat.succ_pos 2)) hsize.symm
  · rw [if_neg hfixed] at hsize
    exact Nat.lt_of_lt_of_eq (Nat.lt_add_of_pos_right (Nat.succ_pos 3)) hsize.symm

theorem inlineCheck_extends {access : MemAccess} (h : d.inlineCheck config site access = .ok d') :
    d.Extends d' ∧ d.func.insts.size < d'.func.insts.size := by
  obtain ⟨i, -, h⟩ := bind_eq_ok h
  have huse := Extends.of_use d (EntryPoint.isRoutine_report access.kind access.size config.recover)
    (EntryPoint.signature_access access.kind access.size config.recover).1
  -- the code in front of the checks is not empty, and the checks add to it
  have hstep : ∀ {op : Op} {ops : List Op} {f : Func},
      d.func.insertCode site.block site.pos (addedCode i.origin (op :: ops)) = .ok f → ∀ {g : Func},
      g.shell = f.shell ∧ f.insts.size ≤ g.insts.size →
      g.shell = d.func.shell ∧ d.func.insts.size < g.insts.size := by
    intro op ops f hf g hg
    obtain ⟨hshell, hsize⟩ := Func.insertCode_extends hf
    rw [Check.length_addedCode, List.length_cons] at hsize
    exact ⟨hg.1.trans hshell, by omega⟩
  dsimp only at h
  split at h
  · obtain ⟨f, hf, h⟩ := bind_eq_ok h
    obtain ⟨⟨g, cont⟩, hg, h⟩ := bind_eq_ok h
    cases h
    obtain ⟨hshell, hlt⟩ := hstep hf (Check.insert_extends hg)
    exact ⟨huse.trans (.of_func ⟨hshell, hlt.le⟩), hlt⟩
  · obtain ⟨f, hf, h⟩ := bind_eq_ok h
    obtain ⟨⟨g, cont⟩, hg, h⟩ := bind_eq_ok h
    obtain ⟨⟨g', cont'⟩, hg', h⟩ := bind_eq_ok h
    cases h
    obtain ⟨hshell, hle⟩ := Check.insert_extends hg
    obtain ⟨hshell', hle'⟩ := Check.insert_extends hg'
    obtain ⟨hshell, hlt⟩ := hstep hf ⟨hshell'.trans hshell, hle.trans hle'⟩
    exact ⟨huse.trans (.of_func ⟨hshell, hlt.le⟩), hlt⟩

theorem replaceBulk_extends (h : d.replaceBulk site = .ok d') :
    d.Extends d' ∧ (site.kind = .bulk → site.SuitsKind d.func →
      d.func.insts.size < d'.func.insts.size) := by
  obtain ⟨i, hi, h⟩ := bind_eq_ok h
  split at h
  · rename_i kind dest source length hop
    obtain ⟨f, hf, h⟩ := bind_eq_ok h
    obtain ⟨g, hg, h⟩ := bind_eq_ok h
    cases h
    obtain ⟨hshell, hsize⟩ := Func.setOp_extends hg
    obtain ⟨hshell', hsize'⟩ := Func.insertCode_extends hf
    rw [Check.length_addedCode, List.length_singleton] at hsize'
    have hlt : d.func.insts.size < g.insts.size := by
      rw [hsize, hsize']
      exact Nat.lt_succ_self _
    exact ⟨(Extends.of_use d (EntryPoint.isRoutine_bulk kind)
      (EntryPoint.signature_bulk kind)).trans
      (.of_func ⟨hshell.trans hshell', hlt.le⟩), fun _ _ => hlt⟩
  · rename_i hop
    cases h
    refine ⟨.refl d, fun hkind hsuits => ?_⟩
    -- a site of a bulk operation is at one
    obtain ⟨i', hi', hsuits⟩ := hsuits
    obtain rfl := Option.some.inj ((Func.inst_eq_ok hi).symm.trans hi')
    rw [hkind] at hsuits
    cases hbulk : i.op with
    | bulk => exact absurd hbulk (hop _ _ _ _)
    | _ =>
        rw [hbulk] at hsuits
        cases hsuits

theorem visit_extends (h : d.visit config outlined site = .ok d') :
    d.Extends d' ∧ (site.SuitsKind d.func → d.func.insts.size < d'.func.insts.size) := by
  replace h := (require_bind_eq_ok h).2
  unfold handle at h
  cases hkind : site.kind with
  | check access =>
      rw [hkind] at h
      dsimp only at h
      split at h
      · obtain ⟨hextends, hlt⟩ := callCheck_extends h
        exact ⟨hextends, fun _ => hlt⟩
      · obtain ⟨hextends, hlt⟩ := inlineCheck_extends h
        exact ⟨hextends, fun _ => hlt⟩
  | bulk =>
      rw [hkind] at h
      obtain ⟨hextends, hlt⟩ := replaceBulk_extends h
      exact ⟨hextends, hlt hkind⟩

theorem visitAll_extends {sites : List Site} (h : d.visitAll config outlined sites = .ok d') :
    d.Extends d' :=
  .of_foldlM (fun hvisit => (visit_extends hvisit).1) h

/-- Where there is something to do, visits add to the arena. -/
theorem size_lt_of_visitAll {sites : List Site} (h : d.visitAll config outlined sites = .ok d')
    (hsites : sites ≠ []) (hsuits : ∀ site ∈ sites, site.SuitsKind d.func) :
    d.func.insts.size < d'.func.insts.size := by
  unfold visitAll at h
  cases hreverse : sites.reverse with
  | nil => exact absurd (List.reverse_eq_nil_iff.mp hreverse) hsites
  | cons last rest =>
      rw [hreverse] at h
      obtain ⟨d₁, hd₁, h⟩ := foldlM_cons_eq_ok h
      have hlast : last ∈ sites := List.mem_reverse.mp (hreverse ▸ List.mem_cons_self)
      have hlt := (visit_extends hd₁).2 (hsuits last hlast)
      exact hlt.trans_le (Extends.of_foldlM (fun hvisit => (visit_extends hvisit).1) h).size

/-! ### Frames -/

theorem writeCode_extends (d : Draft) (n : InstId) (base : Value) (write : ShadowWrite) :
    d.Extends (d.writeCode n base write).1 := by
  cases write with
  | store => exact .refl d
  | fill => exact .of_use d (EntryPoint.isRoutine_setShadow _) (EntryPoint.signature_setShadow _)

theorem writesCode_extends (d : Draft) (n : InstId) (base : Value) (writes : List ShadowWrite) :
    d.Extends (d.writesCode n base writes).1 := by
  induction writes generalizing d n with
  | nil => exact .refl d
  | cons write rest ih => exact (d.writeCode_extends n base write).trans (ih _ _)

theorem Extends.of_writes {n : InstId} {base : Value} {writes : List ShadowWrite}
    (h : (d.writesCode n base writes).1.func.insertCode b pos code = .ok f) :
    d.Extends { (d.writesCode n base writes).1 with func := f } :=
  (d.writesCode_extends n base writes).trans (.of_line h)

theorem placeSlot_extends {frameCode : FrameCode} {slots : List Slot} {f g : Func}
    {var : StackVariable} (h : frameCode.placeSlot slots f var = .ok g) :
    g.shell = f.shell ∧ f.insts.size ≤ g.insts.size := by
  rcases FrameCode.placeSlot_cases h with
    ⟨rfl, -⟩ | ⟨slot, c, blk, q, g', instruction, -, -, -, hinsert, -, rfl⟩
  · exact ⟨rfl, le_rfl⟩
  · obtain ⟨hshell, hsize⟩ := Func.insertCode_extends hinsert
    rw [Func.shell_setInst, Func.size_insts_setInst]
    exact ⟨hshell, by rw [hsize]; exact Nat.le_add_right _ _⟩

theorem placeSlots_extends {frameCode : FrameCode} {slots : List Slot} {vars : List StackVariable}
    (h : vars.foldlM (frameCode.placeSlot slots) d.func = .ok f) :
    d.Extends { d with func := f } := by
  refine .of_func (foldlM_keeps (fun g => g.shell = d.func.shell ∧ d.func.insts.size ≤ g.insts.size)
    (fun g g' var _ hg hplace => ?_) ⟨rfl, le_rfl⟩ h)
  obtain ⟨hshell, hsize⟩ := placeSlot_extends hplace
  exact ⟨hshell.trans hg.1, hg.2.trans hsize⟩

theorem placeMarker_extends {frameCode : FrameCode} {marker : Marker}
    (h : frameCode.placeMarker d marker = .ok d') : d.Extends d' := by
  unfold FrameCode.placeMarker at h
  split at h
  · obtain ⟨granules, -, h⟩ := bind_eq_ok h
    split at h
    · cases h
      exact .refl d
    · obtain ⟨i, -, h⟩ := bind_eq_ok h
      obtain ⟨writes, -, h⟩ := bind_eq_ok h
      obtain ⟨f, hf, h⟩ := bind_eq_ok h
      cases h
      exact .of_writes hf
  · cases h
    exact .refl d

theorem placeExit_extends {frameCode : FrameCode} {exit : BlockId × Nat}
    (h : frameCode.placeExit d exit = .ok d') : d.Extends d' := by
  unfold FrameCode.placeExit at h
  obtain ⟨writes, -, h⟩ := bind_eq_ok h
  obtain ⟨f, hf, h⟩ := bind_eq_ok h
  cases h
  exact .of_writes hf

theorem prologue_extends {frame : Frame} {inScope atEntry : List UInt8} {description : SymbolId}
    {frameCode : FrameCode}
    (h : FrameCode.prologue config frame inScope atEntry description d = .ok (d', frameCode)) :
    d.Extends d' := by
  unfold FrameCode.prologue at h
  obtain ⟨pos, -, h⟩ := bind_eq_ok h
  obtain ⟨writes, -, h⟩ := bind_eq_ok h
  obtain ⟨f, hf, h⟩ := bind_eq_ok h
  cases h
  exact .of_writes hf

/-- The addition of a frame makes one symbol, for the description of the frame. -/
theorem addFrame_extends {name : String} {slots : List Slot} {frame : Frame} {description : Global}
    (h : d.addFrame config name slots frame = .ok (d', description)) :
    d.Extends d' ∧ ∃ symbol, d'.symbols.names[symbol]? = some (EntryPoint.stackDescription name) ∧
      description = descriptionGlobal symbol frame.description := by
  obtain ⟨atEntry, markers, symbol, symbols, d₁, code, f₂, d₃, exits, -, -, hgrows, hsymbol,
    hprologue, hslots, hmarkers, -, hexits, hdescription⟩ := addFrame_eq_ok h
  have hnamed : d.Extends { d with symbols := symbols } := ⟨rfl, le_rfl, hgrows, fun _ => .inl, id⟩
  have hafter : Extends { d with symbols := symbols } d' :=
    (prologue_extends hprologue).trans <| (placeSlots_extends hslots).trans <|
      (Extends.of_foldlM (fun hmarker => placeMarker_extends hmarker) hmarkers).trans <|
      .of_foldlM (fun hexit => placeExit_extends hexit) hexits
  exact ⟨hnamed.trans hafter, symbol, hafter.symbols symbol _ hsymbol, hdescription⟩

end Draft

end Redzone
