import Redzone.Proofs.Pointer
import Redzone.Proofs.Survey

/-!
# Which accesses get no check

An access gets no check for one of four reasons: it is excluded, it lies in another address space,
it lies within its object for sure, or the same access was checked earlier in the block and nothing
came between.  Each reason is stated without the search that finds it: `Judge.Within` by chains of
additions and not by `baseAndOffset`, `Survey.Repeats` by what stands between two places and not by
the list that a survey carries along.  An access for which no reason holds is a site of the survey
(`survey_checks_iff`).
-/

namespace Redzone

/-! ### Within an object -/

/-- Some lifetime marker leads to a stack slot. -/
def Func.HasMarker (f : Func) (slot : InstId) : Prop :=
  ∃ i ∈ f.listed, ∃ instruction edge ptr size total, f.insts[i]? = some instruction ∧
    instruction.op = .lifetime edge ptr size ∧ f.PointsInto (.inst slot) ptr 0 total

namespace Judge

variable {judge : Judge}

/-- The global that a symbol stands for.  Were there several of one name, it would be the last. -/
def Names (judge : Judge) (symbol : SymbolId) (id : GlobalId) (g : Global) : Prop :=
  judge.globals[id]? = some g ∧ g.name = symbol ∧
    ∀ later g', id < later → judge.globals[later]? = some g' → g'.name ≠ symbol

/-- The first `stop` bytes of the object that an instruction gives the address of may be
accessed. -/
inductive Spans (judge : Judge) (base : InstId) (stop : Int) : Prop
  | slot {size align : Nat} (hop : judge.func.defOp (.inst base) = some (.stackSlot size align))
      (hstop : stop ≤ size) (hopt : judge.config.optStack = true)
      (hscope : ¬ (judge.config.useAfterScope = true ∧ judge.func.HasMarker base))
  | global {symbol : SymbolId} {id : GlobalId} {g : Global}
      (hop : judge.func.defOp (.inst base) = some (.symbolAddr symbol))
      (hnames : judge.Names symbol id g) (hstop : stop ≤ g.objectSize)
      (hopt : judge.config.optGlobals = true)
      (hinit : ¬ (judge.config.initOrder = true ∧ (judge.store.get id).dynInit = true))

/-- Constant additions lead from the address of an object to the pointer of an access, and all of
its bytes are within the object. -/
def Within (judge : Judge) (access : MemAccess) : Prop :=
  ∃ base total, judge.func.PointsInto (.inst base) access.ptr 0 total ∧ 0 ≤ total ∧
    judge.Spans base (total + access.size)

theorem lastNamed_eq_none_iff {symbol : SymbolId} {first : GlobalId} {globals : List Global} :
    lastNamed symbol first globals = none ↔ ∀ g ∈ globals, g.name ≠ symbol := by
  induction globals generalizing first with
  | nil => simp [lastNamed]
  | cons head rest ih =>
      rw [lastNamed, List.forall_mem_cons]
      split
      · rename_i found hfound
        have hsome : lastNamed symbol (first + 1) rest ≠ none := by simp [hfound]
        exact iff_of_false (by simp) fun h => hsome (ih.mpr h.2)
      · rename_i hnone
        rw [ite_eq_right_iff]
        exact ⟨fun h => ⟨fun hname => by simpa using h hname, ih.mp hnone⟩,
          fun h hname => absurd hname h.1⟩

theorem lastNamed_eq_some_iff {symbol : SymbolId} {first id : GlobalId} {globals : List Global}
    {g : Global} : lastNamed symbol first globals = some (id, g) ↔
      ∃ k, id = first + k ∧ globals[k]? = some g ∧ g.name = symbol ∧
        ∀ later g', k < later → globals[later]? = some g' → g'.name ≠ symbol := by
  -- the last one of a name is in the rest, unless there is none
  induction globals generalizing first id g with
  | nil => simp [lastNamed]
  | cons head rest ih =>
      have hshift : ∀ k, first + 1 + k = first + (k + 1) := fun k => Nat.add_right_comm first 1 k
      rw [lastNamed]
      split
      · rename_i found hfound
        constructor
        · intro heq
          obtain rfl := Option.some.inj heq
          obtain ⟨k, rfl, hget, hname, hlast⟩ := ih.mp hfound
          refine ⟨k + 1, hshift k, hget, hname, fun later g' hlater hget' => ?_⟩
          obtain ⟨later, rfl⟩ :=
            Nat.exists_eq_succ_of_ne_zero (Nat.ne_of_gt (Nat.zero_lt_of_lt hlater))
          exact hlast later g' (Nat.lt_of_succ_lt_succ hlater) hget'
        · rintro ⟨k, rfl, hget, hname, hlast⟩
          cases k with
          | zero =>
              obtain ⟨k, -, hget', hname', -⟩ := ih.mp hfound
              exact absurd hname' (hlast (k + 1) _ (Nat.succ_pos k) hget')
          | succ k =>
              rw [← hfound, ih]
              exact ⟨k, (hshift k).symm, hget, hname,
                fun later g' hlater => hlast (later + 1) g' (Nat.succ_lt_succ hlater)⟩
      · rename_i hnone
        have hrest := lastNamed_eq_none_iff.mp hnone
        constructor
        · intro h
          obtain ⟨hname, heq⟩ := Option.ite_none_right_eq_some.mp h
          cases heq
          refine ⟨0, rfl, rfl, hname, fun later g' hlater hget' => ?_⟩
          obtain ⟨later, rfl⟩ := Nat.exists_eq_succ_of_ne_zero hlater.ne'
          exact hrest g' (List.mem_of_getElem? hget')
        · rintro ⟨k, rfl, hget, hname, -⟩
          cases k with
          | zero =>
              obtain rfl : head = g := by simpa using hget
              simp [hname]
          | succ k => exact absurd hname (hrest g (List.mem_of_getElem? hget))

theorem names_iff {symbol : SymbolId} {id : GlobalId} {g : Global} :
    judge.Names symbol id g ↔ lastNamed symbol 0 judge.globals = some (id, g) := by
  rw [lastNamed_eq_some_iff]
  constructor
  · rintro ⟨hget, hname, hlast⟩
    exact ⟨id, by simp, hget, hname, hlast⟩
  · rintro ⟨k, rfl, hget, hname, hlast⟩
    rw [Nat.zero_add]
    exact ⟨hget, hname, hlast⟩

end Judge

/-- The slots with lifetime markers are those that a marker leads to. -/
theorem Func.mem_scopedSlots_iff {f : Func} {marked : List InstId} {slot : InstId}
    {size align : Nat}
    (h : f.scopedSlots = .ok marked) (hslot : f.defOp (.inst slot) = some (.stackSlot size align)) :
    slot ∈ marked ↔ f.HasMarker slot := by
  unfold scopedSlots at h
  obtain ⟨found, hfound, h⟩ := bind_eq_ok h
  cases h
  obtain ⟨i, instruction, heq, hinst, hop⟩ := defOp_eq_some hslot
  cases heq
  constructor
  · intro hmem
    obtain ⟨slot', hmem', hsome⟩ := List.mem_filterMap.mp hmem
    obtain rfl : slot' = some slot := hsome
    obtain ⟨i, hi, hmarked⟩ := exists_of_mem_mapM hfound _ hmem'
    obtain ⟨marker, hmarker, hmarked⟩ := bind_eq_ok hmarked
    unfold markedSlot at hmarked
    split at hmarked
    · rename_i edge ptr bytes hlifetime
      split at hmarked
      · rename_i base total hptr
        obtain ⟨target, htarget, hmarked⟩ := bind_eq_ok hmarked
        split at hmarked <;> cases hmarked
        obtain ⟨hpoints, -⟩ := baseAndOffset_eq_some_iff.mp hptr
        exact ⟨i, hi, marker, edge, ptr, bytes, total, inst_eq_ok hmarker, hlifetime, hpoints⟩
      · cases hmarked
    · cases hmarked
  · rintro ⟨i, hi, marker, edge, ptr, bytes, total, hmarker, hlifetime, hpoints⟩
    -- a slot is no addition, so that the search for the start of a pointer ends there
    have hroot : f.IsRoot (.inst slot) := by
      intro inner distance hadd
      cases hslot.symm.trans hadd
    have hptr := baseAndOffset_eq_some_iff.mpr ⟨hpoints, hroot⟩
    obtain ⟨slot', hmem, hmarked⟩ := mapM_eq_ok hfound i hi
    have hvalue : f.markedSlot marker = .ok (some slot) := by
      simp [markedSlot, hlifetime, hptr, inst, hinst, hop]
    rw [inst, hmarker] at hmarked
    rw [Except.ok.inj (hmarked.symm.trans hvalue)] at hmem
    exact List.mem_filterMap.mpr ⟨_, hmem, rfl⟩

namespace Judge

variable {judge : Judge}

theorem covers_iff (hmarked : judge.func.scopedSlots = .ok judge.marked) {base : InstId}
    {stop : Nat} {op : Op} (hop : judge.func.defOp (.inst base) = some op) {covered : Bool}
    (h : judge.covers base stop op = .ok covered) : covered = true ↔ judge.Spans base stop := by
  constructor
  · rintro rfl
    -- a slot or the address of a symbol; everything else covers nothing
    unfold covers at h
    split at h
    · simp only [Except.ok.injEq, Bool.and_eq_true, decide_eq_true_eq, Bool.not_eq_true',
        Bool.and_eq_false_imp, List.contains_eq_mem, decide_eq_false_iff_not] at h
      obtain ⟨⟨hopt, hstop⟩, hscope⟩ := h
      refine .slot hop (by exact_mod_cast hstop) hopt fun ⟨hafter, hmarker⟩ => ?_
      exact hscope hafter ((Func.mem_scopedSlots_iff hmarked hop).mpr hmarker)
    · split at h
      · rename_i hopt
        split at h
        · cases h
        · rename_i id g hlast
          obtain ⟨size, hsize, h⟩ := bind_eq_ok h
          obtain ⟨-, rfl⟩ := checkedSub_eq_ok_iff.mp hsize
          simp only [Except.ok.injEq, Bool.and_eq_true, decide_eq_true_eq, Bool.not_eq_true',
            Bool.and_eq_false_imp] at h
          refine .global hop (names_iff.mpr hlast) (by exact_mod_cast h.1) hopt ?_
          rintro ⟨hinit, hdyn⟩
          rw [h.2 hinit] at hdyn
          cases hdyn
      · cases h
    · cases h
  · intro hspans
    cases hspans with
    | @slot size align hop' hstop hopt hscope =>
        obtain rfl := Option.some.inj (hop.symm.trans hop')
        rw [← Func.mem_scopedSlots_iff hmarked hop, not_and_or] at hscope
        have hle : stop ≤ size := by exact_mod_cast hstop
        rw [← Except.ok.inj h]
        simpa [hopt, hle] using hscope
    | @global symbol id g hop' hnames hstop hopt hinit =>
        obtain rfl := Option.some.inj (hop.symm.trans hop')
        have hle : stop ≤ g.objectSize := by exact_mod_cast hstop
        rw [not_and_or] at hinit
        simp only [covers, hopt, if_true, names_iff.mp hnames] at h
        obtain ⟨size, hsize, h⟩ := bind_eq_ok h
        obtain ⟨-, rfl⟩ := checkedSub_eq_ok_iff.mp hsize
        rw [← Except.ok.inj h]
        simpa [show stop ≤ g.size - g.padding from hle] using hinit

/-- The search for an object finds one if and only if there is one. -/
theorem isSafe_eq_true_iff (hmarked : judge.func.scopedSlots = .ok judge.marked)
    {access : MemAccess}
    {safe : Bool} (h : judge.isSafe access = .ok safe) : safe = true ↔ judge.Within access := by
  have hroot : ∀ {base stop}, judge.Spans base stop → judge.func.IsRoot (.inst base) := by
    intro base stop hspans inner distance hadd
    cases hspans with
    | slot hop => cases hop.symm.trans hadd
    | global hop => cases hop.symm.trans hadd
  unfold isSafe at h
  split at h
  · rename_i base total hptr
    obtain ⟨hpoints, -⟩ := Func.baseAndOffset_eq_some_iff.mp hptr
    -- no other object is at the start of a chain
    have honly : ∀ base' total', judge.func.PointsInto (.inst base') access.ptr 0 total' →
        judge.func.IsRoot (.inst base') → base' = base ∧ total' = total := by
      intro base' total' hpoints' hroot'
      have hptr' := Func.baseAndOffset_eq_some_iff.mpr ⟨hpoints', hroot'⟩
      rw [hptr] at hptr'
      cases hptr'
      exact ⟨rfl, rfl⟩
    split at h
    · rename_i hpos
      obtain ⟨target, htarget, h⟩ := bind_eq_ok h
      have hop := Func.defOp_of_getElem? (Func.inst_eq_ok htarget)
      have hstop : ((total.toNat + access.size : Nat) : Int) = total + access.size := by
        push_cast
        rw [Int.toNat_of_nonneg hpos]
      rw [covers_iff hmarked hop h, hstop]
      constructor
      · intro hspans
        exact ⟨base, total, hpoints, hpos, hspans⟩
      · rintro ⟨base', total', hpoints', -, hspans⟩
        obtain ⟨rfl, rfl⟩ := honly base' total' hpoints' (hroot hspans)
        exact hspans
    · rename_i hneg
      cases h
      refine iff_of_false (by simp) ?_
      rintro ⟨base', total', hpoints', hpos, hspans⟩
      obtain ⟨-, rfl⟩ := honly base' total' hpoints' (hroot hspans)
      exact hneg hpos
  · rename_i hnone
    cases h
    refine iff_of_false (by simp) ?_
    rintro ⟨base, total, hpoints, -, hspans⟩
    exact hnone base total (Func.baseAndOffset_eq_some_iff.mpr ⟨hpoints, hroot hspans⟩)

end Judge

/-! ### Repeated accesses -/

theorem Op.intervenes_of_access {op : Op} {access : MemAccess} (h : op.access? = some access) :
    op.intervenes = false := by
  cases op <;> first | rfl | cases h

theorem Op.intervenes_of_isBulk {op : Op} (h : op.isBulk = true) : op.intervenes = true := by
  cases op <;> first | rfl | cases h

/-- No operation at the places from `first` on and in front of `last` comes between two accesses. -/
def Func.Undisturbed (f : Func) (insts : List InstId) (first last : Nat) : Prop :=
  ∀ k i instruction, first ≤ k → k < last → insts[k]? = some i → f.insts[i]? = some instruction →
    instruction.op.intervenes = false

theorem Func.undisturbed_cons_succ {f : Func} {i : InstId} {insts : List InstId}
    {first last : Nat} :
    f.Undisturbed (i :: insts) (first + 1) (last + 1) ↔ f.Undisturbed insts first last := by
  constructor
  · intro h k j instruction hfirst hlast hget
    exact h (k + 1) j instruction (Nat.succ_le_succ hfirst) (Nat.succ_lt_succ hlast) hget
  · intro h k j instruction hfirst hlast hget
    obtain ⟨k, rfl⟩ := Nat.exists_eq_succ_of_ne_zero (Nat.ne_of_gt (Nat.zero_lt_of_lt hfirst))
    exact h k j instruction (Nat.le_of_succ_le_succ hfirst) (Nat.lt_of_succ_lt_succ hlast) hget

theorem Func.undisturbed_cons_zero {f : Func} {i : InstId} {insts : List InstId} {last : Nat}
    {instruction : Instruction} (hinst : f.insts[i]? = some instruction) :
    f.Undisturbed (i :: insts) 0 (last + 1) ↔
      instruction.op.intervenes = false ∧ f.Undisturbed insts 0 last := by
  constructor
  · intro h
    refine ⟨h 0 i instruction le_rfl (Nat.succ_pos last) rfl hinst,
      fun k j other _ hlast hget => ?_⟩
    exact h (k + 1) j other (Nat.zero_le _) (Nat.succ_lt_succ hlast) hget
  · rintro ⟨hhead, h⟩ k j other - hlast hget hother
    cases k with
    | zero =>
        obtain rfl : i = j := by simpa using hget
        obtain rfl := Option.some.inj (hinst.symm.trans hother)
        exact hhead
    | succ k => exact h k j other (Nat.zero_le k) (Nat.lt_of_succ_lt_succ hlast) hget hother

/-- The access that block `b` makes at place `pos` was checked before: earlier in the block the same
access gets a check, and nothing comes between. -/
def Survey.Repeats (survey : Survey) (f : Func) (b : BlockId) (insts : List InstId) (pos : Nat)
    (access : MemAccess) : Prop :=
  ∃ earlier i access', earlier < pos ∧ insts[earlier]? = some i ∧
    ⟨i, b, earlier, .check access'⟩ ∈ survey.sites ∧ access'.ptr = access.ptr ∧
    access'.size = access.size ∧ f.Undisturbed insts (earlier + 1) pos

namespace Judge

variable {judge : Judge}

/-- The accesses that are not checked whatever came before. -/
inductive Excludes (judge : Judge) (i : Instruction) (access : MemAccess) : Prop
  | unwanted (h : i.noSanitize = true ∨ judge.wants access = false)
  | elsewhere (h : judge.func.valueTy access.ptr ≠ some (.ptr 0))
  | within (h : judge.Within access)

theorem Checks.iff (hmarked : judge.func.scopedSlots = .ok judge.marked)
    {checked : List (Value × Nat)} {i : Instruction} {access : MemAccess}
    (h : judge.Checks checked i access) : ¬ judge.Excludes i access ∧
      ¬ (judge.config.optSameTemp = true ∧ (access.ptr, access.size) ∈ checked) := by
  refine ⟨fun hexcludes => ?_, h.unchecked⟩
  cases hexcludes with
  | unwanted hunwanted => simp [h.wanted.1, h.wanted.2] at hunwanted
  | elsewhere hty => exact hty h.ty
  | within hwithin => simpa using (isSafe_eq_true_iff hmarked h.risky).mpr hwithin

theorem Skips.iff (hmarked : judge.func.scopedSlots = .ok judge.marked)
    {checked : List (Value × Nat)} {i : Instruction} {access : MemAccess}
    (h : judge.Skips checked i access) : judge.Excludes i access ∨
      judge.config.optSameTemp = true ∧ (access.ptr, access.size) ∈ checked := by
  cases h with
  | unwanted h => exact .inl (.unwanted h)
  | elsewhere h => exact .inl (.elsewhere h)
  | safe h => exact .inl (.within ((isSafe_eq_true_iff hmarked h).mp rfl))
  | checked h => exact .inr h

section

variable {checked : List (Value × Nat)} {i : Instruction} {verdict : Verdict} {inst : InstId}
  {b : BlockId} {pos : Nat} {rest : List InstId} {survey others : Survey} {access : MemAccess}

theorem Judged.verdict_eq_check_iff (h : judge.Judged checked i verdict)
    (hmarked : judge.func.scopedSlots = .ok judge.marked) (haccess : i.op.access? = some access) :
    verdict = .check access ↔ ¬ judge.Excludes i access ∧
      ¬ (judge.config.optSameTemp = true ∧ (access.ptr, access.size) ∈ checked) := by
  have hcalm := Op.intervenes_of_access haccess
  cases h with
  | unrelated _ hnone => simp [hnone] at haccess
  | barrier hop => simp [hcalm] at hop
  | replace hop => simp [Op.intervenes_of_isBulk hop] at hcalm
  | skip haccess' hskips =>
      obtain rfl := Option.some.inj (haccess.symm.trans haccess')
      refine iff_of_false (by simp) fun hneither => ?_
      exact (hskips.iff hmarked).elim hneither.1 hneither.2
  | check haccess' hchecks =>
      obtain rfl := Option.some.inj (haccess.symm.trans haccess')
      exact iff_of_true rfl (hchecks.iff hmarked)

/-- What counts as checked behind an instruction: what counted before, if the instruction does not
come between, and what it is itself. -/
theorem Judged.mem_after_iff (h : judge.Judged checked i verdict) {p : Value} {n : Nat} :
    (p, n) ∈ verdict.after checked ↔ (p, n) ∈ checked ∧ i.op.intervenes = false ∨
      ∃ access, verdict = .check access ∧ access.ptr = p ∧ access.size = n := by
  cases h with
  | unrelated hop _ => simp [Verdict.after, hop]
  | barrier hop => simp [Verdict.after, hop]
  | replace hop => simp [Verdict.after, Op.intervenes_of_isBulk hop]
  | skip haccess _ => simp [Verdict.after, Op.intervenes_of_access haccess]
  | check haccess _ =>
      simp only [Verdict.after, List.mem_cons, Prod.mk.injEq, Op.intervenes_of_access haccess,
        and_true, Verdict.check.injEq, exists_eq_left']
      rw [or_comm, eq_comm, @eq_comm _ n]

theorem mem_sites_head (hothers : judge.surveyFrom b (pos + 1) checked rest = .ok others)
    (hsites : survey.sites = verdict.sites inst b pos ++ others.sites) :
    ⟨inst, b, pos, .check access⟩ ∈ survey.sites ↔ verdict = .check access := by
  have hlater : (⟨inst, b, pos, .check access⟩ : Site) ∉ others.sites := by
    intro hmem
    have hle : pos + 1 ≤ pos := (surveyFrom_sites hothers _ hmem).2.1
    omega
  rw [hsites, List.mem_append, or_iff_left hlater]
  cases verdict <;> simp [Verdict.sites, eq_comm]

theorem mem_sites_tail {i' : InstId} {k : Nat}
    (hsites : survey.sites = verdict.sites inst b pos ++ others.sites) :
    ⟨i', b, pos + (k + 1), .check access⟩ ∈ survey.sites ↔
      ⟨i', b, pos + 1 + k, .check access⟩ ∈ others.sites := by
  have hfirst : (⟨i', b, pos + (k + 1), .check access⟩ : Site) ∉ verdict.sites inst b pos := by
    cases verdict <;> simp [Verdict.sites]
  rw [hsites, List.mem_append, or_iff_right hfirst, Nat.add_right_comm, Nat.add_assoc]

/-- The same access counts as checked at the start and nothing comes between, or it is repeated. -/
def Seen (judge : Judge) (survey : Survey) (b : BlockId) (pos : Nat) (checked : List (Value × Nat))
    (rest : List InstId) (k : Nat) (access : MemAccess) : Prop :=
  (access.ptr, access.size) ∈ checked ∧ judge.func.Undisturbed rest 0 k ∨
    ∃ earlier i access', earlier < k ∧ rest[earlier]? = some i ∧
      ⟨i, b, pos + earlier, .check access'⟩ ∈ survey.sites ∧ access'.ptr = access.ptr ∧
      access'.size = access.size ∧ judge.func.Undisturbed rest (earlier + 1) k

theorem seen_zero : judge.Seen survey b pos checked rest 0 access ↔
    (access.ptr, access.size) ∈ checked := by
  unfold Seen
  constructor
  · rintro (⟨hmem, -⟩ | ⟨earlier, -, -, hlt, -⟩)
    · exact hmem
    · exact absurd hlt (Nat.not_lt_zero earlier)
  · intro hmem
    exact .inl ⟨hmem, fun k _ _ _ hlt => absurd hlt (Nat.not_lt_zero k)⟩

theorem seen_succ (hinst : judge.func.insts[inst]? = some i)
    (hjudged : judge.Judged checked i verdict)
    (hothers : judge.surveyFrom b (pos + 1) (verdict.after checked) rest = .ok others)
    (hsites : survey.sites = verdict.sites inst b pos ++ others.sites) {k : Nat} :
    judge.Seen survey b pos checked (inst :: rest) (k + 1) access ↔
      judge.Seen others b (pos + 1) (verdict.after checked) rest k access := by
  unfold Seen
  rw [hjudged.mem_after_iff, Func.undisturbed_cons_zero hinst]
  constructor
  · rintro (⟨hmem, hcalm, hrest⟩ | ⟨earlier, i', access', hlt, hget, hsite, hptr, hsize, hrest⟩)
    · exact .inl ⟨.inl ⟨hmem, hcalm⟩, hrest⟩
    · rw [Func.undisturbed_cons_succ] at hrest
      cases earlier with
      | zero =>
          obtain rfl : inst = i' := by simpa using hget
          exact .inl ⟨.inr ⟨access', (mem_sites_head hothers hsites).mp hsite, hptr, hsize⟩, hrest⟩
      | succ earlier =>
          exact .inr ⟨earlier, i', access', Nat.lt_of_succ_lt_succ hlt, hget,
            (mem_sites_tail hsites).mp hsite, hptr, hsize, hrest⟩
  · rintro (⟨⟨hmem, hcalm⟩ | ⟨access', hverdict, hptr, hsize⟩, hrest⟩ |
      ⟨earlier, i', access', hlt, hget, hsite, hptr, hsize, hrest⟩)
    · exact .inl ⟨hmem, hcalm, hrest⟩
    · exact .inr ⟨0, inst, access', Nat.succ_pos k, rfl,
        (mem_sites_head hothers hsites).mpr hverdict,
        hptr, hsize, Func.undisturbed_cons_succ.mpr hrest⟩
    · exact .inr ⟨earlier + 1, i', access', Nat.succ_lt_succ hlt, hget,
        (mem_sites_tail hsites).mpr hsite, hptr, hsize, Func.undisturbed_cons_succ.mpr hrest⟩

theorem surveyFrom_checks_iff (hmarked : judge.func.scopedSlots = .ok judge.marked)
    (h : judge.surveyFrom b pos checked rest = .ok survey) {k : Nat} (hget : rest[k]? = some inst)
    (hinst : judge.func.insts[inst]? = some i) (haccess : i.op.access? = some access) :
    ⟨inst, b, pos + k, .check access⟩ ∈ survey.sites ↔ ¬ judge.Excludes i access ∧
      ¬ (judge.config.optSameTemp = true ∧ judge.Seen survey b pos checked rest k access) := by
  induction rest generalizing pos checked survey k with
  | nil => simp at hget
  | cons head rest ih =>
      obtain ⟨first, verdict, others, hfirst, hjudged, hothers, hsites⟩ := surveyFrom_cons h
      cases k with
      | zero =>
          obtain rfl : head = inst := by simpa using hget
          obtain rfl := Option.some.inj (hfirst.symm.trans hinst)
          rw [seen_zero, ← hjudged.verdict_eq_check_iff hmarked haccess]
          exact mem_sites_head hothers hsites
      | succ k =>
          rw [mem_sites_tail hsites, seen_succ hfirst hjudged hothers hsites]
          exact ih hothers hget

end

/-- The sites of a block in a survey of all blocks are those of a survey of the block. -/
theorem surveyBlocks_block {first : BlockId} {blocks : List Block} {survey : Survey} {c : Nat}
    {blk : Block} (h : judge.surveyBlocks first blocks = .ok survey)
    (hblk : blocks[c]? = some blk) :
    ∃ own, judge.surveyFrom (first + c) 0 [] blk.insts = .ok own ∧
      ∀ site, site.block = first + c → (site ∈ survey.sites ↔ site ∈ own.sites) := by
  induction blocks generalizing first survey c with
  | nil => simp at hblk
  | cons head rest ih =>
      obtain ⟨own, hown, h⟩ := bind_eq_ok h
      obtain ⟨others, hothers, h⟩ := bind_eq_ok h
      cases h
      cases c with
      | zero =>
          obtain rfl : head = blk := by simpa using hblk
          refine ⟨own, hown, fun site hsite => ?_⟩
          rw [Survey.append, List.mem_append, or_iff_left]
          intro hmem
          have hle := (surveyBlocks_sites hothers site hmem).1
          rw [hsite] at hle
          exact absurd hle (Nat.not_succ_le_self first)
      | succ c =>
          obtain ⟨own', hown', hiff⟩ := ih hothers hblk
          have hshift : first + 1 + c = first + (c + 1) := Nat.add_right_comm first 1 c
          rw [hshift] at hown' hiff
          refine ⟨own', hown', fun site hsite => ?_⟩
          rw [Survey.append, List.mem_append, ← hiff site hsite, or_iff_right]
          intro hmem
          have hblock := (surveyFrom_sites hown site hmem).1
          rw [hsite] at hblock
          exact absurd hblock (Nat.lt_add_of_pos_right (Nat.succ_pos c)).ne'

/-- An access gets a check unless there is a reason against it. -/
theorem survey_checks_iff {survey : Survey} {b : BlockId} {blk : Block} {pos : Nat} {inst : InstId}
    {i : Instruction} {access : MemAccess}
    (hmarked : judge.func.scopedSlots = .ok judge.marked) (h : judge.survey = .ok survey)
    (hblk : judge.func.blocks[b]? = some blk) (hget : blk.insts[pos]? = some inst)
    (hinst : judge.func.insts[inst]? = some i) (haccess : i.op.access? = some access) :
    ⟨inst, b, pos, .check access⟩ ∈ survey.sites ↔ ¬ judge.Excludes i access ∧
      ¬ (judge.config.optSameTemp = true ∧ survey.Repeats judge.func b blk.insts pos access) := by
  obtain ⟨own, hown, hiff⟩ := surveyBlocks_block h (c := b) (by simpa using hblk)
  rw [Nat.zero_add] at hown hiff
  have hchecks := surveyFrom_checks_iff hmarked hown hget hinst haccess
  have hseen : judge.Seen own b 0 [] blk.insts pos access ↔
      survey.Repeats judge.func b blk.insts pos access := by
    simp only [Seen, Survey.Repeats, List.not_mem_nil, false_and, false_or, Nat.zero_add]
    simp only [hiff ⟨_, b, _, _⟩ rfl]
  rw [hiff _ rfl, ← hseen]
  rwa [Nat.zero_add] at hchecks

end Judge

end Redzone
