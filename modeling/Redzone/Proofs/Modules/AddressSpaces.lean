import Redzone.Proofs.Edits.Rearranged
import Redzone.Proofs.Escape
import Redzone.Proofs.Modules.AddedCode

/-!
# Memory in other address spaces

The shadow tells of the default address space only.  A check takes the address of the pointer that
it is about, and apart from these pointers added code reads nothing but what added code has computed
(`Func.AddsReading`).  A survey asks for a check only if the pointer is one to the default address
space, so that accesses elsewhere are left alone.

Bulk memory operations are not looked at in this way: they become calls of their checking twins
wherever their pointers go.
-/

namespace Redzone

/-- Added code takes no address of other pointers from before, so it guards no access by one. -/
theorem Func.AddsReading.not_guarded {f : Func} {n : Nat} {near : Value → Prop} {outlined : Bool}
    {config : Config} {symbols : SymbolTable} {access : MemAccess} {inst : InstId}
    (h : f.AddsReading n near)
    (hbelow : access.ptr.Below n) (hptr : ¬ near access.ptr) :
    ¬ Guarded outlined f config symbols n access inst := by
  rintro ⟨k, b, blk, pre, front, rest, hk, -, -, hguard⟩
  obtain ⟨-, origin, hinst⟩ := hguard.head
  refine hptr (h.reads k _ hk hinst access.ptr ?_ hbelow)
  simp [Op.operands]

/-- The pointer of an access that gets a check goes to the default address space. -/
theorem Judge.valueTy_of_check (judge : Judge) {survey : Survey} {site : Site} {access : MemAccess}
    (hmarked : judge.func.scopedSlots = .ok judge.marked) (h : judge.survey = .ok survey)
    (hsite : site ∈ survey.sites) (hkind : site.kind = .check access) :
    judge.func.valueTy access.ptr = some (.ptr 0) := by
  obtain ⟨⟨blk, hblk, hget⟩, i, hi, haccess⟩ := survey_suits h site hsite
  rw [hkind] at haccess
  have hchecked : (⟨site.inst, site.block, site.pos, .check access⟩ : Site) ∈ survey.sites := by
    rw [← hkind]
    exact hsite
  by_contra hty
  exact ((survey_checks_iff hmarked h hblk hget hi haccess).mp hchecked).1 (.elsewhere hty)

/-! ### Memory operations in an instrumented function -/

/-- Of the memory operations of `f`, those in bulk are calls of their checking twins in `g` if they
are to be replaced, and all others are as they were. -/
structure Func.KeepsMemory (f g : Func) (config : Config) (symbols : SymbolTable) : Prop where
  accesses : ∀ (i : InstId) (instruction : Instruction) (access : MemAccess),
    f.insts[i]? = some instruction → instruction.op.access? = some access →
      g.insts[i]? = some instruction
  kept : ∀ i ∈ f.listed, ∀ instruction : Instruction, f.insts[i]? = some instruction →
    instruction.op.isBulk = true → config.replaces instruction = false →
      g.insts[i]? = some instruction
  replaced : ∀ i ∈ f.listed, ∀ (instruction : Instruction) (kind : Bulk)
    (dest source length : Value),
    f.insts[i]? = some instruction → instruction.op = .bulk kind dest source length →
      config.replaces instruction = true → ∃ callee routine,
        g.insts[i]? = some { instruction with op := .call (.inst callee) [dest, source, length] } ∧
        g.Holds callee [.symbolAddr routine] ∧
        symbols.names[routine]? = some (EntryPoint.bulk kind)

theorem Draft.Visits.keepsMemory {survey : Survey} {outlined : Bool} {symbols : SymbolTable}
    {d : Draft} (judge : Judge)
    (h : Visits judge.config outlined { func := judge.func, symbols := symbols }
      survey.sites.reverse d) (hsurvey : judge.survey = .ok survey) :
    judge.func.KeepsMemory d.func judge.config d.symbols where
  accesses i instruction access hinst haccess := h.keeps hinst (Op.isBulk_of_access haccess)
  kept i hlisted instruction hinst _ hkept := by
    refine h.keeps_of_ne (fun site hsite hkind hi => ?_) hinst
    obtain ⟨-, other, hother, hreplaces⟩ :=
      (Judge.survey_bulk_iff hsurvey).mp ⟨site, List.mem_reverse.mp hsite, hkind, hi⟩
    obtain rfl := Option.some.inj (hinst.symm.trans hother)
    rw [hkept] at hreplaces
    cases hreplaces
  replaced i hlisted instruction kind dest source length hinst hop hreplaces := by
    obtain ⟨site, hsite, hkind, rfl⟩ :=
      (Judge.survey_bulk_iff hsurvey).mpr ⟨hlisted, instruction, hinst, hreplaces⟩
    exact h.replaces (List.mem_reverse.mpr hsite) hkind hinst hop

/-- Memory operations stay as they are if nothing but slots is changed. -/
theorem Func.KeepsMemory.of_keeps {f g k : Func} {config : Config} {symbols symbols' : SymbolTable}
    (h : f.KeepsMemory g config symbols) (hgrows : symbols.GrowsTo symbols')
    (hkeeps : ∀ (i : InstId) (instruction : Instruction), g.insts[i]? = some instruction →
      instruction.op.isSlot = false → k.insts[i]? = some instruction) :
    f.KeepsMemory k config symbols' where
  accesses i instruction access hinst haccess :=
    hkeeps i instruction (h.accesses i instruction access hinst haccess)
      (Op.isSlot_of_access haccess).1
  kept i hlisted instruction hinst hbulk hkept := by
    refine hkeeps i instruction (h.kept i hlisted instruction hinst hbulk hkept) ?_
    rw [← Bool.not_eq_true]
    intro hslot
    rw [Op.isBulk_of_isSlot hslot] at hbulk
    cases hbulk
  replaced i hlisted instruction kind dest source length hinst hop hreplaces := by
    obtain ⟨callee, routine, hcall, hcallee, hroutine⟩ :=
      h.replaced i hlisted instruction kind dest source length hinst hop hreplaces
    refine ⟨callee, routine, hkeeps i _ hcall rfl, fun j op hj => ?_, hgrows _ _ hroutine⟩
    obtain ⟨origin, hadded⟩ := hcallee j op hj
    refine ⟨origin, hkeeps _ _ hadded ?_⟩
    rcases j with - | j <;> cases hj
    rfl

/-- Memory operations by pointers to other address spaces: an access is as it was and has no guard,
and added code does not even read its pointer, but operations in bulk are replaced as anywhere
else. -/
structure Func.KeepsElsewhere (f g : Func) (config : Config) (symbols : SymbolTable) : Prop where
  memory : f.KeepsMemory g config symbols
  reads : g.AddsReading f.insts.size fun v => f.valueTy v = some (.ptr 0)
  unguarded : ∀ i ∈ f.listed, ∀ (instruction : Instruction) (access : MemAccess) (outlined : Bool),
    f.insts[i]? = some instruction → instruction.op.access? = some access →
      f.valueTy access.ptr ≠ some (.ptr 0) →
      ¬ Guarded outlined g config symbols f.insts.size access i

theorem Func.Closed.keepsElsewhere {f g : Func} {config : Config} {symbols : SymbolTable}
    (hclosed : f.Closed) (hmemory : f.KeepsMemory g config symbols)
    (hreads : g.AddsReading f.insts.size fun v => f.valueTy v = some (.ptr 0)) :
    f.KeepsElsewhere g config symbols where
  memory := hmemory
  reads := hreads
  unguarded i hlisted instruction access outlined hinst haccess hptr := by
    obtain ⟨other, hother, hrefers⟩ := hclosed i hlisted
    obtain rfl := Option.some.inj (hinst.symm.trans hother)
    exact hreads.not_guarded (hrefers.operand _ (Draft.ptr_mem_operands haccess)) hptr

/-- Nothing but the code counts. -/
theorem Func.KeepsElsewhere.of_same_code {f g k : Func} {config : Config}
    {symbols symbols' : SymbolTable} (h : f.KeepsElsewhere g config symbols) (hclosed : f.Closed)
    (hinsts : k.insts = g.insts) (hgrows : symbols.GrowsTo symbols') :
    f.KeepsElsewhere k config symbols' := by
  refine hclosed.keepsElsewhere (h.memory.of_keeps hgrows ?_) ⟨?_, ?_⟩
  · intro i instruction hinst _
    rwa [hinsts]
  · rw [hinsts]
    exact h.reads.size
  · intro i instruction hi hinst
    rw [hinsts] at hinst
    exact h.reads.reads i instruction hi hinst

namespace Module

section

variable {config : Config} {m m' : Module} {id : FuncId} {store : Annotations} {f : Func}
  {name : String} {survey : Survey} {slots : List Slot} {d d' : Draft}
  {description : Option Global} {result : Except InstrumentError Outcome}

theorem Surveyed.valueTy_of_check (h : Surveyed config m id store f name survey slots d) :
    ∀ site ∈ survey.sites, ∀ access, site.kind = .check access →
      f.valueTy access.ptr = some (.ptr 0) := by
  obtain ⟨marked, hmarked, hsurvey⟩ := h.judged
  exact fun site hsite access hkind =>
    Judge.valueTy_of_check (judge config m store f name marked) hmarked hsurvey hsite hkind

theorem Surveyed.keepsElsewhere (h : Surveyed config m id store f name survey slots d)
    (hverify : f.verify m.symbols = .ok []) : f.KeepsElsewhere d.func config d.symbols := by
  obtain ⟨marked, -, hsurvey⟩ := h.judged
  obtain ⟨hvisits, -⟩ :=
    visits_edited hverify hsurvey h.visits (fun hordered : False => hordered.elim)
  exact (sound_of_verify hverify).closed.keepsElsewhere
    (Draft.Visits.keepsMemory (judge config m store f name marked) hvisits hsurvey)
    (h.adds_visits h.valueTy_of_check).reading

/-- A frame changes slots only, and reads nothing but itself. -/
theorem Surveyed.keepsElsewhere_addFrame {frame : Frame} {description : Global}
    (h : Surveyed config m id store f name survey slots d) (hverify : f.verify m.symbols = .ok [])
    (hd' : d.addFrame config name slots frame = .ok (d', description)) :
    f.KeepsElsewhere d'.func config d'.symbols := by
  obtain ⟨marked, -, hsurvey⟩ := h.judged
  obtain ⟨hvisits, hedited⟩ :=
    visits_edited hverify hsurvey h.visits (fun hordered : False => hordered.elim)
  have hsteps := hvisits.frameSteps h.slots hedited.sound.nodup hd'
  refine (sound_of_verify hverify).closed.keepsElsewhere
    ((h.keepsElsewhere hverify).memory.of_keeps hsteps.growsTo fun i instruction hinst hop => ?_)
    (h.adds_addFrame h.valueTy_of_check hd').reading
  exact FrameSteps.keeps hsteps hinst hop hinst

/-- An access by a pointer to another address space is never touched: no check is added for it, and
it stays as it is.  Bulk memory operations become calls of their checking twins whatever their
pointers are. -/
theorem instrumentFunction_elsewhere (hf : m.functions[id]? = some f)
    (hverify : f.verify m.symbols = .ok [])
    (hrun : m.instrumentFunction config id store = .ok (m', result)) :
    ∃ name g, m.resolve f.name = .ok name ∧ m'.functions[id]? = some g ∧
      (g = f ∧ ((∃ cause, result = .error cause) ∨ f.isExempt name = true) ∨
        f.isExempt name = false ∧ f.KeepsElsewhere g config m'.symbols) := by
  obtain ⟨name, hname, -⟩ := bind_eq_ok hverify
  have hnamed := SymbolTable.names_of_resolve hname
  have hclosed := (sound_of_verify hverify).closed
  have hlt := (Array.getElem?_eq_some_iff.mp hf).1
  cases instrumentFunction_run hrun with
  | refused => exact ⟨name, f, hname, hf, .inl ⟨rfl, .inl ⟨_, rfl⟩⟩⟩
  | exempt _ hf' hnamed' hexempt =>
      obtain rfl := Option.some.inj (hf.symm.trans hf')
      obtain rfl := Option.some.inj (hnamed.symm.trans hnamed')
      exact ⟨name, f, hname, hf, .inl ⟨rfl, .inr hexempt⟩⟩
  | @tooLarge _ _ _ _ d _ hsurveyed =>
      obtain rfl := Option.some.inj (hf.symm.trans hsurveyed.function)
      obtain rfl := Option.some.inj (hnamed.symm.trans hsurveyed.named)
      refine ⟨name, d.func, hname, ?_, .inr ⟨hsurveyed.exempt, hsurveyed.keepsElsewhere hverify⟩⟩
      exact Array.getElem?_setIfInBounds_self_of_lt hlt
  | @plain _ _ survey d hsurveyed =>
      obtain rfl := Option.some.inj (hf.symm.trans hsurveyed.function)
      obtain rfl := Option.some.inj (hnamed.symm.trans hsurveyed.named)
      obtain ⟨hfunction, hgrows⟩ := finish_spec hlt
        (show m.finish id f d none (surveyStats survey []) = (_, _) from rfl)
      exact ⟨name, _, hname, hfunction, .inr ⟨hsurveyed.exempt,
        (hsurveyed.keepsElsewhere hverify).of_same_code hclosed rfl hgrows⟩⟩
  | @framed _ _ survey slots _ d' _ description hsurveyed _ _ _ hd' =>
      obtain rfl := Option.some.inj (hf.symm.trans hsurveyed.function)
      obtain rfl := Option.some.inj (hnamed.symm.trans hsurveyed.named)
      obtain ⟨hfunction, hgrows⟩ := finish_spec hlt
        (show m.finish id f d' (some description) (surveyStats survey slots) = (_, _) from rfl)
      exact ⟨name, _, hname, hfunction, .inr ⟨hsurveyed.exempt,
        (hsurveyed.keepsElsewhere_addFrame hverify hd').of_same_code hclosed rfl hgrows⟩⟩

end

end Module

/-- A function that reads a register in another address space and copies from there. -/
def fetchFunction : Func where
  name := 0
  params := [.ptr 0, .ptr 1, .int]
  ret := none
  insts := #[⟨.param 0, .ptr 0, [], false⟩, ⟨.param 1, .ptr 1, [], false⟩,
    ⟨.param 2, .int, [], false⟩, ⟨.load (.inst 1) 4 none, .int, [], false⟩,
    ⟨.bulk .copy (.inst 0) (.inst 1) (.inst 2), .unit, [], false⟩, ⟨.ret none, .unit, [], false⟩]
  blocks := #[{ argStart := 0, insts := [0, 1, 2, 3, 4, 5] }]

def fetchModule : Module where
  name := "banks"
  symbols := (SymbolTable.empty.intern "fetch").1
  functions := #[fetchFunction]

theorem exists_instrumentFunction_fetch :
    ∃ m' outcome g, fetchModule.instrumentFunction {} 0 {} = .ok (m', .ok outcome) ∧
      m'.functions[0]? = some g ∧ g.insts[4]? ≠ fetchFunction.insts[4]? := by
  obtain ⟨m', outcome, hrun, hsucceeds⟩ := Module.exists_of_succeeds
    (fetchModule.instrumentFunction {} 0 {})
    (fun m' _ => m'.functions[0]?.any fun g => g.insts[4]? ≠ fetchFunction.insts[4]?)
    (by decide +kernel)
  obtain ⟨g, hg, hchanged⟩ := (Option.any_eq_true _ _).mp hsucceeds
  exact ⟨m', outcome, g, hrun, hg, of_decide_eq_true hchanged⟩

/-- The load stays without a check, and the copy becomes a call. -/
theorem instrumentFunction_elsewhere_fetch :
    ∃ m' outcome g, fetchModule.instrumentFunction {} 0 {} = .ok (m', .ok outcome) ∧
      m'.functions[0]? = some g ∧
      fetchFunction.valueTy (.inst 1) = some (.ptr 1) ∧
      g.insts[3]? = some ⟨.load (.inst 1) 4 none, .int, [], false⟩ ∧
      ¬ Guarded false g {} m'.symbols 6 ⟨.inst 1, 4, .load, false⟩ 3 ∧
      ∃ callee routine,
        g.insts[4]? = some ⟨.call (.inst callee) [.inst 0, .inst 1, .inst 2], .unit, [], false⟩ ∧
        g.Holds callee [.symbolAddr routine] ∧
          m'.symbols.names[routine]? = some "__asan_memcpy" := by
  obtain ⟨m', outcome, -, hrun, -⟩ := exists_instrumentFunction_fetch
  obtain ⟨name, g, hname, hg, ⟨-, ⟨cause, hcause⟩ | hexempt⟩ | ⟨-, helsewhere⟩⟩ :=
    Module.instrumentFunction_elsewhere
      (show fetchModule.functions[0]? = some fetchFunction from rfl) (by decide +kernel) hrun
  · cases hcause
  · obtain rfl : "fetch" = name := Except.ok.inj ((by rfl : _ = Except.ok "fetch").symm.trans hname)
    exact absurd hexempt (by decide +kernel)
  · exact ⟨m', outcome, g, hrun, hg, rfl, helsewhere.memory.accesses 3 _ _ rfl rfl,
      helsewhere.unguarded 3 (by decide) _ _ false rfl rfl (by decide),
      helsewhere.memory.replaced 4 (by decide) _ .copy _ _ _ rfl rfl rfl⟩

/-- The pointers by which an operation accesses memory. -/
def Op.pointers : Op → List Value
  | .bulk .fill dest _ _ => [dest]
  | .bulk _ dest source _ => [dest, source]
  | op => op.access?.toList.map MemAccess.ptr

/-- Not every memory operation by a pointer to another address space stays as it is. -/
theorem not_forall_instrumentFunction_elsewhere :
    ¬ ∀ (config : Config) (m m' : Module) (id : FuncId) (f g : Func) (store : Annotations)
      (outcome : Outcome), m.functions[id]? = some f → f.verify m.symbols = .ok [] →
      m.instrumentFunction config id store = .ok (m', .ok outcome) → m'.functions[id]? = some g →
      ∀ i ∈ f.listed, ∀ instruction : Instruction, f.insts[i]? = some instruction →
        (∃ v ∈ instruction.op.pointers, f.valueTy v ≠ some (.ptr 0)) →
        g.insts[i]? = some instruction := by
  intro h
  obtain ⟨m', outcome, g, hrun, hg, hchanged⟩ := exists_instrumentFunction_fetch
  exact hchanged (h {} fetchModule m' 0 fetchFunction g {} outcome rfl (by decide +kernel) hrun hg 4
    (by decide) _ rfl ⟨.inst 1, by decide, by decide⟩)

end Redzone
