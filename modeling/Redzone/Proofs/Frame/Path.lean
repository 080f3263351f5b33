import Redzone.Proofs.Frame.Balance
import Redzone.Proofs.Frame.Slots
import Redzone.Proofs.Pointer

/-!
# Every path through a function leaves its frame clean

A path comes through the prologue, then through the code of lifetime markers, in whatever order and
however often, and at last through the code in front of an exit.  One invariant carries it: a
granule of the frame is as at function entry or as with all variables in scope (`Path.balanced`).  A
granule that the exit does not clear is clean at entry, hence clean in scope, hence clean.

The frame of an instrumented function is laid out for its slots, so that the shadows of which all
this speaks are those of a layout (`sound_of_layOut`).
-/

namespace Redzone

/-! ### The shadows of a layout -/

theorem lifetime_le_of_slotVariables {slots : List Slot} {var : StackVariable}
    (h : var ∈ slotVariables slots) : var.lifetime ≤ var.size := by
  obtain ⟨⟨slot, index⟩, -, rfl⟩ := List.mem_map.mp h
  simp only
  split
  · exact le_rfl
  · exact Nat.zero_le _

theorem FrameCode.sound_of_layOut {code : FrameCode} {slots : List Slot} {granularity : Nat}
    (hframe : Frame.layOut (slotVariables slots) granularity = .ok code.frame)
    (hsize : code.frame.size < 1 <<< 32) (hscope : code.inScope = code.frame.shadow)
    (hentry : code.frame.entryShadow = .ok code.atEntry) : code.Sound := by
  obtain ⟨hpos, hgranularity, hperm⟩ := Frame.layOut_eq_ok hframe
  refine ⟨hgranularity ▸ hpos, hscope, hentry, fun var hvar => ?_, ?_⟩
  · have hnature := hperm.mem_iff.mp (List.mem_map_of_mem hvar)
    obtain ⟨var', hvar', heq⟩ := List.mem_map.mp hnature
    have hle := lifetime_le_of_slotVariables hvar'
    simp only [Frame.nature, Prod.mk.injEq] at heq
    omega
  · have hlength : code.atEntry.length ≤ code.frame.size := by
      rw [(Frame.entryShadow_eq_ok hentry).1, Frame.length_shadow]
      exact Nat.div_le_self _ _
    have hspace : 1 <<< 32 ≤ addressSpace := by decide
    omega

/-! ### Paths -/

namespace FrameCode

variable {code : FrameCode} {x : Activation} {mapping : ShadowMapping} {B : Nat} {s t u : State}

/-- A path from a state behind the prologue: it comes through the code of lifetime markers, and
through code that has nothing to do with the frame. -/
inductive Path (code : FrameCode) (x : Activation) (mapping : ShadowMapping) (B : Nat) (s : State) :
    State → Prop
  | start : Path code x mapping B s s
  | marker {t u : State} {marker : Marker} {n : InstId} {ops : List Op} {es : List Event}
      (hpath : Path code x mapping B s t) (hmarker : code.IsMarker x.symbols marker n ops)
      (hline : execLine x n ops t = some (es, u)) : Path code x mapping B s u
  | other {t u : State} (hpath : Path code x mapping B s t)
      (hbase : u.env code.base = t.env code.base)
      (hshadowBase : u.env code.shadowBase = t.env code.shadowBase)
      (hmemory : ∀ a, code.InShadow mapping B a → u.memory a = t.memory a) :
      Path code x mapping B s u

theorem Path.balanced (h : code.Path x mapping B s t) (hsound : code.Sound)
    (hfills : ShadowWrite.FillsShadow x.machine) (hhere : code.At mapping B s)
    (hbalanced : code.Balanced mapping B s.memory) :
    code.At mapping B t ∧ code.Balanced mapping B t.memory := by
  induction h with
  | start => exact ⟨hhere, hbalanced⟩
  | marker _ hmarker hline ih =>
      obtain ⟨es, u, hline', hhere', hbalanced', -⟩ :=
        hmarker.executes hsound hfills ih.1 ih.2
      rw [hline] at hline'
      cases hline'
      exact ⟨hhere', hbalanced'⟩
  | other _ hbase hshadowBase hmemory ih =>
      obtain ⟨v, hv, haddr⟩ := ih.1.shadowBase
      refine ⟨⟨hbase.trans ih.1.base, v, hshadowBase.trans hv, haddr⟩, ?_⟩
      intro k entry live hentry hlive
      rw [hmemory _ (inShadow_granule (List.getElem?_eq_some_iff.mp hentry).1)]
      exact ih.2 k entry live hentry hlive

/-- What is true of a frame wherever a path has come to.  The code that may come next does not get
stuck and does not write where it must not, and an exit leaves the frame clean and retired. -/
structure Keeps (code : FrameCode) (x : Activation) (mapping : ShadowMapping) (B : Nat)
    (u : State) : Prop where
  balanced : code.Balanced mapping B u.memory
  redzone : ∀ k live, code.inScope[k]? = some live → ¬ code.frame.InVariable k →
    live ∈ Frame.redzones ∧ u.memory (mapping.granule B k) = live
  marker : ∀ marker n ops, code.IsMarker x.symbols marker n ops →
    ∃ es v, execLine x n ops u = some (es, v) ∧ WritesOnly (code.InShadow mapping B) u es v
  exit : ∀ n ops, code.IsExit x.symbols n ops →
    ∃ es v, execLine x n ops u = some (es, v) ∧ code.Clean mapping B v.memory ∧
      v.memory.readInt B 8 = retiredFrameMagic ∧
      WritesOnly (fun a => InRange B 8 a ∨ code.InShadow mapping B a) u es v

theorem Path.keeps (h : code.Path x mapping B s t) (hsound : code.Sound)
    (hfills : ShadowWrite.FillsShadow x.machine) (hapart : code.HeaderApart mapping B)
    (hhere : code.At mapping B s) (hbalanced : code.Balanced mapping B s.memory) :
    code.Keeps x mapping B t := by
  obtain ⟨hhere', hbalanced'⟩ := h.balanced hsound hfills hhere hbalanced
  refine ⟨hbalanced', fun k live hlive hk => ?_, fun marker n ops hmarker => ?_,
    fun n ops hexit => hexit.executes hsound hfills hapart hhere' hbalanced'⟩
  · have hlt : k < code.atEntry.length := by
      rw [← hsound.length_inScope]
      exact (List.getElem?_eq_some_iff.mp hlive).1
    have hentry := List.getElem?_eq_getElem hlt
    obtain ⟨hsame, hredzone⟩ := hsound.redzone hentry hlive hk
    refine ⟨hredzone, ?_⟩
    rcases hbalanced' k _ live hentry hlive with hvalue | hvalue
    · rw [hvalue, hsame]
    · exact hvalue
  · obtain ⟨es, v, hline, -, -, hwrites⟩ := hmarker.executes hsound hfills hhere' hbalanced'
    exact ⟨es, v, hline, hwrites⟩

end FrameCode

/-! ### Markers of an instrumented function -/

theorem Op.isBulk_of_lifetime {op : Op} {edge : ScopeEdge} {ptr : Value} {size : Nat}
    (h : op = .lifetime edge ptr size) : op.isBulk = false := by
  rw [h]
  rfl

namespace Draft

variable {config : Config} {outlined : Bool} {d d' : Draft} {sites : List Site}

theorem Visits.keeps_defOp (h : Visits config outlined d sites d') {v : Value} {op : Op}
    (hv : d.func.defOp v = some op) (hop : op.isBulk = false) : d'.func.defOp v = some op := by
  obtain ⟨i, instruction, rfl, hinst, rfl⟩ := Func.defOp_eq_some hv
  exact Func.defOp_of_getElem? (h.keeps hinst hop)

theorem Visits.keeps_listed (h : Visits config outlined d sites d') {i : InstId}
    (hi : i ∈ d.func.listed) : i ∈ d'.func.listed := by
  induction h with
  | nil => exact hi
  | cons _ _ hvisited _ ih =>
      obtain ⟨blk, hblk, -, hcut⟩ := hvisited.exists_cut (Nat.lt_succ_self _)
      exact ih (hcut.mem_listed hblk hi)

/-- A lifetime marker of a slot stays one. -/
theorem Visits.keeps_marker (h : Visits config outlined d sites d') {slots : List Slot}
    (hslots : ∀ slot ∈ slots, ∃ instruction, d.func.insts[slot.inst]? = some instruction ∧
      instruction.op.isSlot = true) {i : InstId} {marker : Marker}
    (hmarker : d.func.marker? slots i = .ok (some marker)) :
    d'.func.marker? slots i = .ok (some marker) := by
  obtain ⟨instruction, edge, ptr, size, base, offset, index, hinst, hop, hptr, hoffset, hindex,
    hmarker⟩ := Func.marker?_eq_some_iff.mp hmarker
  refine Func.marker?_eq_some_iff.mpr ⟨instruction, edge, ptr, size, base, offset, index,
    h.keeps hinst (Op.isBulk_of_lifetime hop), hop, ?_, hoffset, hindex, hmarker⟩
  obtain ⟨hpoints, -⟩ := Func.baseAndOffset_eq_some_iff.mp hptr
  refine Func.baseAndOffset_eq_some_iff.mpr ⟨hpoints.mono
    (fun v inner distance hv => h.keeps_defOp hv rfl) (fun v c hv => h.keeps_defOp hv rfl), ?_⟩
  -- the chain still ends at the slot
  obtain ⟨hlt, hbase, -⟩ := List.findIdx?_eq_some_iff_getElem.mp hindex
  obtain ⟨slot, hslot, hisSlot⟩ := hslots _ (List.getElem_mem hlt)
  rw [of_decide_eq_true hbase] at hslot
  have hroot := Func.defOp_of_getElem? (h.keeps hslot (Op.isBulk_of_isSlot hisSlot))
  intro inner distance hadd
  rw [Option.some.inj (hroot.symm.trans hadd)] at hisSlot
  cases hisSlot

end Draft

theorem Func.mem_markers {f : Func} {slots : List Slot} {all : List Marker} {i : InstId}
    {marker : Marker} (h : f.markers slots = .ok all) (hi : i ∈ f.listed)
    (hmarker : f.marker? slots i = .ok (some marker)) : marker ∈ all := by
  unfold markers at h
  obtain ⟨found, hfound, h⟩ := bind_eq_ok h
  cases h
  obtain ⟨marker', hmem, heq⟩ := mapM_eq_ok hfound i hi
  rw [Except.ok.inj (heq.symm.trans hmarker)] at hmem
  exact List.mem_filterMap.mpr ⟨_, hmem, rfl⟩

/-! ### The frame of an instrumented function -/

/-- Where the code of a frame stands does not depend on anything but the code, and names stay. -/
theorem FrameCode.Placed.of_same_code {code : FrameCode} {mapping : ShadowMapping}
    {symbols symbols' : SymbolTable} {markers : List Marker} {f g : Func}
    (h : code.Placed mapping symbols markers f) (hinsts : g.insts = f.insts)
    (hblocks : g.blocks = f.blocks) (hgrows : symbols.GrowsTo symbols') :
    code.Placed mapping symbols' markers g := by
  have hholds : ∀ {n : InstId} {ops : List Op}, f.Holds n ops → g.Holds n ops := by
    intro n ops hops k op hop
    rw [hinsts]
    exact hops k op hop
  refine ⟨?_, fun marker hmarker var hvar hgranules => ?_, fun b pos last hat => ?_⟩
  · obtain ⟨n, ops, blk, pre, rest, hcode, hops, hblk, hlisted, hparams⟩ := h.prologue
    refine ⟨n, ops, blk, pre, rest, hcode.mono hgrows, hholds hops, hblocks ▸ hblk, hlisted, ?_⟩
    rw [hinsts]
    exact hparams
  · obtain ⟨n, ops, hcode, hops, b, blk, pre, rest, hblk, hlisted⟩ :=
      h.marker marker hmarker var hvar hgranules
    exact ⟨n, ops, hcode.mono hgrows, hholds hops, b, blk, pre, rest, hblocks ▸ hblk, hlisted⟩
  · unfold Func.ExitAt at hat
    rw [hinsts, hblocks] at hat
    obtain ⟨n, ops, blk, pre, hcode, hops, hblk, hlisted⟩ := h.exit b pos last hat
    exact ⟨n, ops, blk, pre, hcode.mono hgrows, hholds hops, hblocks ▸ hblk, hlisted⟩

namespace Module

/-- The slots of an instrumented function are laid out in a frame, and the code of the frame stands
where it belongs: behind the parameters, in front of the lifetime markers of the slots, and right in
front of every return and every unwind. -/
theorem instrumentFunction_frame {config : Config} {m m' : Module} {id : FuncId} {f : Func}
    {store : Annotations} {outcome : Outcome} {name : String} {slots : List Slot}
    (hf : m.functions[id]? = some f) (hverified : f.Verified m.symbols)
    (hrun : m.instrumentFunction config id store = .ok (m', .ok outcome))
    (hname : m.resolve f.name = .ok name) (hexempt : f.isExempt name = false)
    (hslots : (if config.stack then f.frameSlots config else .ok []) = .ok slots)
    (hsome : slots ≠ []) :
    ∃ (code : FrameCode) (g : Func) (markers : List Marker), m'.functions[id]? = some g ∧
      Frame.layOut (slotVariables slots) config.mapping.granularity = .ok code.frame ∧
      code.inScope = code.frame.shadow ∧ code.frame.entryShadow = .ok code.atEntry ∧ code.Sound ∧
      (config.useAfterScope = true → ∀ i ∈ f.listed, ∀ marker,
        f.marker? slots i = .ok (some marker) → marker ∈ markers) ∧
      code.Placed config.mapping m'.symbols markers g := by
  obtain ⟨name', hname', ⟨hexempt', -⟩ | ⟨-, marked, survey, slots', d, -, -, hslots', hready,
    hvisits, hleaves⟩⟩ := instrumentFunction_visits hf hverified hrun
  · rw [Except.ok.inj (hname.symm.trans hname'), hexempt'] at hexempt
    cases hexempt
  obtain rfl : slots = slots' := Except.ok.inj (hslots.symm.trans hslots')
  obtain ⟨hnone, -⟩ | ⟨frame, d', description, -, ⟨hlayout, hsize⟩, hframe, hleaves⟩ := hleaves
  · exact absurd hnone hsome
  have hmade := Func.isSlot_of_slots hslots
  have hmade' : ∀ slot ∈ slots, slot.inst < d.func.insts.size ∧ ∃ instruction,
      d.func.insts[slot.inst]? = some instruction ∧ instruction.op.isSlot = true := by
    intro slot hslot
    obtain ⟨instruction, hinst, hop⟩ := hmade slot hslot
    have hkept := hvisits.keeps hinst (Op.isBulk_of_isSlot hop)
    exact ⟨(Array.getElem?_eq_some_iff.mp hkept).1, instruction, hkept, hop⟩
  have hend := hvisits.ready hready
  have hfname : d.symbols.names[d.func.name]? = some name := by
    have hsame : d.func.shell.name = f.shell.name := congrArg Func.name hvisits.shell
    rw [show d.func.name = f.name from hsame]
    exact hvisits.growsTo _ _ (SymbolTable.names_of_resolve hname)
  obtain ⟨code, markers, hcode, hscope, hentry, hmarkers, hplaced⟩ :=
    Draft.addFrame_placed hframe hmade' (fun i hi => hend.closed.lt_size hi) hend.nodup hfname
  subst hcode
  refine ⟨code, _, markers, hleaves.function, hlayout, hscope, hentry,
    FrameCode.sound_of_layOut hlayout hsize hscope hentry, fun hafter i hi marker hmarker => ?_,
    hplaced.of_same_code rfl rfl hleaves.symbols⟩
  rw [if_pos hafter] at hmarkers
  exact Func.mem_markers hmarkers (hvisits.keeps_listed hi) (hvisits.keeps_marker hmade hmarker)

/-- The poison of a frame is balanced on every path: behind the prologue, and wherever lifetime
markers lead from there, a granule is as at function entry or as with all variables in scope, and
behind the code in front of an exit all are clean and the frame is retired. -/
theorem instrumentFunction_balances {config : Config} {m m' : Module} {id : FuncId} {f : Func}
    {store : Annotations} {outcome : Outcome} {name : String} {slots : List Slot}
    (hf : m.functions[id]? = some f) (hverify : f.verify m.symbols = .ok [])
    (hrun : m.instrumentFunction config id store = .ok (m', .ok outcome))
    (hname : m.resolve f.name = .ok name) (hexempt : f.isExempt name = false)
    (hslots : (if config.stack then f.frameSlots config else .ok []) = .ok slots)
    (hsome : slots ≠ []) :
    ∃ (code : FrameCode) (g : Func) (markers : List Marker), m'.functions[id]? = some g ∧
      Frame.layOut (slotVariables slots) config.mapping.granularity = .ok code.frame ∧
      code.inScope = code.frame.shadow ∧ code.frame.entryShadow = .ok code.atEntry ∧
      (config.useAfterScope = true → ∀ i ∈ f.listed, ∀ marker,
        f.marker? slots i = .ok (some marker) → marker ∈ markers) ∧
      code.Placed config.mapping m'.symbols markers g ∧
      ∀ (machine : Machine) (args : List Int) (s : State) (B : Nat) (n : InstId) (ops : List Op),
        ShadowWrite.FillsShadow machine → carve s.stack code.frame.size code.frame.align = B →
        code.HeaderApart config.mapping B → code.Clean config.mapping B s.memory →
        code.IsPrologue config.mapping m'.symbols n ops →
        ∃ es t, execLine ⟨machine, m'.symbols, args⟩ n ops s = some (es, t) ∧
          WritesOnly (fun a => InRange B 24 a ∨ code.InShadow config.mapping B a) s es t ∧
          ∀ u, code.Path ⟨machine, m'.symbols, args⟩ config.mapping B t u →
            code.Keeps ⟨machine, m'.symbols, args⟩ config.mapping B u := by
  obtain ⟨code, g, markers, hg, hlayout, hscope, hentry, hsound, hmarkers, hplaced⟩ :=
    instrumentFunction_frame hf (Func.verified_of_verify hverify) hrun hname hexempt hslots hsome
  refine ⟨code, g, markers, hg, hlayout, hscope, hentry, hmarkers, hplaced, ?_⟩
  intro machine args s B n ops hfills hB hapart hclean hprologue
  obtain ⟨es, t, hline, hhere, hbalanced, hwrites⟩ :=
    FrameCode.IsPrologue.executes (x := ⟨machine, m'.symbols, args⟩) hprologue hsound hfills hB
      hapart
      hclean
  exact ⟨es, t, hline, hwrites, fun u hpath => hpath.keeps hsound hfills hapart hhere hbalanced⟩

/-- A function with a variable of a scope of its own, which is left by a return and by an unwind. -/
def scopeFunction : Func where
  name := 0
  params := [.bool]
  ret := none
  insts := #[⟨.param 0, .bool, [], false⟩, ⟨.stackSlot 20 8, .ptr 0, [], false⟩,
    ⟨.lifetime .enter (.inst 1) 20, .unit, [], false⟩,
    ⟨.brif (.inst 0) { block := 1 } { block := 2 }, .unit, [], false⟩,
    ⟨.lifetime .leave (.inst 1) 20, .unit, [], false⟩, ⟨.ret none, .unit, [], false⟩,
    ⟨.unwind, .unit, [], false⟩]
  blocks := #[{ argStart := 0, insts := [0, 1, 2, 3] }, { argStart := 0, insts := [4, 5] },
    { argStart := 0, insts := [6] }]

def scopeModule : Module where
  name := "scope"
  symbols := (SymbolTable.empty.intern "scope").1
  functions := #[scopeFunction]

def scopeConfig : Config := { useAfterScope := true, skipPromotable := false }

/-- A machine on which the routines that fill shadow memory do so. -/
def fillingMachine : Machine where
  address name := ((EntryPoint.setShadowValues.find? fun value =>
    EntryPoint.setShadow value = name).map UInt8.toNat).getD 0
  call callee args memory :=
    match args with
    | [addr, length] => .returns none
        (memory.write (toAddress addr) (List.replicate length.toNat (UInt8.ofNat callee.toNat)))
    | _ => .returns none memory

theorem fillsShadow_fillingMachine : ShadowWrite.FillsShadow fillingMachine := by
  intro value hvalue addr length memory
  have haddress : (fillingMachine.address (EntryPoint.setShadow value)) = value.toNat := by
    revert value
    decide +kernel
  refine ⟨none, ?_⟩
  rw [haddress]
  simp [fillingMachine]

/-- The frame of `scopeFunction`: twenty bytes behind a header, out of scope at function entry. -/
def scopeFrame : Frame where
  granularity := 8
  vars := [{ name := "v1", size := 20, align := 16, lifetime := 20, offset := 32, index := 0 }]
  size := 96
  align := 16

theorem headerApart_scopeFrame {code : FrameCode} (hlength : code.atEntry.length = 12) :
    code.HeaderApart scopeConfig.mapping 0x7ffffffeffa0 := by
  have hshadow : scopeConfig.mapping.shadowAddr 0x7ffffffeffa0 = 0x10007fff5ff4 := by decide
  refine FrameCode.headerApart_of_below ?_ (by decide)
  rw [hshadow, hlength]
  decide

theorem instrumentFunction_balances_scope :
    ∃ (m' : Module) (outcome : Outcome) (code : FrameCode) (g : Func),
      scopeModule.instrumentFunction scopeConfig 0 {} = .ok (m', .ok outcome) ∧
      m'.functions[0]? = some g ∧ code.frame = scopeFrame ∧
      (∃ n ops, code.IsPrologue scopeConfig.mapping m'.symbols n ops ∧ g.Holds n ops) ∧
      ∀ (s : State) (n : InstId) (ops : List Op), s.stack = 0x7fffffff0000 →
        (∀ a, s.memory a = 0) → code.IsPrologue scopeConfig.mapping m'.symbols n ops →
        ∃ es t, execLine ⟨fillingMachine, m'.symbols, []⟩ n ops s = some (es, t) ∧
          ∀ u, code.Path ⟨fillingMachine, m'.symbols, []⟩ scopeConfig.mapping 0x7ffffffeffa0 t u →
            code.Keeps ⟨fillingMachine, m'.symbols, []⟩ scopeConfig.mapping 0x7ffffffeffa0 u := by
  obtain ⟨m', outcome, hrun, -⟩ := exists_of_succeeds
    (scopeModule.instrumentFunction scopeConfig 0 {}) (fun _ _ => true) (by decide +kernel)
  obtain ⟨code, g, markers, hg, hlayout, -, hentry, -, hplaced, hbalances⟩ :=
    instrumentFunction_balances
      (show scopeModule.functions[0]? = some scopeFunction from rfl) (by decide +kernel) hrun
      (show scopeModule.resolve scopeFunction.name = .ok "scope" by decide +kernel)
      (by decide +kernel)
      (show (if scopeConfig.stack then scopeFunction.frameSlots scopeConfig else .ok []) =
        .ok [⟨1, 20, 8, "v1", true⟩] by decide +kernel) (by simp)
  have hframe : code.frame = scopeFrame := by
    have hcomputed : Frame.layOut (slotVariables [⟨1, 20, 8, "v1", true⟩])
        scopeConfig.mapping.granularity = .ok scopeFrame := by decide +kernel
    exact Except.ok.inj (hlayout.symm.trans hcomputed)
  have hlength : code.atEntry.length = 12 := by
    rw [(Frame.entryShadow_eq_ok hentry).1, hframe]
    decide +kernel
  obtain ⟨n, ops, -, -, -, hprologue, hholds, -⟩ := hplaced.prologue
  refine ⟨m', outcome, code, g, hrun, hg, hframe, ⟨n, ops, hprologue, hholds⟩, ?_⟩
  intro s n ops hstack hmemory hprologue
  obtain ⟨es, t, hline, -, hkeeps⟩ := hbalances fillingMachine [] s 0x7ffffffeffa0 n ops
    fillsShadow_fillingMachine (by rw [hstack, hframe]; decide +kernel)
    (headerApart_scopeFrame hlength) (fun k _ => hmemory _) hprologue
  exact ⟨es, t, hline, hkeeps⟩

end Module

end Redzone
