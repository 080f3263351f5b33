import Redzone.Proofs.Check.Bytes
import Redzone.Proofs.Edits.Run
import Redzone.Proofs.Frame.Path

/-!
# What a lifetime marker lets through

A shadow byte tells of a whole granule, so the code of a lifetime marker can do no better than to go
from the granule that its range starts in to the one that its range ends in (`Marker.Widens`).
These granules belong to the variable of the marker alone, and the bytes behind the end of the
variable are poison before and after it: no byte outside a variable is ever let through, whichever
markers a path has come through (`Balanced.not_addressable`).  So a marker concerns bytes of its own
variable only, and if its range is made of whole granules, nothing but its range.
-/

namespace Redzone

/-! ### Granules of a range -/

theorem lt_ceilDiv_iff {n step k : Nat} (hstep : 0 < step) : k < ceilDiv n step ↔ k * step < n := by
  rw [← Nat.not_le, ceilDiv_le_iff hstep, Nat.not_le]

namespace Marker

variable {granularity : Nat} {var : StackVariable} {marker : Marker} {a : Nat}

/-- Byte `a` of a frame is in the range of a marker of the variable. -/
def Covers (marker : Marker) (var : StackVariable) (a : Nat) : Prop :=
  var.offset + marker.offset ≤ a ∧ a < var.offset + marker.offset + marker.size

/-- Byte `a` of a frame is a byte of the variable, in a granule between the one that the range of a
marker starts in and the one that it ends in. -/
def Widens (marker : Marker) (granularity : Nat) (var : StackVariable) (a : Nat) : Prop :=
  var.Covers var.size a ∧ (var.offset + marker.offset) / granularity ≤ a / granularity ∧
    a / granularity < ceilDiv (var.offset + marker.offset + marker.size) granularity

/-- A range of whole granules is not widened. -/
theorem Widens.covers (h : marker.Widens granularity var a) (hpos : 0 < granularity)
    (hvar : granularity ∣ var.offset) (hoffset : granularity ∣ marker.offset)
    (hsize : granularity ∣ marker.size) : marker.Covers var a := by
  obtain ⟨-, hfirst, hlast⟩ := h
  rw [lt_ceilDiv_iff hpos] at hlast
  have hstart : granularity ∣ var.offset + marker.offset := Nat.dvd_add hvar hoffset
  obtain ⟨start, hstart'⟩ := hstart
  obtain ⟨length, hlength⟩ := hsize
  rw [hstart', Nat.mul_div_cancel_left _ hpos] at hfirst
  rw [hstart', hlength, ← Nat.mul_add, Nat.mul_comm, Nat.mul_lt_mul_left hpos] at hlast
  have ha := Nat.div_add_mod a granularity
  have hmod := Nat.mod_lt a hpos
  have hfirst' := Nat.mul_le_mul_left granularity hfirst
  have hlast' := Nat.mul_le_mul_left granularity (Nat.succ_le_of_lt hlast)
  rw [Nat.mul_succ, Nat.mul_add] at hlast'
  unfold Covers
  omega

end Marker

namespace FrameCode

variable {granularity first last k a : Nat} {var : StackVariable} {marker : Marker}

/-- A marker marks granules of its variable. -/
theorem within_of_marked (h : markedGranules granularity var marker = .ok (some (first, last)))
    (hpos : 0 < granularity) (hoffset : granularity ∣ var.offset) (hfirst : first ≤ k)
    (hlast : k < last) : var.Covers var.size (k * granularity) := by
  obtain ⟨hlt, rfl, rfl⟩ := markedGranules_eq_some h
  rw [lt_ceilDiv_iff hpos] at hlast
  have hstart : var.offset / granularity ≤ k :=
    (Nat.div_le_div_right (Nat.le_add_right _ _)).trans hfirst
  have hmul := Nat.mul_le_mul_right granularity hstart
  rw [Nat.div_mul_cancel hoffset] at hmul
  exact ⟨hmul, by omega⟩

/-- The bytes of the variable in the granules that a marker marks. -/
theorem widens_iff (h : markedGranules granularity var marker = .ok (some (first, last)))
    (hpos : 0 < granularity) (ha : var.Covers var.size a) :
    marker.Widens granularity var a ↔ first ≤ a / granularity ∧ a / granularity < last := by
  obtain ⟨hlt, rfl, rfl⟩ := markedGranules_eq_some h
  have hle := Nat.div_mul_le_self a granularity
  have hend := ha.2
  rw [Marker.Widens, and_iff_right ha, lt_ceilDiv_iff hpos, lt_ceilDiv_iff hpos]
  omega

end FrameCode

/-- No other variable has a byte in a granule of a variable. -/
theorem Frame.Spaced.eq_of_granule {frame : Frame} (h : frame.Spaced)
    {var other : StackVariable} {a : Nat} (hvar : var ∈ frame.vars) (hother : other ∈ frame.vars)
    (hcovers : other.Covers other.size a)
    (hgranule : var.Covers var.size (a / frame.granularity * frame.granularity)) : other = var := by
  have hle := Nat.div_mul_le_self a frame.granularity
  -- a variable that starts at or before a byte starts at or before its granule
  have hstart : other.offset ≤ a / frame.granularity * frame.granularity := by
    have hdiv := Nat.div_le_div_right (c := frame.granularity) hcovers.1
    have hmul := Nat.mul_le_mul_right frame.granularity hdiv
    rwa [Nat.div_mul_cancel (h.offset other hother).1] at hmul
  obtain ⟨i, hi, rfl⟩ := List.getElem_of_mem hvar
  obtain ⟨j, hj, rfl⟩ := List.getElem_of_mem hother
  have hapart := List.pairwise_iff_getElem.mp h.apart
  unfold StackVariable.Covers at hcovers hgranule
  rcases Nat.lt_trichotomy i j with hij | rfl | hij
  · have hnext := hapart i j hi hj hij
    omega
  · rfl
  · have hnext := hapart j i hj hi hij
    omega

/-! ### Bytes of a frame -/

theorem ShadowMapping.addressable_add {mapping : ShadowMapping} {B : Nat}
    (hB : mapping.granularity ∣ B) (memory : Memory) (a : Nat) :
    mapping.addressable memory (B + a) =
      mapping.byteAddressable a (memory (mapping.granule B (a / mapping.granularity))) := by
  have hpos := mapping.granularity_pos
  obtain ⟨start, rfl⟩ := hB
  have haddr : mapping.shadowAddr (mapping.granularity * start + a) =
      mapping.granule (mapping.granularity * start) (a / mapping.granularity) := by
    rw [granule, shadowAddr, shadowAddr, Nat.mul_add_div hpos, Nat.mul_div_cancel_left _ hpos,
      Nat.mod_add_mod, Nat.add_right_comm]
  rw [addressable, haddr, byteAddressable, byteAddressable, Nat.mul_add_mod]

namespace FrameCode

variable {code : FrameCode} {mapping : ShadowMapping} {B : Nat} {memory memory' : Memory}

/-- A frame whose variables are spaced and whose shadow lets just their bytes be accessed while they
are in scope. -/
structure LaidOut (code : FrameCode) (mapping : ShadowMapping) : Prop where
  sound : code.Sound
  granularity : code.frame.granularity = mapping.granularity
  spaced : code.frame.Spaced
  exact : Frame.Exact mapping code.inScope code.frame.vars

/-- Every byte of the frame has a shadow byte. -/
theorem LaidOut.lt_length (h : code.LaidOut mapping) {a : Nat} (ha : a < code.frame.size) :
    a / mapping.granularity < code.atEntry.length := by
  rw [(Frame.entryShadow_eq_ok h.sound.atEntry).1, Frame.length_shadow, h.granularity]
  exact Nat.div_lt_div_of_lt_of_dvd (h.granularity ▸ h.spaced.size.2) ha

/-- Bytes outside all variables are poison all the time. -/
theorem Balanced.not_addressable (h : code.Balanced mapping B memory) (hlaid : code.LaidOut mapping)
    {a : Nat} (ha : a < code.frame.size)
    (hvars : ¬ ∃ var ∈ code.frame.vars, var.Covers var.size a) :
    mapping.byteAddressable a (memory (mapping.granule B (a / mapping.granularity))) = false := by
  have hk := hlaid.lt_length ha
  have hentry := List.getElem?_eq_getElem hk
  have hlive := List.getElem?_eq_getElem (hlaid.sound.length_inScope ▸ hk)
  have hpoison : ∀ byte, code.inScope[a / mapping.granularity]? = some byte →
      ¬ mapping.byteAddressable a byte = true := fun byte hbyte hthrough =>
    hvars ((hlaid.exact.bytes a byte hbyte).mp hthrough)
  rw [← Bool.not_eq_true]
  rcases h _ _ _ hentry hlive with hvalue | hvalue
  · rw [hvalue]
    rcases (Frame.entryShadow_eq_ok hlaid.sound.atEntry).2 _ _ hentry with hshadow | ⟨hscope, -⟩
    · rw [← hlaid.sound.inScope] at hshadow
      exact hpoison _ hshadow
    · rw [hscope]
      exact ShadowMapping.not_byteAddressable_of_high (by decide)
  · rw [hvalue]
    exact hpoison _ hlive

/-- What is masked out of a marker's code is clean, whichever shadow it is to have. -/
theorem Balanced.painted (h : code.Balanced mapping B memory) (hsound : code.Sound)
    {edge : ScopeEdge} {first last k : Nat} {byte : UInt8}
    (hpaint : Repaints mapping B code.atEntry (code.edgeShadow edge) first last memory memory')
    (hfirst : first ≤ k) (hlast : k < last) (hbyte : (code.edgeShadow edge)[k]? = some byte) :
    memory' (mapping.granule B k) = byte := by
  rcases hpaint.inside k byte hfirst hlast hbyte with hnew | ⟨hmask, hold⟩
  · exact hnew
  · have hclean := hsound.inScope_of_clean hmask
    have hzero : byte = 0 := by
      cases edge with
      | leave => exact Option.some.inj (hbyte.symm.trans hmask)
      | enter => exact Option.some.inj (hbyte.symm.trans hclean)
    rw [hold, hzero]
    rcases h k 0 0 hmask hclean with hvalue | hvalue
    · exact hvalue
    · exact hvalue

/-! ### Markers -/

/-- What the code of a marker does to the bytes of a frame at `B`.  The bytes that its range is
widened to are let through if the variable enters its scope, and are as at function entry if it
leaves it.  All others are let through if and only if they were before; these are all bytes outside
the range if the range is made of whole granules. -/
structure Marks (code : FrameCode) (mapping : ShadowMapping) (B : Nat) (marker : Marker)
    (var : StackVariable) (before after : Memory) : Prop where
  enter : marker.edge = .enter → ∀ a, marker.Widens mapping.granularity var a →
    mapping.addressable after (B + a) = true
  leave : marker.edge = .leave → ∀ a byte, marker.Widens mapping.granularity var a →
    code.atEntry[a / mapping.granularity]? = some byte →
    mapping.addressable after (B + a) = mapping.byteAddressable a byte
  outside : ∀ a < code.frame.size, ¬ marker.Widens mapping.granularity var a →
    mapping.addressable after (B + a) = mapping.addressable before (B + a)
  aligned : mapping.granularity ∣ marker.offset → mapping.granularity ∣ marker.size →
    ∀ a < code.frame.size, ¬ marker.Covers var a →
      mapping.addressable after (B + a) = mapping.addressable before (B + a)

theorem Balanced.marks (h : code.Balanced mapping B memory) (h' : code.Balanced mapping B memory')
    (hlaid : code.LaidOut mapping) (hB : mapping.granularity ∣ B) {marker : Marker}
    {var : StackVariable} (hvar : var ∈ code.frame.vars) {first last : Nat}
    (hgranules : markedGranules mapping.granularity var marker = .ok (some (first, last)))
    (hlast : first < last → last ≤ code.atEntry.length)
    (hpaint : Repaints mapping B code.atEntry (code.edgeShadow marker.edge) first last memory
      memory') : code.Marks mapping B marker var memory memory' := by
  have hpos := mapping.granularity_pos
  have hoffset : mapping.granularity ∣ var.offset :=
    hlaid.granularity ▸ (hlaid.spaced.offset var hvar).1
  have houtside : ∀ a < code.frame.size, ¬ marker.Widens mapping.granularity var a →
      mapping.addressable memory' (B + a) = mapping.addressable memory (B + a) := by
    intro a ha hwidens
    rw [ShadowMapping.addressable_add hB, ShadowMapping.addressable_add hB]
    by_cases hrange : first ≤ a / mapping.granularity ∧ a / mapping.granularity < last
    · -- a byte behind the end of the variable, in the variable's last granule
      have hvars : ¬ ∃ other ∈ code.frame.vars, other.Covers other.size a := by
        rintro ⟨other, hother, hcovers⟩
        have hgranule := within_of_marked hgranules hpos hoffset hrange.1 hrange.2
        rw [← hlaid.granularity] at hgranule
        obtain rfl := hlaid.spaced.eq_of_granule hvar hother hcovers hgranule
        exact hwidens ((widens_iff hgranules hpos hcovers).mpr hrange)
      rw [h.not_addressable hlaid ha hvars, h'.not_addressable hlaid ha hvars]
    · have hk := (hlaid.lt_length ha).trans_le hlaid.sound.fits
      rw [hpaint.unchanged (fun hlt => (hlast hlt).trans hlaid.sound.fits) hk hrange]
  refine ⟨fun hedge a hwidens => ?_, fun hedge a byte hwidens hbyte => ?_, houtside, ?_⟩
  · obtain ⟨hfirst, hlt⟩ := (widens_iff hgranules hpos hwidens.1).mp hwidens
    have hk : a / mapping.granularity < code.inScope.length := by
      rw [hlaid.sound.length_inScope]
      exact hlt.trans_le (hlast (hfirst.trans_lt hlt))
    have hlive := List.getElem?_eq_getElem hk
    rw [hedge] at hpaint
    rw [ShadowMapping.addressable_add hB, h.painted hlaid.sound hpaint hfirst hlt hlive]
    exact (hlaid.exact.bytes a _ hlive).mpr ⟨var, hvar, hwidens.1⟩
  · obtain ⟨hfirst, hlt⟩ := (widens_iff hgranules hpos hwidens.1).mp hwidens
    rw [hedge] at hpaint
    rw [ShadowMapping.addressable_add hB, h.painted hlaid.sound hpaint hfirst hlt hbyte]
  · intro hstart hsize a ha hcovers
    refine houtside a ha fun hwidens => hcovers ?_
    exact hwidens.covers hpos hoffset hstart hsize

theorem IsMarker.marks {x : Activation} {n : InstId} {ops : List Op} {s : State} {marker : Marker}
    (h : code.IsMarker x.symbols marker n ops) (hlaid : code.LaidOut mapping)
    (hfills : ShadowWrite.FillsShadow x.machine) (hB : mapping.granularity ∣ B)
    (hhere : code.At mapping B s) (hbalanced : code.Balanced mapping B s.memory) :
    ∃ var ∈ code.frame.vars, var.index = marker.slot ∧ ∃ es t, execLine x n ops s = some (es, t) ∧
      code.Marks mapping B marker var s.memory t.memory := by
  obtain ⟨es, t, hline, -, hbalanced', -⟩ := h.executes hlaid.sound hfills hhere hbalanced
  obtain ⟨var, first, last, hvar, hgranules, hlast, es', t', hline', -, hpaint, -⟩ :=
    h.repaints hlaid.sound hfills hhere
  cases hline.symm.trans hline'
  rw [hlaid.granularity] at hgranules
  have hmem := List.mem_of_find?_eq_some hvar
  refine ⟨var, hmem, by simpa using List.find?_some hvar, es, t, hline, ?_⟩
  exact hbalanced.marks hbalanced' hlaid hB hmem hgranules hlast hpaint

theorem laidOut_of_layOut {slots : List Slot}
    (hframe : Frame.layOut (slotVariables slots) mapping.granularity = .ok code.frame)
    (hsound : code.Sound) (hscale : mapping.scale ≤ maxScale)
    (hslots : ∀ slot ∈ slots, isPowerOfTwo slot.align = true) : code.LaidOut mapping := by
  have haligns := isPowerOfTwo_of_slotVariables hslots
  refine ⟨hsound, (Frame.layOut_eq_ok hframe).2.1,
    Frame.layOut_spaced hframe (isPowerOfTwo_shiftLeft mapping.scale) haligns, ?_⟩
  rw [hsound.inScope]
  exact Frame.exact_shadow hframe hscale haligns

/-- A frame starts with a granule. -/
theorem LaidOut.dvd_carve (h : code.LaidOut mapping) (stack : Nat) :
    mapping.granularity ∣ carve stack code.frame.size code.frame.align := by
  rw [← h.granularity]
  exact h.spaced.align.1.trans (Nat.dvd_mul_left _ _)

/-- Wherever a path behind the prologue has come to, the code of a marker can be executed, and the
memory before and after it is related by `R`. -/
def MarkersDo (code : FrameCode) (mapping : ShadowMapping) (symbols : SymbolTable)
    (R : Nat → Marker → StackVariable → Memory → Memory → Prop) : Prop :=
  ∀ (machine : Machine) (args : List Int) (s : State) (B : Nat) (n : InstId) (ops : List Op),
    ShadowWrite.FillsShadow machine → carve s.stack code.frame.size code.frame.align = B →
    code.HeaderApart mapping B → code.Clean mapping B s.memory →
    code.IsPrologue mapping symbols n ops →
    ∃ es t, execLine ⟨machine, symbols, args⟩ n ops s = some (es, t) ∧
      ∀ u, code.Path ⟨machine, symbols, args⟩ mapping B t u →
        ∀ marker n ops, code.IsMarker symbols marker n ops →
          ∃ var ∈ code.frame.vars, var.index = marker.slot ∧
            ∃ es v, execLine ⟨machine, symbols, args⟩ n ops u = some (es, v) ∧
              R B marker var u.memory v.memory

theorem LaidOut.markersDo (h : code.LaidOut mapping) (symbols : SymbolTable) :
    code.MarkersDo mapping symbols (code.Marks mapping) := by
  rintro machine args s B n ops hfills rfl hapart hclean hprologue
  obtain ⟨es, t, hline, hhere, hbalanced, -⟩ :=
    IsPrologue.executes (x := ⟨machine, symbols, args⟩) hprologue h.sound hfills rfl hapart hclean
  refine ⟨es, t, hline, fun u hpath marker n ops hmarker => ?_⟩
  obtain ⟨hhere', hbalanced'⟩ := hpath.balanced h.sound hfills hhere hbalanced
  exact IsMarker.marks (x := ⟨machine, symbols, args⟩) hmarker h hfills (h.dvd_carve s.stack) hhere'
    hbalanced'

end FrameCode

namespace Module

/-- The code of a lifetime marker changes which bytes of its own variable can be accessed, within
the granules that its range touches, and of no others; and within them it does what the marker
says. -/
theorem instrumentFunction_marks {config : Config} {m m' : Module} {id : FuncId} {f : Func}
    {store : Annotations} {outcome : Outcome} {name : String} {slots : List Slot}
    (hf : m.functions[id]? = some f) (hverify : f.verify m.symbols = .ok [])
    (hrun : m.instrumentFunction config id store = .ok (m', .ok outcome))
    (hname : m.resolve f.name = .ok name) (hexempt : f.isExempt name = false)
    (hslots : (if config.stack then f.frameSlots config else .ok []) = .ok slots)
    (hsome : slots ≠ []) :
    ∃ (code : FrameCode) (g : Func) (markers : List Marker), m'.functions[id]? = some g ∧
      Frame.layOut (slotVariables slots) config.mapping.granularity = .ok code.frame ∧
      code.inScope = code.frame.shadow ∧ code.frame.entryShadow = .ok code.atEntry ∧
      (config.useAfterScope = true → ∀ i ∈ f.listed, ∀ marker,
        f.marker? slots i = .ok (some marker) → marker ∈ markers) ∧
      code.Placed config.mapping m'.symbols markers g ∧
      code.MarkersDo config.mapping m'.symbols (code.Marks config.mapping) := by
  obtain ⟨code, g, markers, hg, hlayout, hscope, hentry, hsound, hmarkers, hplaced⟩ :=
    instrumentFunction_frame hf (Func.verified_of_verify hverify) hrun hname hexempt hslots hsome
  obtain ⟨hvalid, -⟩ := instrumentFunction_cases hf hrun
  have hlaid : code.LaidOut config.mapping :=
    FrameCode.laidOut_of_layOut hlayout hsound (scale_of_validate hvalid).2
      (Func.isPowerOfTwo_of_slots (sound_of_verify hverify) hslots)
  exact ⟨code, g, markers, hg, hlayout, hscope, hentry, hmarkers, hplaced,
    hlaid.markersDo m'.symbols⟩

/-- A function with a variable of which half a granule enters its scope. -/
def partFunction : Func where
  name := 0
  params := []
  ret := none
  insts := #[⟨.stackSlot 16 8, .ptr 0, [], false⟩, ⟨.iconst 4, .int, [], false⟩,
    ⟨.ptrAdd (.inst 0) (.inst 1), .ptr 0, [], false⟩,
    ⟨.lifetime .enter (.inst 2) 4, .unit, [], false⟩, ⟨.ret none, .unit, [], false⟩]
  blocks := #[{ argStart := 0, insts := [0, 1, 2, 3, 4] }]

def partModule : Module where
  name := "part"
  symbols := (SymbolTable.empty.intern "part").1
  functions := #[partFunction]

def partSlots : List Slot := [⟨0, 16, 8, "v0", true⟩]

def partVariable : StackVariable :=
  { name := "v0", size := 16, align := 16, lifetime := 16, offset := 32, index := 0 }

def partFrame : Frame where
  granularity := 8
  vars := [partVariable]
  size := 64
  align := 16

def partMarker : Marker := ⟨3, 0, 4, 4, .enter⟩

/-- A state with clean memory. -/
def partState : State := ⟨[], fun _ => none, fun _ => 0, 0x7fffffff0000⟩

theorem verify_part : partFunction.verify partModule.symbols = .ok [] := by decide

theorem resolve_part : partModule.resolve partFunction.name = .ok "part" := by decide

theorem frameSlots_part :
    (if scopeConfig.stack then partFunction.frameSlots scopeConfig else .ok []) =
      .ok partSlots := by
  decide

theorem layOut_part :
    Frame.layOut (slotVariables partSlots) scopeConfig.mapping.granularity = .ok partFrame := by
  decide

theorem entryShadow_part :
    partFrame.entryShadow = .ok [0xf1, 0xf1, 0xf1, 0xf1, 0xf8, 0xf8, 0xf3, 0xf3] := by
  decide

theorem marker_part : partFunction.marker? partSlots 3 = .ok (some partMarker) := by decide

theorem exists_instrumentFunction_part :
    ∃ m' outcome, partModule.instrumentFunction scopeConfig 0 {} = .ok (m', .ok outcome) := by
  obtain ⟨m', outcome, hrun, -⟩ := exists_of_succeeds
    (partModule.instrumentFunction scopeConfig 0 {}) (fun _ _ => true) (by decide +kernel)
  exact ⟨m', outcome, hrun⟩

theorem carve_part {code : FrameCode} (hframe : code.frame = partFrame) :
    carve partState.stack code.frame.size code.frame.align = 0x7ffffffeffc0 := by
  rw [hframe]
  decide

/-- Code of `partFrame`. -/
structure IsPart (code : FrameCode) : Prop where
  frame : code.frame = partFrame
  inScope : code.inScope = code.frame.shadow
  atEntry : code.frame.entryShadow = .ok code.atEntry

theorem IsPart.atEntry_eq {code : FrameCode} (h : IsPart code) :
    code.atEntry = [0xf1, 0xf1, 0xf1, 0xf1, 0xf8, 0xf8, 0xf3, 0xf3] := by
  have hentry := h.atEntry
  rw [h.frame] at hentry
  exact Except.ok.inj (hentry.symm.trans entryShadow_part)

theorem IsPart.headerApart {code : FrameCode} (h : IsPart code) :
    code.HeaderApart scopeConfig.mapping 0x7ffffffeffc0 := by
  have hshadow : scopeConfig.mapping.shadowAddr 0x7ffffffeffc0 = 0x10007fff5ff8 := by decide
  refine FrameCode.headerApart_of_below ?_ (by decide)
  rw [hshadow, h.atEntry_eq]
  decide

theorem IsPart.exists_marker {code : FrameCode} {symbols : SymbolTable} {markers : List Marker}
    {g : Func} (h : IsPart code) (hplaced : code.Placed scopeConfig.mapping symbols markers g)
    (hmarkers : ∀ i ∈ partFunction.listed, ∀ marker,
      partFunction.marker? partSlots i = .ok (some marker) → marker ∈ markers) :
    ∃ n ops, code.IsMarker symbols partMarker n ops ∧ g.InFront n ops 3 := by
  refine hplaced.marker partMarker (hmarkers 3 (by decide) partMarker marker_part) partVariable
    ?_ ?_
  · rw [h.frame]
    decide
  · rw [h.frame]
    decide

theorem instrumentFunction_marks_part :
    ∃ (m' : Module) (outcome : Outcome) (code : FrameCode) (g : Func) (n k : InstId)
      (ops ops' : List Op), partModule.instrumentFunction scopeConfig 0 {} = .ok (m', .ok outcome) ∧
      m'.functions[0]? = some g ∧ code.frame = partFrame ∧
      code.IsPrologue scopeConfig.mapping m'.symbols n ops ∧ g.Holds n ops ∧
      code.IsMarker m'.symbols partMarker k ops' ∧ g.InFront k ops' 3 ∧
      ∃ es t es' v, execLine ⟨fillingMachine, m'.symbols, []⟩ n ops partState = some (es, t) ∧
        execLine ⟨fillingMachine, m'.symbols, []⟩ k ops' t = some (es', v) ∧
        code.Marks scopeConfig.mapping 0x7ffffffeffc0 partMarker partVariable t.memory
          v.memory := by
  obtain ⟨m', outcome, hrun⟩ := exists_instrumentFunction_part
  obtain ⟨code, g, markers, hg, hlayout, hscope, hentry, hmarkers, hplaced, hmarks⟩ :=
    instrumentFunction_marks (show partModule.functions[0]? = some partFunction from rfl)
      verify_part hrun
      resolve_part (by decide +kernel) frameSlots_part (by decide)
  have hpart : IsPart code := ⟨Except.ok.inj (hlayout.symm.trans layOut_part), hscope, hentry⟩
  obtain ⟨n, ops, -, -, -, hprologue, hholds, -⟩ := hplaced.prologue
  obtain ⟨k, ops', hmarker, hfront⟩ := hpart.exists_marker hplaced (hmarkers rfl)
  obtain ⟨es, t, hline, hpath⟩ := hmarks fillingMachine [] partState 0x7ffffffeffc0 n ops
    fillsShadow_fillingMachine (carve_part hpart.frame) hpart.headerApart (fun k _ => rfl) hprologue
  obtain ⟨var, hvar, -, es', v, hline', hdone⟩ := hpath t .start partMarker k ops' hmarker
  rw [hpart.frame] at hvar
  obtain rfl := List.mem_singleton.mp hvar
  exact ⟨m', outcome, code, g, n, k, ops, ops', hrun, hg, hpart.frame, hprologue, hholds, hmarker,
    hfront, es, t, es', v, hline, hline', hdone⟩

/-- The first byte of the variable is poison at function entry, and the marker lets it through,
although it is in front of the marker's range. -/
theorem IsPart.lets_through {code : FrameCode} {symbols : SymbolTable} {n k : InstId}
    {ops ops' : List Op}
    (h : IsPart code) (hprologue : code.IsPrologue scopeConfig.mapping symbols n ops)
    (hmarker : code.IsMarker symbols partMarker k ops') :
    ∃ es t es' v, execLine ⟨fillingMachine, symbols, []⟩ n ops partState = some (es, t) ∧
      execLine ⟨fillingMachine, symbols, []⟩ k ops' t = some (es', v) ∧
      scopeConfig.mapping.addressable t.memory (0x7ffffffeffc0 + 32) = false ∧
      scopeConfig.mapping.addressable v.memory (0x7ffffffeffc0 + 32) = true := by
  have hlayout := h.frame.symm ▸ layOut_part
  have hsound := FrameCode.sound_of_layOut hlayout (by rw [h.frame]; decide) h.inScope h.atEntry
  have hlaid := FrameCode.laidOut_of_layOut hlayout hsound (by decide) (by decide)
  have hB : scopeConfig.mapping.granularity ∣ 0x7ffffffeffc0 := by decide
  obtain ⟨es, t, hline, hhere, hpoison, -⟩ :=
    FrameCode.IsPrologue.poisons (x := ⟨fillingMachine, symbols, []⟩) hprologue hsound
      fillsShadow_fillingMachine (carve_part h.frame) h.headerApart (fun k _ => rfl)
  obtain ⟨var, hvar, -, es', v, hline', hmarks⟩ :=
    FrameCode.IsMarker.marks (x := ⟨fillingMachine, symbols, []⟩) hmarker hlaid
      fillsShadow_fillingMachine hB hhere hpoison.balanced
  rw [h.frame] at hvar
  obtain rfl := List.mem_singleton.mp hvar
  refine ⟨es, t, es', v, hline, hline', ?_, hmarks.enter rfl 32 ?_⟩
  · have hgranule : 32 / scopeConfig.mapping.granularity = 4 := by decide
    rw [ShadowMapping.addressable_add hB, hgranule, hpoison 4 0xf8 (by rw [h.atEntry_eq]; rfl)]
    decide
  · unfold Marker.Widens StackVariable.Covers
    decide

/-- It is not the bytes of its range alone that a marker concerns: the range may start within a
granule. -/
theorem not_forall_instrumentFunction_marks :
    ¬ ∀ (config : Config) (m m' : Module) (id : FuncId) (f : Func) (store : Annotations)
        (outcome : Outcome) (name : String) (slots : List Slot),
        m.functions[id]? = some f → f.verify m.symbols = .ok [] →
        m.instrumentFunction config id store = .ok (m', .ok outcome) →
        m.resolve f.name = .ok name → f.isExempt name = false →
        (if config.stack then f.frameSlots config else .ok []) = .ok slots → slots ≠ [] →
        ∃ (code : FrameCode) (g : Func) (markers : List Marker), m'.functions[id]? = some g ∧
          Frame.layOut (slotVariables slots) config.mapping.granularity = .ok code.frame ∧
          code.inScope = code.frame.shadow ∧ code.frame.entryShadow = .ok code.atEntry ∧
          (config.useAfterScope = true → ∀ i ∈ f.listed, ∀ marker,
            f.marker? slots i = .ok (some marker) → marker ∈ markers) ∧
          code.Placed config.mapping m'.symbols markers g ∧
          code.MarkersDo config.mapping m'.symbols fun B marker var before after =>
            ∀ a < code.frame.size, ¬ marker.Covers var a →
              config.mapping.addressable after (B + a) =
                config.mapping.addressable before (B + a) := by
  intro hclaim
  obtain ⟨m', outcome, hrun⟩ := exists_instrumentFunction_part
  obtain ⟨code, g, markers, -, hlayout, hscope, hentry, hmarkers, hplaced, hconcerns⟩ :=
    hclaim scopeConfig partModule m' 0 partFunction {} outcome "part" partSlots rfl verify_part hrun
      resolve_part (by decide +kernel) frameSlots_part (by decide)
  have hpart : IsPart code := ⟨Except.ok.inj (hlayout.symm.trans layOut_part), hscope, hentry⟩
  obtain ⟨n, ops, -, -, -, hprologue, -, -⟩ := hplaced.prologue
  obtain ⟨k, ops', hmarker, -⟩ := hpart.exists_marker hplaced (hmarkers rfl)
  obtain ⟨es, t, es', v, hline, hline', hpoison, hthrough⟩ := hpart.lets_through hprologue hmarker
  obtain ⟨_, _, hsame, hpath⟩ := hconcerns fillingMachine [] partState 0x7ffffffeffc0 n ops
    fillsShadow_fillingMachine (carve_part hpart.frame) hpart.headerApart (fun k _ => rfl) hprologue
  cases hline.symm.trans hsame
  obtain ⟨var, hvar, -, _, _, hsame', hkept⟩ := hpath t .start partMarker k ops' hmarker
  cases hline'.symm.trans hsame'
  rw [hpart.frame] at hvar hkept
  obtain rfl := List.mem_singleton.mp hvar
  have hoff : ¬ partMarker.Covers partVariable 32 := by
    unfold Marker.Covers
    decide
  have heq := hkept 32 (by decide) hoff
  rw [hpoison, hthrough] at heq
  cases heq

end Module

end Redzone
