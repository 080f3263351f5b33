import Redzone.Proofs.Frame.Effect
import Redzone.Proofs.Frame.Placement
import Redzone.Proofs.Frame.Shadow

/-!
# What the code of a frame does to memory

The prologue, the code of a lifetime marker and the code in front of an exit are executed from any
state that has the frame at `B`.  Each of them writes the header or the shadow of the frame and
nothing else (`WritesOnly`), and each is seen as a repainting of some granules (`Repaints`).

* The prologue gives a clean frame the shadow of function entry (`IsPrologue.poisons`).
* A marker paints granules of its variable (`IsMarker.repaints`), as they are in scope or as they
  are at function entry, so that every granule has one of these shadows: the frame is `Balanced`.
* An exit makes a balanced frame clean (`Balanced.clear`).

The last step is the delicate one.  An exit clears those granules only that are poisoned at function
entry.  The others are clean at entry, and may have got the shadow of their scope since.  They are
clean nevertheless, because what is clean at entry is clean with all variables in scope, too
(`Sound.inScope_of_clean`).
-/

namespace Redzone

/-! ### Which memory a line of code writes -/

/-- No address is ever written but those of which `P` holds. -/
def WritesOnly (P : Nat → Prop) (s : State) (es : List Event) (t : State) : Prop :=
  ∀ a, ¬ P a → t.memory a = s.memory a ∧ ∀ e ∈ es, e.memory a = s.memory a

namespace WritesOnly

variable {P Q : Nat → Prop} {s t u : State} {es es' : List Event}

theorem mono (h : WritesOnly P s es t) (hPQ : ∀ a, P a → Q a) : WritesOnly Q s es t :=
  fun a ha => h a fun hP => ha (hPQ a hP)

theorem trans (h : WritesOnly P s es t) (h' : WritesOnly P t es' u) :
    WritesOnly P s (es ++ es') u := by
  intro a ha
  obtain ⟨hmemory, hevents⟩ := h a ha
  obtain ⟨hmemory', hevents'⟩ := h' a ha
  refine ⟨hmemory'.trans hmemory, fun e he => ?_⟩
  rcases List.mem_append.mp he with he | he
  · exact hevents e he
  · exact (hevents' e he).trans hmemory

/-- A line that writes once. -/
theorem of_write {addr : Nat} {bytes : List UInt8} (ht : t.memory = s.memory.write addr bytes)
    (hes : ∀ e ∈ es, e.memory = s.memory ∨ e.memory = t.memory)
    (hP : ∀ k < bytes.length, P ((addr + k) % addressSpace)) : WritesOnly P s es t := by
  intro a ha
  have hmemory : t.memory a = s.memory a := by
    rw [ht]
    apply Memory.write_apply_of_ne
    rintro k hk rfl
    exact ha (hP k hk)
  refine ⟨hmemory, fun e he => ?_⟩
  rcases hes e he with heq | heq
  · rw [heq]
  · rw [heq, hmemory]

end WritesOnly

/-- One of the first `count` bytes from `addr` on. -/
def InRange (addr count a : Nat) : Prop := ∃ j < count, a = (addr + j) % addressSpace

/-! ### The header -/

section

variable {x : Activation} {n : InstId} {s : State}

/-- Code from `n` on that puts the address of a symbol `distance` bytes behind `base`. -/
def headerWord (n : InstId) (base : Value) (symbol : SymbolId) (distance : Nat) : List Op :=
  [ .symbolAddr symbol, .iconst distance, .ptrAdd base (.inst (n + 1)),
    .store (.inst n) (.inst (n + 2)) 8 none ]

theorem execLine_headerWord (distance : Nat) {base : Value} {B : Nat} {symbol : SymbolId}
    {name : String} (hname : x.symbols.names[symbol]? = some name) (hbelow : base.Below n)
    (hbase : s.env base = some (B : Int)) (hdistance : distance ≤ 16) :
    ∃ es t, execLine x n (headerWord n base symbol distance) s = some (es, t) ∧
      t.stack = s.stack ∧ WritesOnly (InRange B 24) s es t := by
  have hne : ∀ k : Nat, base ≠ .inst (n + k) := by
    rintro k rfl
    exact absurd hbelow (Nat.not_lt.mpr (Nat.le_add_right n k))
  obtain ⟨es, t, hline, hstack, hmemory, hevents⟩ : ∃ es t,
      execLine x n (headerWord n base symbol distance) s = some (es, t) ∧ t.stack = s.stack ∧
      t.memory = s.memory.write (toAddress ((B + distance : Int) % addressSpace))
        (bytesOf 8 (x.machine.address name)) ∧
      ∀ e ∈ es, e.memory = s.memory ∨ e.memory = t.memory := by
    have htwo : n ≠ n + 1 + 1 := (Nat.lt_add_of_pos_right (Nat.succ_pos 1)).ne
    simp [headerWord, execLine, Op.exec, Op.keeps, Op.addedTy, Op.resultTy?, Env.set, hbase,
      show base ≠ .inst n from hne 0, hne 1, htwo, Activation.symbol, hname, Memory.writeInt]
  refine ⟨es, t, hline, hstack, .of_write hmemory hevents fun k hk => ?_⟩
  rw [length_bytesOf] at hk
  refine ⟨distance + k, by omega, ?_⟩
  rw [toAddress_congr (Int.emod_emod_of_dvd _ (dvd_refl _)), ← Nat.cast_add,
    toAddress_natCast_mod, Nat.mod_add_mod, Nat.add_assoc]

theorem execLine_prologueCode (mapping : ShadowMapping) {size align B : Nat}
    {description function : SymbolId} {name name' : String}
    (hdescription : x.symbols.names[description]? = some name)
    (hfunction : x.symbols.names[function]? = some name') (hB : carve s.stack size align = B) :
    ∃ es t, execLine x n (prologueCode mapping n size align description function) s =
        some (es, t) ∧ t.stack = B ∧ t.env (.inst n) = some (B : Int) ∧
      t.env (.inst (n + 15)) =
        some ((toAddress B : Int) / 2 ^ mapping.scale + signed64 mapping.offset) ∧
      WritesOnly (InRange B 24) s es t := by
  have hbase : ∀ k : Nat, Value.Below (n + (k + 1)) (.inst n) :=
    fun k => Nat.lt_add_of_pos_right (Nat.succ_pos k)
  -- the frame itself, and the magic number
  obtain ⟨es₁, s₁, hline₁, hstack₁, henv₁, hmemory₁, hevents₁⟩ : ∃ es t,
      execLine x n [.stackSlot size align, .iconst frameMagic,
        .store (.inst (n + 1)) (.inst n) 8 none] s = some (es, t) ∧ t.stack = B ∧
      t.env (.inst n) = some (B : Int) ∧
      t.memory = s.memory.write (toAddress B) (bytesOf 8 frameMagic) ∧
      ∀ e ∈ es, e.memory = s.memory ∨ e.memory = t.memory := by
    have htwo : n ≠ n + 1 + 1 := (Nat.lt_add_of_pos_right (Nat.succ_pos 1)).ne
    simp [execLine, Op.exec, Op.keeps, Op.addedTy, Op.resultTy?, Env.set, hB, htwo, Memory.writeInt]
  have hwrites₁ : WritesOnly (InRange B 24) s es₁ s₁ := by
    refine .of_write hmemory₁ hevents₁ fun k hk => ?_
    rw [length_bytesOf] at hk
    exact ⟨k, by omega, by rw [toAddress_natCast_mod, Nat.mod_add_mod]⟩
  -- the other two words
  obtain ⟨es₂, s₂, hline₂, hstack₂, hwrites₂⟩ := execLine_headerWord 8 (n := n + 3)
    hdescription (hbase 2) henv₁ (by decide)
  have henv₂ := (execLine_env hline₂ (hbase 2)).trans henv₁
  obtain ⟨es₃, s₃, hline₃, hstack₃, hwrites₃⟩ := execLine_headerWord 16 (n := n + 7)
    hfunction (hbase 6) henv₂ (by decide)
  have henv₃ := (execLine_env hline₃ (hbase 6)).trans henv₂
  -- where the frame's shadow is
  obtain ⟨es₄, s₄, hline₄, hstack₄, hvalue₄, hmemory₄, hevents₄⟩ : ∃ es t,
      execLine x (n + 11) (.ptrToAddr (.inst n) :: shadowAddrCode mapping (n + 12) (.inst (n + 11)))
        s₃ = some (es, t) ∧ t.stack = s₃.stack ∧
      t.env (.inst (n + 15)) =
        some ((toAddress B : Int) / 2 ^ mapping.scale + signed64 mapping.offset) ∧
      t.memory = s₃.memory ∧ ∀ e ∈ es, e.memory = s₃.memory := by
    simp [shadowAddrCode, execLine, Op.exec, Op.keeps, Op.addedTy, Op.resultTy?, Env.set, henv₃,
      Arith.eval]
  have henv₄ := (execLine_env hline₄ (hbase 10)).trans henv₃
  have hwrites₄ : WritesOnly (InRange B 24) s₃ es₄ s₄ :=
    fun a _ => ⟨by rw [hmemory₄], fun e he => by rw [hevents₄ e he]⟩
  refine ⟨es₁ ++ (es₂ ++ (es₃ ++ es₄)), s₄, ?_, ?_, henv₄, hvalue₄,
    hwrites₁.trans (hwrites₂.trans (hwrites₃.trans hwrites₄))⟩
  · rw [show prologueCode mapping n size align description function =
      [.stackSlot size align, .iconst frameMagic, .store (.inst (n + 1)) (.inst n) 8 none] ++
        (headerWord (n + 3) (.inst n) description 8 ++ (headerWord (n + 7) (.inst n) function 16 ++
          (.ptrToAddr (.inst n) :: shadowAddrCode mapping (n + 12) (.inst (n + 11))))) from rfl]
    exact execLine_append hline₁ (execLine_append hline₂ (execLine_append hline₃ hline₄))
  · rw [hstack₄, hstack₃, hstack₂, hstack₁]

end

/-! ### Painting granules -/

/-- Where the shadow byte of granule `k` of a frame at `B` is. -/
def ShadowMapping.granule (mapping : ShadowMapping) (B k : Nat) : Nat :=
  (mapping.shadowAddr B + k) % addressSpace

section

variable {mapping : ShadowMapping} {B : Nat}

theorem granule_inj {j k : Nat} (hj : j < addressSpace) (hk : k < addressSpace)
    (h : mapping.granule B j = mapping.granule B k) : j = k := by
  unfold ShadowMapping.granule addressSpace at *
  omega

theorem toAddress_eq_granule {v : Int} (hv : toAddress v = mapping.shadowAddr B) (k : Nat) :
    toAddress (v + k) = mapping.granule B k := by
  have hadd := toAddress_add v 0 k
  rw [Nat.cast_zero, Int.add_zero, hv, Nat.zero_add] at hadd
  exact hadd.symm

/-- The granules from `first` to `last` have got the given bytes, those that are masked out perhaps
not.  All else is as it was. -/
structure Repaints (mapping : ShadowMapping) (B : Nat) (mask bytes : List UInt8) (first last : Nat)
    (before after : Memory) : Prop where
  inside : ∀ k byte, first ≤ k → k < last → bytes[k]? = some byte →
    after (mapping.granule B k) = byte ∨
      mask[k]? = some 0 ∧ after (mapping.granule B k) = before (mapping.granule B k)
  outside : ∀ a, (∀ k, first ≤ k → k < last → a ≠ mapping.granule B k) → after a = before a

/-- A granule that is not painted is as it was. -/
theorem Repaints.unchanged {mask bytes : List UInt8} {first last k : Nat} {before after : Memory}
    (h : Repaints mapping B mask bytes first last before after)
    (hlast : first < last → last ≤ addressSpace) (hk : k < addressSpace)
    (hrange : ¬ (first ≤ k ∧ k < last)) :
    after (mapping.granule B k) = before (mapping.granule B k) := by
  refine h.outside _ fun j hfirst hj heq => hrange ?_
  obtain rfl := granule_inj hk (hj.trans_le (hlast (hfirst.trans_lt hj))) heq
  exact ⟨hfirst, hj⟩

theorem execLine_plan {x : Activation} {n : InstId} {s : State} {maxInline first last : Nat}
    {mask bytes : List UInt8} {writes : List ShadowWrite} {ops : List Op} {base : Value} {v : Int}
    (hfills : ShadowWrite.FillsShadow x.machine)
    (hplan : ShadowWrite.plan maxInline mask bytes first last = .ok writes)
    (hcoded : WritesCoded x.symbols base n writes ops) (hbelow : base.Below n)
    (hbase : s.env base = some v) (hv : toAddress v = mapping.shadowAddr B)
    (hmask : mask.length ≤ addressSpace) :
    ∃ es t, execLine x n ops s = some (es, t) ∧ t.stack = s.stack ∧
      Repaints mapping B mask bytes first last s.memory t.memory ∧
      WritesOnly (InRange (mapping.shadowAddr B) mask.length) s es t := by
  have hplans := ShadowWrite.plans_of_plan hplan
  obtain ⟨es, t, hline, hmemory, hstack, hevents⟩ :=
    ShadowWrite.execLine_writesCoded hfills hcoded hplans.codable hbelow hbase
  refine ⟨es, t, hline, hstack, ⟨fun k byte hfirst hlast hbyte => ?_, fun a ha => ?_⟩,
    fun a ha => ?_⟩
  · rw [hmemory, ← toAddress_eq_granule hv]
    have hlength := (ShadowWrite.length_of_plan hplan).2 (hfirst.trans_lt hlast)
    exact hplans.apply (hlength.trans hmask) hfirst hlast hbyte
  · rw [hmemory]
    refine hplans.apply_of_ne fun k hfirst hlast => ?_
    rw [toAddress_eq_granule hv]
    exact ha k hfirst hlast
  · -- at no moment has any write gone beyond the range
    have hnever : ∀ finished, finished <+: writes →
        ShadowWrite.runAll v s.memory finished a = s.memory a := by
      intro finished hdone
      apply ShadowWrite.runAll_of_ne
      rintro write hwrite k byte hbyte rfl
      obtain ⟨hfirst, hlast, -⟩ := hplans.within write (hdone.subset hwrite) k byte hbyte
      rw [toAddress_eq_granule hv] at ha
      exact ha ⟨k, hlast.trans_le ((ShadowWrite.length_of_plan hplan).2 (hfirst.trans_lt hlast)),
        rfl⟩
    refine ⟨by rw [hmemory, hnever _ (List.prefix_refl _)], fun e he => ?_⟩
    obtain ⟨finished, hdone, hmem⟩ := hevents e he
    rw [hmem, hnever _ hdone]

end

/-! ### What a frame's shadow holds -/

namespace FrameCode

variable {code : FrameCode} {mapping : ShadowMapping} {B : Nat} {memory memory' : Memory}

/-- The shadows of a frame come from its layout. -/
structure Sound (code : FrameCode) : Prop where
  granularity : 0 < code.frame.granularity
  inScope : code.inScope = code.frame.shadow
  atEntry : code.frame.entryShadow = .ok code.atEntry
  lifetime : ∀ var ∈ code.frame.vars, var.lifetime ≤ var.size
  fits : code.atEntry.length ≤ addressSpace

theorem Sound.length_inScope (h : code.Sound) : code.inScope.length = code.atEntry.length := by
  rw [h.inScope, (Frame.entryShadow_eq_ok h.atEntry).1]

/-- What is clean at function entry is clean with all variables in scope. -/
theorem Sound.inScope_of_clean (h : code.Sound) {k : Nat} (hk : code.atEntry[k]? = some 0) :
    code.inScope[k]? = some 0 := by
  rw [h.inScope]
  rcases (Frame.entryShadow_eq_ok h.atEntry).2 k 0 hk with hshadow | ⟨hscope, -⟩
  · exact hshadow
  · exact absurd hscope (by decide)

/-- Redzones are the same at function entry and with all variables in scope. -/
theorem Sound.redzone (h : code.Sound) {k : Nat} {entry live : UInt8}
    (hentry : code.atEntry[k]? = some entry) (hlive : code.inScope[k]? = some live)
    (hk : ¬ code.frame.InVariable k) : entry = live ∧ live ∈ Frame.redzones := by
  rw [h.inScope] at hlive
  refine ⟨?_, (Frame.shadow_cases h.granularity hlive).resolve_right hk⟩
  rcases (Frame.entryShadow_eq_ok h.atEntry).2 k entry hentry with hshadow |
    ⟨-, var, hvar, hreaches⟩
  · exact Option.some.inj (hshadow.symm.trans hlive)
  · refine absurd ⟨var, hvar, hreaches.1, hreaches.2.trans_le ?_⟩ hk
    exact Nat.add_le_add_left (Nat.div_le_div_right
      (Nat.sub_le_sub_right (Nat.add_le_add_right (h.lifetime var hvar) _) _)) _

/-- Every granule is as it was at function entry, or as it is with all variables in scope. -/
def Balanced (code : FrameCode) (mapping : ShadowMapping) (B : Nat) (memory : Memory) : Prop :=
  ∀ k entry live, code.atEntry[k]? = some entry → code.inScope[k]? = some live →
    memory (mapping.granule B k) = entry ∨ memory (mapping.granule B k) = live

/-- Every granule is clean. -/
def Clean (code : FrameCode) (mapping : ShadowMapping) (B : Nat) (memory : Memory) : Prop :=
  ∀ k < code.atEntry.length, memory (mapping.granule B k) = 0

/-- Every granule is as it is at function entry. -/
def AtEntry (code : FrameCode) (mapping : ShadowMapping) (B : Nat) (memory : Memory) : Prop :=
  ∀ k entry, code.atEntry[k]? = some entry → memory (mapping.granule B k) = entry

theorem AtEntry.balanced (h : code.AtEntry mapping B memory) : code.Balanced mapping B memory :=
  fun k entry _ hentry _ => .inl (h k entry hentry)

theorem Clean.repaint (h : code.Clean mapping B memory)
    (hpaint : Repaints mapping B code.atEntry code.atEntry 0 code.atEntry.length memory memory') :
    code.AtEntry mapping B memory' := by
  intro k entry hentry
  have hk := (List.getElem?_eq_some_iff.mp hentry).1
  rcases hpaint.inside k entry (Nat.zero_le k) hk hentry with hnew | ⟨hmask, hold⟩
  · exact hnew
  · rw [hold, h k hk]
    exact Option.some.inj (hmask.symm.trans hentry)

theorem Balanced.repaint (h : code.Balanced mapping B memory) (hsound : code.Sound)
    {bytes : List UInt8} {first last : Nat} (hbytes : bytes = code.atEntry ∨ bytes = code.inScope)
    (hlast : first < last → last ≤ code.atEntry.length)
    (hpaint : Repaints mapping B code.atEntry bytes first last memory memory') :
    code.Balanced mapping B memory' := by
  intro k entry live hentry hlive
  have hk := (List.getElem?_eq_some_iff.mp hentry).1.trans_le hsound.fits
  by_cases hrange : first ≤ k ∧ k < last
  · have hbyte : bytes[k]? = some entry ∨ bytes[k]? = some live := by
      rcases hbytes with rfl | rfl
      · exact .inl hentry
      · exact .inr hlive
    rcases hbyte with hbyte | hbyte
    · rcases hpaint.inside k entry hrange.1 hrange.2 hbyte with hnew | ⟨-, hold⟩
      · exact .inl hnew
      · rw [hold]
        exact h k entry live hentry hlive
    · rcases hpaint.inside k live hrange.1 hrange.2 hbyte with hnew | ⟨-, hold⟩
      · exact .inr hnew
      · rw [hold]
        exact h k entry live hentry hlive
  · rw [hpaint.unchanged (fun hlt => (hlast hlt).trans hsound.fits) hk hrange]
    exact h k entry live hentry hlive

/-- What was masked out of the clearing is clean already. -/
theorem Balanced.clear (h : code.Balanced mapping B memory) (hsound : code.Sound)
    (hpaint : Repaints mapping B code.atEntry (List.replicate code.atEntry.length 0) 0
      code.atEntry.length memory memory') : code.Clean mapping B memory' := by
  intro k hk
  rcases hpaint.inside k 0 (Nat.zero_le k) hk (by simp [hk]) with hnew | ⟨hmask, hold⟩
  · exact hnew
  · rw [hold]
    rcases h k 0 0 hmask (hsound.inScope_of_clean hmask) with hzero | hzero
    · exact hzero
    · exact hzero

/-! ### Pieces of code, executed -/

section

variable {x : Activation} {n : InstId} {ops : List Op} {s t : State}

/-- The frame is at `B`. -/
structure At (code : FrameCode) (mapping : ShadowMapping) (B : Nat) (s : State) : Prop where
  base : s.env code.base = some (B : Int)
  shadowBase : ∃ v, s.env code.shadowBase = some v ∧ toAddress v = mapping.shadowAddr B

theorem At.execLine {es : List Event} (h : code.At mapping B s)
    (hbelow : code.base.Below n ∧ code.shadowBase.Below n)
    (hline : execLine x n ops s = some (es, t)) : code.At mapping B t := by
  obtain ⟨v, hv, haddr⟩ := h.shadowBase
  exact ⟨(execLine_env hline hbelow.1).trans h.base, v, (execLine_env hline hbelow.2).trans hv,
    haddr⟩

/-- An address in the shadow of the frame. -/
def InShadow (code : FrameCode) (mapping : ShadowMapping) (B a : Nat) : Prop :=
  InRange (mapping.shadowAddr B) code.atEntry.length a

/-- The header of the frame is not in the frame's own shadow. -/
def HeaderApart (code : FrameCode) (mapping : ShadowMapping) (B : Nat) : Prop :=
  ∀ a, InRange B 24 a → ¬ code.InShadow mapping B a

theorem headerApart_of_below (hshadow : mapping.shadowAddr B + code.atEntry.length ≤ B)
    (hB : B + 24 ≤ addressSpace) : code.HeaderApart mapping B := by
  rintro a ⟨j, hj, rfl⟩ ⟨k, hk, heq⟩
  rw [Nat.mod_eq_of_lt (by omega), Nat.mod_eq_of_lt (by omega)] at heq
  omega

theorem inShadow_granule {k : Nat} (hk : k < code.atEntry.length) :
    code.InShadow mapping B (mapping.granule B k) := ⟨k, hk, rfl⟩

/-- The prologue makes the frame and gives it the shadow that it has at function entry. -/
theorem IsPrologue.poisons (h : code.IsPrologue mapping x.symbols n ops) (hsound : code.Sound)
    (hfills : ShadowWrite.FillsShadow x.machine)
    (hB : carve s.stack code.frame.size code.frame.align = B)
    (hapart : code.HeaderApart mapping B) (hclean : code.Clean mapping B s.memory) :
    ∃ es t, Redzone.execLine x n ops s = some (es, t) ∧ code.At mapping B t ∧
      code.AtEntry mapping B t.memory ∧
      WritesOnly (fun a => InRange B 24 a ∨ code.InShadow mapping B a) s es t := by
  obtain ⟨description, function, name, name', writes, poison, hname, hname', hplan, hcoded, rfl⟩ :=
    h.parts
  obtain ⟨es, u, hline, hstack, hbase, hshadow, hwrites⟩ :=
    execLine_prologueCode mapping (n := n) hname hname' hB
  have hlt : B < addressSpace := hB ▸ carve_lt s.stack code.frame.size code.frame.align
  rw [toAddress_natCast hlt] at hshadow
  have hhere : code.At mapping B u := by
    refine ⟨by rw [h.base, hbase], _, by rw [h.shadowBase, hshadow], ?_⟩
    exact mapping.toAddress_shadow B
  have hbelow : code.base.Below (n + 16) ∧ code.shadowBase.Below (n + 16) := by
    rw [h.base, h.shadowBase]
    exact ⟨Nat.lt_add_of_pos_right (Nat.succ_pos 15), Nat.lt_succ_self (n + 15)⟩
  -- the header leaves the frame's shadow clean
  have hclean' : code.Clean mapping B u.memory := by
    intro k hk
    rw [(hwrites _ fun hheader => hapart _ hheader (inShadow_granule hk)).1]
    exact hclean k hk
  obtain ⟨v, hv, haddr⟩ := hhere.shadowBase
  obtain ⟨es', t, hline', -, hpaint, hwrites'⟩ :=
    execLine_plan hfills hplan hcoded hbelow.2 hv haddr hsound.fits
  exact ⟨es ++ es', t, execLine_append hline hline', hhere.execLine hbelow hline',
    hclean'.repaint hpaint, (hwrites.mono fun _ => .inl).trans (hwrites'.mono fun _ => .inr)⟩

theorem IsPrologue.executes (h : code.IsPrologue mapping x.symbols n ops) (hsound : code.Sound)
    (hfills : ShadowWrite.FillsShadow x.machine)
    (hB : carve s.stack code.frame.size code.frame.align = B)
    (hapart : code.HeaderApart mapping B) (hclean : code.Clean mapping B s.memory) :
    ∃ es t, Redzone.execLine x n ops s = some (es, t) ∧ code.At mapping B t ∧
      code.Balanced mapping B t.memory ∧
      WritesOnly (fun a => InRange B 24 a ∨ code.InShadow mapping B a) s es t := by
  obtain ⟨es, t, hline, hhere, hentry, hwrites⟩ := h.poisons hsound hfills hB hapart hclean
  exact ⟨es, t, hline, hhere, hentry.balanced, hwrites⟩

/-- The shadow that a variable is given where it enters or leaves its scope. -/
def edgeShadow (code : FrameCode) : ScopeEdge → List UInt8
  | .leave => code.atEntry
  | .enter => code.inScope

/-- The code of a marker paints the granules of its variable that it marks. -/
theorem IsMarker.repaints {marker : Marker} (h : code.IsMarker x.symbols marker n ops)
    (hsound : code.Sound) (hfills : ShadowWrite.FillsShadow x.machine)
    (hhere : code.At mapping B s) :
    ∃ var first last, code.frame.vars.find? (fun var => var.index = marker.slot) = some var ∧
      markedGranules code.frame.granularity var marker = .ok (some (first, last)) ∧
      (first < last → last ≤ code.atEntry.length) ∧
      ∃ es t, Redzone.execLine x n ops s = some (es, t) ∧ code.At mapping B t ∧
        Repaints mapping B code.atEntry (code.edgeShadow marker.edge) first last s.memory t.memory ∧
        WritesOnly (code.InShadow mapping B) s es t := by
  obtain ⟨writes, ⟨var, first, last, hvar, hgranules, hplan⟩, hcoded⟩ := h.parts
  obtain ⟨v, hv, haddr⟩ := hhere.shadowBase
  obtain ⟨es, t, hline, -, hpaint, hwrites⟩ :=
    execLine_plan hfills hplan hcoded h.below.2 hv haddr hsound.fits
  refine ⟨var, first, last, hvar, hgranules, (ShadowWrite.length_of_plan hplan).2, es, t, hline,
    hhere.execLine h.below hline, ?_, hwrites⟩
  cases hedge : marker.edge with
  | leave => simpa only [hedge, edgeShadow] using hpaint
  | enter => simpa only [hedge, edgeShadow] using hpaint

theorem IsMarker.executes {marker : Marker} (h : code.IsMarker x.symbols marker n ops)
    (hsound : code.Sound) (hfills : ShadowWrite.FillsShadow x.machine)
    (hhere : code.At mapping B s) (hbalanced : code.Balanced mapping B s.memory) :
    ∃ es t, Redzone.execLine x n ops s = some (es, t) ∧ code.At mapping B t ∧
      code.Balanced mapping B t.memory ∧ WritesOnly (code.InShadow mapping B) s es t := by
  obtain ⟨var, first, last, -, -, hlast, es, t, hline, hhere', hpaint, hwrites⟩ :=
    h.repaints hsound hfills hhere
  refine ⟨es, t, hline, hhere', hbalanced.repaint hsound ?_ hlast hpaint, hwrites⟩
  cases marker.edge with
  | leave => exact .inl rfl
  | enter => exact .inr rfl

theorem IsExit.executes (h : code.IsExit x.symbols n ops) (hsound : code.Sound)
    (hfills : ShadowWrite.FillsShadow x.machine) (hapart : code.HeaderApart mapping B)
    (hhere : code.At mapping B s) (hbalanced : code.Balanced mapping B s.memory) :
    ∃ es t, Redzone.execLine x n ops s = some (es, t) ∧ code.Clean mapping B t.memory ∧
      t.memory.readInt B 8 = retiredFrameMagic ∧
      WritesOnly (fun a => InRange B 8 a ∨ code.InShadow mapping B a) s es t := by
  obtain ⟨writes, clearing, hplan, hcoded, rfl⟩ := h.parts
  -- the magic number
  have hne : code.base ≠ .inst n := by
    intro heq
    have hbelow := h.below.1
    rw [heq] at hbelow
    exact lt_irrefl n hbelow
  obtain ⟨es, u, hline, hmemory, hevents⟩ : ∃ es u,
      Redzone.execLine x n (code.retireOps n) s = some (es, u) ∧
      u.memory = s.memory.write (toAddress B) (bytesOf 8 retiredFrameMagic) ∧
      ∀ e ∈ es, e.memory = s.memory ∨ e.memory = u.memory := by
    simp [retireOps, Redzone.execLine, Op.exec, Op.keeps, Op.addedTy, Op.resultTy?, Env.set, hne,
      hhere.base, Memory.writeInt]
  have hheader : ∀ k < 8, InRange B 8 ((toAddress B + k) % addressSpace) := by
    intro k hk
    exact ⟨k, hk, by rw [toAddress_natCast_mod, Nat.mod_add_mod]⟩
  have hwrites : WritesOnly (InRange B 8) s es u :=
    .of_write hmemory hevents fun k hk => hheader k (by rwa [length_bytesOf] at hk)
  have hapart' : ∀ a, InRange B 8 a → ¬ code.InShadow mapping B a := by
    rintro a ⟨j, hj, rfl⟩
    exact hapart _ ⟨j, hj.trans (by decide), rfl⟩
  have hbalanced' : code.Balanced mapping B u.memory := by
    intro k entry live hentry hlive
    have hk := (List.getElem?_eq_some_iff.mp hentry).1
    rw [(hwrites _ fun hrange => hapart' _ hrange (inShadow_granule hk)).1]
    exact hbalanced k entry live hentry hlive
  -- the shadow
  have hbelow : code.base.Below (n + 2) ∧ code.shadowBase.Below (n + 2) :=
    ⟨h.below.1.mono (Nat.le_add_right n 2), h.below.2.mono (Nat.le_add_right n 2)⟩
  obtain ⟨v, hv, haddr⟩ := (hhere.execLine h.below hline).shadowBase
  obtain ⟨es', t, hline', -, hpaint, hwrites'⟩ :=
    execLine_plan hfills hplan hcoded hbelow.2 hv haddr hsound.fits
  refine ⟨es ++ es', t, execLine_append hline hline', hbalanced'.clear hsound hpaint, ?_,
    (hwrites.mono fun _ => .inl).trans (hwrites'.mono fun _ => .inr)⟩
  have hread : t.memory.read B 8 = bytesOf 8 retiredFrameMagic := by
    rw [← length_bytesOf 8 (retiredFrameMagic : Int)]
    refine Memory.read_eq_of_apply fun k hk => ?_
    rw [length_bytesOf] at hk
    have hk' := hheader k hk
    rw [toAddress_natCast_mod, Nat.mod_add_mod] at hk'
    rw [(hwrites' _ (hapart' _ hk')).1, hmemory, ← Nat.mod_add_mod, ← toAddress_natCast_mod]
    exact Memory.write_apply_of_lt (by rw [length_bytesOf]; decide) (by rwa [length_bytesOf])
  rw [Memory.readInt, hread]
  decide

end

end FrameCode

end Redzone
