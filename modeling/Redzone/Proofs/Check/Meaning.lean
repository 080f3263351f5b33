import Redzone.Proofs.Check.Code

/-!
# What a check does

The probe of a check loads the shadow at `shadowAddr`, and the slow path compares the last byte of
the access with the shadow byte.  Together they decide whether a check `reports`; for one shadow
byte that is `checkPoisoned` (`reports_eq_checkPoisoned`).

The code of a check leads to the report if the check reports, and else to the code behind the check
(`Check.Stands.passes`).  Behind the report control goes on if it is to (`passes_report`), stops
(`stops_report`) or has left with the report already (`ends_report`).
-/

namespace Redzone

/-- The calls among some events. -/
def callsOf (es : List Event) : List Call := es.filterMap Event.call

/-- The ranges of memory that some events accessed. -/
def accessesOf (es : List Event) : List (Nat × Nat) := es.filterMap Event.access

@[simp] theorem callsOf_nil : callsOf [] = [] := rfl

@[simp] theorem accessesOf_nil : accessesOf [] = [] := rfl

@[simp] theorem callsOf_cons (e : Event) (es : List Event) :
    callsOf (e :: es) = e.call.toList ++ callsOf es := by
  cases hcall : e.call <;> simp [callsOf, hcall]

@[simp] theorem accessesOf_cons (e : Event) (es : List Event) :
    accessesOf (e :: es) = e.access.toList ++ accessesOf es := by
  cases haccess : e.access <;> simp [accessesOf, haccess]

theorem exists_of_mem_callsOf {es : List Event} {c : Call} (h : c ∈ callsOf es) :
    ∃ e ∈ es, e.call = some c :=
  List.mem_filterMap.mp h

@[simp] theorem callsOf_append (es es' : List Event) :
    callsOf (es ++ es') = callsOf es ++ callsOf es' :=
  List.filterMap_append

@[simp] theorem accessesOf_append (es es' : List Event) :
    accessesOf (es ++ es') = accessesOf es ++ accessesOf es' :=
  List.filterMap_append

/-! ### What the code computes -/

namespace ShadowMapping

/-- Whether a check of `size` bytes at `addr` reports. -/
def reports (mapping : ShadowMapping) (memory : Memory) (addr size : Nat) : Bool :=
  (memory.read (mapping.shadowAddr addr) (mapping.loadWidth size)).any suspicious &&
    (!mapping.needsSlowPath size ||
      signed8 (memory (mapping.shadowAddr addr)) ≤ (addr % mapping.granularity + (size - 1) : Nat))

/-- The shift, the addition of an offset that may count as negative, and the cut to an address find
the shadow. -/
theorem toAddress_shadow (mapping : ShadowMapping) (a : Nat) :
    toAddress ((a : Int) / 2 ^ mapping.scale + signed64 mapping.offset) = mapping.shadowAddr a := by
  have hdiv : ((a : Int) / 2 ^ mapping.scale) = ((a / mapping.granularity : Nat) : Int) := by
    simp [granularity, Nat.shiftLeft_eq]
  have hmod : ((a : Int) / 2 ^ mapping.scale + signed64 mapping.offset) % addressSpace =
      ((a / mapping.granularity + mapping.offset : Nat) : Int) % addressSpace := by
    rw [hdiv, Int.add_emod, signed64_emod, ← Int.add_emod, Int.natCast_add]
  rw [toAddress_congr hmod, toAddress_natCast_mod, shadowAddr]

theorem shadowAddr_lt (mapping : ShadowMapping) (a : Nat) :
    mapping.shadowAddr a < addressSpace :=
  Nat.mod_lt _ addressSpace_pos

@[simp] theorem toAddress_shadowAddr (mapping : ShadowMapping) (a : Nat) :
    toAddress (mapping.shadowAddr a : Nat) = mapping.shadowAddr a :=
  toAddress_natCast (mapping.shadowAddr_lt a)

/-- The mask of the slow path is the distance from the start of the granule. -/
theorem land_granularity (mapping : ShadowMapping) (a : Nat) :
    (a : Int).land (mapping.granularity - 1 : Nat) = (a % mapping.granularity : Nat) := by
  have h : a &&& (mapping.granularity - 1) = a % mapping.granularity := by
    rw [granularity, Nat.one_shiftLeft, Nat.and_two_pow_sub_one_eq_mod]
  rw [← h]
  rfl

theorem extendInt_byte (byte : UInt8) : extendInt true 8 byte.toNat = signed8 byte := by
  unfold extendInt signed8
  rw [if_pos rfl]
  rfl

theorem readInt_eq_zero_iff (memory : Memory) (addr count : Nat) :
    memory.readInt addr count = 0 ↔ (memory.read addr count).any suspicious = false := by
  rw [Memory.readInt, Int.natCast_eq_zero, littleEndian_eq_zero_iff]
  simp [suspicious]

theorem loadWidth_of_needsSlowPath {mapping : ShadowMapping} {size : Nat}
    (h : mapping.needsSlowPath size = true) : mapping.loadWidth size = 1 := by
  have hlt : size < mapping.granularity := by simpa [needsSlowPath] using h
  rw [loadWidth, Nat.div_eq_of_lt hlt]
  rfl

theorem readInt_shadow_one (mapping : ShadowMapping) (memory : Memory) (a : Nat) :
    memory.readInt (mapping.shadowAddr a) 1 = (memory (mapping.shadowAddr a)).toNat := by
  simp [Memory.readInt, Memory.read, Nat.mod_eq_of_lt (mapping.shadowAddr_lt a)]

theorem granularity_pos (mapping : ShadowMapping) : 0 < mapping.granularity := by
  rw [granularity, Nat.one_shiftLeft]
  exact Nat.two_pow_pos _

theorem granularity_le {mapping : ShadowMapping} (hscale : mapping.scale ≤ maxScale) :
    mapping.granularity ≤ 64 := by
  rw [granularity, Nat.one_shiftLeft]
  exact Nat.pow_le_pow_right (show 0 < 2 by decide) hscale

theorem le_granularity {mapping : ShadowMapping} (hscale : minScale ≤ mapping.scale) :
    8 ≤ mapping.granularity := by
  rw [granularity, Nat.one_shiftLeft]
  exact Nat.pow_le_pow_right (show 0 < 2 by decide) hscale

/-- Where one shadow byte is loaded, a check reports what the shadow byte calls poisoned. -/
theorem reports_eq_checkPoisoned {mapping : ShadowMapping} {size : Nat}
    (hscale : mapping.scale ≤ maxScale) (hsize : 0 < size) (hwidth : mapping.loadWidth size = 1)
    (memory : Memory) (a : Nat) :
    mapping.reports memory a size =
      mapping.checkPoisoned a size (memory (mapping.shadowAddr a)) := by
  have hread : (memory.read (mapping.shadowAddr a) 1).any suspicious =
      suspicious (memory (mapping.shadowAddr a)) := by
    simp [Memory.read, Nat.mod_eq_of_lt (mapping.shadowAddr_lt a)]
  have hgranularity := granularity_le hscale
  rw [reports, checkPoisoned, hwidth, hread]
  cases hslow : mapping.needsSlowPath size with
  | false => simp
  | true =>
      have hlt : size < mapping.granularity := by simpa [needsSlowPath] using hslow
      have hmod := Nat.mod_lt a mapping.granularity_pos
      have hsigned : signed64 (a % mapping.granularity + size - 1) =
          (a % mapping.granularity + (size - 1) : Nat) := by
        rw [← Nat.add_sub_assoc hsize, signed64]
        apply Int.bmod_eq_of_le
        all_goals
          unfold addressSpace
          omega
      rw [hsigned]

end ShadowMapping

open ShadowMapping

theorem execLine_probeCode (x : Activation) (mapping : ShadowMapping) (size : Nat) {n : InstId}
    {addr : Value} {a : Nat} {s : State} (hbelow : addr.Below n)
    (haddr : s.env addr = some (a : Int)) :
    ∃ es t, execLine x n (probeCode mapping n addr size) s = some (es, t) ∧
      t.memory = s.memory ∧ t.stack = s.stack ∧ callsOf es = [] ∧
      accessesOf es = [(mapping.shadowAddr a, mapping.loadWidth size)] ∧
      t.env (.inst (n + 5)) =
        some (s.memory.readInt (mapping.shadowAddr a) (mapping.loadWidth size)) ∧
      t.env (.inst (n + 7)) = some (truth
        ((s.memory.read (mapping.shadowAddr a) (mapping.loadWidth size)).any suspicious)) := by
  have hne : addr ≠ .inst n := by
    rintro rfl
    exact lt_irrefl n hbelow
  simp [probeCode, shadowAddrCode, execLine, Op.exec, Op.keeps, Op.addedTy, Op.resultTy?, Env.set,
    haddr, hne, Arith.eval, toAddress_shadow, Comparison.eval]
  refine congrArg truth ?_
  rw [Bool.eq_iff_iff]
  simp [readInt_eq_zero_iff]

theorem execLine_slowLine (x : Activation) (mapping : ShadowMapping) (size : Nat) {n : InstId}
    {addr shadow : Value} {a : Nat} {byte : UInt8} {s : State} (hbelow : addr.Below n)
    (haddr : s.env addr = some (a : Int)) (hshadow : shadow.Below n)
    (hbyte : s.env shadow = some (byte.toNat : Int)) :
    ∃ es t, execLine x n (slowLine mapping n addr shadow size) s = some (es, t) ∧
      t.memory = s.memory ∧ t.stack = s.stack ∧ callsOf es = [] ∧ accessesOf es = [] ∧
      t.env (.inst (n + (slowLine mapping n addr shadow size).length - 1)) =
        some (truth (signed8 byte ≤ (a % mapping.granularity + (size - 1) : Nat))) := by
  have hne : addr ≠ .inst n := by
    rintro rfl
    exact lt_irrefl n hbelow
  have hne' : ∀ k, shadow ≠ .inst (n + k) := by
    rintro k rfl
    simp [Value.Below] at hshadow
  have hne₀ : shadow ≠ .inst n := hne' 0
  unfold slowLine
  split
  · simp [execLine, Op.exec, Op.keeps, Op.addedTy, Op.resultTy?, Env.set, haddr, hne, hne', hne₀,
      hbyte, Arith.eval, Comparison.eval, land_granularity, extendInt_byte,
      Nat.add_assoc]
  · have hone : size - 1 = 0 := by omega
    simp [execLine, Op.exec, Op.keeps, Op.addedTy, Op.resultTy?, Env.set, haddr, hne, hne', hne₀,
      hbyte, Arith.eval, Comparison.eval, land_granularity, extendInt_byte,
      Nat.add_assoc, hone]

/-! ### Running a check -/

namespace Check

/-- The code of a check that starts at `n` is in a function, where the blocks from `cont` on are
its: control goes on with `tail` if the check does not object.  The entry is not one of them. -/
structure Stands (c : Check) (g : Func) (n : InstId) (addr : Value) (size : Nat) (cont : BlockId)
    (tail : List InstId) : Prop where
  entry : cont ≠ 0
  code : g.Holds n (c.ops n addr size cont)
  behind : ∃ blk, g.blocks[cont]? = some blk ∧ blk.insts = tail
  report : ∃ blk, g.blocks[cont + 1]? = some blk ∧
    blk.insts = List.range' (c.reportStart n addr size cont) 3
  slow : c.mapping.needsSlowPath size = true → ∃ blk, g.blocks[cont + 2]? = some blk ∧
    blk.insts = List.range' (n + 9) (c.slowPart n addr size cont).length

namespace Stands

variable {c : Check} {g : Func} {n : InstId} {addr : Value} {size a : Nat} {cont : BlockId}
  {tail : List InstId} {x : Activation} {s : State}

theorem holds_probe (h : c.Stands g n addr size cont tail) :
    g.Holds n (probeCode c.mapping n addr size ++ [c.branch n size cont]) := by
  have hcode := h.code
  rw [ops, List.append_cons] at hcode
  exact (Func.holds_append.mp hcode).1

theorem holds_slow (h : c.Stands g n addr size cont tail) :
    g.Holds (n + 9) (c.slowPart n addr size cont) := by
  have hcode := h.code
  rw [ops, List.append_cons] at hcode
  exact (Func.holds_append.mp (Func.holds_append.mp hcode).2).1

theorem holds_report (h : c.Stands g n addr size cont tail) :
    g.Holds (c.reportStart n addr size cont) (c.reportPart n addr size cont) := by
  have hcode := h.code
  rw [ops, List.append_cons] at hcode
  exact (Func.holds_append.mp (Func.holds_append.mp hcode).2).2

/-- The slow path goes to the report or to the code behind the check. -/
theorem passes_slow (h : c.Stands g n addr size cont tail)
    (hslow : c.mapping.needsSlowPath size = true) (hbelow : addr.Below n)
    (haddr : s.env addr = some (a : Int)) {byte : UInt8}
    (hbyte : s.env (.inst (n + 5)) = some (byte.toNat : Int))
    (hrest : s.rest = List.range' (n + 9) (c.slowPart n addr size cont).length) :
    ∃ es t, g.Passes x (n + 9) s es t ∧ t.memory = s.memory ∧ callsOf es = [] ∧
      accessesOf es = [] ∧
      t.rest = if signed8 byte ≤ (a % c.mapping.granularity + (size - 1) : Nat) then
        List.range' (c.reportStart n addr size cont) 3 else tail := by
  have hcode : c.slowPart n addr size cont =
      slowLine c.mapping (n + 9) addr (.inst (n + 5)) size ++ [.brif
        (.inst (n + 9 + (slowLine c.mapping (n + 9) addr (.inst (n + 5)) size).length - 1))
        { block := cont + 1 } { block := cont }] := by
    rw [slowPart, if_pos hslow, slowCode_eq]
  obtain ⟨es, t, hline, hmemory, hstack, hcalls, haccesses, hcond⟩ :=
    execLine_slowLine x c.mapping size (hbelow.mono (Nat.le_add_right n 9)) haddr
      (by simp [Value.Below]) hbyte
  have hholds := h.holds_slow
  rw [hcode] at hholds hrest
  obtain ⟨report, hreport, hreportInsts⟩ := h.report
  obtain ⟨behind, hbehind, hbehindInsts⟩ := h.behind
  refine ⟨_, _, .of_line_branch hholds (by simpa using hrest) hline hstack hcond hreport hbehind,
    hmemory, by simp [hcalls], by simp [haccesses], ?_⟩
  simp only [hreportInsts, hbehindInsts, decide_eq_true_eq]

/-- A check goes to the report if it reports, and else to the code behind it. -/
theorem passes (h : c.Stands g n addr size cont tail) (hbelow : addr.Below n)
    (haddr : s.env addr = some (a : Int)) (hrest : s.rest = List.range' n 9) :
    ∃ es t, g.Passes x n s es t ∧ t.memory = s.memory ∧ callsOf es = [] ∧
      accessesOf es = [(c.mapping.shadowAddr a, c.mapping.loadWidth size)] ∧
      t.rest = if c.mapping.reports s.memory a size then
        List.range' (c.reportStart n addr size cont) 3 else tail := by
  obtain ⟨es, t, hline, hmemory, hstack, hcalls, haccesses, hshadow, hcond⟩ :=
    execLine_probeCode x c.mapping size hbelow haddr
  obtain ⟨behind, hbehind, hbehindInsts⟩ := h.behind
  have hholds := h.holds_probe
  -- without a slow path the probe decides; with one, only whether to look closer
  cases hslow : c.mapping.needsSlowPath size with
  | false =>
      obtain ⟨report, hreport, hreportInsts⟩ := h.report
      rw [branch, hslow] at hholds
      refine ⟨_, _, .of_line_branch hholds hrest hline hstack hcond hreport hbehind, hmemory,
        by simp [hcalls], by simp [haccesses], ?_⟩
      simp [hreportInsts, hbehindInsts, reports, hslow]
  | true =>
      obtain ⟨slow, hslowBlk, hslowInsts⟩ := h.slow hslow
      rw [branch, hslow] at hholds
      have hprobe := Func.Passes.of_line_branch hholds hrest hline hstack hcond hslowBlk hbehind
      cases hany : (s.memory.read (c.mapping.shadowAddr a) (c.mapping.loadWidth size)).any
          suspicious with
      | false =>
          rw [hany] at hprobe
          exact ⟨_, _, hprobe, hmemory, by simp [hcalls], by simp [haccesses], by
            simp [hbehindInsts, reports, hany]⟩
      | true =>
          rw [hany] at hprobe
          rw [loadWidth_of_needsSlowPath hslow, readInt_shadow_one] at hshadow
          obtain ⟨es', t', hpasses, hmemory', hcalls', haccesses', hrest'⟩ :=
            h.passes_slow (x := x) hslow hbelow ((hprobe.env addr hbelow).trans haddr) hshadow
              hslowInsts
          refine ⟨_, _, hprobe.trans hpasses (Nat.le_add_right n 9), hmemory'.trans hmemory,
            by simp [hcalls, hcalls'], by simp [haccesses, haccesses'], ?_⟩
          rw [hrest']
          simp [reports, hany, hslow]

section Report

variable {r : Int} {vs : List Int} {value : Option Int} {memory : Memory} {ending : Ending}
  (h : c.Stands g n addr size cont tail)
  (hrest : s.rest = List.range' (c.reportStart n addr size cont) 3)
  (hroutine : x.symbol c.routine = some r) (hargs : c.args.mapM s.env = some vs)
  (hbelow : ∀ v ∈ c.args, v.Below (c.reportStart n addr size cont))

include hbelow in
theorem mapM_args_set (result : Option Int) :
    c.args.mapM (s.env.set (.inst (c.reportStart n addr size cont)) result) =
      c.args.mapM s.env := by
  refine mapM_option_congr fun v hv => Env.set_of_ne _ _ ?_
  rintro rfl
  exact lt_irrefl _ (hbelow _ hv)

include hroutine hargs hbelow

theorem execLine_report (hcall : x.machine.call r vs s.memory = .returns value memory) :
    ∃ es t, execLine x (c.reportStart n addr size cont)
        [.symbolAddr c.routine, .call (.inst (c.reportStart n addr size cont)) c.args] s =
          some (es, t) ∧
      t.memory = memory ∧ t.stack = s.stack ∧ callsOf es = [⟨r, vs, s.memory⟩] ∧
      accessesOf es = [] := by
  simp [execLine, Op.exec, hroutine, Op.keeps, Op.addedTy, Op.resultTy?,
    mapM_args_set hbelow, hargs, hcall]

include h hrest

/-- After a report the program goes on behind the check. -/
theorem passes_report (hrecover : c.recover = true)
    (hcall : x.machine.call r vs s.memory = .returns value memory) :
    ∃ es t, g.Passes x (c.reportStart n addr size cont) s es t ∧ t.rest = tail ∧
      t.memory = memory ∧ callsOf es = [⟨r, vs, s.memory⟩] ∧ accessesOf es = [] := by
  obtain ⟨es, t, hline, hmemory, hstack, hcalls, haccesses⟩ :=
    execLine_report hroutine hargs hbelow hcall
  obtain ⟨behind, hbehind, hbehindInsts⟩ := h.behind
  have hholds : g.Holds (c.reportStart n addr size cont)
      ([.symbolAddr c.routine, .call (.inst (c.reportStart n addr size cont)) c.args] ++
        [.br { block := cont }]) := by
    simpa [reportPart, reportCode, hrecover] using h.holds_report
  exact ⟨_, _, .of_line_jump hholds hrest hline hstack rfl hbehind, hbehindInsts, hmemory,
    by simp [hcalls], by simp [haccesses]⟩

/-- A report after which nothing is to follow. -/
theorem stops_report (hrecover : c.recover = false)
    (hcall : x.machine.call r vs s.memory = .returns value memory) :
    ∃ es t e, g.Passes x (c.reportStart n addr size cont) s es t ∧
      g.step x t = .last e .unreachable ∧ c.reportStart n addr size cont ≤ e.inst ∧
      e.memory = memory ∧
      callsOf (es ++ [e]) = [⟨r, vs, s.memory⟩] ∧ accessesOf (es ++ [e]) = [] := by
  obtain ⟨es, t, hline, hmemory, hstack, hcalls, haccesses⟩ :=
    execLine_report hroutine hargs hbelow hcall
  have hholds : g.Holds (c.reportStart n addr size cont)
      ([.symbolAddr c.routine, .call (.inst (c.reportStart n addr size cont)) c.args] ++
        [.unreachable]) := by
    simpa [reportPart, reportCode, hrecover] using h.holds_report
  obtain ⟨hops, hop⟩ := Func.holds_append.mp hholds
  obtain ⟨⟨origin, hinst⟩, -⟩ := Func.holds_cons.mp hop
  rw [List.range'_1_concat] at hrest
  obtain ⟨hpasses, hrest'⟩ := Func.Passes.of_execLine hops hrest hline hstack
  exact ⟨es, t, _, hpasses, Func.step_ends hrest' hinst rfl, Nat.le_add_right _ _, hmemory,
    by simp [hcalls], by simp [haccesses]⟩

/-- A report that does not come back. -/
theorem ends_report (hcall : x.machine.call r vs s.memory = .ends ending memory) :
    ∃ es t e, g.Passes x (c.reportStart n addr size cont) s es t ∧
      g.step x t = .last e ending ∧ c.reportStart n addr size cont ≤ e.inst ∧ e.memory = memory ∧
      callsOf (es ++ [e]) = [⟨r, vs, s.memory⟩] ∧ accessesOf (es ++ [e]) = [] := by
  have hholds := h.holds_report
  rw [reportPart, reportCode, ← List.singleton_append] at hholds
  obtain ⟨hops, hop⟩ := Func.holds_append.mp hholds
  obtain ⟨⟨origin, hinst⟩, -⟩ := Func.holds_cons.mp hop
  have hline : execLine x (c.reportStart n addr size cont) [.symbolAddr c.routine] s = some
      ([⟨c.reportStart n addr size cont, some r, s.memory, none, none⟩],
        ⟨s.rest.tail, s.env.set (.inst (c.reportStart n addr size cont)) (some r), s.memory,
          s.stack⟩) := by
    simp [execLine, Op.exec, hroutine, Op.keeps, Op.addedTy, Op.resultTy?]
  obtain ⟨hpasses, hrest'⟩ := Func.Passes.of_execLine hops hrest hline rfl
  have hexec : (Op.call (.inst (c.reportStart n addr size cont)) c.args).exec x
      (s.env.set (.inst (c.reportStart n addr size cont)) (some r)) s.memory s.stack =
        some (.ends ending memory (some ⟨r, vs, s.memory⟩)) :=
    Op.exec_call_ends s.stack (Env.set_self _ _ _) ((mapM_args_set hbelow _).trans hargs) hcall
  exact ⟨_, _, _, hpasses, Func.step_ends hrest' hinst hexec, Nat.le_add_right _ _, rfl, by simp,
    by simp⟩

end Report

end Stands

end Check

end Redzone
