import Redzone.Proofs.Check.Guard
import Redzone.Proofs.Runtime

/-!
# What a guard does, by reference

An access is inspected by one or two tests of shadow bytes.  Where a test objects, a report routine
is called; it may come back or not, and it may change memory.  `inspect` computes what becomes of
that, without any code: which shadow bytes are read, which reports are made, and whether control
gets to the access.  The code of a guard does just this (`InlineGuard.follows`).

`tests` says which tests there are in terms of `checkPoisoned`; those that the code makes are the
`probes`, and they are the same (`tests_eq_probes`).
-/

namespace Redzone

/-! ### Tests -/

/-- A test of shadow bytes: the range that it reads, and whether it objects to what is there. -/
structure ShadowTest where
  addr : Nat
  width : Nat
  objects : Memory → Bool

namespace ShadowMapping

variable (mapping : ShadowMapping)

/-- The test of `size` bytes at `a` that lie in one granule. -/
def granuleTest (a size : Nat) : ShadowTest where
  addr := mapping.shadowAddr a
  width := 1
  objects memory := mapping.checkPoisoned a size (memory (mapping.shadowAddr a))

/-- The test of two granules from `a` on. -/
def pairTest (a : Nat) : ShadowTest where
  addr := mapping.shadowAddr a
  width := 2
  objects memory := memory (mapping.shadowAddr a) ≠ 0 ||
    memory ((mapping.shadowAddr a + 1) % addressSpace) ≠ 0

/-- The tests of `size` bytes at `a`.  Of a size for which there is no routine of its own, the first
and the last byte are tested. -/
def tests (a size : Nat) : List ShadowTest :=
  if EntryPoint.isFixedSize size then
    if size ≤ mapping.granularity then [mapping.granuleTest a size] else [mapping.pairTest a]
  else
    [mapping.granuleTest a 1, mapping.granuleTest (a + (size - 1)) 1]

/-- The test that the code of one check makes. -/
def probe (a size : Nat) : ShadowTest where
  addr := mapping.shadowAddr a
  width := mapping.loadWidth size
  objects memory := mapping.reports memory a size

/-- The tests that the code of a guard makes. -/
def probes (a size : Nat) : List ShadowTest :=
  if EntryPoint.isFixedSize size then [mapping.probe a size]
  else [mapping.probe a 1, mapping.probe (a + (size - 1)) 1]

variable {mapping}

theorem granuleTest_eq_probe {size : Nat} (hmax : mapping.scale ≤ maxScale) (hpos : 0 < size)
    (hsize : size ≤ mapping.granularity) (a : Nat) :
    mapping.granuleTest a size = mapping.probe a size := by
  have hwidth : mapping.loadWidth size = 1 := by
    have hone : size / mapping.granularity ≤ 1 := by
      rw [Nat.div_le_iff_le_mul_add_pred mapping.granularity_pos]
      omega
    rw [loadWidth, Nat.max_eq_right hone]
  unfold granuleTest probe
  rw [hwidth, funext fun memory => reports_eq_checkPoisoned hmax hpos hwidth memory a]

/-- Sixteen bytes in granules of eight are the only case of a size with routines of its own that no
granule holds. -/
theorem eq_of_not_le_granularity {size : Nat} (hmin : minScale ≤ mapping.scale)
    (hfixed : EntryPoint.isFixedSize size = true) (hsize : ¬ size ≤ mapping.granularity) :
    size = 16 ∧ mapping.granularity = 8 := by
  have hgranularity : 8 ≤ mapping.granularity := le_granularity hmin
  have hsizes : size = 1 ∨ size = 2 ∨ size = 4 ∨ size = 8 ∨ size = 16 := by
    simpa [EntryPoint.isFixedSize, or_assoc] using hfixed
  have hpow : mapping.granularity = 2 ^ mapping.scale := Nat.one_shiftLeft _
  have hscale : mapping.scale < 4 := by
    rw [← Nat.pow_lt_pow_iff_right (show 1 < 2 by decide), ← hpow]
    omega
  have hthree : mapping.scale = 3 := by
    unfold minScale at hmin
    omega
  rw [hthree] at hpow
  omega

theorem pairTest_eq_probe {size : Nat} (hmin : minScale ≤ mapping.scale)
    (hfixed : EntryPoint.isFixedSize size = true) (hsize : ¬ size ≤ mapping.granularity)
    (a : Nat) : mapping.pairTest a = mapping.probe a size := by
  obtain ⟨rfl, height⟩ := eq_of_not_le_granularity hmin hfixed hsize
  have hwidth : mapping.loadWidth 16 = 2 := by
    rw [loadWidth, height]
    rfl
  have hslow : mapping.needsSlowPath 16 = false := by simp [needsSlowPath, height]
  unfold pairTest probe
  rw [hwidth]
  congr 1
  funext memory
  simp [reports, hslow, hwidth, Memory.read, suspicious,
    Nat.mod_eq_of_lt (mapping.shadowAddr_lt a)]

theorem tests_eq_probes (hmin : minScale ≤ mapping.scale) (hmax : mapping.scale ≤ maxScale)
    (a size : Nat) : mapping.tests a size = mapping.probes a size := by
  have hgranularity : 8 ≤ mapping.granularity := le_granularity hmin
  unfold tests probes
  split
  · rename_i hfixed
    have hpos : 0 < size := by
      rw [Nat.pos_iff_ne_zero]
      rintro rfl
      cases hfixed
    split
    · rename_i hsize
      rw [granuleTest_eq_probe hmax hpos hsize]
    · rename_i hsize
      rw [pairTest_eq_probe hmin hfixed hsize]
  · rw [granuleTest_eq_probe hmax Nat.one_pos (by omega),
      granuleTest_eq_probe hmax Nat.one_pos (by omega)]

end ShadowMapping

/-! ### Inspections -/

/-- What becomes of the inspection of an access. -/
structure Inspection where
  /-- The shadow bytes that are read, each range with its length. -/
  reads : List (Nat × Nat)
  reports : List Call
  memory : Memory
  /-- How the program has ended, unless control gets to the access. -/
  ending : Option Ending

namespace Inspection

/-- Go on with another inspection if control gets there. -/
def andThen (first : Inspection) (next : Memory → Inspection) : Inspection :=
  match first.ending with
  | some _ => first
  | none =>
      let second := next first.memory
      ⟨first.reads ++ second.reads, first.reports ++ second.reports, second.memory, second.ending⟩

end Inspection

section

variable (machine : Machine) (recover : Bool) (routine : Int) (args : List Int)

/-- Make one test.  Behind a report the program goes on only if it is to recover. -/
def ShadowTest.inspect (test : ShadowTest) (memory : Memory) : Inspection :=
  if test.objects memory then
    match machine.call routine args memory with
    | .returns _ memory' =>
        ⟨[(test.addr, test.width)], [⟨routine, args, memory⟩], memory',
          if recover then none else some .unreachable⟩
    | .ends ending memory' =>
        ⟨[(test.addr, test.width)], [⟨routine, args, memory⟩], memory', some ending⟩
  else
    ⟨[(test.addr, test.width)], [], memory, none⟩

/-- Make some tests, one after the other. -/
def inspect : List ShadowTest → Memory → Inspection
  | [], memory => ⟨[], [], memory, none⟩
  | test :: rest, memory =>
      (test.inspect machine recover routine args memory).andThen (inspect rest)

end

section

variable {machine : Machine} {recover : Bool} {routine : Int} {args : List Int}
  {tests : List ShadowTest} {memory : Memory}

/-- Control gets to the access if there was nothing to report, or if the program is to recover and
every report has come back. -/
theorem inspect_ending_eq_none_iff :
    (inspect machine recover routine args tests memory).ending = none ↔
      (inspect machine recover routine args tests memory).reports = [] ∨ recover = true ∧
        ∀ call ∈ (inspect machine recover routine args tests memory).reports, ∃ value memory',
          machine.call call.callee call.args call.memory = .returns value memory' := by
  induction tests generalizing memory with
  | nil => simp [inspect]
  | cons test rest ih =>
      unfold inspect ShadowTest.inspect
      cases hobjects : test.objects memory with
      | false => simpa [Inspection.andThen] using ih
      | true =>
          cases hcall : machine.call routine args memory with
          | ends ending memory' => simp [Inspection.andThen, hcall]
          | returns value memory' =>
              cases recover with
              | false => simp [Inspection.andThen]
              | true =>
                  have hrest := @ih memory'
                  rw [or_iff_right_of_imp fun hnil => by simp [hnil]] at hrest
                  simpa [Inspection.andThen, hcall] using hrest

theorem inspect_reports :
    ∀ call ∈ (inspect machine recover routine args tests memory).reports,
      call.callee = routine ∧ call.args = args := by
  induction tests generalizing memory with
  | nil => simp [inspect]
  | cons test rest ih =>
      unfold inspect ShadowTest.inspect
      cases hobjects : test.objects memory with
      | false => simpa [Inspection.andThen] using ih
      | true =>
          cases machine.call routine args memory with
          | ends ending memory' => simp [Inspection.andThen]
          | returns value memory' =>
              cases recover with
              | false => simp [Inspection.andThen]
              | true => simpa [Inspection.andThen] using ih

/-- Inspections as such leave memory alone. -/
theorem inspect_memory (h : ∀ call ∈ (inspect machine recover routine args tests memory).reports,
      ∃ value, machine.call call.callee call.args call.memory = .returns value call.memory) :
    (inspect machine recover routine args tests memory).memory = memory := by
  induction tests generalizing memory with
  | nil => rfl
  | cons test rest ih =>
      unfold inspect ShadowTest.inspect at h ⊢
      cases hobjects : test.objects memory with
      | false =>
          simp only [hobjects, Bool.false_eq_true, if_false, Inspection.andThen,
            List.nil_append] at h ⊢
          exact ih h
      | true =>
          simp only [hobjects, if_true] at h ⊢
          cases hcall : machine.call routine args memory with
          | ends ending memory' => simp [hcall, Inspection.andThen] at h
          | returns value memory' =>
              simp only [hcall] at h ⊢
              obtain rfl : memory' = memory := by
                cases recover <;> simp_all [Inspection.andThen]
              cases recover with
              | false => rfl
              | true => exact ih fun call hmem => h call (by simp [Inspection.andThen, hmem])

end

/-! ### The code follows the reference -/

/-- From `s` on the function does what an inspection says, in code from `n` on: control gets to
`tail`, or the program ends. -/
def Func.Follows (g : Func) (x : Activation) (n : InstId) (s : State) (tail : List InstId)
    (inspection : Inspection) : Prop :=
  match inspection.ending with
  | none => ∃ es t, g.Passes x n s es t ∧ t.rest = tail ∧ t.memory = inspection.memory ∧
      callsOf es = inspection.reports ∧ accessesOf es = inspection.reads
  | some ending => ∃ es t e, g.Passes x n s es t ∧ g.step x t = .last e ending ∧ n ≤ e.inst ∧
      e.memory = inspection.memory ∧ callsOf (es ++ [e]) = inspection.reports ∧
      accessesOf (es ++ [e]) = inspection.reads

namespace Func.Follows

variable {g : Func} {x : Activation} {n m : InstId} {s t : State} {tail tail' : List InstId}
  {inspection : Inspection}

/-- Code that is run first may be told apart. -/
theorem of_passes {es : List Event} (hfirst : g.Passes x n s es t) (hcalls : callsOf es = [])
    (haccesses : accessesOf es = []) (hle : n ≤ m) (h : g.Follows x m t tail inspection) :
    g.Follows x n s tail inspection := by
  unfold Follows at h ⊢
  split
  · rename_i hending
    rw [hending] at h
    obtain ⟨es', t', hpasses, hrest, hmemory, hcalls', haccesses'⟩ := h
    exact ⟨_, t', hfirst.trans hpasses hle, hrest, hmemory, by simp [hcalls, hcalls'],
      by simp [haccesses, haccesses']⟩
  · rename_i ending hending
    rw [hending] at h
    obtain ⟨es', t', e, hpasses, hstep, hinst, hmemory, hcalls', haccesses'⟩ := h
    refine ⟨_, t', e, hfirst.trans hpasses hle, hstep, hle.trans hinst, hmemory, ?_, ?_⟩
    · rw [List.append_assoc, callsOf_append, hcalls, hcalls', List.nil_append]
    · rw [List.append_assoc, accessesOf_append, haccesses, haccesses', List.nil_append]

/-- One inspection behind another. -/
theorem andThen {next : Memory → Inspection} (h : g.Follows x n s tail inspection)
    (hle : n ≤ m) (hnext : ∀ es t, g.Passes x n s es t → t.rest = tail →
      g.Follows x m t tail' (next t.memory)) :
    g.Follows x n s tail' (inspection.andThen next) := by
  unfold Follows Inspection.andThen at *
  cases hending : inspection.ending with
  | some ending =>
      rw [hending] at h
      simpa only [hending] using h
  | none =>
      rw [hending] at h
      obtain ⟨es, t, hpasses, hrest, hmemory, hcalls, haccesses⟩ := h
      have hsecond := hnext es t hpasses hrest
      rw [hmemory] at hsecond
      simp only
      split
      · rename_i hending'
        simp only [hending'] at hsecond
        obtain ⟨es', t', hpasses', hrest', hmemory', hcalls', haccesses'⟩ := hsecond
        exact ⟨_, t', hpasses.trans hpasses' hle, hrest', hmemory', by simp [hcalls, hcalls'],
          by simp [haccesses, haccesses']⟩
      · rename_i ending hending'
        simp only [hending'] at hsecond
        obtain ⟨es', t', e, hpasses', hstep, hinst, hmemory', hcalls', haccesses'⟩ := hsecond
        refine ⟨_, t', e, hpasses.trans hpasses' hle, hstep, hle.trans hinst, hmemory', ?_, ?_⟩
        · rw [List.append_assoc, callsOf_append, hcalls, hcalls']
        · rw [List.append_assoc, accessesOf_append, haccesses, haccesses']

end Func.Follows

/-- A check does what its test says. -/
theorem Check.Stands.follows {c : Check} {g : Func} {n : InstId} {addr : Value} {size a : Nat}
    {cont : BlockId} {tail : List InstId} {x : Activation} {s : State} {routine : Int}
    {args : List Int} (h : c.Stands g n addr size cont tail)
    (hroutine : x.symbol c.routine = some routine)
    (hargs : c.args.mapM s.env = some args) (hargsBelow : ∀ v ∈ c.args, v.Below n)
    (hbelow : addr.Below n) (haddr : s.env addr = some (a : Int))
    (hrest : s.rest = List.range' n 9) :
    g.Follows x n s tail
      ((c.mapping.probe a size).inspect x.machine c.recover routine args s.memory) := by
  obtain ⟨es, t, hpasses, hmemory, hcalls, haccesses, hrest'⟩ :=
    h.passes (x := x) hbelow haddr hrest
  unfold ShadowTest.inspect ShadowMapping.probe
  simp only
  -- without a report control goes on behind the check; with one, the routine decides
  cases hreports : c.mapping.reports s.memory a size with
  | false =>
      rw [hreports] at hrest'
      exact ⟨es, t, hpasses, hrest', hmemory, hcalls, haccesses⟩
  | true =>
      rw [hreports, if_pos rfl] at hrest'
      have hle : n ≤ c.reportStart n addr size cont := by
        rw [reportStart, Nat.add_assoc]
        exact Nat.le_add_right _ _
      have hargs' : c.args.mapM t.env = some args := by
        rw [← hargs]
        exact mapM_option_congr fun v hv => hpasses.env v (hargsBelow v hv)
      have hargsBelow' : ∀ v ∈ c.args, v.Below (c.reportStart n addr size cont) :=
        fun v hv => (hargsBelow v hv).mono hle
      simp only [if_true, ← hmemory]
      cases hcall : x.machine.call routine args t.memory with
      | ends ending memory =>
          obtain ⟨es', t', e, hpasses', hstep, hinst, hmemory', hcalls', haccesses'⟩ :=
            h.ends_report hrest' hroutine hargs' hargsBelow' hcall
          refine ⟨_, t', e, hpasses.trans hpasses' hle, hstep, hle.trans hinst, hmemory', ?_, ?_⟩
          · rw [List.append_assoc, callsOf_append, hcalls, hcalls', List.nil_append]
          · rw [List.append_assoc, accessesOf_append, haccesses, haccesses', List.append_nil]
      | returns value memory =>
          cases hrecover : c.recover with
          | true =>
              obtain ⟨es', t', hpasses', hrest'', hmemory', hcalls', haccesses'⟩ :=
                h.passes_report hrest' hroutine hargs' hargsBelow' hrecover hcall
              exact ⟨_, t', hpasses.trans hpasses' hle, hrest'', hmemory',
                by simp [hcalls, hcalls'], by simp [haccesses, haccesses']⟩
          | false =>
              obtain ⟨es', t', e, hpasses', hstep, hinst, hmemory', hcalls', haccesses'⟩ :=
                h.stops_report hrest' hroutine hargs' hargsBelow' hrecover hcall
              refine ⟨_, t', e, hpasses.trans hpasses' hle, hstep, hle.trans hinst, hmemory', ?_,
                ?_⟩
              · rw [List.append_assoc, callsOf_append, hcalls, hcalls', List.nil_append]
              · rw [List.append_assoc, accessesOf_append, haccesses, haccesses', List.append_nil]

theorem Func.Follows.nil {g : Func} {x : Activation} {n : InstId} {s : State}
    {tail : List InstId} (hrest : s.rest = tail) {machine : Machine} {recover : Bool}
    {routine : Int} {args : List Int} :
    g.Follows x n s tail (inspect machine recover routine args [] s.memory) :=
  ⟨[], s, .refl s, hrest, rfl, rfl, rfl⟩

theorem symbol_of_growsTo {x : Activation} {symbols : SymbolTable} {symbol : SymbolId}
    {name : String} (hgrows : symbols.GrowsTo x.symbols)
    (hname : symbols.names[symbol]? = some name) :
    x.symbol symbol = some (x.machine.address name : Int) := by
  rw [Activation.symbol, hgrows symbol name hname]
  rfl

/-- A guard inspects its access. -/
theorem InlineGuard.follows {g : Func} {config : Config} {symbols : SymbolTable}
    {access : MemAccess} {n : InstId} {front tail : List InstId} {x : Activation} {s : State}
    {p : Int} (h : InlineGuard g config symbols access n front tail)
    (hsymbols : symbols.GrowsTo x.symbols) (hp : s.env access.ptr = some p)
    (hrest : s.rest = front) :
    g.Follows x n s tail (inspect x.machine config.recover
      (x.machine.address (EntryPoint.report access.kind access.size config.recover))
      (accessArgs access.size (toAddress p)) (config.mapping.probes (toAddress p) access.size)
      s.memory) := by
  unfold ShadowMapping.probes
  cases h with
  | @fixed routine origin cont tail hfixed hroutine hholds hstands =>
      obtain ⟨es, t, hline, hmemory, hstack, hcalls, haccesses, haddr⟩ := execLine_ptrToAddr x hp
      obtain ⟨hpasses, hrest'⟩ := Func.Passes.of_execLine hholds
        (show s.rest = List.range' n 1 ++ List.range' (n + 1) 9 from hrest) hline hstack
      have hargs : [Value.inst n].mapM t.env = some (accessArgs access.size (toAddress p)) := by
        simp [accessArgs, hfixed, haddr]
      rw [if_pos hfixed, ← hmemory]
      exact .of_passes hpasses hcalls haccesses (Nat.le_succ n) (.andThen
        (hstands.follows (symbol_of_growsTo hsymbols hroutine) hargs (by simp) (by simp) haddr
          hrest') le_rfl fun _ _ _ hrest'' => .nil hrest'')
  | @unusual routine origin cont cont' m tail hfixed hroutine hm hholds hfirst hlast =>
      obtain ⟨es, t, hline, hmemory, hstack, hcalls, haccesses, haddr, hlastAddr, hsize⟩ :=
        execLine_endsOps x hp
      obtain ⟨hpasses, hrest'⟩ := Func.Passes.of_execLine hholds
        (show s.rest = List.range' n 4 ++ List.range' (n + 4) 9 from hrest) hline hstack
      have hargs : [Value.inst n, Value.inst (n + 3)].mapM t.env =
          some (accessArgs access.size (toAddress p)) := by
        simp [accessArgs, hfixed, haddr, hsize]
      have hargsBelow : ∀ v ∈ [Value.inst n, Value.inst (n + 3)], v.Below (n + 4) := by
        simp
      have hle : n ≤ n + 4 := Nat.le_add_right n 4
      rw [if_neg (by simp [hfixed]), ← hmemory]
      refine .of_passes hpasses hcalls haccesses hle (.andThen
        (hfirst.follows (symbol_of_growsTo hsymbols hroutine) hargs hargsBelow (by simp) haddr
          hrest') hm fun es₁ t₁ hpasses₁ hrest₁ => .andThen ?_ le_rfl
            fun _ _ _ hrest₂ => .nil hrest₂)
      -- the first check has left the values that the second one reads
      have hargs₁ : [Value.inst n, Value.inst (n + 3)].mapM t₁.env =
          some (accessArgs access.size (toAddress p)) := by
        rw [← hargs]
        exact mapM_option_congr fun v hv => hpasses₁.env v (hargsBelow v hv)
      have hlastAddr₁ := (hpasses₁.env (.inst (n + 2)) (by simp)).trans hlastAddr
      exact hlast.follows (symbol_of_growsTo hsymbols hroutine) hargs₁
        (fun v hv => (hargsBelow v hv).mono hm)
        (Value.Below.mono (Value.below_inst.mpr (Nat.add_lt_add_left (by decide) n)) hm) hlastAddr₁
        hrest₁

end Redzone
