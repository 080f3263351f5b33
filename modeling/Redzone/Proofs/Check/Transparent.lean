import Redzone.Proofs.Check.Reference

/-!
# Checks are transparent

An observer of an execution sees the instructions of the function as it was, that is what each of
them computes and the memory it leaves, and the calls of functions that are not routines of the
runtime (`watch`).  The code in front of an access shows nothing of this, and it leads to the access
with memory as it was, unless it raises an alarm that nobody recovers from (`Guard.transparent`).
-/

namespace Redzone

/-- What is seen of an execution. -/
inductive Sight
  /-- An instruction has left a value and memory. -/
  | ran (inst : InstId) (value : Option Int) (memory : Memory)
  | called (call : Call)

open Classical in
/-- What is seen of an event by one who knows the first `n` instructions and not the runtime. -/
noncomputable def watch (machine : Machine) (n : Nat) (e : Event) : List Sight :=
  (if e.inst < n then [.ran e.inst e.value e.memory] else []) ++
    match e.call with
    | none => []
    | some c => if c.IsInternal machine then [] else [.called c]

theorem watch_eq_nil {machine : Machine} {n : Nat} {e : Event} (hinst : n ≤ e.inst)
    (hcall : ∀ c, e.call = some c → c.IsInternal machine) : watch machine n e = [] := by
  unfold watch
  rw [if_neg (Nat.not_lt.mpr hinst)]
  cases h : e.call with
  | none => rfl
  | some c => simp [hcall c h]

/-- Poison comes to light, by a call that is not one of the function's own. -/
def Func.Alarms (f : Func) (config : Config) (machine : Machine) (e : Event) : Prop :=
  (∀ i callee args, f.insts[e.inst]? = some i → i.op ≠ .call callee args) ∧
    ∃ c, e.call = some c ∧ FindsPoison config machine c

/-- An alarm after which the program does not go on. -/
def Func.Stops (f : Func) (config : Config) (machine : Machine) (e : Event) : Prop :=
  config.recover = false ∧ f.Alarms config machine e

section

variable {f g : Func} {config : Config} {x : Activation} {s : State}

/-- Added code that makes a call by which poison comes to light raises an alarm. -/
theorem Func.Quiet.not_findsPoison {e : Event} {call : Call}
    (hquiet : g.Quiet x (f.Stops config x.machine) s) (hrecover : config.recover = false)
    (hemits : g.Emits x s e) (hinst : f.insts.size ≤ e.inst) (hcall : e.call = some call) :
    ¬ FindsPoison config x.machine call := by
  intro hfinds
  refine hquiet e hemits ⟨hrecover, fun i callee args hi => ?_, call, hcall, hfinds⟩
  exact absurd (Array.getElem?_eq_some_iff.mp hi).1 (Nat.not_lt.mpr hinst)

theorem watch_eq_nil_of_passes {t : State} {es : List Event} {n : InstId} (hn : f.insts.size ≤ n)
    (hpasses : g.Passes x n s es t) (hcalls : ∀ c ∈ callsOf es, c.IsInternal x.machine) :
    ∀ e ∈ es, watch x.machine f.insts.size e = [] := by
  intro e he
  refine watch_eq_nil (hn.trans (hpasses.inst e he)) fun c hc => hcalls c ?_
  exact List.mem_filterMap.mpr ⟨e, he, hc⟩

/-- An inspection by added code makes no report that is an alarm. -/
theorem Func.Follows.not_findsPoison {n : InstId} {tail : List InstId} {inspection : Inspection}
    (h : g.Follows x n s tail inspection) (hquiet : g.Quiet x (f.Stops config x.machine) s)
    (hrecover : config.recover = false) (hn : f.insts.size ≤ n) :
    ∀ call ∈ inspection.reports, ¬ FindsPoison config x.machine call := by
  intro call hcall
  unfold Follows at h
  split at h
  · obtain ⟨es, t, hpasses, -, -, hcalls, -⟩ := h
    obtain ⟨e, he, hcall'⟩ := exists_of_mem_callsOf (hcalls ▸ hcall)
    exact hquiet.not_findsPoison hrecover (.of_mem_runs hpasses.runs he)
      (hn.trans (hpasses.inst e he)) hcall'
  · obtain ⟨es, t, last, hpasses, hstep, hinst, -, hcalls, -⟩ := h
    obtain ⟨e, he, hcall'⟩ := exists_of_mem_callsOf (hcalls ▸ hcall)
    rcases List.mem_append.mp he with he | he
    · exact hquiet.not_findsPoison hrecover (.of_mem_runs hpasses.runs he)
        (hn.trans (hpasses.inst e he)) hcall'
    · obtain rfl := List.mem_singleton.mp he
      exact hquiet.not_findsPoison hrecover (.of_runs hpasses.runs (.last hstep)) (hn.trans hinst)
        hcall'

theorem InlineGuard.transparent {symbols : SymbolTable} {access : MemAccess} {n : InstId}
    {front tail : List InstId} {p : Int} (h : InlineGuard g config symbols access n front tail)
    (hsymbols : symbols.GrowsTo x.symbols) (hruntime : Runtime config x.machine)
    (hp : s.env access.ptr = some p) (hrest : s.rest = front)
    (hquiet : g.Quiet x (f.Stops config x.machine) s) (hn : f.insts.size ≤ n) :
    ∃ es t, g.Passes x n s es t ∧ t.memory = s.memory ∧ t.rest = tail ∧
      ∀ c ∈ callsOf es, c.IsInternal x.machine := by
  have hfollows := h.follows hsymbols hp hrest
  generalize hinspection : inspect x.machine config.recover _ _ _ s.memory = inspection at hfollows
  have hreports : ∀ call ∈ inspection.reports, call.callee = x.machine.address
      (EntryPoint.report access.kind access.size config.recover) ∧
        call.args = accessArgs access.size (toAddress p) :=
    hinspection ▸ inspect_reports
  -- whatever is reported comes back: if the program is not to recover, nothing is
  have hreturns : ∀ call ∈ inspection.reports, ∃ value,
      x.machine.call call.callee call.args call.memory = .returns value call.memory := by
    rintro ⟨callee, args, memory⟩ hcall
    obtain ⟨rfl, rfl⟩ := hreports _ hcall
    cases hrecover : config.recover with
    | true => exact hrecover ▸ hruntime.report hrecover access.kind access.size _ memory
    | false => exact absurd .report (hfollows.not_findsPoison hquiet hrecover hn _ hcall)
  have hmemory : inspection.memory = s.memory := by
    rw [← hinspection] at hreturns ⊢
    exact inspect_memory hreturns
  have hending : inspection.ending = none := by
    rw [← hinspection, inspect_ending_eq_none_iff, hinspection]
    cases hrecover : config.recover with
    | true =>
        exact .inr ⟨rfl, fun call hcall => (hreturns call hcall).imp fun value h => ⟨_, h⟩⟩
    | false =>
        refine .inl (List.eq_nil_iff_forall_not_mem.mpr fun call hcall => ?_)
        refine hfollows.not_findsPoison hquiet hrecover hn call hcall ?_
        obtain ⟨hcallee, -⟩ := hreports call hcall
        obtain ⟨callee, args, memory⟩ := call
        obtain rfl : callee = _ := hcallee
        exact .report
  unfold Func.Follows at hfollows
  rw [hending] at hfollows
  obtain ⟨es, t, hpasses, htail, hmemory', hcalls, -⟩ := hfollows
  refine ⟨es, t, hpasses, hmemory'.trans hmemory, htail, fun call hcall => ?_⟩
  exact ⟨_, EntryPoint.startsWith_report _ _ _, (hreports call (hcalls ▸ hcall)).1⟩

/-- A routine that checks comes back if it is called by added code. -/
theorem passes_check_call {n i : InstId} {origin : Origin} {callee : Value} {args : List Value}
    {rest : List InstId} {access : EntryPoint.Access} {size : Nat} {addr : Int}
    (hruntime : Runtime config x.machine) (hrest : s.rest = i :: rest)
    (hinst : g.insts[i]? = some ⟨.call callee args, .unit, origin, true⟩)
    (hcallee : s.env callee =
      some (x.machine.address (EntryPoint.check access size config.recover) : Int))
    (hargs : args.mapM s.env = some (accessArgs size addr))
    (hquiet : g.Quiet x (f.Stops config x.machine) s) (hn : f.insts.size ≤ n) (hi : n ≤ i) :
    ∃ es t, g.Passes x n s es t ∧ t.memory = s.memory ∧ t.rest = rest ∧
      ∀ c ∈ callsOf es, c.IsInternal x.machine := by
  have hclean : config.recover = true ∨
      ¬ config.mapping.PoisonedRange s.memory (toAddress addr) size := by
    cases hrecover : config.recover with
    | true => exact .inl rfl
    | false =>
        obtain ⟨e, hemits, hinst', hcall⟩ := Func.emits_call hrest hinst rfl hcallee hargs
        exact .inr fun hpoisoned => hquiet.not_findsPoison hrecover hemits
          (hinst' ▸ hn.trans hi) hcall (.check hpoisoned)
  obtain ⟨value, hcall⟩ := hruntime.check access size addr s.memory hclean
  have hstep := Func.step_proceeds hrest hinst (Op.exec_call_returns s.stack hcallee hargs hcall)
  refine ⟨_, _, ⟨.single hstep, fun v hv => Env.set_of_ne _ _ ?_, rfl, by simpa using hi⟩, rfl,
    rfl, ?_⟩
  · rintro rfl
    exact absurd hv (Nat.not_lt.mpr hi)
  · simp only [callsOf_cons, callsOf_nil, Option.toList_some, List.append_nil,
      List.forall_mem_singleton]
    exact ⟨_, EntryPoint.startsWith_check _ _ _, rfl⟩

theorem CallGuard.transparent {symbols : SymbolTable} {access : MemAccess} {n : InstId}
    {front tail : List InstId} {p : Int} (h : CallGuard g config symbols access n front tail)
    (hsymbols : symbols.GrowsTo x.symbols) (hruntime : Runtime config x.machine)
    (hp : s.env access.ptr = some p) (hrest : s.rest = front)
    (hquiet : g.Quiet x (f.Stops config x.machine) s) (hn : f.insts.size ≤ n) :
    ∃ es t, g.Passes x n s es t ∧ t.memory = s.memory ∧ t.rest = tail ∧
      ∀ c ∈ callsOf es, c.IsInternal x.machine := by
  obtain ⟨routine, hname, hholds, rfl⟩ := h.code
  have hroutine := symbol_of_growsTo hsymbols hname
  -- the call is the last instruction of the code; what stands in front of it computes its operands
  obtain ⟨ops, callee, args, es, t, hcode, hline, hmemory, hstack, hcalls, hcallee, hargs⟩ :
      ∃ ops callee args es t, Draft.callOps access routine n = ops ++ [.call callee args] ∧
        execLine x n ops s = some (es, t) ∧ t.memory = s.memory ∧ t.stack = s.stack ∧
        callsOf es = [] ∧ t.env callee = some (x.machine.address
          (EntryPoint.check access.kind access.size config.recover) : Int) ∧
        args.mapM t.env = some (accessArgs access.size (toAddress p)) := by
    cases hfixed : EntryPoint.isFixedSize access.size with
    | true =>
        refine ⟨[.ptrToAddr access.ptr, .symbolAddr routine], .inst (n + 1), [.inst n], ?_⟩
        simp [Draft.callOps, hfixed, accessArgs, execLine, Op.exec, hp, hroutine, Op.keeps,
          Op.addedTy, Op.resultTy?, Env.set]
    | false =>
        refine ⟨[.ptrToAddr access.ptr, .iconst access.size, .symbolAddr routine], .inst (n + 2),
          [.inst n, .inst (n + 1)], ?_⟩
        simp [Draft.callOps, hfixed, accessArgs, execLine, Op.exec, hp, hroutine, Op.keeps,
          Op.addedTy, Op.resultTy?, Env.set, Nat.add_assoc]
  rw [hcode] at hholds hrest
  obtain ⟨hops, hcall⟩ := Func.holds_append.mp hholds
  obtain ⟨⟨origin, hinst⟩, -⟩ := Func.holds_cons.mp hcall
  rw [List.length_append, List.length_singleton, List.range'_1_concat, List.append_assoc,
    List.singleton_append] at hrest
  obtain ⟨hpasses, hrest'⟩ := Func.Passes.of_execLine hops hrest hline hstack
  obtain ⟨es', t', hpasses', hmemory', htail, hcalls'⟩ := passes_check_call hruntime hrest' hinst
    hcallee hargs (hquiet.of_runs hpasses.runs) hn (Nat.le_add_right n ops.length)
  exact ⟨_, t', hpasses.trans hpasses' le_rfl, hmemory'.trans hmemory, htail,
    by simpa [hcalls] using hcalls'⟩

theorem Guard.transparent {outlined : Bool} {symbols : SymbolTable} {access : MemAccess}
    {n : InstId} {front tail : List InstId} {p : Int}
    (h : Guard outlined g config symbols access n front tail)
    (hsymbols : symbols.GrowsTo x.symbols) (hruntime : Runtime config x.machine)
    (hp : s.env access.ptr = some p) (hrest : s.rest = front)
    (hquiet : g.Quiet x (f.Stops config x.machine) s) (hn : f.insts.size ≤ n) :
    ∃ es t, g.Passes x n s es t ∧ t.memory = s.memory ∧ t.rest = tail ∧
      ∀ c ∈ callsOf es, c.IsInternal x.machine := by
  unfold Guard at h
  split at h
  · exact h.transparent hsymbols hruntime hp hrest hquiet hn
  · exact h.transparent hsymbols hruntime hp hrest hquiet hn

theorem Guard.undefined {outlined : Bool} {symbols : SymbolTable} {access : MemAccess}
    {n : InstId} {front tail : List InstId}
    (h : Guard outlined g config symbols access n front tail) (hp : s.env access.ptr = none)
    (hrest : s.rest = front) : g.step x s = .undefined := by
  obtain ⟨⟨rest, hfront⟩, origin, hinst⟩ := h.head
  exact Func.step_undefined (hrest.trans hfront) hinst (by simp [Op.exec, hp])

end

end Redzone
