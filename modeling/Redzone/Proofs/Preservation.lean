import Redzone.Proofs.Check.Transparent
import Redzone.Proofs.Visits

/-!
# Checks preserve meaning

Every visit of a site leaves a function that mirrors the one before (`Visited.mirrors`).  For a
checked access, a guard leads to the access with nothing changed (`catchesUp_of_guard`).  A bulk
memory operation is replaced by a call of its twin in the runtime, which does what the operation
does (`catchesUp_of_twin`); where an operand is missing, neither goes on.

Mirroring is composed over the visits (`Visits.mirrors`), each with the table of symbols of its own
draft.  As tables only grow, all of them can be executed with the last one
(`Mirrors.of_same_code`).  So the function that an instrumentation leaves mirrors the one it was
given, unless slots of the stack were moved.
-/

namespace Redzone

/-! ### The same code -/

theorem Op.exec_symbols {x y : Activation} {env : Env} {memory : Memory} {stack : Nat} {op : Op}
    (hmachine : y.machine = x.machine) (hargs : y.args = x.args)
    (hsymbol : ∀ symbol, op = .symbolAddr symbol → y.symbol symbol = x.symbol symbol) :
    op.exec y env memory stack = op.exec x env memory stack := by
  cases op with
  | symbolAddr symbol => simp only [Op.exec, hsymbol symbol rfl]
  | ret value => cases value <;> rfl
  | _ => simp only [Op.exec, hmachine, hargs]

section

variable {α : Type} {view : Event → List α} {loud : Event → Prop} {f g : Func} {x y : Activation}

/-- Functions with the same code mirror each other, wherever the symbols they refer to are kept. -/
theorem Mirrors.of_same_code (hclosed : f.Closed) (hinsts : g.insts = f.insts)
    (hblocks : g.blocks = f.blocks) (hmachine : y.machine = x.machine) (hargs : y.args = x.args)
    (hsymbol : ∀ i ∈ f.listed, ∀ instruction, f.insts[i]? = some instruction → ∀ symbol,
      instruction.op = .symbolAddr symbol → y.symbol symbol = x.symbol symbol) :
    Mirrors view loud f g x y := by
  let A (rest rest' : List InstId) : Prop := rest' = rest ∧ ∀ i ∈ rest, i ∈ f.listed
  have halongside : BlocksAlongside f g A := fun b blk hblk =>
    ⟨blk, hblocks ▸ hblk, rfl, rfl, fun i hi => Func.mem_listed hblk hi⟩
  refine Mirrors.of_simulation (R := Alongside f.insts.size A) ?_ ?_
  · rintro s t ⟨hagree, hrest, hlisted⟩ -
    refine ⟨[], t, .refl t, by simp, ?_⟩
    cases hs : s.rest with
    | nil =>
        simp only [Func.step, hrest, hs]
        exact .undefined
    | cons i rest =>
        rw [hs, List.forall_mem_cons] at hlisted
        obtain ⟨instruction, hinst, hrefers⟩ := hclosed i hlisted.1
        exact stepsAlike_of_same_head hagree hs (hrest.trans hs) hinst (hinsts ▸ hinst) hrefers
          (fun _ _ _ => Op.exec_symbols hmachine hargs (hsymbol i hlisted.1 instruction hinst))
          halongside ⟨rfl, hlisted.2⟩
  · intro memory stack
    rcases Nat.eq_zero_or_pos f.blocks.size with hsize | hsize
    · have hnone : f.blocks[0]? = none := by simp [hsize]
      simp only [Func.start, Func.enter, hblocks, hnone]
      exact .none
    · exact start_alongside halongside hsize memory stack

end

theorem symbol_kept {machine : Machine} {symbols symbols' : SymbolTable} {args : List Int}
    (hgrows : symbols.GrowsTo symbols') {symbol : Nat} (hsymbol : symbol < symbols.size) :
    Activation.symbol ⟨machine, symbols', args⟩ symbol =
      Activation.symbol ⟨machine, symbols, args⟩ symbol := by
  obtain ⟨name, hname⟩ : ∃ name, symbols.names[symbol]? = some name :=
    ⟨_, Array.getElem?_eq_getElem hsymbol⟩
  rw [Activation.symbol, Activation.symbol, hname, hgrows _ _ hname]

/-! ### One visit -/

theorem Op.exec_eq_none_of_access {x : Activation} {env : Env} {memory : Memory} {stack : Nat}
    {op : Op} {access : MemAccess} (h : op.access? = some access) (hptr : env access.ptr = none) :
    op.exec x env memory stack = none := by
  cases op <;> simp [Op.access?] at h <;> subst h <;> simp [Op.exec, hptr]

theorem Op.exec_bulk_cases (x : Activation) (kind : Bulk) (dest source length : Value) (env : Env)
    (memory : Memory) (stack : Nat) :
    (Op.bulk kind dest source length).exec x env memory stack = none ∧
        [dest, source, length].mapM env = none ∨
      ∃ a b c, (Op.bulk kind dest source length).exec x env memory stack =
          some (.proceeds { value := some a, memory := kind.apply a b c memory, stack := stack }) ∧
        [dest, source, length].mapM env = some [a, b, c] := by
  cases hdest : env dest <;> cases hsource : env source <;> cases hlength : env length <;>
    simp [Op.exec, hdest, hsource, hlength]

theorem execLine_symbolAddr {x : Activation} {symbol : SymbolId} {a : Int}
    (hsymbol : x.symbol symbol = some a) (n : InstId) (s : State) :
    ∃ es t, execLine x n [.symbolAddr symbol] s = some (es, t) ∧ t.memory = s.memory ∧
      t.stack = s.stack ∧ callsOf es = [] ∧ t.env (.inst n) = some a := by
  simp [execLine, Op.exec, hsymbol, Op.keeps, Op.addedTy, Op.resultTy?]

section

variable {config : Config} {outlined : Bool} {d d' : Draft} {site : Site} {f : Func}
  {x : Activation}

namespace Draft

/-- A guard catches up with the access behind it. -/
theorem catchesUp_of_guard {R : State → State → Prop} {s t : State} {g g' : Func} 
    {i : Instruction} {access : MemAccess} {symbols : SymbolTable} {n : InstId} {inst : InstId}
    {front rest : List InstId}
    (hguard : Guard outlined g' config symbols access n front (inst :: rest))
    (hruntime : Runtime config x.machine) (hsymbols : symbols.GrowsTo x.symbols)
    (hinst : g.insts[inst]? = some i) (haccess : i.op.access? = some access)
    (hptr : access.ptr.Below n) (hn : f.insts.size ≤ n)
    (hagree : Agree n s t) (hs : s.rest = inst :: rest) (ht : t.rest = front)
    (hquiet : g'.Quiet x (f.Stops config x.machine) t)
    (halike : ∀ t', Agree n s t' → t'.rest = inst :: rest →
      StepsAlike (watch x.machine f.insts.size) (f.Stops config x.machine) R (g.step x s)
        (g'.step x t')) :
    CatchesUp (watch x.machine f.insts.size) (f.Stops config x.machine) g g' x x R s t := by
  have hptr' := hagree.env access.ptr hptr
  cases hp : s.env access.ptr with
  | none =>
      refine ⟨[], t, .refl t, by simp, ?_⟩
      rw [Func.step_undefined hs hinst (Op.exec_eq_none_of_access haccess hp),
        hguard.undefined (hptr'.symm.trans hp) ht]
      exact .undefined
  | some p =>
      obtain ⟨es, t', hpasses, hmemory, hrest, hcalls⟩ :=
        hguard.transparent hsymbols hruntime (hptr'.symm.trans hp) ht hquiet hn
      have hagree' : Agree n s t' :=
        ⟨fun v hv => (hagree.env v hv).trans (hpasses.env v hv).symm,
          hagree.memory.trans hmemory.symm, hagree.stack.trans hpasses.stack.symm⟩
      exact ⟨es, t', hpasses.runs, watch_eq_nil_of_passes hn hpasses hcalls,
        halike t' hagree' hrest⟩

/-- The twin of a bulk operation catches up with the operation. -/
theorem catchesUp_of_twin {R : State → State → Prop} {s t : State} {g g' : Func}
    {i : Instruction} {kind : Bulk} {dest source length : Value} {routine : SymbolId}
    {n inst : InstId} {rest : List InstId} (hruntime : Runtime config x.machine)
    (hroutine : x.symbol routine = some (x.machine.address (EntryPoint.bulk kind) : Int))
    (hinst : g.insts[inst]? = some i) (hop : i.op = .bulk kind dest source length)
    (hholds : g'.Holds n [.symbolAddr routine])
    (hinst' : g'.insts[inst]? = some { i with op := .call (.inst n) [dest, source, length] })
    (hown : ∀ i callee args, f.insts[inst]? = some i → i.op ≠ .call callee args)
    (hbelow : ∀ v ∈ [dest, source, length], v.Below n) (hn : f.insts.size ≤ n)
    (hagree : Agree n s t) (hs : s.rest = inst :: rest) (ht : t.rest = n :: inst :: rest)
    (hquiet : g'.Quiet x (f.Stops config x.machine) t)
    (hrelated : ∀ s' t', Agree n s' t' → s'.rest = rest → t'.rest = rest → R s' t') :
    CatchesUp (watch x.machine f.insts.size) (f.Stops config x.machine) g g' x x R s t := by
  -- the address of the routine comes first
  obtain ⟨es, t', hline, hmemory, hstack, hcalls, hcallee⟩ := execLine_symbolAddr hroutine n t
  obtain ⟨hpasses, hrest⟩ := Func.Passes.of_execLine hholds
    (show t.rest = List.range' n 1 ++ inst :: rest from ht) hline hstack
  have hagree' : Agree n s t' :=
    ⟨fun v hv => (hagree.env v hv).trans (hpasses.env v hv).symm,
      hagree.memory.trans hmemory.symm, hagree.stack.trans hstack.symm⟩
  have hargs : [dest, source, length].mapM t'.env = [dest, source, length].mapM s.env :=
    mapM_option_congr fun v hv => (hagree'.env v (hbelow v hv)).symm
  refine ⟨es, t', hpasses.runs, watch_eq_nil_of_passes hn hpasses (by simp [hcalls]), ?_⟩
  rcases Op.exec_bulk_cases x kind dest source length s.env s.memory s.stack with
    ⟨hexec, hvalues⟩ | ⟨a, b, c, hexec, hvalues⟩
  · rw [Func.step_undefined hs hinst (hop ▸ hexec),
      Func.step_undefined hrest hinst' (by simp [Op.exec, hcallee, hargs, hvalues])]
    exact .undefined
  · rw [hvalues] at hargs
    have hclean : config.recover = true ∨
        ¬ Bulk.FindsPoison kind config.mapping a b c t'.memory := by
      cases hrecover : config.recover with
      | true => exact .inl rfl
      | false =>
          obtain ⟨e, hemits, rfl, hcall⟩ := Func.emits_call hrest hinst' rfl hcallee hargs
          exact .inr fun hpoisoned => hquiet.of_runs hpasses.runs e hemits
            ⟨hrecover, hown, _, hcall, .bulk hpoisoned⟩
    have hcall := hruntime.bulk kind a b c t'.memory hclean
    rw [Func.step_proceeds hs hinst (hop ▸ hexec), Func.step_proceeds hrest hinst'
      (Op.exec_call_returns t'.stack hcallee hargs hcall)]
    refine .next ?_ (fun hloud => by simpa using hloud.2.2)
      (hrelated _ _ ⟨?_, hagree'.memory ▸ rfl, hagree'.stack⟩ rfl rfl)
    · have hinternal : Call.IsInternal x.machine
          ⟨x.machine.address (EntryPoint.bulk kind), [a, b, c], t'.memory⟩ :=
        ⟨_, EntryPoint.startsWith_bulk kind, rfl⟩
      simp only [watch, if_pos hinternal, hagree'.memory]
      rfl
    · exact Env.set_agree hagree'.env _ _

theorem Visited.mirrors_of_check {access : MemAccess} {i : Instruction} {blk : Block}
    {front : List InstId} (hclosed : d.func.Closed) (hsize : f.insts.size ≤ d.func.insts.size)
    (hgrows : d'.symbols.GrowsTo x.symbols) (hruntime : Runtime config x.machine)
    (hinst : d.func.insts[site.inst]? = some i) (haccess : i.op.access? = some access)
    (hblk : d.func.blocks[site.block]? = some blk) (hget : blk.insts[site.pos]? = some site.inst)
    (hturns : d.func.Turns d'.func site.block blk site.pos front)
    (hguard : Guard outlined d'.func config d'.symbols access d.func.insts.size front
      (blk.insts.drop site.pos)) :
    Mirrors (watch x.machine f.insts.size) (f.Stops config x.machine) d.func d'.func x x := by
  obtain ⟨hpos, hhead⟩ := List.getElem?_eq_some_iff.mp hget
  have htail : blk.insts.drop site.pos = site.inst :: blk.insts.drop (site.pos + 1) := by
    rw [List.drop_eq_getElem_cons hpos, hhead]
  have hkept : ∀ j ∈ d.func.listed, d'.func.insts[j]? = d.func.insts[j]? :=
    fun j hj => hturns.getElem?_insts (hclosed.lt_size hj)
  obtain ⟨i', hinst', hrefers⟩ :=
    hclosed site.inst (Func.mem_listed hblk (List.mem_of_getElem? hget))
  obtain rfl : i = i' := Option.some.inj (hinst.symm.trans hinst')
  have hblocks := hturns.blocksAlongside hblk rfl fun c blk' hblk' j hj => by
    split at hj
    · exact hkept j (Func.mem_listed hblk (List.mem_of_mem_take hj))
    · exact hkept j (Func.mem_listed hblk' hj)
  refine Mirrors.of_simulation (Simulation.of_detour hclosed hblocks ?_)
    (start_alongside hblocks ((Nat.zero_le _).trans_lt (Func.lt_size_of_getElem? hblk)))
  intro s t hagree hs ht hquiet
  rw [htail] at hguard hs
  refine catchesUp_of_guard hguard hruntime hgrows hinst haccess
    (hrefers.operand _ (ptr_mem_operands haccess)) hsize hagree hs ht hquiet ?_
  intro t' hagree' hrest
  refine stepsAlike_of_same_head hagree' hs hrest hinst
    ((hkept _ (Func.mem_listed hblk (List.mem_of_getElem? hget))).trans hinst) hrefers
    (fun _ _ _ => rfl) hblocks (.inl ⟨rfl, fun j hj => ?_⟩)
  have hlisted := Func.mem_listed hblk (List.mem_of_mem_drop hj)
  exact ⟨hlisted, hkept j hlisted⟩

theorem Visited.mirrors_of_bulk {kind : Bulk} {dest source length : Value} {i : Instruction}
    {blk : Block} {g : Func} {routine : SymbolId} (hclosed : d.func.Closed)
    (hnodup : d.func.listed.Nodup) (hsize : f.insts.size ≤ d.func.insts.size)
    (hown : ∀ i callee args, f.insts[site.inst]? = some i → i.op ≠ .call callee args)
    (hgrows : d'.symbols.GrowsTo x.symbols) (hruntime : Runtime config x.machine)
    (hinst : d.func.insts[site.inst]? = some i) (hop : i.op = .bulk kind dest source length)
    (hblk : d.func.blocks[site.block]? = some blk) (hget : blk.insts[site.pos]? = some site.inst)
    (hturns : d.func.Turns g site.block blk site.pos
      (d.func.insts.size :: blk.insts.drop site.pos))
    (hholds : g.Holds d.func.insts.size [.symbolAddr routine])
    (hname : d'.symbols.names[routine]? = some (EntryPoint.bulk kind))
    (hfunc : d'.func = g.setInst site.inst
      { i with op := .call (.inst d.func.insts.size) [dest, source, length] }) :
    Mirrors (watch x.machine f.insts.size) (f.Stops config x.machine) d.func d'.func x x := by
  obtain ⟨hpos, hhead⟩ := List.getElem?_eq_some_iff.mp hget
  have htail : blk.insts.drop site.pos = site.inst :: blk.insts.drop (site.pos + 1) := by
    rw [List.drop_eq_getElem_cons hpos, hhead]
  have hlt := hclosed.lt_size (Func.mem_listed hblk (List.mem_of_getElem? hget))
  obtain ⟨i', hinst', hrefers⟩ :=
    hclosed site.inst (Func.mem_listed hblk (List.mem_of_getElem? hget))
  obtain rfl : i = i' := Option.some.inj (hinst.symm.trans hinst')
  -- only the operation itself is changed, and it is listed nowhere else
  have hkept : ∀ {c : BlockId} {blk' : Block} {q : Nat} {j : InstId},
      d.func.blocks[c]? = some blk' → blk'.insts[q]? = some j → ¬ (c = site.block ∧ q = site.pos) →
      d'.func.insts[j]? = d.func.insts[j]? := by
    intro c blk' q j hblk' hget' hne
    have hj : j ≠ site.inst := by
      rintro rfl
      exact hne (Func.place_unique hnodup hblk' hget' hblk hget)
    rw [hfunc, Func.getElem?_insts_setInst_of_ne hj]
    exact hturns.getElem?_insts (hclosed.lt_size
      (Func.mem_listed hblk' (List.mem_of_getElem? hget')))
  have hblocks := hturns.blocksAlongside hblk (show d'.func.blocks = g.blocks by rw [hfunc]; rfl)
    fun c blk' hblk' j hj => by
      split at hj
      · obtain ⟨q, hq⟩ := List.mem_iff_getElem?.mp hj
        rw [List.getElem?_take] at hq
        split at hq
        · exact hkept hblk hq fun h => by omega
        · cases hq
      · rename_i hc
        obtain ⟨q, hq⟩ := List.mem_iff_getElem?.mp hj
        exact hkept hblk' hq fun h => hc h.1
  refine Mirrors.of_simulation (Simulation.of_detour hclosed hblocks ?_)
    (start_alongside hblocks ((Nat.zero_le _).trans_lt (Func.lt_size_of_getElem? hblk)))
  intro s t hagree hs ht hquiet
  rw [htail] at hs
  refine catchesUp_of_twin hruntime (symbol_of_growsTo hgrows hname) hinst hop ?_ ?_ hown
    (fun v hv => ?_) hsize hagree hs (ht.trans (by rw [htail])) hquiet ?_
  · exact hfunc ▸ hholds.setInst hlt _
  · rw [hfunc, Func.getElem?_insts_setInst_self (hlt.trans_le hturns.size_le)]
  · rw [hop] at hrefers
    exact hrefers.operand v hv
  · intro s' t' hagree' hs' ht'
    refine ⟨hagree', .inl ⟨ht'.trans hs'.symm, fun j hj => ?_⟩⟩
    rw [hs'] at hj
    obtain ⟨q, hq⟩ := List.mem_iff_getElem?.mp hj
    rw [List.getElem?_drop] at hq
    exact ⟨Func.mem_listed hblk (List.mem_of_getElem? hq), hkept hblk hq fun h => by omega⟩

/-- A visit leaves a function that mirrors the one before. -/
theorem Visited.mirrors {rest : List Site} (hvisited : Visited config outlined d d' site)
    (hready : d.Ready (site :: rest)) (hsize : f.insts.size ≤ d.func.insts.size)
    (hsuits : site.SuitsKind f) (hgrows : d'.symbols.GrowsTo x.symbols)
    (hruntime : Runtime config x.machine) :
    Mirrors (watch x.machine f.insts.size) (f.Stops config x.machine) d.func d'.func x x := by
  cases hvisited with
  | check _ hinst haccess hblk hget hturns hguard =>
      exact mirrors_of_check hready.closed hsize hgrows hruntime hinst haccess hblk hget hturns
        hguard
  | bulk hkind hinst hop hblk hget hturns hholds hname hfunc =>
      refine mirrors_of_bulk hready.closed hready.nodup hsize ?_ hgrows hruntime hinst hop hblk hget
        hturns hholds hname hfunc
      intro i callee args hi hcall
      obtain ⟨i', hi', hbulk⟩ := hsuits
      obtain rfl : i = i' := Option.some.inj (hi.symm.trans hi')
      simp [hkind, hcall, Op.isBulk] at hbulk

/-- All visits leave a function that mirrors the one before them. -/
theorem Visits.mirrors {sites : List Site} (hvisits : Visits config outlined d sites d')
    (hsize : f.insts.size ≤ d.func.insts.size) (hsuits : ∀ site ∈ sites, site.SuitsKind f)
    (hgrows : d'.symbols.GrowsTo x.symbols) (hruntime : Runtime config x.machine) :
    Mirrors (watch x.machine f.insts.size) (f.Stops config x.machine) d.func d'.func x x := by
  induction hvisits with
  | nil d => exact .refl _ _
  | cons hready _ hvisited hrest ih =>
      rw [List.forall_mem_cons] at hsuits
      exact (hvisited.mirrors hready hsize hsuits.1 (hrest.growsTo.trans hgrows) hruntime).trans
        (ih (hsize.trans hvisited.size_le) hsuits.2 hgrows)

end Draft

end

/-! ### The instrumented function -/

/-- Whoever watches the instructions of a function and the calls it makes cannot tell whether it was
instrumented, as long as no slot of the stack is moved and no check finds poison that the program is
not to survive. -/
theorem Module.instrumentFunction_preserves {config : Config} {m m' : Module} {id : FuncId}
    {f : Func} {store : Annotations} {outcome : Outcome} {machine : Machine}
    (hf : m.functions[id]? = some f) (hverify : f.verify m.symbols = .ok [])
    (hrun : m.instrumentFunction config id store = .ok (m', .ok outcome))
    (hslots : config.stack = false ∨ f.frameSlots config = .ok [])
    (hruntime : Runtime config machine) :
    ∃ g, m'.functions[id]? = some g ∧ ∀ args memory stack,
      config.recover = true ∨
        g.Calm ⟨machine, m'.symbols, args⟩ (f.Alarms config machine) memory stack →
      ∀ seen ending,
        f.Shows ⟨machine, m.symbols, args⟩ (watch machine f.insts.size) memory stack seen ending ↔
          g.Shows ⟨machine, m'.symbols, args⟩ (watch machine f.insts.size) memory stack seen
            ending := by
  have hverified := Func.verified_of_verify hverify
  obtain ⟨name, -, ⟨-, rfl⟩ | ⟨-, marked, survey, slots, d, -, -, hslots', hready, hvisits,
    hleaves⟩⟩ := instrumentFunction_visits hf hverified hrun
  · exact ⟨f, hf, fun _ _ _ _ _ _ => Iff.rfl⟩
  have hnone : slots = [] := by
    rcases hslots with hstack | hnone
    · rw [hstack] at hslots'
      exact (Except.ok.inj hslots').symm
    · rw [hnone, ite_self] at hslots'
      exact (Except.ok.inj hslots').symm
  obtain ⟨-, hleaves⟩ | ⟨frame, d', description, hsome, -⟩ := hleaves
  · refine ⟨_, hleaves.function, fun args memory stack hcalm seen ending => ?_⟩
    have hgrows := hvisits.growsTo.trans hleaves.symbols
    -- more symbols, then the visits, then the mark
    have hbefore : Mirrors (watch machine f.insts.size) (f.Stops config machine) f f
        ⟨machine, m.symbols, args⟩ ⟨machine, m'.symbols, args⟩ :=
      .of_same_code hverified.closed rfl rfl rfl rfl fun i hi instruction hinst symbol hop =>
        symbol_kept hgrows (hverified.symbol i instruction hi hinst symbol hop)
    have hvisited := hvisits.mirrors (x := ⟨machine, m'.symbols, args⟩) le_rfl hready.suits
      hleaves.symbols hruntime
    have hafter : Mirrors (watch machine f.insts.size) (f.Stops config machine) d.func
        { d.func with sanitized := true } ⟨machine, m'.symbols, args⟩
        ⟨machine, m'.symbols, args⟩ :=
      .of_same_code (hvisits.ready hready).closed rfl rfl rfl rfl fun _ _ _ _ _ _ => rfl
    refine (((hbefore.trans hvisited).trans hafter) memory stack ?_).2 seen ending
    intro s hs e hemits hstops
    rcases hcalm with hrecover | hcalm
    · exact absurd hstops.1 (by simp [hrecover])
    · exact hcalm s hs e hemits hstops.2
  · exact absurd hnone hsome

/-- A function that copies a word, waits until the copy is not 0 and clears three bytes of it. -/
def pollFunction : Func where
  name := 0
  params := [.ptr 0, .ptr 0]
  ret := some .int
  insts := #[⟨.param 0, .ptr 0, [], false⟩, ⟨.param 1, .ptr 0, [], false⟩,
    ⟨.iconst 8, .int, [], false⟩, ⟨.bulk .copy (.inst 1) (.inst 0) (.inst 2), .unit, [], false⟩,
    ⟨.br { block := 1 }, .unit, [], false⟩, ⟨.load (.inst 1) 8 none, .int, [], false⟩,
    ⟨.iconst 0, .int, [], false⟩, ⟨.icmp .eq (.inst 5) (.inst 6), .bool, [], false⟩,
    ⟨.brif (.inst 7) { block := 1 } { block := 2 }, .unit, [], false⟩,
    ⟨.store (.inst 6) (.inst 1) 3 none, .unit, [], false⟩,
    ⟨.ret (some (.inst 5)), .unit, [], false⟩]
  blocks := #[{ argStart := 0, insts := [0, 1, 2, 3, 4] }, { argStart := 0, insts := [5, 6, 7, 8] },
    { argStart := 0, insts := [9, 10] }]

def pollModule : Module where
  name := "poll"
  symbols := (SymbolTable.empty.intern "poll").1
  functions := #[pollFunction]

/-- A machine on which no routine complains. -/
def silentMachine : Machine where
  address name := if name = EntryPoint.bulk .fill then 1 else 0
  call callee args memory :=
    match args with
    | [dest, source, length] =>
        let kind : Bulk := if callee = 1 then .fill else .copy
        .returns (some dest) (kind.apply dest source length memory)
    | _ => .returns none memory

theorem runtime_silentMachine (config : Config) : Runtime config silentMachine where
  report _ access size addr memory := by
    unfold accessArgs
    split <;> exact ⟨none, rfl⟩
  check access size addr memory _ := by
    unfold accessArgs
    split <;> exact ⟨none, rfl⟩
  bulk kind dest source length memory _ := by
    cases kind <;> rfl

theorem instrumentFunction_preserves_poll :
    ∃ m' outcome g, pollModule.instrumentFunction { recover := true } 0 {} =
        .ok (m', .ok outcome) ∧
      outcome.stats.checked = 2 ∧ outcome.stats.replaced = 1 ∧ m'.functions[0]? = some g ∧
      ∀ args memory stack seen ending,
        pollFunction.Shows ⟨silentMachine, pollModule.symbols, args⟩ (watch silentMachine 11) memory
            stack seen ending ↔
          g.Shows ⟨silentMachine, m'.symbols, args⟩ (watch silentMachine 11) memory stack seen
            ending := by
  obtain ⟨m', outcome, hrun, hsucceeds⟩ := Module.exists_of_succeeds
    (pollModule.instrumentFunction { recover := true } 0 {})
    (fun _ outcome => decide (outcome.stats.checked = 2 ∧ outcome.stats.replaced = 1))
    (by decide +kernel)
  obtain ⟨hchecked, hreplaced⟩ := of_decide_eq_true hsucceeds
  obtain ⟨g, hg, hshows⟩ := Module.instrumentFunction_preserves
    (show pollModule.functions[0]? = some pollFunction from rfl) (by decide +kernel) hrun
    (.inr (by decide +kernel)) (runtime_silentMachine _)
  exact ⟨m', outcome, g, hrun, hchecked, hreplaced, hg,
    fun args memory stack => hshows args memory stack (.inl rfl)⟩

end Redzone
