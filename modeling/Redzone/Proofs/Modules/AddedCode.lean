import Redzone.Proofs.Frame.Slots
import Redzone.Proofs.Modules.FunctionRun

/-!
# What added code calls and reads

A piece of code that is added to a function computes the address of every routine that it calls
(`CallsRoutines`).  So a call in a draft is one that the function had before, or its callee is the
address of a routine that is known to be used.  Of what the function had before, added code reads
nothing but the pointers of the accesses that it checks (`Func.AddsReading`).  Visits and frames
keep that up (`Draft.Adds`), whatever the function is, since all that they change of the old arena
are bulk operations and slots of the function itself.
-/

namespace Redzone

/-! ### Pieces of code -/

theorem map_op_addedCode (origin : Origin) (ops : List Op) :
    (addedCode origin ops).map Instruction.op = ops := by
  simp [addedCode, Function.comp_def]

/-- Every call in some code, which starts at `n`, is one of a routine that the code computes the
address of. -/
def CallsRoutines (symbols : SymbolTable) (uses : RuntimeUses) (n : InstId)
    (ops : List Op) : Prop :=
  ∀ (i : Nat) (callee : Value) (args : List Value), ops[i]? = some (.call callee args) →
    ∃ k symbol name, callee = .inst (n + k) ∧ ops[k]? = some (.symbolAddr symbol) ∧
      symbols.names[symbol]? = some name ∧ uses.Has name

namespace CallsRoutines

variable {symbols symbols' : SymbolTable} {uses uses' : RuntimeUses} {n : InstId}
  {first second ops : List Op} {symbol : SymbolId} {name : String}

theorem of_no_call (h : ∀ callee args, Op.call callee args ∉ ops) :
    CallsRoutines symbols uses n ops := by
  intro i callee args hi
  exact absurd (List.mem_of_getElem? hi) (h callee args)

theorem call (hsymbol : symbols.names[symbol]? = some name) (huses : uses.Has name)
    (args : List Value) :
    CallsRoutines symbols uses n [.symbolAddr symbol, .call (.inst n) args] := by
  intro i callee args' hi
  rcases i with _ | _ | i
  · cases hi
  · cases hi
    exact ⟨0, symbol, name, rfl, rfl, hsymbol, huses⟩
  · cases hi

theorem append (h : CallsRoutines symbols uses n first)
    (h' : CallsRoutines symbols uses (n + first.length) second) :
    CallsRoutines symbols uses n (first ++ second) := by
  intro i callee args hi
  rcases Nat.lt_or_ge i first.length with hlt | hge
  · rw [List.getElem?_append_left hlt] at hi
    obtain ⟨k, symbol, name, hcallee, hk, hsymbol, huses⟩ := h i callee args hi
    have hlt := (List.getElem?_eq_some_iff.mp hk).1
    exact ⟨k, symbol, name, hcallee, by rwa [List.getElem?_append_left hlt], hsymbol, huses⟩
  · rw [List.getElem?_append_right hge] at hi
    obtain ⟨k, symbol, name, hcallee, hk, hsymbol, huses⟩ := h' _ callee args hi
    refine ⟨first.length + k, symbol, name, by rw [hcallee, Nat.add_assoc], ?_, hsymbol, huses⟩
    rwa [List.getElem?_append_right (Nat.le_add_right _ _), Nat.add_sub_cancel_left]

theorem cons {op : Op} (hop : ∀ callee args, op ≠ .call callee args)
    (h : CallsRoutines symbols uses (n + 1) ops) : CallsRoutines symbols uses n (op :: ops) := by
  have hone : CallsRoutines symbols uses n [op] := by
    apply of_no_call
    intro callee args hmem
    exact hop callee args (List.mem_singleton.mp hmem).symm
  exact hone.append h

theorem mono (h : CallsRoutines symbols uses n ops) (hgrows : symbols.GrowsTo symbols')
    (huses : ∀ name, uses.Has name → uses'.Has name) : CallsRoutines symbols' uses' n ops := by
  intro i callee args hi
  obtain ⟨k, symbol, name, hcallee, hk, hsymbol, hname⟩ := h i callee args hi
  exact ⟨k, symbol, name, hcallee, hk, hgrows _ _ hsymbol, huses name hname⟩

end CallsRoutines

theorem Check.callsRoutines_ops {symbols : SymbolTable} {uses : RuntimeUses} {c : Check}
    {name : String} (hsymbol : symbols.names[c.routine]? = some name) (huses : uses.Has name)
    (n : InstId) (addr : Value) (size : Nat) (cont : BlockId) :
    CallsRoutines symbols uses n (c.ops n addr size cont) := by
  have hprobe : CallsRoutines symbols uses n (probeCode c.mapping n addr size) :=
    .of_no_call (by simp [probeCode, shadowAddrCode])
  have hbranch : CallsRoutines symbols uses (n + 8) [c.branch n size cont] :=
    .of_no_call (by simp [branch])
  have hslow : CallsRoutines symbols uses (n + 9) (c.slowPart n addr size cont) := by
    apply CallsRoutines.of_no_call
    unfold slowPart slowCode
    split
    · split <;> simp
    · simp
  have hreport : CallsRoutines symbols uses (c.reportStart n addr size cont)
      (c.reportPart n addr size cont) := by
    refine (CallsRoutines.call hsymbol huses c.args).append (.of_no_call ?_)
    split <;> simp
  have hlength : (probeCode c.mapping n addr size).length = 8 := length_probeCode ..
  exact hprobe.append (hlength ▸ hbranch.append (hslow.append hreport))

/-- Of the values that the first `n` instructions and the arguments of blocks have, an operation
reads only those of which `near` holds. -/
def Op.Reads (n : Nat) (near : Value → Prop) (op : Op) : Prop :=
  ∀ v ∈ op.operands, v.Below n → near v

/-- Everything behind the first `n` instructions reads no value from before but those of which
`near` holds. -/
structure Func.AddsReading (n : Nat) (near : Value → Prop) (f : Func) : Prop where
  size : n ≤ f.insts.size
  reads : ∀ (i : InstId) (instruction : Instruction), n ≤ i → f.insts[i]? = some instruction →
    instruction.op.Reads n near

theorem Func.AddsReading.not_below {f : Func} {n : Nat} {near : Value → Prop}
    (h : f.AddsReading n near) (k : Nat) : ¬ (Value.inst (f.insts.size + k)).Below n :=
  Nat.not_lt.mpr (h.size.trans (Nat.le_add_right _ k))

section

variable {n m : Nat} {near : Value → Prop}

/-- A check reads the address that it is about and what it is told to report. -/
theorem Check.reads_ops {c : Check} {addr : Value} {size : Nat} {cont : BlockId} (hm : n ≤ m)
    (haddr : ¬ addr.Below n) (hargs : ∀ v ∈ c.args, ¬ v.Below n) :
    ∀ op ∈ c.ops m addr size cont, op.Reads n near := by
  have hprobe : ∀ op ∈ probeCode c.mapping m addr size, op.Reads n near := by
    simp [probeCode, shadowAddrCode, Op.Reads, Op.operands, haddr]
    omega
  have hbranch : (c.branch m size cont).Reads n near := by
    simp [branch, Op.Reads, Op.operands]
    omega
  have hslow : ∀ op ∈ c.slowPart m addr size cont, op.Reads n near := by
    unfold slowPart slowCode
    split
    · split <;> simp [Op.Reads, Op.operands, haddr] <;> omega
    · simp
  have hreport : ∀ op ∈ c.reportPart m addr size cont, op.Reads n near := by
    have hstart : ¬ c.reportStart m addr size cont < n := by
      rw [reportStart, Nat.add_assoc, Nat.not_lt]
      exact hm.trans (Nat.le_add_right m _)
    have htold : ∀ v ∈ c.args, v.Below n → near v := fun v hv hbelow =>
      absurd hbelow (hargs v hv)
    unfold reportPart reportCode
    split <;> simpa [Op.Reads, Op.operands, hstart] using htold
  rw [ops, List.forall_mem_append, List.forall_mem_cons, List.forall_mem_append]
  exact ⟨hprobe, hbranch, hslow, hreport⟩

theorem WritesCoded.reads {symbols : SymbolTable} {base : Value} {writes : List ShadowWrite}
    {ops : List Op} (h : WritesCoded symbols base m writes ops) (hm : n ≤ m)
    (hbase : ¬ base.Below n) : ∀ op ∈ ops, op.Reads n near := by
  induction h with
  | nil => simp
  | cons hfirst _ ih =>
      rw [List.forall_mem_append]
      refine ⟨?_, ih (by omega)⟩
      cases hfirst <;> simp [Op.Reads, Op.operands, hbase] <;> omega

end

/-! ### Drafts -/

namespace Draft

/-- The instruction at place `k` is the address of a routine that is used. -/
def NamesRoutine (d : Draft) (k : InstId) : Prop :=
  ∃ (instruction : Instruction) (symbol : SymbolId) (name : String),
    d.func.insts[k]? = some instruction ∧ instruction.op = .symbolAddr symbol ∧
    d.symbols.names[symbol]? = some name ∧ d.uses.Has name

/-- Every call in a draft was there before, or calls a routine that is used by its address, which
was added.  Added code reads no value from before but those of which `near` holds. -/
structure Adds (before : Func) (near : Value → Prop) (d : Draft) : Prop where
  reading : d.func.AddsReading before.insts.size near
  calls : ∀ (i : InstId) (instruction : Instruction) (callee : Value) (args : List Value),
    d.func.insts[i]? = some instruction → instruction.op = .call callee args →
      (∃ old : Instruction, before.insts[i]? = some old ∧ old.op = instruction.op) ∨
        ∃ k, callee = .inst k ∧ before.insts.size ≤ k ∧ d.NamesRoutine k

variable {before : Func} {near : Value → Prop} {config : Config} {outlined : Bool} {d d' : Draft}
  {f : Func} {b : BlockId} {pos : Nat} {site : Site} {access : MemAccess}

namespace Adds

theorem refl (f : Func) (symbols : SymbolTable) (near : Value → Prop) :
    Adds f near { func := f, symbols := symbols } where
  reading := ⟨le_rfl, fun _ _ hi hinst =>
    absurd (Array.getElem?_eq_some_iff.mp hinst).1 (Nat.not_lt.mpr hi)⟩
  calls _ instruction _ _ hinst _ := .inl ⟨instruction, hinst, rfl⟩

/-- More names and more routines. -/
theorem mono (h : d.Adds before near) (hfunc : d'.func = d.func)
    (hgrows : d.symbols.GrowsTo d'.symbols) (huses : ∀ name, d.uses.Has name → d'.uses.Has name) :
    d'.Adds before near where
  reading := hfunc ▸ h.reading
  calls i instruction callee args hinst hop := by
    rcases h.calls i instruction callee args (hfunc ▸ hinst) hop with
      hold | ⟨k, hcallee, hk, loaded, symbol, name, hloaded, hsymbol, hname, hhas⟩
    · exact .inl hold
    · exact .inr ⟨k, hcallee, hk, loaded, symbol, name, hfunc.symm ▸ hloaded, hsymbol,
        hgrows _ _ hname, huses name hhas⟩

theorem use (h : d.Adds before near) (name : String) (signature : Signature) :
    (d.use name signature).1.Adds before near ∧
      (d.use name signature).1.symbols.names[(d.use name signature).2]? = some name ∧
      (d.use name signature).1.uses.Has name :=
  ⟨h.mono rfl (d.symbols.growsTo_intern name) fun _ hother => RuntimeUses.has_add.mpr (.inr hother),
    d.symbols.names_intern name, RuntimeUses.has_add.mpr (.inl rfl)⟩

/-- Code is added. -/
theorem graft (h : d.Adds before near) {insts : List InstId} {code : List Instruction}
    {fresh : List Block}
    (hcalls : CallsRoutines d.symbols d.uses d.func.insts.size (code.map Instruction.op))
    (hreads : ∀ op ∈ code.map Instruction.op, op.Reads before.insts.size near) :
    Adds before near { d with func := d.func.graft b insts code fresh } where
  reading := by
    refine ⟨?_, fun i instruction hi hinst => ?_⟩
    · rw [Func.size_insts_graft]
      exact h.reading.size.trans (Nat.le_add_right _ _)
    · rcases Nat.lt_or_ge i d.func.insts.size with hlt | hge
      · rw [Func.getElem?_insts_graft_of_lt hlt] at hinst
        exact h.reading.reads i instruction hi hinst
      · obtain ⟨k, rfl⟩ := Nat.exists_eq_add_of_le hge
        rw [Func.getElem?_insts_graft_add] at hinst
        exact hreads _ (List.mem_map_of_mem (List.mem_of_getElem? hinst))
  calls i instruction callee args hinst hop := by
    rcases Nat.lt_or_ge i d.func.insts.size with hlt | hge
    · rw [Func.getElem?_insts_graft_of_lt hlt] at hinst
      rcases h.calls i instruction callee args hinst hop with
        hold | ⟨k, hcallee, hk, loaded, symbol, name, hloaded, hnames⟩
      · exact .inl hold
      · have hkept := (Array.getElem?_eq_some_iff.mp hloaded).1
        refine .inr ⟨k, hcallee, hk, loaded, symbol, name, ?_, hnames⟩
        rwa [Func.getElem?_insts_graft_of_lt hkept]
    · obtain ⟨j, rfl⟩ := Nat.exists_eq_add_of_le hge
      rw [Func.getElem?_insts_graft_add] at hinst
      obtain ⟨k, symbol, name, hcallee, hk, hnames⟩ := hcalls j callee args (by simp [hinst, hop])
      rw [List.getElem?_map] at hk
      obtain ⟨loaded, hloaded, hsymbol⟩ := Option.map_eq_some_iff.mp hk
      refine .inr ⟨d.func.insts.size + k, hcallee, h.reading.size.trans (Nat.le_add_right _ _),
        loaded, symbol, name, ?_, hsymbol, hnames⟩
      rwa [Func.getElem?_insts_graft_add]

theorem line (h : d.Adds before near) {origin : Origin} {ops : List Op}
    (hcalls : CallsRoutines d.symbols d.uses d.func.insts.size ops)
    (hreads : ∀ op ∈ ops, op.Reads before.insts.size near)
    (hf : d.func.insertCode b pos (addedCode origin ops) = .ok f) :
    Adds before near { d with func := f } := by
  obtain ⟨blk, -, -, rfl⟩ := Func.insertCode_eq_ok hf
  apply h.graft <;> rwa [map_op_addedCode]

theorem check (h : d.Adds before near) {c : Check} {name : String} {addr : Value} {size : Nat}
    {cont : BlockId} (hsymbol : d.symbols.names[c.routine]? = some name) (huses : d.uses.Has name)
    (haddr : ¬ addr.Below before.insts.size) (hargs : ∀ v ∈ c.args, ¬ v.Below before.insts.size)
    (hf : c.insert d.func b pos addr size = .ok (f, cont)) :
    Adds before near { d with func := f } := by
  obtain ⟨blk, -, -, -, rfl⟩ := Check.insert_eq_ok hf
  apply h.graft <;> rw [map_op_addedCode]
  · exact Check.callsRoutines_ops hsymbol huses _ _ _ _
  · exact Check.reads_ops h.reading.size haddr hargs

/-- An instruction of the old arena is changed. -/
theorem setOp (h : d.Adds before near) {i : InstId} {op : Op} (hi : i < before.insts.size)
    (hop : ∀ callee args, op = .call callee args →
      ∃ k, callee = .inst k ∧ before.insts.size ≤ k ∧ d.NamesRoutine k)
    (hf : d.func.setOp i op = .ok f) : Adds before near { d with func := f } := by
  obtain ⟨changed, hchanged, rfl⟩ := Func.setOp_eq_ok hf
  -- what was added stands behind the old arena
  have hkept : ∀ k, before.insts.size ≤ k →
      (d.func.setInst i { changed with op := op }).insts[k]? = d.func.insts[k]? := fun k hk =>
    Func.getElem?_insts_setInst_of_ne (hi.trans_le hk).ne' _
  have hnamed : ∀ k, before.insts.size ≤ k → d.NamesRoutine k →
      NamesRoutine { d with func := d.func.setInst i { changed with op := op } } k := by
    rintro k hk ⟨loaded, symbol, name, hloaded, hnames⟩
    exact ⟨loaded, symbol, name, (hkept k hk).trans hloaded, hnames⟩
  refine ⟨⟨?_, fun k instruction hk hinst => ?_⟩, fun j instruction callee args hinst hcall => ?_⟩
  · rw [Func.size_insts_setInst]
    exact h.reading.size
  · exact h.reading.reads k instruction hk ((hkept k hk).symm.trans hinst)
  · by_cases hj : j = i
    · subst hj
      rw [Func.getElem?_insts_setInst_self (Array.getElem?_eq_some_iff.mp hchanged).1] at hinst
      obtain rfl := Option.some.inj hinst
      obtain ⟨k, hcallee, hk, hnames⟩ := hop callee args hcall
      exact .inr ⟨k, hcallee, hk, hnamed k hk hnames⟩
    · rw [Func.getElem?_insts_setInst_of_ne hj] at hinst
      rcases h.calls j instruction callee args hinst hcall with hold | ⟨k, hcallee, hk, hnames⟩
      · exact .inl hold
      · exact .inr ⟨k, hcallee, hk, hnamed k hk hnames⟩

/-! ### Visits -/

theorem callCheck (h : d.Adds before near) (hptr : near access.ptr)
    (hd' : d.callCheck config site access = .ok d') : d'.Adds before near := by
  have hsize := h.reading.size
  unfold Draft.callCheck at hd'
  obtain ⟨i, -, hd'⟩ := bind_eq_ok hd'
  obtain ⟨huse, hsymbol, hhas⟩ := h.use (EntryPoint.check access.kind access.size config.recover)
    (accessSignature access.size)
  obtain ⟨f, hf, hd'⟩ := bind_eq_ok hd'
  cases hd'
  refine huse.line ?_ ?_ hf
  · split
    · exact .cons (by simp) (.call hsymbol hhas _)
    · exact .cons (by simp) (.cons (by simp) (.call hsymbol hhas _))
  · split <;> simp [Op.Reads, Op.operands, hptr] <;> omega

theorem inlineCheck (h : d.Adds before near) (hptr : near access.ptr)
    (hd' : d.inlineCheck config site access = .ok d') : d'.Adds before near := by
  have hsize := h.reading.size
  have hnew := h.reading.not_below
  unfold Draft.inlineCheck at hd'
  obtain ⟨i, -, hd'⟩ := bind_eq_ok hd'
  obtain ⟨huse, hsymbol, hhas⟩ := h.use (EntryPoint.report access.kind access.size config.recover)
    (accessSignature access.size)
  dsimp only at hd'
  split at hd'
  · obtain ⟨f, hf, hd'⟩ := bind_eq_ok hd'
    obtain ⟨⟨g, cont⟩, hg, hd'⟩ := bind_eq_ok hd'
    cases hd'
    have hline := huse.line (.of_no_call (by simp)) (by simp [Op.Reads, Op.operands, hptr]) hf
    exact hline.check hsymbol hhas (hnew 0) (by simpa using hnew 0) hg
  · obtain ⟨f, hf, hd'⟩ := bind_eq_ok hd'
    obtain ⟨⟨g, cont⟩, hg, hd'⟩ := bind_eq_ok hd'
    obtain ⟨⟨g', cont'⟩, hg', hd'⟩ := bind_eq_ok hd'
    cases hd'
    have hargs : ∀ v ∈ [Value.inst d.func.insts.size, Value.inst (d.func.insts.size + 3)],
        ¬ v.Below before.insts.size := by
      simpa using And.intro (hnew 0) (hnew 3)
    have hline := huse.line (.of_no_call (by simp))
      (by simp [Op.Reads, Op.operands, hptr]; omega) hf
    exact (hline.check hsymbol hhas (hnew 0) hargs hg).check hsymbol hhas (hnew 2) hargs hg'

theorem replaceBulk (h : d.Adds before near) (hsite : site.inst < before.insts.size)
    (hd' : d.replaceBulk site = .ok d') : d'.Adds before near := by
  unfold Draft.replaceBulk at hd'
  obtain ⟨i, -, hd'⟩ := bind_eq_ok hd'
  split at hd'
  · rename_i kind dest source length hop
    obtain ⟨huse, hsymbol, hhas⟩ := h.use (EntryPoint.bulk kind) (bulkSignature kind)
    generalize d.use _ _ = used at hd' huse hsymbol hhas
    obtain ⟨d₁, routine⟩ := used
    dsimp only at hd' huse hsymbol hhas
    obtain ⟨f, hf, hd'⟩ := bind_eq_ok hd'
    obtain ⟨g, hg, hd'⟩ := bind_eq_ok hd'
    cases hd'
    have hline := huse.line (.of_no_call (by simp)) (by simp [Op.Reads, Op.operands]) hf
    refine hline.setOp hsite ?_ hg
    intro callee args hcall
    cases hcall
    refine ⟨d₁.func.insts.size, rfl, huse.reading.size, ⟨.symbolAddr routine,
      (Op.symbolAddr routine).addedTy, i.origin, true⟩, routine, _, ?_, rfl, hsymbol, hhas⟩
    obtain ⟨blk, -, -, rfl⟩ := Func.insertCode_eq_ok hf
    exact Func.getElem?_insts_graft_add 0
  · cases hd'
    exact h

theorem visitAll {sites : List Site} (h : d.Adds before near)
    (hsites : ∀ site ∈ sites, site.inst < before.insts.size ∧
      ∀ access, site.kind = .check access → near access.ptr)
    (hd' : d.visitAll config outlined sites = .ok d') : d'.Adds before near := by
  refine foldlM_keeps (Adds before near) (fun d d' site hsite h hvisit => ?_) h hd'
  obtain ⟨hinst, hptr⟩ := hsites site (List.mem_reverse.mp hsite)
  replace hvisit := (require_bind_eq_ok hvisit).2
  unfold handle at hvisit
  split at hvisit
  · rename_i access hkind
    split at hvisit
    · exact h.callCheck (hptr access hkind) hvisit
    · exact h.inlineCheck (hptr access hkind) hvisit
  · exact h.replaceBulk hinst hvisit

/-! ### Frames -/

theorem writeCode (h : d.Adds before near) (n : InstId) (base : Value) (write : ShadowWrite) :
    (d.writeCode n base write).1.Adds before near ∧
      CallsRoutines (d.writeCode n base write).1.symbols (d.writeCode n base write).1.uses n
        (d.writeCode n base write).2 := by
  cases write with
  | store offset bytes => exact ⟨h, .of_no_call (by simp [Draft.writeCode])⟩
  | fill offset length value =>
      obtain ⟨huse, hsymbol, hhas⟩ := h.use (EntryPoint.setShadow value) ⟨[.int, .int], none⟩
      exact ⟨huse, .cons (by simp) (.cons (by simp) (.cons (by simp) (.call hsymbol hhas _)))⟩

theorem has_writesCode {n : InstId} {base : Value} {writes : List ShadowWrite} {name : String}
    (h : d.uses.Has name) : (d.writesCode n base writes).1.uses.Has name := by
  induction writes generalizing d n with
  | nil => exact h
  | cons write rest ih =>
      apply ih
      cases write with
      | store => exact h
      | fill => exact RuntimeUses.has_add.mpr (.inr h)

theorem writesCode (h : d.Adds before near) (n : InstId) (base : Value)
    (writes : List ShadowWrite) :
    (d.writesCode n base writes).1.Adds before near ∧
      CallsRoutines (d.writesCode n base writes).1.symbols (d.writesCode n base writes).1.uses n
        (d.writesCode n base writes).2 := by
  induction writes generalizing d n with
  | nil => exact ⟨h, .of_no_call (by simp [Draft.writesCode])⟩
  | cons write rest ih =>
      obtain ⟨hone, hops⟩ := h.writeCode n base write
      obtain ⟨hothers, hmore⟩ := ih hone (n + (d.writeCode n base write).2.length)
      refine ⟨hothers, (hops.mono ?_ fun name hname => has_writesCode hname).append hmore⟩
      exact (writesCode_extends _ _ _ _).symbols

/-- Code that writes to the shadow is put into a block behind other code. -/
theorem insertWrites (h : d.Adds before near) {n : InstId} {base : Value}
    {writes : List ShadowWrite} {origin : Origin} (ops : List Op)
    (hn : n = d.func.insts.size + ops.length) (hops : ∀ callee args, Op.call callee args ∉ ops)
    (hreads : ∀ op ∈ ops, op.Reads before.insts.size near) (hbase : ¬ base.Below before.insts.size)
    (hf : (d.writesCode n base writes).1.func.insertCode b pos
      (addedCode origin (ops ++ (d.writesCode n base writes).2)) = .ok f) :
    Adds before near { (d.writesCode n base writes).1 with func := f } := by
  obtain ⟨hwrites, hcode⟩ := h.writesCode n base writes
  obtain ⟨hfunc, -, hcoded⟩ := d.writesCode_spec n base writes
  refine hwrites.line ((CallsRoutines.of_no_call hops).append ?_)
    (List.forall_mem_append.mpr ⟨hreads, hcoded.reads ?_ hbase⟩) hf
  · rwa [hfunc, ← hn]
  · rw [hn]
    exact h.reading.size.trans (Nat.le_add_right _ _)

theorem prologue {frame : Frame} {inScope atEntry : List UInt8} {symbol : SymbolId}
    {code : FrameCode} (h : d.Adds before near)
    (hd' : FrameCode.prologue config frame inScope atEntry symbol d = .ok (d', code)) :
    d'.Adds before near := by
  have hsize := h.reading.size
  unfold FrameCode.prologue at hd'
  obtain ⟨pos, -, hd'⟩ := bind_eq_ok hd'
  obtain ⟨writes, -, hd'⟩ := bind_eq_ok hd'
  obtain ⟨f, hf, hd'⟩ := bind_eq_ok hd'
  cases hd'
  refine h.insertWrites _ rfl (by simp [prologueCode, shadowAddrCode]) ?_
    (h.reading.not_below 15) hf
  simp [prologueCode, shadowAddrCode, Op.Reads, Op.operands]
  omega

theorem placeSlots {code : FrameCode} {slots : List Slot} {vars : List StackVariable} {g : Func}
    (h : Adds before near { d with func := f })
    (hslots : ∀ slot ∈ slots, slot.inst < before.insts.size)
    (hg : vars.foldlM (code.placeSlot slots) f = .ok g) : Adds before near { d with func := g } :=
      by
  refine foldlM_keeps (fun f => Adds before near { d with func := f })
    (fun f g var _ h hplace => ?_) h hg
  unfold FrameCode.placeSlot at hplace
  split at hplace
  · cases hplace
    exact h
  · rename_i slot hslot
    split at hplace
    · cases hplace
      exact h
    · obtain ⟨f₁, hf₁, hplace⟩ := bind_eq_ok hplace
      obtain ⟨blk, -, -, rfl⟩ := Func.insertCode_eq_ok hf₁
      have hcode : CallsRoutines d.symbols d.uses f.insts.size
          ([{ op := .iconst var.offset, ty := .int }].map Instruction.op) := .of_no_call (by simp)
      exact (h.graft hcode (by simp [Op.Reads, Op.operands])).setOp
        (hslots slot (List.mem_of_getElem? hslot)) (by simp) hplace

theorem placeMarker {code : FrameCode} {marker : Marker} (h : d.Adds before near)
    (hbase : ¬ code.shadowBase.Below before.insts.size)
    (hd' : code.placeMarker d marker = .ok d') : d'.Adds before near := by
  unfold FrameCode.placeMarker at hd'
  split at hd'
  · obtain ⟨granules, -, hd'⟩ := bind_eq_ok hd'
    split at hd'
    · cases hd'
      exact h
    · obtain ⟨i, -, hd'⟩ := bind_eq_ok hd'
      obtain ⟨writes, -, hd'⟩ := bind_eq_ok hd'
      obtain ⟨f, hf, hd'⟩ := bind_eq_ok hd'
      cases hd'
      exact h.insertWrites [] rfl (by simp) (by simp) hbase hf
  · cases hd'
    exact h

theorem placeExit {code : FrameCode} {exit : BlockId × Nat} (h : d.Adds before near)
    (hbase : ¬ code.base.Below before.insts.size)
    (hshadow : ¬ code.shadowBase.Below before.insts.size)
    (hd' : code.placeExit d exit = .ok d') : d'.Adds before near := by
  have hsize := h.reading.size
  unfold FrameCode.placeExit at hd'
  obtain ⟨writes, -, hd'⟩ := bind_eq_ok hd'
  obtain ⟨f, hf, hd'⟩ := bind_eq_ok hd'
  cases hd'
  refine h.insertWrites _ rfl (by simp) ?_ hshadow hf
  simp [Op.Reads, Op.operands, hbase]
  omega

theorem addFrame {name : String} {slots : List Slot} {frame : Frame} {description : Global}
    (h : d.Adds before near) (hslots : ∀ slot ∈ slots, slot.inst < before.insts.size)
    (hd' : d.addFrame config name slots frame = .ok (d', description)) : d'.Adds before near := by
  obtain ⟨atEntry, markers, symbol, symbols, d₁, code, f₂, d₃, exits, -, -, hgrows, -, hprologue,
    hplaced, hmarkers, -, hexits, -⟩ := addFrame_eq_ok hd'
  obtain ⟨rfl, -⟩ := FrameCode.prologue_eq_ok hprologue
  have hbase := h.reading.not_below 0
  have hshadow := h.reading.not_below 15
  have hnamed : Adds before near { d with symbols := symbols } := h.mono rfl hgrows fun _ => id
  have hsecond := (hnamed.prologue hprologue).placeSlots hslots hplaced
  have hthird : d₃.Adds before near := foldlM_keeps (Adds before near)
    (fun _ _ _ _ h hmarker => h.placeMarker hshadow hmarker) hsecond hmarkers
  exact foldlM_keeps (Adds before near) (fun _ _ _ _ h hexit => h.placeExit hbase hshadow hexit)
    hthird hexits

end Adds

end Draft

/-! ### Runs over a function -/

namespace Module.Surveyed

variable {config : Config} {m : Module} {id : FuncId} {store : Annotations} {f : Func}
  {name : String} {survey : Survey} {slots : List Slot} {d d' : Draft} {near : Value → Prop}

theorem adds_visits (h : Surveyed config m id store f name survey slots d)
    (hnear : ∀ site ∈ survey.sites, ∀ access, site.kind = .check access → near access.ptr) :
    d.Adds f near := by
  obtain ⟨marked, -, hsurvey⟩ := h.judged
  refine (Draft.Adds.refl f m.symbols near).visitAll (fun site hsite => ⟨?_, hnear site hsite⟩)
    h.visits
  obtain ⟨-, i, hi, -⟩ := Judge.survey_suits hsurvey site hsite
  exact (Array.getElem?_eq_some_iff.mp hi).1

theorem adds_addFrame {frame : Frame} {description : Global}
    (h : Surveyed config m id store f name survey slots d)
    (hnear : ∀ site ∈ survey.sites, ∀ access, site.kind = .check access → near access.ptr)
    (hd' : d.addFrame config name slots frame = .ok (d', description)) : d'.Adds f near := by
  refine (h.adds_visits hnear).addFrame (fun slot hslot => ?_) hd'
  obtain ⟨i, hi, -⟩ := Func.isSlot_of_slots h.slots slot hslot
  exact (Array.getElem?_eq_some_iff.mp hi).1

end Module.Surveyed

end Redzone
