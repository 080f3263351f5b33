import Redzone.Proofs.Edits.Step
import Redzone.Proofs.Visits

/-!
# The visits of a survey are edits

A checking routine is called by a line of code, a check follows the line that takes the address of
the access, and an operation in bulk is replaced behind the line that takes the address of its twin.
What these edits read is offered where they are made: the operands of the visited instruction, and
the results of the line in front.

`Edited` is the invariant of an instrumentation: the function was made by edits from a sound one,
and so it is sound itself.  `Draft.Ready.edited` says that the visits of all sites keep it.
-/

namespace Redzone

theorem SymbolTable.GrowsTo.size_le {first second : SymbolTable} (h : first.GrowsTo second) :
    first.size ≤ second.size := by
  rcases Nat.eq_zero_or_pos first.names.size with hzero | hpos
  · exact hzero.trans_le (Nat.zero_le _)
  · have hlast := h (first.names.size - 1) _ (Array.getElem?_eq_getElem (by omega))
    have hlt : first.names.size - 1 < second.names.size :=
      (Array.getElem?_eq_some_iff.mp hlast).1
    exact Nat.le_of_pred_lt hlt

/-- A function that was made by edits from the function `before`, with the names it refers to. -/
structure Draft.Edited (ordered : Prop) (mapping : ShadowMapping) (before : Func) (d : Draft) :
    Prop where
  edits : Func.Edits ordered before.insts.size mapping d.symbols before d.func
  sound : d.func.Sound d.symbols
  orderly : ordered → d.func.DefinedBeforeUse

section

variable {ordered : Prop} {mapping : ShadowMapping} {before : Func} {d d' : Draft}

theorem Draft.Edited.step (h : d.Edited ordered mapping before)
    (hgrows : d.symbols.GrowsTo d'.symbols)
    (hedit : Func.Edit ordered before.insts.size mapping d'.symbols d.func d'.func) :
    d'.Edited ordered mapping before where
  edits := (h.edits.lift id fun _ _ hedit => hedit.mono hgrows.size_le).tail hedit
  sound := hedit.sound (h.sound.mono hgrows.size_le)
  orderly hordered :=
    hedit.definedBeforeUse (h.sound.mono hgrows.size_le) hordered (h.orderly hordered)

/-- An edit that needs no new name. -/
theorem Draft.Edited.edit {g : Func} (h : d.Edited ordered mapping before)
    (hedit : Func.Edit ordered before.insts.size mapping d.symbols d.func g) :
    Draft.Edited ordered mapping before { d with func := g } :=
  h.step (.refl _) hedit

theorem Draft.Edited.grow (h : d.Edited ordered mapping before)
    (hgrows : d.symbols.GrowsTo d'.symbols) (hfunc : d'.func = d.func) :
    d'.Edited ordered mapping before where
  edits := hfunc ▸ h.edits.lift id fun _ _ hedit => hedit.mono hgrows.size_le
  sound := hfunc ▸ h.sound.mono hgrows.size_le
  orderly hordered := hfunc ▸ h.orderly hordered

end

/-! ### What is offered behind an edit -/

namespace Func

variable {ordered : Prop} {f g : Func} {symbols : SymbolTable} {b pos i : Nat} {v : Value} {t : Ty}

theorem Sound.instruction (hsound : f.Sound symbols) {instruction : Instruction}
    (hat : f.At b pos i) (hinst : f.insts[i]? = some instruction) :
    (f.scope symbols).instruction instruction = .ok [] := by
  obtain ⟨instruction', hinst', hflawless⟩ := hsound.flawless i hat.mem_listed
  obtain rfl := Option.some.inj (hinst.symm.trans hinst')
  exact hflawless

theorem shape_of_instruction {instruction : Instruction}
    (h : (f.scope symbols).instruction instruction = .ok [])
    (hplain : instruction.op.isTerminator = false) :
    (∀ v ∈ instruction.op.operands, ∃ t, f.Has v t) ∧ (f.scope symbols).shape instruction = [] := by
  unfold Scope.instruction at h
  split at h
  · rename_i hop
    simp [hop, Op.isTerminator] at hplain
  · rename_i hop
    simp [hop, Op.isTerminator] at hplain
  · have hnil := Except.ok.inj h
    simp only [List.append_eq_nil_iff, List.flatMap_eq_nil_iff] at hnil
    exact ⟨fun v hv => operand_eq_nil_iff.mp (hnil.1 v hv), hnil.2⟩

theorem offers_operand {instruction : Instruction} (hsound : f.Sound symbols)
    (horderly : ordered → f.DefinedBeforeUse) (hat : f.At b pos i)
    (hinst : f.insts[i]? = some instruction) (hplain : instruction.op.isTerminator = false)
    (hv : v ∈ instruction.op.operands) : Typing.Knows (f.Offers ordered b pos) v := by
  obtain ⟨t, ht⟩ := (shape_of_instruction (hsound.instruction hat hinst) hplain).1 v hv
  exact ⟨t, ht, fun hordered => horderly hordered b pos i instruction hat hinst v hv⟩

/-- The pointer of an access is a pointer. -/
theorem offers_ptr {instruction : Instruction} {access : MemAccess} (hsound : f.Sound symbols)
    (horderly : ordered → f.DefinedBeforeUse) (hat : f.At b pos i)
    (hinst : f.insts[i]? = some instruction) (haccess : instruction.op.access? = some access) :
    Typing.IsPtr (f.Offers ordered b pos) access.ptr := by
  have hplain := (Op.proceeds_of_access haccess).1
  obtain ⟨t, ht⟩ := offers_operand hsound horderly hat hinst hplain (Draft.ptr_mem_operands haccess)
  refine ⟨t, ht, ?_⟩
  have hshape := (shape_of_instruction (hsound.instruction hat hinst) hplain).2
  have hty := ht.has.2
  cases hop : instruction.op <;>
    simp only [hop, Op.access?, Option.some.injEq, reduceCtorEq] at haccess
  all_goals
    subst haccess
    simp_all [Scope.shape, Scope.hasPtrTy]

variable {code : List Instruction}

theorem at_behind_line (hat : f.At b pos i) (hinsert : f.insertCode b pos code = .ok g) :
    g.At b (pos + code.length) i :=
  (at_insertCode hinsert).mpr (.inr (.inr ⟨pos, le_rfl, rfl, rfl, hat⟩))

theorem Available.line {c q : Nat} (hclosed : f.Closed)
    (hcode : ∀ instruction ∈ code, instruction.op.successors = [])
    (hinsert : f.insertCode b pos code = .ok g)
    (h : f.Available (lineBack b pos code.length c q).1 (lineBack b pos code.length c q).2 v) :
    g.Available c q v :=
  (Retrace.ofLine hclosed hinsert hcode [] (by simp) (by simp)).available h

theorem Offers.line (h : f.Offers ordered b pos v t) (hclosed : f.Closed)
    (hcode : ∀ instruction ∈ code, instruction.op.successors = [])
    (hinsert : f.insertCode b pos code = .ok g) :
    g.Offers ordered b (pos + code.length) v t where
  has := (extends_insertCode hinsert).has h.has
  available hordered := by
    apply Available.line hclosed hcode hinsert
    rw [lineBack_within le_rfl]
    exact h.available hordered

/-- Behind a line its results can be read. -/
theorem offers_result {k : Nat} {instruction : Instruction} (hclosed : f.Closed)
    (hcode : ∀ instruction ∈ code, instruction.op.successors = [])
    (hinsert : f.insertCode b pos code = .ok g) (hk : code[k]? = some instruction)
    (ordered : Prop) :
    g.Offers ordered b (pos + code.length) (.inst (f.insts.size + k)) instruction.ty where
  has := by
    have hlt := (List.getElem?_eq_some_iff.mp hk).1
    have hat : g.At b (pos + k) (f.insts.size + k) :=
      (at_insertCode hinsert).mpr (.inr (.inl ⟨k, hlt, rfl, rfl, rfl⟩))
    exact has_inst_iff.mpr ⟨hat.mem_listed, instruction,
      (getElem?_insts_insertCode_add hinsert k).trans hk, rfl⟩
  available hordered := by
    have hlt := (List.getElem?_eq_some_iff.mp hk).1
    apply (Retrace.ofLine hclosed hinsert hcode [] (by simp) (by simp)).available_fresh
    simp only [Retrace.ofLine, if_true, List.mem_range'_1]
    omega

variable {c : Check} {addr : Value} {size cont : Nat}

theorem at_behind_check (hat : f.At b pos i)
    (hinsert : c.insert f b pos addr size = .ok (g, cont)) : g.At cont 0 i := by
  obtain ⟨blk, hblk, hpos, rfl, rfl⟩ := Check.insert_eq_ok hinsert
  refine (at_graft hblk).mpr (.inr (.inr ⟨0, _, rfl, rfl, ?_⟩))
  rw [List.getElem?_drop, Nat.add_zero]
  exact (at_iff hblk).mp hat

theorem Offers.check (h : f.Offers ordered b pos v t) (hclosed : f.Closed)
    (hinsert : c.insert f b pos addr size = .ok (g, cont)) : g.Offers ordered cont 0 v t where
  has := (Check.extends_insert hinsert).has h.has
  available hordered := by
    obtain ⟨hb, rfl⟩ := Check.insert_places hinsert
    apply (Retrace.ofCheck hclosed hinsert).available
    simp only [Retrace.ofCheck, Check.backOf_cont hb, Nat.add_zero]
    exact h.available hordered

theorem NoParam.line (h : f.NoParam i) (hinsert : f.insertCode b pos code = .ok g) :
    g.NoParam i := by
  obtain ⟨instruction, hinst, hplain⟩ := h
  exact ⟨instruction, getElem?_insts_insertCode hinst hinsert, hplain⟩

theorem NoParam.check (h : f.NoParam i) (hinsert : c.insert f b pos addr size = .ok (g, cont)) :
    g.NoParam i := by
  obtain ⟨instruction, hinst, hplain⟩ := h
  refine ⟨instruction, ?_, hplain⟩
  obtain ⟨blk, hblk, -, -, rfl⟩ := Check.insert_eq_ok hinsert
  rwa [getElem?_insts_graft_of_lt (Array.getElem?_eq_some_iff.mp hinst).1]

end Func

/-! ### Visits -/

namespace Draft

variable {ordered : Prop} {before : Func} {config : Config} {outlined : Bool} {d d' : Draft}
  {site : Site} {access : MemAccess} {i : Instruction}

theorem contains_use (d : Draft) (name : String) (signature : Signature) :
    (d.use name signature).1.symbols.contains (d.use name signature).2 = true :=
  decide_eq_true (Array.getElem?_eq_some_iff.mp (d.symbols.names_intern name)).1

theorem Edited.use (h : d.Edited ordered config.mapping before) (name : String)
    (signature : Signature) :
    Edited ordered config.mapping before (d.use name signature).1 :=
  h.grow (d.symbols.growsTo_intern name) rfl

theorem Edited.callCheck (h : d.Edited ordered config.mapping before)
    (hat : d.func.At site.block site.pos site.inst)
    (hinst : d.func.insts[site.inst]? = some i) (haccess : i.op.access? = some access)
    (hvisit : d.callCheck config site access = .ok d') :
    d'.Edited ordered config.mapping before := by
  obtain ⟨i', -, hvisit⟩ := bind_eq_ok hvisit
  have hroutine := d.contains_use (EntryPoint.check access.kind access.size config.recover)
    (accessSignature access.size)
  have hused := h.use (EntryPoint.check access.kind access.size config.recover)
    (accessSignature access.size)
  simp only at hvisit
  obtain ⟨g, hg, hvisit⟩ := bind_eq_ok hvisit
  obtain rfl := Except.ok.inj hvisit
  refine hused.edit (.line hat ?_ ?_ hg)
  · exact ⟨i, hinst, (Op.proceeds_of_access haccess).2⟩
  · exact typed_callOps i'.origin (Func.offers_ptr h.sound h.orderly hat hinst haccess) hroutine

/-- One check behind the line that takes the address. -/
theorem Edited.checkOnce {b pos cont : Nat} {inst : InstId} {f₁ f₂ : Func} {c : Check}
    {recover : Bool} {routine : SymbolId} {origin : Origin}
    (h : d.Edited ordered config.mapping before) (hat : d.func.At b pos inst)
    (hplain : d.func.NoParam inst)
    (hptr : Typing.IsPtr (d.func.Offers ordered b pos) access.ptr)
    (hroutine : d.symbols.contains routine = true)
    (hc : c = ⟨config.mapping, recover, routine, [.inst d.func.insts.size], origin⟩)
    (hline : d.func.insertCode b pos (addedCode origin [.ptrToAddr access.ptr]) = .ok f₁)
    (hcheck : c.insert f₁ b (pos + 1) (.inst d.func.insts.size) access.size = .ok (f₂, cont)) :
    Edited ordered config.mapping before { d with func := f₂ } := by
  have hcode : CodeTyped d.symbols (d.func.Offers ordered b pos) d.func.insts.size
      (addedCode origin [.ptrToAddr access.ptr]) := typed_ptrToAddr origin hptr
  subst hc
  have haddr : f₁.Offers ordered b (pos + 1) (.inst d.func.insts.size) .int :=
    Func.offers_result h.sound.closed hcode.successors hline (k := 0) rfl ordered
  refine (h.edit (.line hat hplain hcode hline)).edit
    (.check (Func.at_behind_line hat hline) (hplain.line hline) rfl hroutine haddr ?_ hcheck)
  rw [List.forall_mem_singleton]
  exact ⟨_, haddr⟩

/-- Two checks behind the line that takes the two addresses; the second one stands where the first
one goes on. -/
theorem Edited.checkTwice {b pos cont cont' : Nat} {inst : InstId} {f₁ f₂ f₃ : Func} {c : Check}
    {recover : Bool} {routine : SymbolId} {origin : Origin}
    (h : d.Edited ordered config.mapping before) (hat : d.func.At b pos inst)
    (hplain : d.func.NoParam inst)
    (hptr : Typing.IsPtr (d.func.Offers ordered b pos) access.ptr)
    (hroutine : d.symbols.contains routine = true)
    (hc : c = ⟨config.mapping, recover, routine,
      [.inst d.func.insts.size, .inst (d.func.insts.size + 3)], origin⟩)
    (hline : d.func.insertCode b pos (addedCode origin (endsOps access d.func.insts.size)) =
      .ok f₁)
    (hfirst : c.insert f₁ b (pos + 4) (.inst d.func.insts.size) 1 = .ok (f₂, cont))
    (hsecond : c.insert f₂ cont 0 (.inst (d.func.insts.size + 2)) 1 = .ok (f₃, cont')) :
    Edited ordered config.mapping before { d with func := f₃ } := by
  have hcode : CodeTyped d.symbols (d.func.Offers ordered b pos) d.func.insts.size
      (addedCode origin (endsOps access d.func.insts.size)) := typed_endsOps origin hptr
  subst hc
  have haddr : f₁.Offers ordered b (pos + 4) (.inst d.func.insts.size) .int :=
    Func.offers_result h.sound.closed hcode.successors hline (k := 0) rfl ordered
  have hlast : f₁.Offers ordered b (pos + 4) (.inst (d.func.insts.size + 2)) .int :=
    Func.offers_result h.sound.closed hcode.successors hline (k := 2) rfl ordered
  have hsize : f₁.Offers ordered b (pos + 4) (.inst (d.func.insts.size + 3)) .int :=
    Func.offers_result h.sound.closed hcode.successors hline (k := 3) rfl ordered
  have hat₁ : f₁.At b (pos + 4) inst := Func.at_behind_line hat hline
  have hplain₁ := hplain.line hline
  have hedited₁ := h.edit (.line hat hplain hcode hline)
  have hedited₂ := hedited₁.edit (.check hat₁ hplain₁ rfl hroutine haddr (by
    rw [List.forall_mem_cons, List.forall_mem_singleton]
    exact ⟨⟨_, haddr⟩, _, hsize⟩) hfirst)
  have hclosed₁ := hedited₁.sound.closed
  refine hedited₂.edit (.check (Func.at_behind_check hat₁ hfirst) (hplain₁.check hfirst) rfl
    hroutine (hlast.check hclosed₁ hfirst) ?_ hsecond)
  rw [List.forall_mem_cons, List.forall_mem_singleton]
  exact ⟨⟨_, haddr.check hclosed₁ hfirst⟩, _, hsize.check hclosed₁ hfirst⟩

theorem Edited.inlineCheck (h : d.Edited ordered config.mapping before)
    (hat : d.func.At site.block site.pos site.inst)
    (hinst : d.func.insts[site.inst]? = some i) (haccess : i.op.access? = some access)
    (hvisit : d.inlineCheck config site access = .ok d') :
    d'.Edited ordered config.mapping before := by
  have hplain : d.func.NoParam site.inst :=
    ⟨i, hinst, (Op.proceeds_of_access haccess).2⟩
  have hptr := Func.offers_ptr h.sound h.orderly hat hinst haccess
  obtain ⟨i', -, hvisit⟩ := bind_eq_ok hvisit
  have hroutine := d.contains_use (EntryPoint.report access.kind access.size config.recover)
    (accessSignature access.size)
  have hused := h.use (EntryPoint.report access.kind access.size config.recover)
    (accessSignature access.size)
  have hfunc := d.func_use (EntryPoint.report access.kind access.size config.recover)
    (accessSignature access.size)
  simp only at hvisit
  generalize d.use (EntryPoint.report access.kind access.size config.recover)
    (accessSignature access.size) = used at hvisit hroutine hused hfunc
  rw [← hfunc] at hat hplain hptr
  split at hvisit
  · obtain ⟨f₁, hline, hvisit⟩ := bind_eq_ok hvisit
    obtain ⟨⟨f₂, cont⟩, hcheck, hvisit⟩ := bind_eq_ok hvisit
    obtain rfl := Except.ok.inj hvisit
    exact hused.checkOnce hat hplain hptr hroutine rfl hline hcheck
  · obtain ⟨f₁, hline, hvisit⟩ := bind_eq_ok hvisit
    obtain ⟨⟨f₂, cont⟩, hfirst, hvisit⟩ := bind_eq_ok hvisit
    obtain ⟨⟨f₃, cont'⟩, hsecond, hvisit⟩ := bind_eq_ok hvisit
    obtain rfl := Except.ok.inj hvisit
    exact hused.checkTwice hat hplain hptr hroutine rfl hline hfirst hsecond

/-- A call takes the place of an operation in bulk, behind the line that takes the address of the
twin. -/
theorem Edited.replaceBulk {kind : Bulk} {dest source length : Value}
    (h : d.Edited ordered config.mapping before)
    (hat : d.func.At site.block site.pos site.inst) (hlt : site.inst < before.insts.size)
    (hinst : d.func.insts[site.inst]? = some i) (hop : i.op = .bulk kind dest source length)
    (hvisit : d.replaceBulk site = .ok d') : d'.Edited ordered config.mapping before := by
  have hkept : i.op.isTerminator = false ∧ i.op.isParam = false := by
    rw [hop]
    exact ⟨rfl, rfl⟩
  have hroutine := d.contains_use (EntryPoint.bulk kind) (bulkSignature kind)
  have hused := h.use (EntryPoint.bulk kind) (bulkSignature kind)
  obtain ⟨i', hinst', hvisit⟩ := bind_eq_ok hvisit
  obtain rfl := Option.some.inj (hinst.symm.trans (Func.inst_eq_ok hinst'))
  simp only [hop] at hvisit
  obtain ⟨f₁, hline, hvisit⟩ := bind_eq_ok hvisit
  obtain ⟨f₂, hset, hvisit⟩ := bind_eq_ok hvisit
  obtain rfl := Except.ok.inj hvisit
  have hcode : CodeTyped (d.use (EntryPoint.bulk kind) (bulkSignature kind)).1.symbols
      (d.func.Offers ordered site.block site.pos) d.func.insts.size
      (addedCode i.origin [.symbolAddr (d.use (EntryPoint.bulk kind) (bulkSignature kind)).2]) :=
    typed_symbolAddr i.origin hroutine
  have hcallee : f₁.Offers ordered site.block (site.pos + 1) (.inst d.func.insts.size) (.ptr 0) :=
    Func.offers_result h.sound.closed hcode.successors hline (k := 0) rfl ordered
  have hinst₁ : f₁.insts[site.inst]? = some i := Func.getElem?_insts_insertCode hinst hline
  obtain ⟨i₁, hi₁, rfl⟩ := Func.setOp_eq_ok hset
  obtain rfl := Option.some.inj (hinst₁.symm.trans hi₁)
  refine (hused.edit (.line hat ⟨i, hinst, hkept.2⟩ hcode hline)).edit
    (.replace (Func.at_behind_line hat hline) hlt hinst₁ hkept ?_ rfl)
  refine ⟨⟨_, hcallee, rfl⟩, fun v hv => ?_⟩
  obtain ⟨t, ht⟩ := Func.offers_operand h.sound h.orderly hat hinst hkept.1
    (show v ∈ i.op.operands by rw [hop]; exact hv)
  exact ⟨t, ht.line h.sound.closed hcode.successors hline⟩

/-- A visit is a sequence of edits. -/
theorem Edited.visit (h : d.Edited ordered config.mapping before) (hplace : site.InPlace d.func)
    (hsuits : site.SuitsKind d.func) (hlt : site.inst < before.insts.size)
    (hvisit : d.visit config outlined site = .ok d') : d'.Edited ordered config.mapping before := by
  obtain ⟨i, hinst, hsuits⟩ := hsuits
  replace hvisit := (require_bind_eq_ok hvisit).2
  unfold handle at hvisit
  cases hkind : site.kind with
  | check access =>
      rw [hkind] at hsuits hvisit
      cases outlined with
      | true => exact h.callCheck hplace hinst hsuits hvisit
      | false => exact h.inlineCheck hplace hinst hsuits hvisit
  | bulk =>
      rw [hkind] at hsuits hvisit
      cases hop : i.op with
      | bulk kind dest source length => exact h.replaceBulk hplace hlt hinst hop hvisit
      | _ => simp [hop, Op.isBulk] at hsuits

/-- The visits of all sites are edits. -/
theorem Ready.edited {sites : List Site} (hready : d.Ready sites)
    (h : d.Edited ordered config.mapping before)
    (hlt : ∀ site ∈ sites, site.inst < before.insts.size)
    (hvisits : sites.foldlM (visit config outlined) d = .ok d') :
    d'.Edited ordered config.mapping before := by
  induction sites generalizing d with
  | nil =>
      cases hvisits
      exact h
  | cons site rest ih =>
      obtain ⟨d₁, hd₁, hvisits⟩ := foldlM_cons_eq_ok hvisits
      have hplace := hready.place site List.mem_cons_self
      have hsuits := hready.suits site List.mem_cons_self
      obtain ⟨d₂, hd₂, -, hvisited⟩ := visit_visited config outlined hready.closed hplace hsuits
      obtain rfl : d₁ = d₂ := Except.ok.inj (hd₁.symm.trans hd₂)
      rw [List.forall_mem_cons] at hlt
      exact ih (hready.visited hvisited) (h.visit hplace hsuits hlt.1 hd₁) hlt.2 hvisits

end Draft

end Redzone
