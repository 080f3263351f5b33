import Redzone.Proofs.Order.Alike

/-!
# The same code from different symbol tables

Two drafts that start from the same function, each with a symbol table of its own, stay alike:
whatever is done to one of them and to the other makes code that is alike, calls the same routines
and makes the same names known (`Draft.Alike`).  This is shown for every piece of code that a visit
or a frame adds, from the names that it uses up to the whole function.
-/

namespace Redzone

namespace SymbolTable

variable {table : SymbolTable} {name other : String} {names : List String}

/-- The table when some names have been made known, one after the other. -/
def internAll (table : SymbolTable) (names : List String) : SymbolTable :=
  names.foldl (fun table name => (table.intern name).1) table

theorem internAll_append (more : List String) :
    table.internAll (names ++ more) = (table.internAll names).internAll more := List.foldl_append

theorem internAll_concat :
    ((table.internAll names).intern name).1 = table.internAll (names ++ [name]) :=
  (internAll_append [name]).symm

theorem mem_names_intern :
    other ∈ (table.intern name).1.names ↔ other ∈ table.names ∨ other = name := by
  unfold intern
  split
  · rename_i symbol hsymbol
    refine ⟨.inl, fun h => h.elim id fun heq => ?_⟩
    obtain ⟨hlt, hget, -⟩ := List.idxOf?_eq_some_iff.mp hsymbol
    rw [heq, ← hget]
    exact Array.mem_def.mpr (List.getElem_mem hlt)
  · exact Array.mem_push

theorem mem_names_internAll :
    other ∈ (table.internAll names).names ↔ other ∈ table.names ∨ other ∈ names := by
  induction names generalizing table with
  | nil => simp [internAll]
  | cons name rest ih =>
      change other ∈ ((table.intern name).1.internAll rest).names ↔ _
      rw [ih, mem_names_intern, List.mem_cons, or_assoc]

/-- The order of the names does not matter for which of them are known in the end. -/
theorem perm_internAll {more : List String} (h : names.Perm more) :
    (table.internAll names).names.toList.Perm (table.internAll more).names.toList := by
  refine (List.perm_ext_iff_of_nodup (SymbolTable.nodup _) (SymbolTable.nodup _)).mpr
    fun other => ?_
  rw [Array.mem_toList_iff, Array.mem_toList_iff, mem_names_internAll, mem_names_internAll,
    h.mem_iff]

end SymbolTable

/-- What holds of two things at the start and is kept by every pair of steps holds at the end. -/
theorem foldlM_rel {ε α β β' : Type} {R : β → β' → Prop} {next : β → α → Except ε β}
    {next' : β' → α → Except ε β'}
    (hstep : ∀ {b b' a c c'}, R b b' → next b a = .ok c → next' b' a = .ok c' → R c c')
    {l : List α} {b c : β} {b' c' : β'} (h : R b b') (hc : l.foldlM next b = .ok c)
    (hc' : l.foldlM next' b' = .ok c') : R c c' := by
  induction l generalizing b b' with
  | nil =>
      cases hc
      cases hc'
      exact h
  | cons a rest ih =>
      obtain ⟨b₁, hb₁, hc⟩ := foldlM_cons_eq_ok hc
      obtain ⟨b₁', hb₁', hc'⟩ := foldlM_cons_eq_ok hc'
      exact ih (hstep h hb₁ hb₁') hc hc'

/-! ### Checks -/

namespace Check

variable {first second : SymbolTable} {c : Check} {routine : SymbolId} {f f' g g' : Func}
  {b cont cont' : BlockId} {pos size : Nat} {addr : Value}

/-- A check that calls a routine by another number. -/
theorem alike_ops (hroutine : first.Same second c.routine routine) (n : InstId) :
    List.Forall₂ (Op.Alike first second) (c.ops n addr size cont)
      ({ c with routine := routine }.ops n addr size cont) := by
  have hprobe : ∀ op ∈ probeCode c.mapping n addr size, op.symbol? = none := by
    simp [probeCode, shadowAddrCode, Op.symbol?]
  have hslow : ∀ op ∈ c.slowPart n addr size cont, op.symbol? = none := by
    unfold slowPart slowCode
    split
    · split <;> simp [Op.symbol?]
    · simp
  have hreport : List.Forall₂ (Op.Alike first second) (c.reportPart n addr size cont)
      ({ c with routine := routine }.reportPart n addr size cont) := by
    refine .cons (.symbol hroutine) (.cons (.plain rfl) (.cons (.plain ?_) .nil))
    split <;> rfl
  exact List.rel_append (Op.alike_of_plain hprobe)
    (.cons (.plain rfl) (List.rel_append (Op.alike_of_plain hslow) hreport))

theorem alike_insert (h : f.Alike first second g) (hroutine : first.Same second c.routine routine)
    (hf : c.insert f b pos addr size = .ok (f', cont))
    (hg : { c with routine := routine }.insert g b pos addr size = .ok (g', cont')) :
    f'.Alike first second g' ∧ cont' = cont := by
  obtain ⟨blk, hblk, hpos, rfl, rfl⟩ := insert_eq_ok hf
  obtain ⟨blk', hblk', -, rfl, rfl⟩ := insert_eq_ok hg
  rw [h.blocks] at hblk'
  obtain rfl := Option.some.inj (hblk.symm.trans hblk')
  rw [h.size, h.blocks, h.blockArgs]
  exact ⟨h.graft hblk (c.insert_perm f blk pos addr size)
    (alike_addedCode c.origin (alike_ops hroutine _)), rfl⟩

end Check

/-! ### Visits -/

namespace Draft

/-- Drafts that have become of the same function, with symbol tables that have become of `first` and
`second`. -/
structure Alike (first second : SymbolTable) (d d' : Draft) : Prop where
  func : d.func.Alike d.symbols d'.symbols d'.func
  uses : d'.uses = d.uses
  symbols : ∃ names, d.symbols = first.internAll names ∧ d'.symbols = second.internAll names

variable {first second : SymbolTable} {config : Config} {outlined : Bool} {d d' e e' : Draft}
  {site : Site} {access : MemAccess}

namespace Alike

theorem set_func (h : Alike first second d d') {f g : Func}
    (hfunc : f.Alike d.symbols d'.symbols g) :
    Alike first second { d with func := f } { d' with func := g } := ⟨hfunc, h.uses, h.symbols⟩

/-- A name is made known to both. -/
theorem intern (h : Alike first second d d') (name : String) :
    Alike first second { d with symbols := (d.symbols.intern name).1 }
        { d' with symbols := (d'.symbols.intern name).1 } ∧
      (d.symbols.intern name).1.Same (d'.symbols.intern name).1 (d.symbols.intern name).2
        (d'.symbols.intern name).2 := by
  obtain ⟨names, hnames, hnames'⟩ := h.symbols
  refine ⟨⟨?_, h.uses, names ++ [name], ?_, ?_⟩,
    name, d.symbols.names_intern name, d'.symbols.names_intern name⟩
  · exact h.func.mono (d.symbols.growsTo_intern name) (d'.symbols.growsTo_intern name)
  · rw [hnames, SymbolTable.internAll_concat]
  · rw [hnames', SymbolTable.internAll_concat]

theorem use (h : Alike first second d d') (name : String) (signature : Signature) :
    Alike first second (d.use name signature).1 (d'.use name signature).1 ∧
      (d.use name signature).1.symbols.Same (d'.use name signature).1.symbols
        (d.use name signature).2 (d'.use name signature).2 := by
  obtain ⟨hinterned, hsame⟩ := h.intern name
  refine ⟨⟨hinterned.func, ?_, hinterned.symbols⟩, hsame⟩
  exact congrArg (fun uses : RuntimeUses => uses.add name signature) h.uses

theorem inst (h : Alike first second d d') {i : InstId} {instruction instruction' : Instruction}
    (hinst : d.func.inst i = .ok instruction) (hinst' : d'.func.inst i = .ok instruction') :
    instruction'.origin = instruction.origin ∧ instruction'.op.erased = instruction.op.erased := by
  have herased := h.func.inst (Func.inst_eq_ok hinst) (Func.inst_eq_ok hinst')
  simp only [Instruction.erased, Instruction.mk.injEq] at herased
  exact ⟨herased.2.2.1, herased.1⟩

end Alike

theorem alike_callCheck (h : Alike first second d d') (he : d.callCheck config site access = .ok e)
    (he' : d'.callCheck config site access = .ok e') : Alike first second e e' := by
  unfold callCheck at he he'
  obtain ⟨i, hi, he⟩ := bind_eq_ok he
  obtain ⟨i', hi', he'⟩ := bind_eq_ok he'
  obtain ⟨horigin, -⟩ := h.inst hi hi'
  obtain ⟨huse, hroutine⟩ := h.use (EntryPoint.check access.kind access.size config.recover)
    (accessSignature access.size)
  generalize d.use _ _ = used, d'.use _ _ = used' at he he' huse hroutine
  obtain ⟨d₁, routine⟩ := used
  obtain ⟨d₁', routine'⟩ := used'
  dsimp only at he he' huse hroutine
  rw [horigin, huse.func.size] at he'
  obtain ⟨f, hf, he⟩ := bind_eq_ok he
  obtain ⟨f', hf', he'⟩ := bind_eq_ok he'
  cases he
  cases he'
  refine huse.set_func (huse.func.insertCode (alike_addedCode i.origin ?_) hf hf')
  split
  · exact .cons (.plain rfl) (.cons (.symbol hroutine) (.cons (.plain rfl) .nil))
  · exact .cons (.plain rfl) (.cons (.plain rfl)
      (.cons (.symbol hroutine) (.cons (.plain rfl) .nil)))

theorem alike_inlineCheck (h : Alike first second d d')
    (he : d.inlineCheck config site access = .ok e)
    (he' : d'.inlineCheck config site access = .ok e') : Alike first second e e' := by
  unfold inlineCheck at he he'
  obtain ⟨i, hi, he⟩ := bind_eq_ok he
  obtain ⟨i', hi', he'⟩ := bind_eq_ok he'
  obtain ⟨horigin, -⟩ := h.inst hi hi'
  obtain ⟨huse, hroutine⟩ := h.use (EntryPoint.report access.kind access.size config.recover)
    (accessSignature access.size)
  generalize d.use _ _ = used, d'.use _ _ = used' at he he' huse hroutine
  obtain ⟨d₁, routine⟩ := used
  obtain ⟨d₁', routine'⟩ := used'
  dsimp only at he he' huse hroutine
  rw [horigin, huse.func.size] at he'
  split at he
  · rename_i hfixed
    rw [if_pos hfixed] at he'
    obtain ⟨f, hf, he⟩ := bind_eq_ok he
    obtain ⟨f', hf', he'⟩ := bind_eq_ok he'
    obtain ⟨⟨g, cont⟩, hg, he⟩ := bind_eq_ok he
    obtain ⟨⟨g', cont'⟩, hg', he'⟩ := bind_eq_ok he'
    cases he
    cases he'
    have hline := huse.func.insertCode
      (alike_addedCode i.origin (Op.alike_of_plain (by simp [Op.symbol?]))) hf hf'
    exact huse.set_func (Check.alike_insert hline hroutine hg hg').1
  · rename_i hfixed
    rw [if_neg hfixed] at he'
    obtain ⟨f, hf, he⟩ := bind_eq_ok he
    obtain ⟨f', hf', he'⟩ := bind_eq_ok he'
    obtain ⟨⟨g, cont⟩, hg, he⟩ := bind_eq_ok he
    obtain ⟨⟨g', cont'⟩, hg', he'⟩ := bind_eq_ok he'
    obtain ⟨⟨k, next⟩, hk, he⟩ := bind_eq_ok he
    obtain ⟨⟨k', next'⟩, hk', he'⟩ := bind_eq_ok he'
    cases he
    cases he'
    have hline := huse.func.insertCode
      (alike_addedCode i.origin (Op.alike_of_plain (by simp [Op.symbol?]))) hf hf'
    obtain ⟨hfirst, rfl⟩ := Check.alike_insert hline hroutine hg hg'
    exact huse.set_func (Check.alike_insert hfirst hroutine hk hk').1

theorem alike_replaceBulk (h : Alike first second d d') (he : d.replaceBulk site = .ok e)
    (he' : d'.replaceBulk site = .ok e') : Alike first second e e' := by
  unfold replaceBulk at he he'
  obtain ⟨i, hi, he⟩ := bind_eq_ok he
  obtain ⟨i', hi', he'⟩ := bind_eq_ok he'
  obtain ⟨horigin, herased⟩ := h.inst hi hi'
  split at he
  · rename_i kind dest source length hop
    have hop' : i'.op = .bulk kind dest source length :=
      Op.eq_of_erased_eq (by rw [herased, hop]) rfl
    rw [hop'] at he'
    dsimp only at he he'
    obtain ⟨huse, hroutine⟩ := h.use (EntryPoint.bulk kind) (bulkSignature kind)
    generalize d.use _ _ = used, d'.use _ _ = used' at he he' huse hroutine
    obtain ⟨d₁, routine⟩ := used
    obtain ⟨d₁', routine'⟩ := used'
    dsimp only at he he' huse hroutine
    rw [horigin, huse.func.size] at he'
    obtain ⟨f, hf, he⟩ := bind_eq_ok he
    obtain ⟨f', hf', he'⟩ := bind_eq_ok he'
    obtain ⟨g, hg, he⟩ := bind_eq_ok he
    obtain ⟨g', hg', he'⟩ := bind_eq_ok he'
    cases he
    cases he'
    have hline := huse.func.insertCode
      (alike_addedCode i.origin (.cons (.symbol hroutine) .nil)) hf hf'
    exact huse.set_func (hline.setOp rfl hg hg')
  · rename_i hop
    split at he'
    · rename_i kind dest source length hop'
      exact absurd (Op.eq_of_erased_eq (herased.symm.trans (by rw [hop'])) rfl)
        (hop kind dest source length)
    · cases he
      cases he'
      exact h

theorem alike_visitAll {sites : List Site} (h : Alike first second d d')
    (he : d.visitAll config outlined sites = .ok e)
    (he' : d'.visitAll config outlined sites = .ok e') : Alike first second e e' := by
  refine foldlM_rel (fun {d d' site e e'} h he he' => ?_) h he he'
  replace he := (require_bind_eq_ok he).2
  replace he' := (require_bind_eq_ok he').2
  unfold handle at he he'
  split at he
  · split at he
    · rename_i access hkind houtlined
      rw [hkind] at he'
      dsimp only at he'
      rw [if_pos houtlined] at he'
      exact alike_callCheck h he he'
    · rename_i access hkind hinline
      rw [hkind] at he'
      dsimp only at he'
      rw [if_neg hinline] at he'
      exact alike_inlineCheck h he he'
  · rename_i hkind
    rw [hkind] at he'
    exact alike_replaceBulk h he he'

/-! ### Frames -/

theorem alike_writeCode (h : Alike first second d d') (n : InstId) (base : Value)
    (write : ShadowWrite) :
    Alike first second (d.writeCode n base write).1 (d'.writeCode n base write).1 ∧
      List.Forall₂
        (Op.Alike (d.writeCode n base write).1.symbols (d'.writeCode n base write).1.symbols)
        (d.writeCode n base write).2 (d'.writeCode n base write).2 := by
  cases write with
  | store offset bytes => exact ⟨h, Op.alike_of_plain (by simp [writeCode, Op.symbol?])⟩
  | fill offset length value =>
      obtain ⟨huse, hroutine⟩ := h.use (EntryPoint.setShadow value) ⟨[.int, .int], none⟩
      exact ⟨huse, .cons (.plain rfl) (.cons (.plain rfl) (.cons (.plain rfl)
        (.cons (.symbol hroutine) (.cons (.plain rfl) .nil))))⟩

theorem alike_writesCode (h : Alike first second d d') (n : InstId) (base : Value)
    (writes : List ShadowWrite) :
    Alike first second (d.writesCode n base writes).1 (d'.writesCode n base writes).1 ∧
      List.Forall₂
        (Op.Alike (d.writesCode n base writes).1.symbols (d'.writesCode n base writes).1.symbols)
        (d.writesCode n base writes).2 (d'.writesCode n base writes).2 := by
  induction writes generalizing d d' n with
  | nil => exact ⟨h, .nil⟩
  | cons write rest ih =>
      obtain ⟨hone, hops⟩ := alike_writeCode h n base write
      obtain ⟨hothers, hmore⟩ := ih hone (n + (d.writeCode n base write).2.length)
      have hgrows := (writesCode_extends (d.writeCode n base write).1
        (n + (d.writeCode n base write).2.length) base rest).symbols
      have hgrows' := (writesCode_extends (d'.writeCode n base write).1
        (n + (d.writeCode n base write).2.length) base rest).symbols
      rw [writesCode, writesCode]
      dsimp only
      rw [← hops.length_eq]
      exact ⟨hothers, List.rel_append (hops.imp fun _ _ hop => hop.mono hgrows hgrows') hmore⟩

/-- Code that writes to the shadow is put into a block behind other code. -/
theorem alike_insertWrites (h : Alike first second d d') {b : BlockId} {pos : Nat} {n : InstId}
    {base : Value} {writes : List ShadowWrite} {origin : Origin} {ops ops' : List Op} {f f' : Func}
    (hops : List.Forall₂ (Op.Alike d.symbols d'.symbols) ops ops')
    (hf : (d.writesCode n base writes).1.func.insertCode b pos
      (addedCode origin (ops ++ (d.writesCode n base writes).2)) = .ok f)
    (hf' : (d'.writesCode n base writes).1.func.insertCode b pos
      (addedCode origin (ops' ++ (d'.writesCode n base writes).2)) = .ok f') :
    Alike first second { (d.writesCode n base writes).1 with func := f }
      { (d'.writesCode n base writes).1 with func := f' } := by
  obtain ⟨hwrites, hcode⟩ := alike_writesCode h n base writes
  have hbefore := hops.imp fun _ _ hop => hop.mono (d.writesCode_extends n base writes).symbols
    (d'.writesCode_extends n base writes).symbols
  exact hwrites.set_func
    (hwrites.func.insertCode (alike_addedCode origin (List.rel_append hbefore hcode)) hf hf')

theorem alike_prologue {frame : Frame} {inScope atEntry : List UInt8} {symbol symbol' : SymbolId}
    {code code' : FrameCode} (h : Alike first second d d')
    (hsymbol : d.symbols.Same d'.symbols symbol symbol')
    (he : FrameCode.prologue config frame inScope atEntry symbol d = .ok (e, code))
    (he' : FrameCode.prologue config frame inScope atEntry symbol' d' = .ok (e', code')) :
    Alike first second e e' ∧ code' = code := by
  unfold FrameCode.prologue at he he'
  rw [h.func.prologueLength, h.func.size] at he'
  obtain ⟨pos, hpos, he⟩ := bind_eq_ok he
  rw [hpos, ok_bind] at he'
  dsimp only at he he'
  obtain ⟨writes, hwrites, he⟩ := bind_eq_ok he
  rw [hwrites, ok_bind] at he'
  obtain ⟨f, hf, he⟩ := bind_eq_ok he
  obtain ⟨f', hf', he'⟩ := bind_eq_ok he'
  cases he
  cases he'
  refine ⟨alike_insertWrites h ?_ hf hf', rfl⟩
  -- the header refers to the description and to the function itself
  refine List.rel_append ?_ (Op.alike_of_plain (by simp [shadowAddrCode, Op.symbol?]))
  exact .cons (.plain rfl) (.cons (.plain rfl) (.cons (.plain rfl) (.cons (.symbol hsymbol)
    (.cons (.plain rfl) (.cons (.plain rfl) (.cons (.plain rfl) (.cons (.symbol h.func.named)
    (Op.alike_of_plain (by simp [Op.symbol?])))))))))

theorem alike_placeSlots {code : FrameCode} {slots : List Slot} {vars : List StackVariable}
    {f g f' g' : Func} (h : f.Alike first second g)
    (hf : vars.foldlM (code.placeSlot slots) f = .ok f')
    (hg : vars.foldlM (code.placeSlot slots) g = .ok g') : f'.Alike first second g' := by
  refine foldlM_rel (fun {f g var f' g'} h hf hg => ?_) h hf hg
  unfold FrameCode.placeSlot at hf hg
  cases hslot : slots[var.index]? with
  | none =>
      rw [hslot] at hf hg
      cases hf
      cases hg
      exact h
  | some slot =>
      rw [hslot] at hf hg
      dsimp only at hf hg
      rw [h.locate, h.size] at hg
      cases hlocate : f.locate slot.inst with
      | none =>
          rw [hlocate] at hf hg
          cases hf
          cases hg
          exact h
      | some place =>
          rw [hlocate] at hf hg
          obtain ⟨f₁, hf₁, hf⟩ := bind_eq_ok hf
          obtain ⟨g₁, hg₁, hg⟩ := bind_eq_ok hg
          exact (h.insertCode (.cons ⟨rfl, .plain rfl⟩ .nil) hf₁ hg₁).setOp rfl hf hg

theorem alike_placeMarker {code : FrameCode} {marker : Marker} (h : Alike first second d d')
    (he : code.placeMarker d marker = .ok e) (he' : code.placeMarker d' marker = .ok e') :
    Alike first second e e' := by
  unfold FrameCode.placeMarker at he he'
  rw [h.func.locate, h.func.size] at he'
  -- both do nothing, or both put code at the same place
  generalize code.frame.vars.find? _ = found, d.func.locate marker.inst = place at he he'
  cases found with
  | none =>
      cases he
      cases he'
      exact h
  | some var =>
      cases place with
      | none =>
          cases he
          cases he'
          exact h
      | some place =>
          obtain ⟨granules, hgranules, he⟩ := bind_eq_ok he
          obtain ⟨granules', hgranules', he'⟩ := bind_eq_ok he'
          obtain rfl := Except.ok.inj (hgranules.symm.trans hgranules')
          cases granules with
          | none =>
              cases he
              cases he'
              exact h
          | some granules =>
              obtain ⟨i, hi, he⟩ := bind_eq_ok he
              obtain ⟨i', hi', he'⟩ := bind_eq_ok he'
              obtain ⟨writes, hwrites, he⟩ := bind_eq_ok he
              obtain ⟨writes', hwrites', he'⟩ := bind_eq_ok he'
              obtain rfl := Except.ok.inj (hwrites.symm.trans hwrites')
              rw [(h.inst hi hi').1] at he'
              obtain ⟨f, hf, he⟩ := bind_eq_ok he
              obtain ⟨f', hf', he'⟩ := bind_eq_ok he'
              cases he
              cases he'
              exact alike_insertWrites h List.Forall₂.nil hf hf'

theorem alike_placeExit {code : FrameCode} {exit : BlockId × Nat} (h : Alike first second d d')
    (he : code.placeExit d exit = .ok e) (he' : code.placeExit d' exit = .ok e') :
    Alike first second e e' := by
  unfold FrameCode.placeExit at he he'
  rw [h.func.size] at he'
  dsimp only at he he'
  obtain ⟨writes, hwrites, he⟩ := bind_eq_ok he
  rw [hwrites, ok_bind] at he'
  obtain ⟨f, hf, he⟩ := bind_eq_ok he
  obtain ⟨f', hf', he'⟩ := bind_eq_ok he'
  cases he
  cases he'
  exact alike_insertWrites h (Op.alike_of_plain (by simp [Op.symbol?])) hf hf'

/-- Frames for the same slots are alike, and so are their descriptions. -/
theorem alike_addFrame {name : String} {slots : List Slot} {frame : Frame}
    {description description' : Global} (h : Alike first second d d')
    (he : d.addFrame config name slots frame = .ok (e, description))
    (he' : d'.addFrame config name slots frame = .ok (e', description')) :
    Alike first second e e' ∧ ∃ symbol symbol', e.symbols.Same e'.symbols symbol symbol' ∧
      description = descriptionGlobal symbol frame.description ∧
      description' = descriptionGlobal symbol' frame.description := by
  obtain ⟨-, symbol, hsymbol, hdescription⟩ := addFrame_extends he
  obtain ⟨-, symbol', hsymbol', hdescription'⟩ := addFrame_extends he'
  refine ⟨?_, symbol, symbol', ⟨_, hsymbol, hsymbol'⟩, hdescription, hdescription'⟩
  obtain ⟨atEntry, markers, d₁, code, f₂, d₃, exits, hentry, hmarkers, hprologue, hslots, hplaced,
    hexits, hleft, -⟩ := addFrame_stages he
  obtain ⟨atEntry', markers', d₁', code', f₂', d₃', exits', hentry', hmarkers', hprologue', hslots',
    hplaced', hexits', hleft', -⟩ := addFrame_stages he'
  obtain rfl := Except.ok.inj (hentry.symm.trans hentry')
  rw [h.func.markers] at hmarkers'
  obtain rfl := Except.ok.inj (hmarkers.symm.trans hmarkers')
  obtain ⟨hinterned, hsame⟩ := h.intern (EntryPoint.stackDescription name)
  obtain ⟨hfirst, rfl⟩ := alike_prologue hinterned hsame hprologue hprologue'
  have hsecond := hfirst.set_func (alike_placeSlots hfirst.func hslots hslots')
  have hthird : Alike first second d₃ d₃' := foldlM_rel alike_placeMarker hsecond hplaced hplaced'
  rw [hthird.func.exits] at hexits'
  obtain rfl := Except.ok.inj (hexits.symm.trans hexits')
  exact foldlM_rel alike_placeExit hthird hleft hleft'

end Draft

end Redzone
