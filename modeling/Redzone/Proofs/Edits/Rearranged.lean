import Redzone.Proofs.Edits.Arena
import Redzone.Proofs.Edits.Run

/-!
# An instrumentation loses and reorders nothing

An instrumentation adds code, and all that was in the function can be found again: every instruction
is listed once, the instructions of a block stand in their order along a chain of blocks that checks
have cut, and the arena holds the instructions under their numbers.  Only the slots of the frame and
the bulk memory operations with a checking twin have another operation.
-/

namespace Redzone

namespace Func

/-- The operation that instruction `i` of `f` has in the instrumented function `g`.  If `g` has a
frame, it is the instruction `base`. -/
inductive Becomes (f g : Func) (config : Config) (slots : List Slot) (symbols : SymbolTable)
    (base i : InstId) (instruction : Instruction) : Op → Prop
  /-- A slot of the frame becomes the address of its variable. -/
  | slot {k : Nat} {slot : Slot} {frame : Frame} {var : StackVariable} {distance : InstId}
      (hslot : slots[k]? = some slot) (hi : slot.inst = i)
      (hframe : Frame.layOut (slotVariables slots) config.mapping.granularity = .ok frame)
      (hbase : g.Holds base [.stackSlot frame.size frame.align])
      (hvar : var ∈ frame.vars) (hindex : var.index = k)
      (hdistance : g.insts[distance]? = some { op := .iconst var.offset, ty := .int }) :
      Becomes f g config slots symbols base i instruction (.ptrAdd (.inst base) (.inst distance))
  /-- A bulk memory operation becomes a call of its checking twin. -/
  | bulk {kind : Bulk} {dest source length : Value} {callee : InstId} {routine : SymbolId}
      (hlisted : i ∈ f.listed) (hreplaces : config.replaces instruction = true)
      (hop : instruction.op = .bulk kind dest source length)
      (hcallee : g.Holds callee [.symbolAddr routine])
      (hroutine : symbols.names[routine]? = some (EntryPoint.bulk kind)) :
      Becomes f g config slots symbols base i instruction
        (.call (.inst callee) [dest, source, length])
  /-- Every other instruction stays as it is. -/
  | same (hslot : ∀ slot ∈ slots, slot.inst ≠ i)
      (hbulk : i ∈ f.listed → config.replaces instruction = false) :
      Becomes f g config slots symbols base i instruction instruction.op

/-- `g` has all that `f` has, in the same order, with `slots` moved into a frame. -/
structure Rearranged (f g : Func) (config : Config) (slots : List Slot) (symbols : SymbolTable) :
    Prop where
  header : g.name = f.name ∧ g.params = f.params ∧ g.ret = f.ret ∧ g.linkage = f.linkage ∧
    g.noSanitize = f.noSanitize ∧ g.blockArgs = f.blockArgs ∧ g.slotNames = f.slotNames
  placed : ∀ i ∈ f.listed, g.listed.count i = 1
  args : ∀ (b : BlockId) (blk : Block), f.blocks[b]? = some blk → ∃ blk',
    g.blocks[b]? = some blk' ∧ blk'.argStart = blk.argStart ∧ blk'.argCount = blk.argCount
  order : ∀ (b : BlockId) (blk : Block), f.blocks[b]? = some blk → ∃ last ids,
    g.Chain f.insts.size f.blocks.size config.mapping b last ids ∧
      ids.filter (· < f.insts.size) = blk.insts ∧ ids.getLast? = blk.insts.getLast?
  arena : ∃ base, ∀ (i : InstId) (instruction : Instruction), f.insts[i]? = some instruction →
    ∃ op, g.insts[i]? = some { instruction with op := op } ∧
      f.Becomes g config slots symbols base i instruction op

variable {f g : Func} {config : Config} {slots : List Slot} {symbols : SymbolTable} {i : InstId}
  {instruction : Instruction}

/-- Edits rearrange a function, whatever they make of its instructions. -/
theorem Rearranged.of_edits {ordered : Prop}
    (h : Edits ordered f.insts.size config.mapping symbols f g) (hsound : f.Sound symbols)
    (hsound' : g.Sound symbols)
    (harena : ∃ base, ∀ (i : InstId) (instruction : Instruction), f.insts[i]? = some instruction →
      ∃ op, g.insts[i]? = some { instruction with op := op } ∧
        f.Becomes g config slots symbols base i instruction op) :
    f.Rearranged g config slots symbols where
  header := by
    have hshell := h.extended.shell
    simp only [shell, mk.injEq] at hshell
    exact ⟨hshell.1, hshell.2.1, hshell.2.2.1, hshell.2.2.2.1, hshell.2.2.2.2.1,
      hshell.2.2.2.2.2.2.2.2⟩
  placed i hi := List.count_eq_one_of_mem hsound'.nodup (h.extended.listed i hi)
  args := h.extended.blocks
  order b blk hblk := by
    obtain ⟨last, ids, hchain, hspread⟩ := h.chain hblk
    refine ⟨last, ids, hchain, hspread.old.trans ?_, hspread.last⟩
    rw [List.filter_eq_self]
    exact fun i hi => decide_eq_true (hsound.closed.lt_size (mem_listed hblk hi))
  arena := harena

/-- Nothing but the code counts. -/
theorem Rearranged.marked {symbols' : SymbolTable} (h : f.Rearranged g config slots symbols)
    (hgrows : symbols.GrowsTo symbols') :
    f.Rearranged { g with sanitized := true } config slots symbols' where
  header := h.header
  placed := h.placed
  args := h.args
  order b blk hblk := by
    obtain ⟨last, ids, hchain, hids⟩ := h.order b blk hblk
    exact ⟨last, ids, hchain.of_same_code rfl rfl, hids⟩
  arena := by
    obtain ⟨base, harena⟩ := h.arena
    refine ⟨base, fun i instruction hinst => ?_⟩
    obtain ⟨op, hop, hbecomes⟩ := harena i instruction hinst
    refine ⟨op, hop, ?_⟩
    cases hbecomes with
    | slot hslot hi hframe hbase hvar hindex hdistance =>
        exact .slot hslot hi hframe hbase hvar hindex hdistance
    | bulk hlisted hreplaces hbulk hcallee hroutine =>
        exact .bulk hlisted hreplaces hbulk hcallee (hgrows _ _ hroutine)
    | same hslot hbulk => exact .same hslot hbulk

end Func

theorem Config.exists_bulk_of_replaces {config : Config} {instruction : Instruction}
    (h : config.replaces instruction = true) :
    ∃ kind dest source length, instruction.op = .bulk kind dest source length := by
  simp only [replaces, Bool.and_eq_true] at h
  obtain ⟨⟨hbulk, -⟩, -⟩ := h
  cases hop : instruction.op with
  | bulk kind dest source length => exact ⟨kind, dest, source, length, rfl⟩
  | _ => simp [hop, Op.isBulk] at hbulk

namespace Draft

variable {f : Func} {config : Config} {slots : List Slot} {d d' : Draft} {base i : InstId}
  {instruction : Instruction}

/-- The visits of a survey replace the bulk memory operations that have a checking twin. -/
theorem Visits.becomes {survey : Survey} {outlined : Bool} {symbols : SymbolTable} (judge : Judge)
    (h : Visits judge.config outlined { func := judge.func, symbols := symbols }
      survey.sites.reverse d) (hsurvey : judge.survey = .ok survey)
    (hinst : judge.func.insts[i]? = some instruction) :
    ∃ op, d.func.insts[i]? = some { instruction with op := op } ∧
      judge.func.Becomes d.func judge.config [] d.symbols base i instruction op := by
  by_cases hreplaced : i ∈ judge.func.listed ∧ judge.config.replaces instruction = true
  · obtain ⟨hlisted, hreplaces⟩ := hreplaced
    obtain ⟨site, hsite, hkind, rfl⟩ :=
      (Judge.survey_bulk_iff hsurvey).mpr ⟨hlisted, instruction, hinst, hreplaces⟩
    obtain ⟨kind, dest, source, length, hop⟩ := Config.exists_bulk_of_replaces hreplaces
    obtain ⟨callee, routine, hcall, hcallee, hroutine⟩ :=
      h.replaces (List.mem_reverse.mpr hsite) hkind hinst hop
    exact ⟨_, hcall, .bulk hlisted hreplaces hop hcallee hroutine⟩
  · refine ⟨_, h.keeps_of_ne (fun site hsite hkind hi => hreplaced ?_) hinst, .same (by simp) ?_⟩
    · obtain ⟨hlisted, instruction', hinst', hreplaces⟩ :=
        (Judge.survey_bulk_iff hsurvey).mp ⟨site, List.mem_reverse.mp hsite, hkind, hi⟩
      obtain rfl := Option.some.inj (hinst.symm.trans hinst')
      exact ⟨hlisted, hreplaces⟩
    · exact fun hlisted => Bool.eq_false_iff.mpr fun hreplaces => hreplaced ⟨hlisted, hreplaces⟩

/-- Then a frame takes the slots, and leaves what the visits have replaced. -/
theorem becomes_of_addFrame {name : String} {frame : Frame} {description : Global}
    (hframe : d.addFrame config name slots frame = .ok (d', description))
    (hlayout : Frame.layOut (slotVariables slots) config.mapping.granularity = .ok frame)
    (hgrows : d.symbols.GrowsTo d'.symbols) (hnodup : (slots.map Slot.inst).Nodup)
    (hslots : ∀ slot ∈ slots, slot.inst ∈ d.func.listed ∧ ∃ instruction,
      d.func.insts[slot.inst]? = some instruction ∧ f.insts[slot.inst]? = some instruction ∧
        instruction.op.isSlot = true)
    {op : Op} (hop : d.func.insts[i]? = some { instruction with op := op })
    (hinst : f.insts[i]? = some instruction)
    (hbecomes : f.Becomes d.func config [] d.symbols base i instruction op) :
    ∃ op, d'.func.insts[i]? = some { instruction with op := op } ∧
      f.Becomes d'.func config slots d'.symbols d.func.insts.size i instruction op := by
  obtain ⟨hbase, hkeeps, hmoves⟩ := addFrame_arena hframe hlayout hnodup fun slot hslot =>
    ⟨(hslots slot hslot).1, by
      obtain ⟨-, slotInst, hslotInst, -⟩ := hslots slot hslot
      exact (Array.getElem?_eq_some_iff.mp hslotInst).1⟩
  by_cases hslot : ∃ slot ∈ slots, slot.inst = i
  · obtain ⟨slot, hmem, rfl⟩ := hslot
    obtain ⟨k, hk⟩ := List.getElem?_of_mem hmem
    obtain ⟨-, slotInst, hslotInst, hsame, -⟩ := hslots slot hmem
    obtain rfl := Option.some.inj (hinst.symm.trans hsame)
    obtain ⟨var, hvar, hindex, distance, hmoved, hdistance⟩ := hmoves k slot _ hk hslotInst
    exact ⟨_, hmoved, .slot hk rfl hlayout hbase hvar hindex hdistance⟩
  · simp only [not_exists, not_and] at hslot
    refine ⟨op, hkeeps i _ hslot hop, ?_⟩
    cases hbecomes with
    | slot hnone => simp at hnone
    | bulk hlisted hreplaces hbulk hcallee hroutine =>
        refine .bulk hlisted hreplaces hbulk (fun k op hop => ?_) (hgrows _ _ hroutine)
        obtain ⟨origin, hadded⟩ := hcallee k op hop
        refine ⟨origin, hkeeps _ _ (fun slot hmem heq => ?_) hadded⟩
        -- the address of a routine is no slot
        obtain ⟨-, slotInst, hslotInst, -, hslotOp⟩ := hslots slot hmem
        rw [heq, hadded] at hslotInst
        obtain rfl := Option.some.inj hslotInst
        rcases k with - | k
        · cases hop
          cases hslotOp
        · cases hop
    | same _ hbulk => exact .same hslot hbulk

end Draft

/-- An instrumentation loses, duplicates and reorders nothing: a function that is not exempt is
rearranged, with the slots that were found in it moved into a frame, and any other function stays as
it is. -/
theorem Module.instrumentFunction_rearranges {config : Config} {m m' : Module} {id : FuncId}
    {f : Func} {store : Annotations} {outcome : Outcome} (hf : m.functions[id]? = some f)
    (hverify : f.verify m.symbols = .ok [])
    (hrun : m.instrumentFunction config id store = .ok (m', .ok outcome)) :
    ∃ name g, m.resolve f.name = .ok name ∧ m'.functions[id]? = some g ∧
      (f.isExempt name = true ∧ g = f ∨
        f.isExempt name = false ∧ ∃ slots,
          (if config.stack then f.frameSlots config else .ok []) = .ok slots ∧
          f.Rearranged g config slots m'.symbols) := by
  have hsound : f.Sound m.symbols := by
    obtain ⟨name, -, hbody⟩ := bind_eq_ok hverify
    exact (Func.verifyBody_eq_nil_iff.mp hbody).1
  obtain ⟨name, hname, ⟨hexempt, rfl⟩ | ⟨hexempt, marked, survey, slots, d, hsurvey, hslots,
    hvisits, hvisited, hleaves⟩⟩ :=
    instrumentFunction_edits hf hverify hrun (fun hordered : False => hordered.elim)
  · exact ⟨name, f, hname, hf, .inl ⟨hexempt, rfl⟩⟩
  have hbecomes : ∀ i instruction, f.insts[i]? = some instruction →
      ∃ op, d.func.insts[i]? = some { instruction with op := op } ∧
        f.Becomes d.func config [] d.symbols 0 i instruction op :=
    fun i instruction hinst =>
      Draft.Visits.becomes (judge config m store f name marked) hvisits hsurvey hinst
  obtain ⟨rfl, hleaves⟩ | ⟨frame, d', description, hsome, hlayout, hframe, hframed, hleaves⟩ :=
    hleaves
  · refine ⟨name, _, hname, hleaves.function, .inr ⟨hexempt, [], hslots, ?_⟩⟩
    exact (Func.Rearranged.of_edits hvisited.edits (hsound.mono hvisits.growsTo.size_le)
      hvisited.sound ⟨0, hbecomes⟩).marked hleaves.symbols
  · refine ⟨name, _, hname, hleaves.function, .inr ⟨hexempt, slots, hslots, ?_⟩⟩
    obtain ⟨hsublist, -⟩ := Func.slots_eq_ok hslots
    have hextends := hvisited.edits.extended
    -- the visits replace bulk operations only, so that slots are still slots
    have hkept : ∀ slot ∈ slots, slot.inst ∈ d.func.listed ∧ ∃ instruction,
        d.func.insts[slot.inst]? = some instruction ∧ f.insts[slot.inst]? = some instruction ∧
          instruction.op.isSlot = true := by
      intro slot hslot
      obtain ⟨instruction, hinst, hisSlot⟩ := Func.isSlot_of_slots hslots slot hslot
      exact ⟨hextends.listed _ (hsublist.subset (List.mem_map_of_mem hslot)), instruction,
        hvisits.keeps hinst (Op.isBulk_of_isSlot hisSlot), hinst, hisSlot⟩
    have hgrows := (hvisits.frameSteps hslots hvisited.sound.nodup hframe).growsTo
    refine (Func.Rearranged.of_edits hframed.edits
      (hsound.mono (hvisits.growsTo.trans hgrows).size_le) hframed.sound
      ⟨d.func.insts.size, fun i instruction hinst => ?_⟩).marked hleaves.symbols
    obtain ⟨op, hop, hbecomes⟩ := hbecomes i instruction hinst
    exact Draft.becomes_of_addFrame hframe hlayout hgrows (hsublist.nodup hsound.nodup) hkept hop
      hinst hbecomes

theorem instrumentFunction_rearranges_chase :
    ∃ m' outcome g slots, chaseModule.instrumentFunction {} 0 {} = .ok (m', .ok outcome) ∧
      (outcome.stats.checked = 1 ∧ outcome.stats.replaced = 1 ∧
        outcome.stats.stackVariables = 1) ∧
      m'.functions[0]? = some g ∧ chaseFunction.frameSlots {} = .ok slots ∧
      chaseFunction.Rearranged g {} slots m'.symbols := by
  obtain ⟨m', outcome, hrun, hstats⟩ := exists_instrumentFunction_chase
  obtain ⟨name, g, hname, hg, ⟨hexempt, -⟩ | ⟨-, slots, hslots, hrearranged⟩⟩ :=
    Module.instrumentFunction_rearranges
      (show chaseModule.functions[0]? = some chaseFunction from rfl) (by decide +kernel) hrun
  · obtain rfl : "chase" = name := Except.ok.inj ((by rfl : _ = Except.ok "chase").symm.trans hname)
    exact absurd hexempt (by decide +kernel)
  · exact ⟨m', outcome, g, slots, hrun, hstats, hg, hslots, hrearranged⟩

end Redzone
