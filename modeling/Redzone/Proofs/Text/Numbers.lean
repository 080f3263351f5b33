import Redzone.Proofs.Construction
import Redzone.Proofs.Text.Pieces

/-!
# Value numbers

The values of a function that was built by commands and accepted are numbered along its text without
gaps, and two different values never look alike.  Whatever value the text shows, it shows by its
number (`Func.Numbered`).

That the numbers tell the values apart rests on two facts: no instruction is listed twice, which the
verification checks, and no block argument belongs to two blocks, which it does not check and which
comes from the construction.
-/

namespace Redzone

open Piece

/-! ### Numbers in a list -/

section Numbers

variable {v w : Value} {shown : List Value}

theorem valueNumber?_eq_none_iff {start : Nat} : valueNumber? v start shown = none ↔ v ∉ shown := by
  induction shown generalizing start with
  | nil => simp [valueNumber?]
  | cons first rest ih =>
      rw [valueNumber?, List.mem_cons]
      cases hrest : valueNumber? v (start + 1) rest with
      | none =>
          have hnot : v ∉ rest := ih.mp hrest
          simp [hnot, eq_comm]
      | some number =>
          have hmem : v ∈ rest := by
            by_contra hnot
            rw [ih.mpr hnot] at hrest
            cases hrest
          simp [hmem]

/-- Where no value is shown twice, a number is a place. -/
theorem valueNumber?_of_mem {start : Nat} (hnodup : shown.Nodup) (hv : v ∈ shown) :
    valueNumber? v start shown = some (start + shown.idxOf v) := by
  induction shown generalizing start with
  | nil => simp at hv
  | cons first rest ih =>
      rw [List.nodup_cons] at hnodup
      rw [valueNumber?]
      -- The last occurrence counts: the first one is taken only if the rest has none.
      rcases List.mem_cons.mp hv with rfl | hrest
      · simp [valueNumber?_eq_none_iff.mpr hnodup.1]
      · have hne : first ≠ v := fun h => hnodup.1 (h ▸ hrest)
        rw [ih hnodup.2 hrest, List.idxOf_cons_ne _ hne]
        simp [Nat.add_right_comm, Nat.add_assoc]

theorem map_valueNumber? (hnodup : shown.Nodup) :
    shown.map (fun v => valueNumber? v 0 shown) = (List.range shown.length).map some := by
  apply List.ext_getElem (by simp)
  intro k hk _
  rw [List.length_map] at hk
  rw [List.getElem_map, List.getElem_map, List.getElem_range,
    valueNumber?_of_mem hnodup (List.getElem_mem hk), hnodup.idxOf_getElem, Nat.zero_add]

namespace Printer

variable {p : Printer}

theorem value_of_mem (hnodup : p.shown.Nodup) (hv : v ∈ p.shown) :
    p.value v = s!"v{p.shown.idxOf v}" := by
  rw [value, valueNumber?_of_mem hnodup hv, Nat.zero_add]

/-- Nothing else looks like a value that is shown. -/
theorem eq_of_value_eq (hnodup : p.shown.Nodup) (hv : v ∈ p.shown) (h : p.value v = p.value w) :
    v = w := by
  rw [value_of_mem hnodup hv] at h
  by_cases hw : w ∈ p.shown
  · rw [value_of_mem hnodup hw] at h
    have hnumber : toString (p.shown.idxOf v) = toString (p.shown.idxOf w) := by
      simpa using h
    exact (List.idxOf_inj hv).mp (Nat.repr_inj.mp hnumber)
  · rw [value, valueNumber?_eq_none_iff.mpr hw] at h
    have hfirst := congrArg String.toList h
    simp at hfirst

end Printer

end Numbers

namespace Func

variable {f : Func} {symbols : SymbolTable} {v w : Value}

/-! ### Values that are shown -/

theorem shownValues_perm (htiled : f.Tiled) :
    f.shownValues.Perm ((List.range f.blockArgs.size).map Value.arg ++
      f.listed.map Value.inst) := by
  rw [← htiled.args, listed, List.map_flatMap]
  exact (List.flatMap_append_perm _ _ _).symm

theorem mem_shownValues_iff (htiled : f.Tiled) (hlisted : ∀ i ∈ f.listed, i < f.insts.size) :
    v ∈ f.shownValues ↔ f.Provides v := by
  rw [(shownValues_perm htiled).mem_iff, List.mem_append]
  cases v with
  | arg i => simp [Provides]
  | inst i => simpa [Provides] using hlisted i

theorem nodup_shownValues (htiled : f.Tiled) (honce : f.listed.Nodup) : f.shownValues.Nodup := by
  rw [(shownValues_perm htiled).nodup_iff, List.nodup_append]
  refine ⟨List.nodup_range.map fun _ _ => Value.arg.inj, honce.map fun _ _ => Value.inst.inj, ?_⟩
  simp

/-- The raw numbers of values tell them apart as long as no instruction reaches the numbers of the
arguments. -/
theorem Provides.eq_of_raw_eq (hsize : f.insts.size ≤ 1 <<< 31) (hv : f.Provides v)
    (hw : f.Provides w) (h : v.raw = w.raw) : v = w := by
  cases v <;> cases w <;> simp only [Provides, Value.raw] at hv hw h
  -- Where the arguments begin does not matter, and as a literal it would be computed.
  all_goals generalize 1 <<< 31 = limit at hsize h
  case inst.inst => rw [h]
  case arg.arg => rw [Nat.add_right_cancel h]
  case inst.arg =>
    subst h
    exact absurd (hv.2.trans_le hsize) (Nat.not_lt.mpr (Nat.le_add_left _ _))
  case arg.inst =>
    subst h
    exact absurd (hw.2.trans_le hsize) (Nat.not_lt.mpr (Nat.le_add_left _ _))

/-! ### Values in the text -/

/-- The values in the line of a listing: the result, if the line shows it, and the operands. -/
def lineValues (f : Func) (i : InstId) : List Value :=
  match f.insts[i]? with
  | some instruction =>
      (if instruction.showsResult then [.inst i] else []) ++ instruction.op.operands
  | none => []

theorem values_linePieces (i : InstId) : values (f.linePieces symbols i) = f.lineValues i := by
  rw [linePieces, lineValues]
  cases f.insts[i]? with
  | none => rfl
  | some instruction => simp [Instruction.values_pieces]

theorem values_headerPieces (b : BlockId) (blk : Block) :
    values (f.headerPieces b blk) = blk.argValues := by
  rw [headerPieces]
  split
  · rename_i hcount
    rw [Block.argValues, hcount]
    rfl
  · rw [values_append, values_append, values_commas, List.flatMap_map]
    simp [argPieces]

theorem map_blocks_blockIds :
    f.blockIds.map (fun b => f.blocks[b]?) = f.blocks.toList.map some := by
  apply List.ext_getElem (by simp [blockIds])
  intro b _ hb
  simp only [List.length_map, Array.length_toList] at hb
  simp [blockIds, hb]

/-- The text shows the arguments of every block and the values of its lines. -/
theorem values_pieces :
    values (f.pieces symbols) =
      f.blocks.toList.flatMap fun blk => blk.argValues ++ blk.insts.flatMap f.lineValues := by
  have hblock : ∀ b, values (f.blockPieces symbols b) =
      (f.blocks[b]?).elim [] fun blk => blk.argValues ++ blk.insts.flatMap f.lineValues := by
    intro b
    rw [blockPieces]
    cases f.blocks[b]? with
    | none => rfl
    | some blk => simp [values_headerPieces, values_flatMap, values_linePieces]
  rw [pieces]
  split
  · rename_i hempty
    rw [isDeclaration, Array.isEmpty_iff] at hempty
    rw [hempty]
    rfl
  · calc Piece.values _
        = f.blockIds.flatMap fun b => Piece.values (f.blockPieces symbols b) := by
          simp [values_flatMap]
      _ = (f.blockIds.map fun b => f.blocks[b]?).flatMap fun found =>
            found.elim [] fun blk => blk.argValues ++ blk.insts.flatMap f.lineValues := by
          simp only [hblock, List.flatMap_map]
      _ = _ := by rw [map_blocks_blockIds, List.flatMap_map]; rfl

/-! ### The numbers of a function -/

/-- The values of a function and the text that shows them. -/
structure Numbered (f : Func) (symbols : SymbolTable) : Prop where
  /-- What has a number exists, and what exists has a number. -/
  shown : ∀ v, v ∈ f.shownValues ↔ f.Provides v
  /-- Along the text, arguments and listings have the numbers from 0 on without gaps. -/
  consecutive : f.shownValues.map (fun v => valueNumber? v 0 f.shownValues) =
    (List.range (f.blockArgs.size + f.listed.length)).map some
  /-- Nothing else looks like a value that exists. -/
  distinct : ∀ v w, f.Provides v →
    Printer.value ⟨f.shownValues, symbols⟩ v = Printer.value ⟨f.shownValues, symbols⟩ w → v = w
  text : f.text symbols = .ok (render (Printer.value ⟨f.shownValues, symbols⟩) (f.pieces symbols))
  /-- The text shows the arguments of every block, and of every listing the result and the
  operands. -/
  values : values (f.pieces symbols) =
    f.blocks.toList.flatMap fun blk => blk.argValues ++ blk.insts.flatMap f.lineValues
  /-- It shows every value by its number. -/
  byNumber : ∀ v ∈ Piece.values (f.pieces symbols), ∃ number : Nat,
    f.shownValues[number]? = some v ∧ Printer.value ⟨f.shownValues, symbols⟩ v = s!"v{number}"
  /-- The raw numbers, by which the numbers can be looked up, tell the values apart. -/
  raw : f.insts.size ≤ 1 <<< 31 → ∀ v w, f.Provides v → f.Provides w → v.raw = w.raw → v = w

/-- Every value that a text shows exists. -/
theorem Lawful.provides_of_mem_values (h : f.Lawful symbols) (htiled : f.Tiled)
    (hv : v ∈ Piece.values (f.pieces symbols)) : f.Provides v := by
  rw [values_pieces, List.mem_flatMap] at hv
  obtain ⟨blk, hblk, hv⟩ := hv
  rcases List.mem_append.mp hv with harg | hline
  · have hmem : v ∈ f.blocks.toList.flatMap Block.argValues :=
      List.mem_flatMap.mpr ⟨blk, hblk, harg⟩
    rw [htiled.args, List.mem_map] at hmem
    obtain ⟨i, hi, rfl⟩ := hmem
    exact List.mem_range.mp hi
  · obtain ⟨i, hi, hline⟩ := List.mem_flatMap.mp hline
    have hlisted : i ∈ f.listed := List.mem_flatMap.mpr ⟨blk, hblk, hi⟩
    have hinst := Array.getElem?_eq_getElem (h.inArena i hlisted)
    rw [lineValues, hinst] at hline
    rcases List.mem_append.mp hline with hresult | hoperand
    · obtain rfl : v = .inst i := by
        split at hresult <;> simp_all
      exact ⟨hlisted, h.inArena i hlisted⟩
    · exact (h.obeys i hlisted _ hinst).operands v hoperand

theorem Lawful.numbered (h : f.Lawful symbols) (htiled : f.Tiled) : f.Numbered symbols where
  shown v := mem_shownValues_iff htiled h.inArena
  consecutive := by
    rw [map_valueNumber? (nodup_shownValues htiled h.once), (shownValues_perm htiled).length_eq]
    simp
  distinct v w hv := Printer.eq_of_value_eq (p := ⟨f.shownValues, symbols⟩)
    (nodup_shownValues htiled h.once) ((mem_shownValues_iff htiled h.inArena).mpr hv)
  text := text_eq_render htiled.inArena h.inArena
  values := values_pieces
  byNumber v hv := by
    have hshown : v ∈ f.shownValues :=
      (mem_shownValues_iff htiled h.inArena).mpr (h.provides_of_mem_values htiled hv)
    exact ⟨f.shownValues.idxOf v, List.getElem?_idxOf hshown,
      Printer.value_of_mem (p := ⟨f.shownValues, symbols⟩) (nodup_shownValues htiled h.once) hshown⟩
  raw hsize v w hv hw := Provides.eq_of_raw_eq hsize hv hw

end Func

namespace Builder

/-- The values of a function that was built by commands and accepted have distinct and consecutive
numbers, and its text shows them by these. -/
theorem values_numbered {f : Func} {commands : List Command} {b : Builder} {symbols : SymbolTable}
    (hblank : f.Blank) (hrun : commands.foldlM exec { func := f } = .ok b)
    (hverify : b.func.verify symbols = .ok []) : b.func.Numbered symbols := by
  have htiled := tiled_run hblank hrun
  obtain ⟨-, hsound, hparams⟩ := Module.verify_func_eq_nil_iff.mp hverify
  exact ((Func.lawful_iff htiled.inArena).mpr ⟨hsound, hparams⟩).numbered htiled

/-- Adds the greater of two parameters to the first one.  The block that does so is split behind the
addition. -/
def summingCommands : List Command :=
  [.createBlock [], .switchTo 0, .push (.param 0) .int [], .push (.param 1) .int [],
    .createBlock [.int], .push (.icmp .gt (.inst 0) (.inst 1)) .bool [],
    .push (.brif (.inst 2) ⟨1, [.inst 0]⟩ ⟨1, [.inst 1]⟩) .unit [],
    .switchTo 1, .push (.arith .add (.arg 0) (.inst 0)) .int [],
    .push (.ret (some (.inst 4))) .unit [], .splitBlock 1 1, .push (.br ⟨2, []⟩) .unit []]

/-- What the commands build. -/
def summing : Builder where
  func :=
    { name := 0
      params := [.int, .int]
      ret := some .int
      insts := #[⟨.param 0, .int, [], false⟩, ⟨.param 1, .int, [], false⟩,
        ⟨.icmp .gt (.inst 0) (.inst 1), .bool, [], false⟩,
        ⟨.brif (.inst 2) ⟨1, [.inst 0]⟩ ⟨1, [.inst 1]⟩, .unit, [], false⟩,
        ⟨.arith .add (.arg 0) (.inst 0), .int, [], false⟩,
        ⟨.ret (some (.inst 4)), .unit, [], false⟩, ⟨.br ⟨2, []⟩, .unit, [], false⟩]
      blocks := #[{ argStart := 0, insts := [0, 1, 2, 3] },
        { argStart := 0, argCount := 1, insts := [4, 6] }, { argStart := 1, insts := [5] }]
      blockArgs := #[.int] }
  cursor := some (.atEnd 1)

theorem values_numbered_summing :
    summingCommands.foldlM exec
        { func := { name := 0, params := [.int, .int], ret := some .int } } = .ok summing ∧
      summing.func.verify (SymbolTable.empty.intern "sum").1 = .ok [] ∧
        summing.func.Numbered (SymbolTable.empty.intern "sum").1 ∧
          summing.func.text (SymbolTable.empty.intern "sum").1 =
            .ok ("func @sum(int, int) -> int \x7b\n  bb0:\n    v0 = param 0\n    v1 = param 1\n" ++
              "    v2 = icmp.gt v0, v1\n    brif v2, bb1(v0), bb1(v1)\n  bb1(v4: int):\n" ++
              "    v5 = add v4, v0\n    br bb2\n  bb2:\n    ret v5\n\x7d") := by
  have hrun : summingCommands.foldlM exec
      { func := { name := 0, params := [.int, .int], ret := some .int } } = .ok summing := by
    decide +kernel
  have hverify : summing.func.verify (SymbolTable.empty.intern "sum").1 = .ok [] := by decide
  exact ⟨hrun, hverify, values_numbered ⟨rfl, rfl, rfl⟩ hrun hverify, by decide +kernel⟩

end Builder

end Redzone
