import Redzone.Proofs.Modules.Calls
import Redzone.Proofs.Progress.Survey

/-!
# Bracketed functions

`Func.Bracketed` says where the calls of a function stand that was bracketed some number of times.
One bracketing puts a call behind the parameters of the entry block and a call in front of every
return (`bracketed_of_bracket`).  The call at the start is no parameter, and the terminator stays
behind the call at the end, so that bracketings add up (`Bracketed.trans`).  The calls of a
bracketed function are those that it had and these (`Bracketed.calls_perm`).
-/

namespace Redzone

/-! ### Lists -/

theorem split_of_head {α : Type} {p : α → Bool} {first rest : List α}
    (hfirst : ∀ a ∈ first, p a = true) (hrest : ∀ a ∈ rest.head?, p a = false) :
    (first ++ rest).takeWhile p = first ∧ (first ++ rest).dropWhile p = rest := by
  rw [List.takeWhile_append_of_pos hfirst, List.dropWhile_append_of_pos hfirst]
  cases rest with
  | nil => simp
  | cons a others =>
      have ha : p a = false := hrest a rfl
      simp [ha]

theorem forall_head?_append {α : Type} {P : α → Prop} {first rest : List α}
    (hfirst : ∀ a ∈ first, P a)
    (hrest : ∀ a ∈ rest.head?, P a) : ∀ a ∈ (first ++ rest).head?, P a := by
  cases first with
  | nil => exact hrest
  | cons a others =>
      rintro _ ⟨⟩
      exact hfirst a List.mem_cons_self

/-- Some elements have `n` closings more than before, and the first one has `m` openings, too. -/
theorem perm_flatMap_of_first {α β : Type} [DecidableEq β] {view view' : α → List β} {p : α → Bool}
    {m n : Nat} {opening closing : β} {as as' : List α} (hfirst : as = [] → m = 0)
    (hlength : as'.length = as.length)
    (h : ∀ (k : Nat) (a : α), as[k]? = some a → ∃ a', as'[k]? = some a' ∧
      (view' a').Perm (List.replicate (if k = 0 then m else 0) opening ++
        (view a ++ List.replicate (if p a then n else 0) closing))) :
    (as'.flatMap view').Perm (List.replicate m opening ++
      (as.flatMap view ++ List.replicate (n * as.countP p) closing)) := by
  induction as generalizing m as' with
  | nil =>
      obtain rfl := List.length_eq_zero_iff.mp hlength
      simp [hfirst rfl]
  | cons a rest ih =>
      obtain ⟨a', ha', hperm⟩ := h 0 a rfl
      cases as' with
      | nil => cases ha'
      | cons first others =>
          obtain rfl := Option.some.inj ha'
          -- behind the first one there are no openings
          have hothers : (others.flatMap view').Perm (List.replicate 0 opening ++
              (rest.flatMap view ++ List.replicate (n * rest.countP p) closing)) := by
            refine ih (fun _ => rfl) (Nat.succ.inj hlength) fun k b hb => ?_
            obtain ⟨b', hb', hperm'⟩ := h (k + 1) b hb
            rw [if_neg k.succ_ne_zero] at hperm'
            exact ⟨b', hb', by rwa [ite_self]⟩
          refine List.perm_iff_count.mpr fun x => ?_
          have hcount := hperm.count_eq x
          have hcounts := hothers.count_eq x
          rw [List.flatMap_cons, List.flatMap_cons, List.countP_cons, Nat.mul_add, mul_ite,
            Nat.mul_one, Nat.mul_zero, ← List.replicate_append_replicate]
          rw [if_pos rfl] at hcount
          simp only [List.count_append, List.replicate_zero, List.count_nil] at hcount hcounts ⊢
          omega

/-! ### Bracketed functions -/

/-- The code at the start of a constructor, if it stands from place `n` on. -/
def openingOps (before moduleName : SymbolId) (n : InstId) : List Op :=
  [.symbolAddr moduleName, .symbolAddr before, .call (.inst (n + 1)) [.inst n]]

/-- The code in front of a return. -/
def closingOps (after : SymbolId) (n : InstId) : List Op := [.symbolAddr after, .call (.inst n) []]

namespace Func

/-- Whether control returns at the instruction numbered `i`. -/
def isRetAt (f : Func) (i : InstId) : Bool :=
  f.insts[i]?.any fun instruction => instruction.op.isRet

/-- The instructions of a piece of added code, which refers to its own places. -/
def IsPiece (f : Func) (ops : InstId → List Op) (piece : List InstId) : Prop :=
  ∃ n, piece = List.range' n (ops n).length ∧ f.Holds n (ops n)

/-- Block `b` lists `insts` in `f`, and `insts'` in the function `g` that was bracketed `count`
times.  In the entry block, there are `count` calls of `before` between the parameters and the rest.
In a block that ends in a return, there are `count` calls of `after` in front of it.  Nothing else
is added. -/
def BracketsBlock (before after moduleName : SymbolId) (count : Nat) (f g : Func) (b : BlockId)
    (insts insts' : List InstId) : Prop :=
  ∃ (body : List InstId) (last : InstId) (openings closings : List (List InstId)),
    insts.dropWhile f.isParamAt = body ++ [last] ∧ f.Terminates last true ∧
    insts' = insts.takeWhile f.isParamAt ++
      (openings.flatten ++ body ++ closings.flatten ++ [last]) ∧
    openings.length = (if b = 0 then count else 0) ∧
    (∀ piece ∈ openings, g.IsPiece (openingOps before moduleName) piece) ∧
    closings.length = (if f.isRetAt last then count else 0) ∧
    ∀ piece ∈ closings, g.IsPiece (closingOps after) piece

/-- What stands in the arena of `f` stands in that of `g`. -/
def KeepsArena (f g : Func) : Prop :=
  ∀ (i : InstId) (instruction : Instruction), f.insts[i]? = some instruction →
    g.insts[i]? = some instruction

/-- What becomes of `f` if it is bracketed `count` times. -/
structure Bracketed (before after moduleName : SymbolId) (count : Nat) (f g : Func) : Prop where
  shell : g.shell = f.shell
  arena : f.KeepsArena g
  size : g.blocks.size = f.blocks.size
  blocks : ∀ (b : BlockId) (blk : Block), f.blocks[b]? = some blk → ∃ insts,
    g.blocks[b]? = some { blk with insts := insts } ∧
      BracketsBlock before after moduleName count f g b blk.insts insts

variable {f g h : Func} {before after moduleName : SymbolId} {count count' : Nat}
  {ops : InstId → List Op} {piece : List InstId} {b : BlockId} {pos : Nat} {i last : InstId}
  {symbols symbols' : SymbolTable}

/-! ### Pieces of code -/

theorem KeepsArena.getElem?_eq (harena : f.KeepsArena g) {terminates : Bool}
    (hi : f.Terminates i terminates) : g.insts[i]? = f.insts[i]? := by
  obtain ⟨instruction, hinst, -⟩ := hi
  rw [hinst, harena i _ hinst]

theorem IsPiece.grow (hpiece : f.IsPiece ops piece) (harena : f.KeepsArena g) :
    g.IsPiece ops piece := by
  obtain ⟨n, hlisted, hholds⟩ := hpiece
  refine ⟨n, hlisted, fun k op hop => ?_⟩
  obtain ⟨origin, hinst⟩ := hholds k op hop
  exact ⟨origin, harena _ _ hinst⟩

/-- Pieces without parameters. -/
theorem isParamAt_flatten {pieces : List (List InstId)}
    (hpieces : ∀ piece ∈ pieces, f.IsPiece ops piece)
    (hops : ∀ n, ∀ op ∈ ops n, op.isParam = false) :
    ∀ i ∈ pieces.flatten, f.isParamAt i = false := by
  intro i hi
  obtain ⟨piece, hpiece, hi⟩ := List.mem_flatten.mp hi
  obtain ⟨n, rfl, hholds⟩ := hpieces piece hpiece
  obtain ⟨k, hk, rfl⟩ := List.mem_range'.mp hi
  obtain ⟨origin, hinst⟩ := hholds k _ (List.getElem?_eq_getElem hk)
  rw [Nat.one_mul, isParamAt, hinst]
  exact hops n _ (List.getElem_mem hk)

theorem isParam_openingOps (before moduleName : SymbolId) (n : InstId) :
    ∀ op ∈ openingOps before moduleName n, op.isParam = false := by
  simp [openingOps, Op.isParam]

theorem isParam_closingOps (after : SymbolId) (n : InstId) :
    ∀ op ∈ closingOps after n, op.isParam = false := by
  simp [closingOps, Op.isParam]

/-- A piece of code is put into one block. -/
theorem insertCode_piece (ops : InstId → List Op)
    (h : f.insertCode b pos (addedCode [] (ops f.insts.size)) = .ok g) :
    f.KeepsArena g ∧ g.blocks.size = f.blocks.size ∧
      (∀ (c : BlockId) (blk : Block), c ≠ b → f.blocks[c]? = some blk → g.blocks[c]? = some blk) ∧
      ∃ piece, g.IsPiece ops piece ∧ ∀ blk, f.blocks[b]? = some blk →
        g.blocks[b]? =
          some { blk with insts := blk.insts.take pos ++ piece ++ blk.insts.drop pos } := by
  obtain ⟨blk, hblk, -, rfl⟩ := insertCode_eq_ok h
  refine ⟨fun i instruction hinst => ?_, size_blocks_graft, fun c other hne hother => ?_, ?_⟩
  · rw [getElem?_insts_graft_of_lt (Array.getElem?_eq_some_iff.mp hinst).1, hinst]
  · rw [getElem?_blocks_graft_of_ne hne (lt_size_of_getElem? hother), hother]
  · refine ⟨List.range' f.insts.size (ops f.insts.size).length, ⟨_, rfl, holds_graft⟩,
      fun blk' hblk' => ?_⟩
    obtain rfl := Option.some.inj (hblk.symm.trans hblk')
    rw [getElem?_blocks_graft_self hblk, Check.length_addedCode]

/-! ### One bracketing -/

/-- The parameters at the start of a list are counted. -/
theorem leadingParams_length {insts : List InstId} {count : Nat}
    (h : f.leadingParams insts = .ok count) : count = (insts.takeWhile f.isParamAt).length := by
  induction insts generalizing count with
  | nil =>
      cases h
      rfl
  | cons i rest ih =>
      rw [leadingParams] at h
      obtain ⟨instruction, hinst, h⟩ := bind_eq_ok h
      have hparam : f.isParamAt i = instruction.op.isParam := by
        rw [isParamAt, inst_eq_ok hinst]
        rfl
      split at h
      · rename_i hop
        obtain ⟨count', hcount, h⟩ := bind_eq_ok h
        cases h
        rw [List.takeWhile_cons_of_pos (hparam.trans hop), List.length_cons, ih hcount]
      · rename_i hop
        cases h
        rw [List.takeWhile_cons_of_neg (by rwa [hparam]), List.length_nil]

theorem Terminates.isParamAt_eq_false (hlast : f.Terminates last true) :
    f.isParamAt last = false := by
  obtain ⟨instruction, hinst, hop⟩ := hlast
  rw [isParamAt, hinst, Option.any_some]
  cases hparam : instruction.op with
  | param =>
      rw [hparam] at hop
      cases hop
  | _ => rfl

/-- A block that ends in a terminator is an exit if the terminator leaves. -/
theorem mem_exits_of_last {leaves : Op → Bool} {all : List (BlockId × Nat)} {blk : Block}
    {front : List InstId} {instruction : Instruction} (h : f.exits leaves = .ok all)
    (hblk : f.blocks[b]? = some blk) (hlisted : blk.insts = front ++ [last])
    (hinst : f.insts[last]? = some instruction) (hterm : instruction.op.isTerminator = true)
    (hleaves : leaves instruction.op = true) : (b, front.length) ∈ all := by
  unfold exits at h
  obtain ⟨found, hfound, h⟩ := bind_eq_ok h
  cases h
  have hb : b ∈ f.blockIds := List.mem_range.mpr (lt_size_of_getElem? hblk)
  obtain ⟨exit, hexit, hfound⟩ := mapM_eq_ok hfound b hb
  have hblock : f.block b = .ok blk := by rw [block, hblk]
  have hlast : f.inst last = .ok instruction := by rw [inst, hinst]
  have hsome : f.exit? leaves b = .ok (some (b, front.length)) := by
    simp [exit?, terminator, hblock, hlast, hterm, hleaves, hlisted, checkedSub]
  obtain rfl := Except.ok.inj (hfound.symm.trans hsome)
  exact List.mem_filterMap.mpr ⟨_, hexit, rfl⟩

/-- Every block ends in a terminator. -/
def Closes (f : Func) : Prop :=
  ∀ (b : BlockId) (blk : Block), f.blocks[b]? = some blk →
    ∃ front last, blk.insts = front ++ [last] ∧ f.Terminates last true

theorem Sound.closes (hsound : f.Sound symbols) : f.Closes := by
  intro b blk hblk
  obtain ⟨front, last, hlisted, -, hlast⟩ := hsound.ends b blk hblk
  exact ⟨front, last, hlisted, hlast⟩

/-- The rest of a block behind its parameters ends in the block's terminator. -/
theorem Closes.dropWhile {blk : Block} (hcloses : f.Closes) (hblk : f.blocks[b]? = some blk) :
    ∃ body last, blk.insts.dropWhile f.isParamAt = body ++ [last] ∧ f.Terminates last true ∧
      blk.insts = blk.insts.takeWhile f.isParamAt ++ body ++ [last] := by
  obtain ⟨front, last, hlisted, hlast⟩ := hcloses b blk hblk
  have hbody : blk.insts.dropWhile f.isParamAt = front.dropWhile f.isParamAt ++ [last] := by
    rw [hlisted, List.dropWhile_append]
    split
    · rename_i hempty
      rw [List.isEmpty_iff.mp hempty, List.nil_append,
        List.dropWhile_cons_of_neg (by simp [hlast.isParamAt_eq_false])]
    · rfl
  refine ⟨_, last, hbody, hlast, ?_⟩
  rw [List.append_assoc, ← hbody, List.takeWhile_append_dropWhile]

/-- Calls are put in front of the exits, and nowhere else. -/
theorem callAtExits_eq_ok {exits : List (BlockId × Nat)} (hnodup : (exits.map Prod.fst).Nodup)
    (h : exits.foldlM (callAtExit after) f = .ok g) :
    f.KeepsArena g ∧ g.blocks.size = f.blocks.size ∧
      ∀ (b : BlockId) (blk : Block), f.blocks[b]? = some blk →
        (b ∉ exits.map Prod.fst → g.blocks[b]? = some blk) ∧
        ∀ pos, (b, pos) ∈ exits → ∃ piece, g.IsPiece (closingOps after) piece ∧
          g.blocks[b]? =
            some { blk with insts := blk.insts.take pos ++ piece ++ blk.insts.drop pos } := by
  induction exits generalizing f with
  | nil =>
      cases h
      exact ⟨fun _ _ hinst => hinst, rfl, fun b blk hblk => ⟨fun _ => hblk, by simp⟩⟩
  | cons exit rest ih =>
      obtain ⟨f₁, hf₁, h⟩ := foldlM_cons_eq_ok h
      rw [List.map_cons, List.nodup_cons] at hnodup
      obtain ⟨hfresh, hnodup⟩ := hnodup
      obtain ⟨harena₁, hsize₁, hother, piece, hpiece, hself⟩ :=
        insertCode_piece (closingOps after) hf₁
      obtain ⟨harena, hsize, hblocks⟩ := ih hnodup h
      refine ⟨fun i instruction hinst => harena i _ (harena₁ i _ hinst), hsize.trans hsize₁,
        fun b blk hblk => ⟨fun hb => ?_, fun pos hpos => ?_⟩⟩
      · rw [List.map_cons, List.mem_cons, not_or] at hb
        exact (hblocks b blk (hother b blk hb.1 hblk)).1 hb.2
      · rcases List.mem_cons.mp hpos with rfl | hrest
        · -- the other exits are in other blocks
          exact ⟨piece, hpiece.grow harena, (hblocks b _ (hself blk hblk)).1 hfresh⟩
        · have hne : b ≠ exit.1 := by
            rintro rfl
            exact hfresh (List.mem_map.mpr ⟨_, hrest, rfl⟩)
          exact (hblocks b blk (hother b blk hne hblk)).2 pos hrest

/-- Calls in front of the returns. -/
theorem closings_of_exits {exits : List (BlockId × Nat)} (hexits : f.exits Op.isRet = .ok exits)
    (h : exits.foldlM (callAtExit after) f = .ok g) {blk : Block} {front : List InstId}
    (hblk : f.blocks[b]? = some blk) (hlisted : blk.insts = front ++ [last])
    (hlast : f.Terminates last true) : ∃ closings : List (List InstId),
      closings.length = (if f.isRetAt last then 1 else 0) ∧
      (∀ piece ∈ closings, g.IsPiece (closingOps after) piece) ∧
      g.blocks[b]? = some { blk with insts := front ++ closings.flatten ++ [last] } := by
  obtain ⟨hnodup, hplaces⟩ := exits_eq_ok hexits
  obtain ⟨-, -, hblocks⟩ := callAtExits_eq_ok hnodup h
  obtain ⟨hstays, hleaves⟩ := hblocks b blk hblk
  obtain ⟨instruction, hinst, hterm⟩ := hlast
  have hret : f.isRetAt last = instruction.op.isRet := by
    rw [isRetAt, hinst]
    rfl
  by_cases hop : instruction.op.isRet = true
  · obtain ⟨piece, hpiece, hnew⟩ :=
      hleaves _ (mem_exits_of_last hexits hblk hlisted hinst hterm hop)
    refine ⟨[piece], by rw [hret, if_pos hop]; rfl, by simpa using hpiece, ?_⟩
    rw [hnew, hlisted, List.take_left, List.drop_left, List.flatten_singleton]
  · refine ⟨[], by rw [hret, if_neg hop]; rfl, by simp, ?_⟩
    rw [hstays, List.flatten_nil, List.append_nil, ← hlisted]
    intro hexit
    -- an exit is the last instruction of its block
    obtain ⟨⟨c, pos⟩, hmem, rfl⟩ := List.mem_map.mp hexit
    obtain ⟨last', blk', instruction', hblk', hlength, hget, hinst', hop'⟩ := hplaces _ hmem
    obtain rfl := Option.some.inj (hblk.symm.trans hblk')
    rw [hlisted, List.length_append, List.length_singleton] at hlength
    rw [hlisted, List.getElem?_append_right (by omega),
      show pos - front.length = 0 by omega] at hget
    obtain rfl := Option.some.inj hget
    obtain rfl := Option.some.inj (hinst.symm.trans hinst')
    exact hop hop'

/-- One bracketing. -/
theorem bracketed_of_bracket (hcloses : f.Closes)
    (h : f.bracket before after moduleName = .ok g) :
    Bracketed before after moduleName 1 f g := by
  have hshell := shell_bracket h
  unfold bracket at h
  obtain ⟨exits, hexits, h⟩ := bind_eq_ok h
  obtain ⟨pos, hpos, h⟩ := bind_eq_ok h
  obtain ⟨f₁, hf₁, h⟩ := bind_eq_ok h
  obtain ⟨harena₁, hsize₁, -⟩ := callAtExits_eq_ok (exits_eq_ok hexits).1 hf₁
  obtain ⟨harena₂, hsize₂, hother, opening, hopening, hself⟩ :=
    insertCode_piece (openingOps before moduleName) h
  refine ⟨hshell, fun i instruction hinst => harena₂ i _ (harena₁ i _ hinst), hsize₂.trans hsize₁,
    fun b blk hblk => ?_⟩
  -- the calls in front of returns come first, and leave the parameters where they are
  obtain ⟨body, last, hbody, hlast, hlisted⟩ := hcloses.dropWhile hblk
  obtain ⟨closings, hcount, hclosings, hblk₁⟩ := closings_of_exits hexits hf₁ hblk hlisted hlast
  have hclosings : ∀ piece ∈ closings, g.IsPiece (closingOps after) piece :=
    fun piece hpiece => (hclosings piece hpiece).grow harena₂
  by_cases hb : b = 0
  · subst hb
    have hpos : pos = (blk.insts.takeWhile f.isParamAt).length := by
      rw [prologueLength, hblk] at hpos
      exact leadingParams_length hpos
    have hnew := hself _ hblk₁
    rw [List.append_assoc, List.append_assoc, hpos, List.take_left, List.drop_left] at hnew
    refine ⟨_, hnew, body, last, [opening], closings, hbody, hlast, ?_, rfl,
      by simpa using hopening, hcount, hclosings⟩
    rw [List.flatten_singleton]
    simp only [List.append_assoc]
  · refine ⟨_, hother b _ hb hblk₁, body, last, [], closings, hbody, hlast, ?_,
      by rw [if_neg hb]; rfl, by simp, hcount, hclosings⟩
    simp only [List.flatten_nil, List.nil_append, List.append_assoc]

/-! ### Bracketings add up -/

namespace Bracketed

theorem refl (before after moduleName : SymbolId) (hcloses : f.Closes) :
    Bracketed before after moduleName 0 f f := by
  refine ⟨rfl, fun _ _ hinst => hinst, rfl, fun b blk hblk => ⟨blk.insts, hblk, ?_⟩⟩
  obtain ⟨body, last, hbody, hlast, hlisted⟩ := hcloses.dropWhile hblk
  refine ⟨body, last, [], [], hbody, hlast, ?_, by simp, by simp, by simp, by simp⟩
  rwa [List.flatten_nil, List.nil_append, List.append_nil, ← List.append_assoc]

theorem closes (hg : Bracketed before after moduleName count f g) : g.Closes := by
  intro b blk' hblk'
  have hlt : b < f.blocks.size := hg.size ▸ lt_size_of_getElem? hblk'
  obtain ⟨insts, hinsts, body, last, openings, closings, -, hlast, rfl, -⟩ :=
    hg.blocks b _ (Array.getElem?_eq_getElem hlt)
  obtain rfl := Option.some.inj (hblk'.symm.trans hinsts)
  obtain ⟨instruction, hinst, hterm⟩ := hlast
  exact ⟨_, last, (List.append_assoc _ _ _).symm, instruction, hg.arena last _ hinst, hterm⟩

/-- The parameters at the start of a block are what they were, since neither call has one. -/
theorem splits_block (hg : Bracketed before after moduleName count f g) {insts body : List InstId}
    {openings closings : List (List InstId)} (hends : f.Ends insts)
    (hbody : insts.dropWhile f.isParamAt = body ++ [last])
    (hopenings : ∀ piece ∈ openings, g.IsPiece (openingOps before moduleName) piece)
    (hclosings : ∀ piece ∈ closings, g.IsPiece (closingOps after) piece) :
    let rest := openings.flatten ++ body ++ closings.flatten ++ [last]
    (insts.takeWhile f.isParamAt ++ rest).takeWhile g.isParamAt = insts.takeWhile f.isParamAt ∧
      (insts.takeWhile f.isParamAt ++ rest).dropWhile g.isParamAt = rest := by
  have hsame : ∀ i ∈ insts, g.isParamAt i = f.isParamAt i := by
    intro i hi
    obtain ⟨pos, hpos⟩ := List.getElem?_of_mem hi
    rw [isParamAt, isParamAt, hg.arena.getElem?_eq ((ends_iff.mp hends).2 pos i hpos)]
  have hfirst : ∀ i ∈ (body ++ [last]).head?, g.isParamAt i = false := by
    intro i hi
    rw [← hbody] at hi
    rw [hsame i ((List.dropWhile_sublist _).mem (List.mem_of_mem_head? hi))]
    have hnot := List.head?_dropWhile_not f.isParamAt insts
    rw [hi] at hnot
    simpa using hnot
  intro rest
  refine split_of_head (fun i hi => ?_) fun i hi => ?_
  · rw [hsame i ((List.takeWhile_sublist _).mem hi)]
    exact List.mem_takeWhile_imp hi
  · simp only [rest, List.append_assoc] at hi
    refine forall_head?_append (isParamAt_flatten hopenings (isParam_openingOps before moduleName))
      ?_ i hi
    cases body with
    | nil =>
        rw [List.nil_append]
        exact forall_head?_append (isParamAt_flatten hclosings (isParam_closingOps after)) hfirst
    | cons first others => exact hfirst

/-- Bracketings add up. -/
theorem trans (hg : Bracketed before after moduleName count f g)
    (hh : Bracketed before after moduleName count' g h)
    (hsound : f.Sound symbols) : Bracketed before after moduleName (count + count') f h := by
  refine ⟨hh.shell.trans hg.shell, fun i instruction hinst => hh.arena i _ (hg.arena i _ hinst),
    hh.size.trans hg.size, fun b blk hblk => ?_⟩
  obtain ⟨_, hblk', body, last, openings, closings, hbody, hlast, rfl, hopened, hopenings, hclosed,
    hclosings⟩ := hg.blocks b blk hblk
  obtain ⟨_, hblk'', body', last', openings', closings', hbody', hlast', rfl, hopened', hopenings',
    hclosed', hclosings'⟩ := hh.blocks b _ hblk'
  obtain ⟨htake, hdrop⟩ := hg.splits_block (hsound.ends b blk hblk) hbody hopenings hclosings
  rw [htake] at hblk''
  rw [hdrop] at hbody'
  obtain ⟨rfl, hsame⟩ := List.append_inj' hbody' rfl
  obtain rfl := List.singleton_inj.mp hsame
  refine ⟨_, hblk'', body, last, openings' ++ openings, closings ++ closings', hbody, hlast,
    ?_, ?_, ?_, ?_, ?_⟩
  · simp only [List.flatten_append, List.append_assoc]
  · rw [List.length_append, hopened, hopened']
    split <;> omega
  · intro piece hpiece
    rcases List.mem_append.mp hpiece with hpiece | hpiece
    · exact hopenings' piece hpiece
    · exact (hopenings piece hpiece).grow hh.arena
  · rw [List.length_append, hclosed, hclosed', isRetAt, isRetAt, hg.arena.getElem?_eq hlast]
    split <;> omega
  · intro piece hpiece
    rcases List.mem_append.mp hpiece with hpiece | hpiece
    · exact (hclosings piece hpiece).grow hh.arena
    · exact hclosings' piece hpiece

end Bracketed

/-! ### Calls of bracketed functions -/

/-- The calls among some instructions. -/
def callsAmong (symbols : SymbolTable) (f : Func) (insts : List InstId) : List RoutineCall :=
  insts.filterMap fun i => f.insts[i]?.bind fun instruction => f.call? symbols instruction.op

/-- The number of blocks that end in a return. -/
def returns (f : Func) : Nat := f.blocks.toList.countP fun blk => blk.insts.getLast?.any f.isRetAt

/-- The call at the start of a constructor. -/
def openingCall (symbols : SymbolTable) (before moduleName : SymbolId) : RoutineCall :=
  ⟨symbols.names[before]?.map .address, [symbols.names[moduleName]?.map .address]⟩

theorem calls_eq_flatMap (symbols : SymbolTable) (f : Func) :
    f.calls symbols = f.blocks.toList.flatMap fun blk => f.callsAmong symbols blk.insts := by
  rw [calls, listed, List.filterMap_flatMap]
  rfl

theorem callsAmong_append (first second : List InstId) : f.callsAmong symbols (first ++ second) =
    f.callsAmong symbols first ++ f.callsAmong symbols second := List.filterMap_append

theorem IsPiece.callsAmong_opening (hpiece : f.IsPiece (openingOps before moduleName) piece) :
    f.callsAmong symbols piece = [openingCall symbols before moduleName] := by
  obtain ⟨n, rfl, hholds⟩ := hpiece
  simp only [openingOps, holds_cons] at hholds
  obtain ⟨⟨_, hname⟩, ⟨_, haddr⟩, ⟨_, hcall⟩, -⟩ := hholds
  simp [callsAmong, openingOps, openingCall, List.range'_succ, hname, haddr, hcall, call?,
    argument?, defOp, defInst, Value.inst?, Op.argument?]

theorem IsPiece.callsAmong_closing (hpiece : f.IsPiece (closingOps after) piece) :
    f.callsAmong symbols piece = [plainCall symbols after] := by
  obtain ⟨n, rfl, hholds⟩ := hpiece
  simp only [closingOps, holds_cons] at hholds
  obtain ⟨⟨_, haddr⟩, ⟨_, hcall⟩, -⟩ := hholds
  simp [callsAmong, closingOps, plainCall, List.range'_succ, haddr, hcall, call?, argument?, defOp,
    defInst, Value.inst?, Op.argument?]

theorem callsAmong_flatten {pieces : List (List InstId)} {call : RoutineCall}
    (h : ∀ piece ∈ pieces, f.callsAmong symbols piece = [call]) :
    f.callsAmong symbols pieces.flatten = List.replicate pieces.length call := by
  induction pieces with
  | nil => rfl
  | cons piece rest ih =>
      rw [List.forall_mem_cons] at h
      rw [List.flatten_cons, callsAmong_append, h.1, ih h.2, List.length_cons, List.replicate_succ]
      rfl

namespace Bracketed

/-- A call that was there is the same call. -/
theorem callsAmong_eq (hg : Bracketed before after moduleName count f g) (hsound : f.Sound symbols')
    {insts : List InstId} (hinsts : ∀ i ∈ insts, i ∈ f.listed) :
    g.callsAmong symbols insts = f.callsAmong symbols insts := by
  refine List.filterMap_congr fun i hi => ?_
  obtain ⟨instruction, hinst, -⟩ := hsound.flawless i (hinsts i hi)
  rw [hg.arena i _ hinst, hinst, Option.bind_some, Option.bind_some]
  have hargument : ∀ v ∈ instruction.op.operands, instruction.op.isTerminator = false →
      g.argument? symbols v = f.argument? symbols v := by
    intro v hv hplain
    have hlisted := hsound.listed_operand (hinsts i hi) hinst hplain hv
    cases v with
    | arg j => rfl
    | inst j =>
        obtain ⟨made, hmade, -⟩ := hsound.flawless j (hlisted j rfl)
        simp [argument?, defOp, defInst, Value.inst?, hmade, hg.arena j _ hmade]
  cases hop : instruction.op with
  | call callee args =>
      rw [hop] at hargument
      have hargs : args.map (g.argument? symbols) = args.map (f.argument? symbols) :=
        List.map_congr_left fun v hv => hargument v (List.mem_cons_of_mem _ hv) rfl
      rw [call?, call?, hargument callee List.mem_cons_self rfl, hargs]
  | _ => rfl

theorem calls_block (hg : Bracketed before after moduleName count f g) (hsound : f.Sound symbols')
    {blk : Block} (hblk : f.blocks[b]? = some blk) : ∃ blk', g.blocks[b]? = some blk' ∧
      (g.callsAmong symbols blk'.insts).Perm
        (List.replicate (if b = 0 then count else 0) (openingCall symbols before moduleName) ++
          (f.callsAmong symbols blk.insts ++
            List.replicate (if blk.insts.getLast?.any f.isRetAt then count else 0)
              (plainCall symbols after))) := by
  obtain ⟨_, hblk', body, last, openings, closings, hbody, -, rfl, hopened, hopenings, hclosed,
    hclosings⟩ := hg.blocks b blk hblk
  refine ⟨_, hblk', ?_⟩
  have hlisted : blk.insts = blk.insts.takeWhile f.isParamAt ++ (body ++ [last]) := by
    rw [← hbody, List.takeWhile_append_dropWhile]
  have hret : blk.insts.getLast?.any f.isRetAt = f.isRetAt last := by
    rw [hlisted, ← List.append_assoc, List.getLast?_concat, Option.any_some]
  have hsame : g.callsAmong symbols blk.insts = f.callsAmong symbols blk.insts :=
    hg.callsAmong_eq hsound fun i hi => mem_listed hblk hi
  rw [hret, ← hopened, ← hclosed, ← hsame,
    ← callsAmong_flatten fun piece hpiece => (hopenings piece hpiece).callsAmong_opening,
    ← callsAmong_flatten fun piece hpiece => (hclosings piece hpiece).callsAmong_closing,
    ← callsAmong_append, ← callsAmong_append]
  refine List.Perm.filterMap _ (List.perm_iff_count.mpr fun i => ?_)
  generalize blk.insts.takeWhile f.isParamAt = params at hlisted
  rw [hlisted]
  simp only [List.count_append]
  omega

/-- All calls of a bracketed function. -/
theorem calls_perm (hg : Bracketed before after moduleName count f g) (hsound : f.Sound symbols')
    (hdefined : f.isDeclaration = false) : (g.calls symbols).Perm
      (List.replicate count (openingCall symbols before moduleName) ++
        (f.calls symbols ++ List.replicate (count * f.returns) (plainCall symbols after))) := by
  rw [calls_eq_flatMap, calls_eq_flatMap, returns]
  refine perm_flatMap_of_first (fun hnil => ?_) ?_ fun b blk hblk => ?_
  · rw [isDeclaration, Array.isEmpty_eq_false_iff] at hdefined
    exact absurd (Array.toList_eq_nil_iff.mp hnil) hdefined
  · rw [Array.length_toList, Array.length_toList, hg.size]
  · rw [Array.getElem?_toList] at hblk ⊢
    exact hg.calls_block hsound hblk

end Bracketed

end Func

end Redzone
