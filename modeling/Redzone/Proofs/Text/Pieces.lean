import Redzone.Ir.Text
import Redzone.Proofs.Lawful

/-!
# The pieces of a text

A text is a sequence of words and values, and a printer only decides how the values are called.
`Instruction.pieces` gives the line of an instruction, and the values in it are its result, if the
line shows it, and its operands, in the order of the operation (`Instruction.values_pieces`).  The
text of a function is rendered from `Func.pieces` (`Func.text_eq_render`), if nothing in it leads
out of the arenas.
-/

namespace Redzone

@[simp] theorem toString_string (s : String) : toString s = s := rfl

/-- A word stands for itself; how a value is called is left open. -/
inductive Piece
  | word (text : String)
  | value (v : Value)
  deriving DecidableEq

namespace Piece

def text (name : Value → String) : Piece → String
  | word text => text
  | value v => name v

def value? : Piece → Option Value
  | word _ => none
  | value v => some v

/-- The text of pieces, with the values called as `name` says. -/
def render (name : Value → String) (pieces : List Piece) : String :=
  String.join (pieces.map (text name))

/-- The values in pieces, in order. -/
def values (pieces : List Piece) : List Value := pieces.filterMap value?

/-- Parts with commas between them. -/
def commas (parts : List (List Piece)) : List Piece := [word ", "].intercalate parts

/-- A list of values. -/
def list (vs : List Value) : List Piece := commas (vs.map fun v => [value v])

variable {name : Value → String}

@[simp] theorem render_nil : render name [] = "" := String.join_nil

@[simp] theorem render_word (text : String) (rest : List Piece) :
    render name (word text :: rest) = text ++ render name rest := String.join_cons

@[simp] theorem render_value (v : Value) (rest : List Piece) :
    render name (value v :: rest) = name v ++ render name rest := String.join_cons

@[simp] theorem render_append (first second : List Piece) :
    render name (first ++ second) = render name first ++ render name second := by
  rw [render, List.map_append, String.join_append]
  rfl

theorem render_flatMap {α : Type} (l : List α) (part : α → List Piece) :
    render name (l.flatMap part) = String.join (l.map fun a => render name (part a)) := by
  induction l with
  | nil => simp
  | cons a rest ih => rw [List.flatMap_cons, render_append, List.map_cons, String.join_cons, ih]

theorem render_commas (parts : List (List Piece)) :
    render name (commas parts) = ", ".intercalate (parts.map (render name)) := by
  induction parts with
  | nil => simp [commas]
  | cons part rest ih =>
      cases rest with
      | nil => simp [commas]
      | cons next rest =>
          rw [commas, List.intercalate_cons_cons, ← commas, render_append, render_append, ih]
          simp

@[simp] theorem values_nil : values [] = [] := rfl

@[simp] theorem values_word (text : String) (rest : List Piece) :
    values (word text :: rest) = values rest := rfl

@[simp] theorem values_value (v : Value) (rest : List Piece) :
    values (value v :: rest) = v :: values rest := rfl

@[simp] theorem values_append (first second : List Piece) :
    values (first ++ second) = values first ++ values second := List.filterMap_append

theorem values_flatMap {α : Type} (l : List α) (part : α → List Piece) :
    values (l.flatMap part) = l.flatMap fun a => values (part a) := List.filterMap_flatMap

theorem values_commas (parts : List (List Piece)) :
    values (commas parts) = parts.flatMap values := by
  induction parts with
  | nil => rfl
  | cons part rest ih =>
      cases rest with
      | nil => simp [commas]
      | cons next rest =>
          rw [commas, List.intercalate_cons_cons, ← commas, values_append, values_append, ih]
          simp

@[simp] theorem values_list (vs : List Value) : values (list vs) = vs := by
  rw [list, values_commas, List.flatMap_map]
  exact List.flatMap_singleton' vs

end Piece

open Piece

/-! ### Lines -/

/-- The pieces of a branch target. -/
def Target.pieces (t : Target) : List Piece :=
  if t.args.isEmpty then [word s!"bb{t.block}"]
  else [word s!"bb{t.block}("] ++ list t.args ++ [word ")"]

namespace Instruction

/-- Whether the line of an instruction shows its result. -/
def showsResult (i : Instruction) : Bool :=
  match i.op with
  | .store .. | .bulk .. | .lifetime .. | .ret _ | .br _ | .brif .. | .unwind | .unreachable
  | .trap => false
  | .call .. => i.ty ≠ .unit
  | _ => true

/-- The pieces of the line of an instruction whose result is `v`. -/
def pieces (symbols : SymbolTable) (v : Value) (i : Instruction) : List Piece :=
  match i.op with
  | .param index => [value v, word s!" = param {index}"]
  | .iconst n => [value v, word s!" = iconst {n}"]
  | .bconst b => [value v, word s!" = bconst {b}"]
  | .arith op lhs rhs => [value v, word s!" = {op.text} "] ++ list [lhs, rhs]
  | .icmp cmp lhs rhs => [value v, word s!" = icmp.{cmp.text} "] ++ list [lhs, rhs]
  | .select cond ifTrue ifFalse => [value v, word " = select "] ++ list [cond, ifTrue, ifFalse]
  | .extend true w bits => [value v, word " = sext ", value w, word s!", {bits}"]
  | .extend false w bits => [value v, word " = zext ", value w, word s!", {bits}"]
  | .load ptr bytes none => [value v, word s!" = load.{i.ty.text} ", value ptr, word s!", {bytes}"]
  | .load ptr bytes (some order) =>
      [value v, word s!" = load.atomic.{i.ty.text} ", value ptr, word s!", {bytes}, {order.text}"]
  | .store w ptr bytes none => [word "store "] ++ list [w, ptr] ++ [word s!", {bytes}"]
  | .store w ptr bytes (some order) =>
      [word "store.atomic "] ++ list [w, ptr] ++ [word s!", {bytes}, {order.text}"]
  | .rmw op ptr w bytes order =>
      [value v, word s!" = rmw.{op.text} "] ++ list [ptr, w] ++ [word s!", {bytes}, {order.text}"]
  | .cmpxchg ptr expected desired bytes order =>
      [value v, word " = cmpxchg "] ++ list [ptr, expected, desired] ++
        [word s!", {bytes}, {order.text}"]
  | .bulk kind dest source length => [word s!"{kind.text} "] ++ list [dest, source, length]
  | .stackSlot size align => [value v, word s!" = stack_slot {size}, align {align}"]
  | .lifetime edge ptr size => [word s!"lifetime.{edge.text} ", value ptr, word s!", {size}"]
  | .symbolAddr s => [value v, word (" = symbol_addr " ++ (⟨[], symbols⟩ : Printer).symbol s)]
  | .call callee args =>
      (if i.ty = .unit then [] else [value v, word " = "]) ++
        [word "call ", value callee, word "("] ++ list args ++ [word ")"]
  | .ptrAdd ptr offset => [value v, word " = ptradd "] ++ list [ptr, offset]
  | .ptrToAddr ptr => [value v, word " = ptrtoaddr ", value ptr]
  | .intToPtr w => [value v, word " = inttoptr ", value w]
  | .ret none => [word "ret"]
  | .ret (some w) => [word "ret ", value w]
  | .br next => [word "br "] ++ next.pieces
  | .brif cond ifTrue ifFalse =>
      [word "brif ", value cond, word ", "] ++ ifTrue.pieces ++ [word ", "] ++ ifFalse.pieces
  | .unwind => [word "unwind"]
  | .unreachable => [word "unreachable"]
  | .trap => [word "trap"]

end Instruction

namespace Printer

variable (p : Printer)

theorem render_list (vs : List Value) : render p.value (list vs) = p.values vs := by
  rw [list, render_commas, List.map_map, values]
  exact congrArg _ (List.map_congr_left fun v _ => by simp)

theorem target_eq_render (t : Target) : p.target t = render p.value t.pieces := by
  rw [target, Target.pieces]
  split
  · simp
  · simp [render_list, String.append_assoc]

theorem instruction_eq_render (v : Value) (i : Instruction) :
    p.instruction v i = render p.value (i.pieces p.symbols v) := by
  rw [instruction, Instruction.pieces]
  cases i.op
  case extend signed w bits => cases signed <;> simp [String.append_assoc]
  case load ptr bytes order => cases order <;> simp [String.append_assoc]
  case store w ptr bytes order => cases order <;> simp [render_list, String.append_assoc]
  case ret w => cases w <;> simp
  case call callee args =>
    by_cases hty : i.ty = .unit <;> simp [hty, render_list, String.append_assoc]
  all_goals simp [render_list, target_eq_render, symbol, String.append_assoc]

end Printer

theorem Target.values_pieces (t : Target) : values t.pieces = t.args := by
  rw [pieces]
  split
  · rename_i hempty
    rw [List.isEmpty_iff.mp hempty]
    rfl
  · simp

/-- A line shows the result, if it does, and then the operands. -/
theorem Instruction.values_pieces (symbols : SymbolTable) (v : Value) (i : Instruction) :
    values (i.pieces symbols v) = (if i.showsResult then [v] else []) ++ i.op.operands := by
  rw [pieces, showsResult]
  cases i.op
  case extend signed w bits => cases signed <;> rfl
  case load ptr bytes order => cases order <;> rfl
  case store w ptr bytes order => cases order <;> rfl
  case ret w => cases w <;> rfl
  case call callee args => by_cases hty : i.ty = .unit <;> simp [hty, Op.operands]
  all_goals simp [Op.operands, Target.values_pieces]

/-! ### Functions -/

theorem mapM_eq_map {ε α β : Type} {next : α → Except ε β} {result : α → β} {l : List α}
    (h : ∀ a ∈ l, next a = .ok (result a)) : l.mapM next = .ok (l.map result) := by
  induction l with
  | nil => rfl
  | cons a rest ih =>
      rw [List.forall_mem_cons] at h
      rw [List.mapM_cons, h.1, ok_bind, ih h.2]
      rfl

namespace Func

variable {f : Func} {symbols : SymbolTable}

/-- The opening words of a function, which show no values. -/
def heading (f : Func) (symbols : SymbolTable) : String :=
  let keyword := if f.isDeclaration then "declare" else "func"
  let name := (⟨[], symbols⟩ : Printer).symbol f.name
  let params := ", ".intercalate (f.params.map Ty.text)
  let result := match f.ret with
    | some ty => s!" -> {ty.text}"
    | none => ""
  s!"{keyword} {name}({params}){result}"

/-- An argument with its type. -/
def argPieces (f : Func) (v : Value) : List Piece :=
  [value v, word (": " ++ (f.valueTy v).elim "" Ty.text)]

/-- The line that opens a block. -/
def headerPieces (f : Func) (b : BlockId) (blk : Block) : List Piece :=
  if blk.argCount = 0 then [word s!"bb{b}:"]
  else [word s!"bb{b}("] ++ commas (blk.argValues.map f.argPieces) ++ [word "):"]

/-- The line of a listing. -/
def linePieces (f : Func) (symbols : SymbolTable) (i : InstId) : List Piece :=
  match f.insts[i]? with
  | some instruction => [word "    "] ++ instruction.pieces symbols (.inst i) ++ [word "\n"]
  | none => []

/-- The lines of a block. -/
def blockPieces (f : Func) (symbols : SymbolTable) (b : BlockId) : List Piece :=
  match f.blocks[b]? with
  | some blk =>
      [word "  "] ++ f.headerPieces b blk ++ [word "\n"] ++ blk.insts.flatMap (f.linePieces symbols)
  | none => []

/-- The pieces of a function. -/
def pieces (f : Func) (symbols : SymbolTable) : List Piece :=
  if f.isDeclaration then [word (f.heading symbols)]
  else [word (f.heading symbols), word " \x7b\n"] ++ f.blockIds.flatMap (f.blockPieces symbols) ++
    [word "\x7d"]

theorem argTexts_eq_render (p : Printer) {vs : List Value} {tys : List Ty}
    (h : tys.map some = vs.map f.valueTy) :
    ((vs.zip tys).map fun (v, ty) => s!"{p.value v}: {ty.text}") =
      (vs.map f.argPieces).map (render p.value) := by
  induction vs generalizing tys with
  | nil => rfl
  | cons v rest ih =>
      cases tys with
      | nil => simp at h
      | cons ty tys =>
          simp only [List.map_cons, List.cons.injEq] at h
          rw [List.zip_cons_cons, List.map_cons, List.map_cons, List.map_cons, ih h.2]
          simp [argPieces, ← h.1, String.append_assoc]

theorem blockHeader_eq_render (p : Printer) {b : BlockId} {blk : Block} (hargs : f.ArgsInArena)
    (hblk : f.blocks[b]? = some blk) :
    f.blockHeader p b blk = .ok (render p.value (f.headerPieces b blk)) := by
  rw [blockHeader, headerPieces]
  split
  · simp
  · obtain ⟨tys, htys, -, hmap⟩ := exists_argTys hargs hblk
    rw [htys, ok_bind, argTexts_eq_render p hmap]
    simp [render_commas, String.append_assoc]

theorem blockText_eq_render (symbols : SymbolTable) (shown : List Value) {b : BlockId}
    (hargs : f.ArgsInArena) (hlisted : ∀ i ∈ f.listed, i < f.insts.size) (hb : b < f.blocks.size) :
    f.blockText ⟨shown, symbols⟩ b =
      .ok (render (Printer.value ⟨shown, symbols⟩) (f.blockPieces symbols b)) := by
  have hblk : f.blocks[b]? = some f.blocks[b] := Array.getElem?_eq_getElem hb
  have hlines : ∀ i ∈ f.blocks[b].insts,
      (do let instruction ← f.inst i
          .ok s!"    {Printer.instruction ⟨shown, symbols⟩ (.inst i) instruction}\n" :
        Except Fault String) =
        .ok (render (Printer.value ⟨shown, symbols⟩) (f.linePieces symbols i)) := by
    intro i hi
    have hinst := Array.getElem?_eq_getElem (hlisted i (mem_listed hblk hi))
    rw [inst, linePieces, hinst]
    simp [Printer.instruction_eq_render, String.append_assoc]
  rw [blockText, block, blockPieces, hblk]
  simp only [ok_bind, blockHeader_eq_render _ hargs hblk, mapM_eq_map hlines]
  simp [render_flatMap, String.append_assoc]

/-- A text in which nothing leads out of the arenas. -/
theorem text_eq_render (hargs : f.ArgsInArena) (hlisted : ∀ i ∈ f.listed, i < f.insts.size) :
    f.text symbols =
      .ok (render (Printer.value ⟨f.shownValues, symbols⟩) (f.pieces symbols)) := by
  have hblocks := mapM_eq_map fun b (hb : b ∈ f.blockIds) =>
    blockText_eq_render symbols f.shownValues hargs hlisted (List.mem_range.mp hb)
  have htext : f.text symbols =
      if f.isDeclaration then .ok (f.heading symbols)
      else f.blockIds.mapM (f.blockText ⟨f.shownValues, symbols⟩) >>= fun lines =>
        .ok (f.heading symbols ++ " \x7b\n" ++ String.join lines ++ "\x7d") := rfl
  rw [htext, pieces, hblocks]
  split
  · simp
  · simp [render_flatMap, String.append_assoc]

end Func

end Redzone
