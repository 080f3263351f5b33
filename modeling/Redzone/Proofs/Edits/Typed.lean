import Redzone.Proofs.Frame.Effect
import Redzone.Verify.Function

/-!
# Added code is well typed

Added code stands in straight lines.  A line reads values that are there already and results of its
own; `CodeTyped` says that all of them have the types that the operations ask for.  Whether the
values are there, and whether they can be read at the place where the line is put, is left to the
relation `has` between values and types.

The second half of the module goes through the lines that are ever added: checks, calls of checking
routines, the prologue of a frame and writes to the shadow.
-/

namespace Redzone

/-- What is known about the types of values. -/
abbrev Typing := Value → Ty → Prop

/-- Know the type of one more result. -/
def Typing.set (has : Typing) (n : InstId) (ty : Ty) : Typing :=
  fun v t => has v t ∨ v = .inst n ∧ t = ty

/-- The type of the value is known. -/
def Typing.Knows (has : Typing) (v : Value) : Prop := ∃ t, has v t

/-- The value is a pointer. -/
def Typing.IsPtr (has : Typing) (v : Value) : Prop := ∃ t, has v t ∧ t.isPtr = true

@[simp] theorem Typing.set_iff {has : Typing} {n : InstId} {ty t : Ty} {v : Value} :
    has.set n ty v t ↔ has v t ∨ v = .inst n ∧ t = ty := Iff.rfl

@[simp] theorem Typing.knows_set {has : Typing} {n : InstId} {ty : Ty} {v : Value} :
    (has.set n ty).Knows v ↔ has.Knows v ∨ v = .inst n := by
  simp only [Knows, set_iff, exists_or, exists_and_left, exists_eq, and_true]

@[simp] theorem Typing.isPtr_set {has : Typing} {n : InstId} {ty : Ty} {v : Value} :
    (has.set n ty).IsPtr v ↔ has.IsPtr v ∨ v = .inst n ∧ ty.isPtr = true := by
  simp only [IsPtr, set_iff, or_and_right, exists_or, and_assoc, exists_eq_left, exists_and_left]

/-- An instruction of straight-line code reads values of the types it needs and has a type that it
may have. -/
def Instruction.Typed (symbols : SymbolTable) (has : Typing) (i : Instruction) : Prop :=
  match i.op with
  | .iconst _ => i.ty = .int
  | .arith _ lhs rhs => has lhs .int ∧ has rhs .int ∧ i.ty = .int
  | .icmp _ lhs rhs => has lhs .int ∧ has rhs .int ∧ i.ty = .bool
  | .extend _ value bits => has value .int ∧ bits ≠ 0 ∧ i.ty = .int
  | .load ptr bytes _ => has.IsPtr ptr ∧ bytes ≠ 0
  | .store value ptr bytes _ => has.Knows value ∧ has.IsPtr ptr ∧ bytes ≠ 0 ∧ i.ty = .unit
  | .stackSlot _ align => isPowerOfTwo align = true ∧ i.ty.isPtr = true
  | .symbolAddr symbol => symbols.contains symbol = true ∧ i.ty.isPtr = true
  | .call callee args => has.IsPtr callee ∧ ∀ v ∈ args, has.Knows v
  | .ptrAdd ptr offset => has.IsPtr ptr ∧ has offset .int
  | .ptrToAddr ptr => has.IsPtr ptr ∧ i.ty = .int
  | .intToPtr value => has value .int ∧ i.ty.isPtr = true
  | _ => False

/-- Code that stands from place `n` of the arena on. -/
def CodeTyped (symbols : SymbolTable) : Typing → InstId → List Instruction → Prop
  | _, _, [] => True
  | has, n, i :: rest => i.Typed symbols has ∧ CodeTyped symbols (has.set n i.ty) (n + 1) rest

/-- What is known in front of instruction `k` of some code. -/
def Typing.behind (has : Typing) (n : InstId) (code : List Instruction) (k : Nat) : Typing :=
  fun v t => has v t ∨ ∃ j i, j < k ∧ code[j]? = some i ∧ v = .inst (n + j) ∧ t = i.ty

namespace Instruction.Typed

variable {symbols symbols' : SymbolTable} {has has' : Typing} {i : Instruction}

theorem mono (h : i.Typed symbols has) (hsymbols : symbols.size ≤ symbols'.size)
    (hhas : ∀ v t, has v t → has' v t) : i.Typed symbols' has' := by
  have hptr : ∀ v, has.IsPtr v → has'.IsPtr v := fun v ⟨t, hv, ht⟩ => ⟨t, hhas v t hv, ht⟩
  cases hop : i.op <;> simp only [Typed, hop] at h ⊢
  case iconst => exact h
  case arith => exact ⟨hhas _ _ h.1, hhas _ _ h.2.1, h.2.2⟩
  case icmp => exact ⟨hhas _ _ h.1, hhas _ _ h.2.1, h.2.2⟩
  case extend => exact ⟨hhas _ _ h.1, h.2⟩
  case load => exact ⟨hptr _ h.1, h.2⟩
  case store => exact ⟨h.1.imp fun t => hhas _ t, hptr _ h.2.1, h.2.2⟩
  case stackSlot => exact h
  case symbolAddr =>
      refine ⟨?_, h.2⟩
      simp only [SymbolTable.contains, decide_eq_true_eq] at h ⊢
      exact h.1.trans_le hsymbols
  case call => exact ⟨hptr _ h.1, fun v hv => (h.2 v hv).imp fun t => hhas v t⟩
  case ptrAdd => exact ⟨hptr _ h.1, hhas _ _ h.2⟩
  case ptrToAddr => exact ⟨hptr _ h.1, h.2⟩
  case intToPtr => exact ⟨hhas _ _ h.1, h.2⟩

/-- Only what is known is read. -/
theorem operand (h : i.Typed symbols has) : ∀ v ∈ i.op.operands, has.Knows v := by
  have hptr : ∀ v, has.IsPtr v → has.Knows v := fun v ⟨t, hv, _⟩ => ⟨t, hv⟩
  have hknows : ∀ v t, has v t → has.Knows v := fun v t hv => ⟨t, hv⟩
  unfold Typed at h
  split at h <;> rename_i hop <;> simp only [hop, Op.operands] <;> grind

theorem proceeds (h : i.Typed symbols has) :
    i.op.successors = [] ∧ i.op.isTerminator = false ∧ i.op.isParam = false := by
  unfold Typed at h
  split at h <;> rename_i hop <;> simp_all [Op.successors, Op.isTerminator, Op.isParam]

end Instruction.Typed

namespace CodeTyped

variable {symbols symbols' : SymbolTable} {has has' : Typing} {n : InstId}
  {code first second : List Instruction}

theorem mono (h : CodeTyped symbols has n code) (hsymbols : symbols.size ≤ symbols'.size)
    (hhas : ∀ v t, has v t → has' v t) : CodeTyped symbols' has' n code := by
  induction code generalizing has has' n with
  | nil => trivial
  | cons i rest ih =>
      refine ⟨h.1.mono hsymbols hhas, ih h.2 fun v t hv => ?_⟩
      exact hv.imp_left (hhas v t)

/-- An instruction of typed code may read the results of those in front of it. -/
theorem get (h : CodeTyped symbols has n code) {k : Nat} {i : Instruction}
    (hk : code[k]? = some i) : i.Typed symbols (has.behind n code k) := by
  induction code generalizing has n k with
  | nil => simp at hk
  | cons first rest ih =>
      cases k with
      | zero =>
          obtain rfl : first = i := by simpa using hk
          exact h.1.mono le_rfl fun v t hv => .inl hv
      | succ k =>
          refine (ih h.2 (by simpa using hk)).mono le_rfl fun v t hv => ?_
          rcases hv with (hv | ⟨rfl, rfl⟩) | ⟨j, i', hj, hi', rfl, rfl⟩
          · exact .inl hv
          · exact .inr ⟨0, first, Nat.succ_pos k, rfl, rfl, rfl⟩
          · refine .inr ⟨j + 1, i', Nat.succ_lt_succ hj, by simpa using hi', ?_, rfl⟩
            rw [Nat.add_assoc, Nat.add_comm 1 j]

theorem successors (h : CodeTyped symbols has n code) :
    ∀ i ∈ code, i.op.successors = [] := by
  intro i hi
  obtain ⟨k, hk⟩ := List.getElem?_of_mem hi
  exact (h.get hk).proceeds.1

theorem append (hfirst : CodeTyped symbols has n first)
    (hsecond : CodeTyped symbols (has.behind n first first.length) (n + first.length) second) :
    CodeTyped symbols has n (first ++ second) := by
  induction first generalizing has n with
  | nil =>
      refine hsecond.mono le_rfl fun v t hv => ?_
      rcases hv with hv | ⟨j, i, hj, -⟩
      · exact hv
      · exact absurd hj (Nat.not_lt_zero j)
  | cons i rest ih =>
      refine ⟨hfirst.1, ih hfirst.2 ?_⟩
      have hn : n + 1 + rest.length = n + (i :: rest).length := by
        rw [List.length_cons, Nat.add_right_comm, Nat.add_assoc]
      rw [hn]
      refine hsecond.mono le_rfl fun v t hv => ?_
      rcases hv with hv | ⟨j, i', hj, hi', rfl, rfl⟩
      · exact .inl (.inl hv)
      · cases j with
        | zero =>
            obtain rfl : i = i' := by simpa using hi'
            exact .inl (.inr ⟨rfl, rfl⟩)
        | succ j =>
            refine .inr ⟨j, i', Nat.lt_of_succ_lt_succ hj, by simpa using hi', ?_, rfl⟩
            rw [Nat.add_assoc, Nat.add_comm 1 j]

end CodeTyped

/-! ### The lines that are added -/

section

variable {symbols : SymbolTable} {has : Typing} {n : InstId} (origin : Origin)

theorem typed_probeCode (mapping : ShadowMapping) {addr : Value} (size : Nat)
    (haddr : has addr .int) :
    CodeTyped symbols has n (addedCode origin (probeCode mapping n addr size)) := by
  simp [probeCode, shadowAddrCode, addedCode, CodeTyped, Instruction.Typed, Op.addedTy,
    Op.resultTy?, Ty.isPtr, ShadowMapping.loadWidth, haddr]

theorem typed_slowLine (mapping : ShadowMapping) {addr shadow : Value} (size : Nat)
    (haddr : has addr .int) (hshadow : has shadow .int) :
    CodeTyped symbols has n (addedCode origin (slowLine mapping n addr shadow size)) := by
  unfold slowLine
  split <;>
    simp [addedCode, CodeTyped, Instruction.Typed, Op.addedTy, Op.resultTy?, haddr, hshadow]

theorem typed_reportLine {routine : SymbolId} {args : List Value}
    (hroutine : symbols.contains routine = true) (hargs : ∀ v ∈ args, has.Knows v) :
    CodeTyped symbols has n (addedCode origin [.symbolAddr routine, .call (.inst n) args]) := by
  have hargs' : ∀ v ∈ args, has.Knows v ∨ v = .inst n := fun v hv => .inl (hargs v hv)
  simpa [addedCode, CodeTyped, Instruction.Typed, Op.addedTy, Op.resultTy?, Ty.isPtr, hroutine]
    using hargs'

theorem typed_callOps {access : MemAccess} {routine : SymbolId} (hptr : has.IsPtr access.ptr)
    (hroutine : symbols.contains routine = true) :
    CodeTyped symbols has n (addedCode origin (Draft.callOps access routine n)) := by
  unfold Draft.callOps
  split <;>
    simp [addedCode, CodeTyped, Instruction.Typed, Op.addedTy, Op.resultTy?, Ty.isPtr, hroutine,
      hptr]

theorem typed_ptrToAddr {ptr : Value} (hptr : has.IsPtr ptr) :
    CodeTyped symbols has n (addedCode origin [.ptrToAddr ptr]) := by
  simp [addedCode, CodeTyped, Instruction.Typed, Op.addedTy, Op.resultTy?, hptr]

theorem typed_endsOps {access : MemAccess} (hptr : has.IsPtr access.ptr) :
    CodeTyped symbols has n (addedCode origin (Draft.endsOps access n)) := by
  simp [Draft.endsOps, addedCode, CodeTyped, Instruction.Typed, Op.addedTy, Op.resultTy?, hptr]

theorem typed_symbolAddr {symbol : SymbolId} (hsymbol : symbols.contains symbol = true) :
    CodeTyped symbols has n (addedCode origin [.symbolAddr symbol]) := by
  simp [addedCode, CodeTyped, Instruction.Typed, Op.addedTy, Op.resultTy?, Ty.isPtr, hsymbol]

theorem typed_prologueCode (mapping : ShadowMapping) (size : Nat) {align : Nat}
    {description function : SymbolId} (halign : isPowerOfTwo align = true)
    (hdescription : symbols.contains description = true)
    (hfunction : symbols.contains function = true) :
    CodeTyped symbols has n
      (addedCode origin (prologueCode mapping n size align description function)) := by
  simp [prologueCode, shadowAddrCode, addedCode, CodeTyped, Instruction.Typed, Op.addedTy,
    Op.resultTy?, Ty.isPtr, halign, hdescription, hfunction]

theorem typed_retireOps {code : FrameCode} (hbase : has.IsPtr code.base) :
    CodeTyped symbols has n (addedCode origin (code.retireOps n)) := by
  simp [FrameCode.retireOps, addedCode, CodeTyped, Instruction.Typed, Op.addedTy, Op.resultTy?,
    hbase]

theorem typed_coded {write : ShadowWrite} {base : Value} {ops : List Op}
    (h : write.Coded symbols base n ops) (hcodable : write.Codable) (hbase : has base .int) :
    CodeTyped symbols has n (addedCode origin ops) := by
  cases h with
  | store offset bytes =>
      simp [addedCode, CodeTyped, Instruction.Typed, Op.addedTy, Op.resultTy?, Ty.isPtr, hbase,
        hcodable.1]
  | fill offset length value hroutine =>
      have hcontains := (Array.getElem?_eq_some_iff.mp hroutine).1
      simp [addedCode, CodeTyped, Instruction.Typed, Op.addedTy, Op.resultTy?, Ty.isPtr, hbase,
        SymbolTable.contains, SymbolTable.size, hcontains]

theorem typed_writesCoded {writes : List ShadowWrite} {base : Value} {ops : List Op}
    (h : WritesCoded symbols base n writes ops) (hcodable : ∀ write ∈ writes, write.Codable)
    (hbase : has base .int) : CodeTyped symbols has n (addedCode origin ops) := by
  induction h generalizing has with
  | nil => trivial
  | @cons n write writes ops others hfirst hrest ih =>
      rw [List.forall_mem_cons] at hcodable
      rw [Check.addedCode_append]
      refine (typed_coded origin hfirst hcodable.1 hbase).append ?_
      rw [Check.length_addedCode]
      exact ih hcodable.2 (.inl hbase)

end

end Redzone
