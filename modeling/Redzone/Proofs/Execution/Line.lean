import Redzone.Proofs.Execution.Detour

/-!
# Straight-line code that was added

Added code stands in one piece of the arena, where its operations refer to one another by their
places.  `execLine` executes such a piece as long as control goes on behind each operation.  It
needs no function, so that the meaning of a piece of code can be computed once and for all; where a
function holds the code and lists it, the function runs through it (`runs_of_execLine`).
-/

namespace Redzone

/-- The added operations `ops` stand in the arena from place `n` on. -/
def Func.Holds (f : Func) (n : InstId) (ops : List Op) : Prop :=
  ∀ (k : Nat) (op : Op), ops[k]? = some op →
    ∃ origin, f.insts[n + k]? = some ⟨op, op.addedTy, origin, true⟩

theorem Func.holds_append {f : Func} {n : InstId} {first second : List Op} :
    f.Holds n (first ++ second) ↔ f.Holds n first ∧ f.Holds (n + first.length) second := by
  constructor
  · intro h
    refine ⟨fun k op hop => ?_, fun k op hop => ?_⟩
    · have hk := (List.getElem?_eq_some_iff.mp hop).1
      exact h k op (by rwa [List.getElem?_append_left hk])
    · rw [Nat.add_assoc]
      exact h _ op (by rwa [List.getElem?_append_right (by omega), Nat.add_sub_cancel_left])
  · rintro ⟨hfirst, hsecond⟩ k op hop
    rcases Nat.lt_or_ge k first.length with hk | hk
    · exact hfirst k op (by rwa [List.getElem?_append_left hk] at hop)
    · have h := hsecond (k - first.length) op (by rwa [List.getElem?_append_right hk] at hop)
      rwa [Nat.add_assoc, Nat.add_sub_cancel' hk] at h

theorem Func.holds_cons {f : Func} {n : InstId} {op : Op} {ops : List Op} :
    f.Holds n (op :: ops) ↔
      (∃ origin, f.insts[n]? = some ⟨op, op.addedTy, origin, true⟩) ∧ f.Holds (n + 1) ops := by
  rw [← List.singleton_append, holds_append]
  refine and_congr_left fun _ => ⟨fun h => h 0 op rfl, fun h k op' hop => ?_⟩
  obtain ⟨rfl, rfl⟩ : k = 0 ∧ op = op' := by
    cases k <;> simp_all
  exact h

/-- The result that an added operation leaves. -/
def Op.keeps (op : Op) (value : Option Int) : Option Int :=
  if op.addedTy = .unit then none else value

/-- Execute operations that stand from place `n` on. -/
def execLine (x : Activation) : InstId → List Op → State → Option (List Event × State)
  | _, [], s => some ([], s)
  | n, op :: ops, s =>
      match op.exec x s.env s.memory s.stack with
      | some (.proceeds p) =>
          (execLine x (n + 1) ops
            ⟨s.rest.tail, s.env.set (.inst n) (op.keeps p.value), p.memory, p.stack⟩).map
              fun (es, t) => (⟨n, op.keeps p.value, p.memory, p.call, p.access⟩ :: es, t)
      | _ => none

theorem execLine_cons_eq_some {x : Activation} {n : InstId} {op : Op} {ops : List Op} {s t : State}
    {es : List Event} (h : execLine x n (op :: ops) s = some (es, t)) :
    ∃ p es', op.exec x s.env s.memory s.stack = some (.proceeds p) ∧
      es = ⟨n, op.keeps p.value, p.memory, p.call, p.access⟩ :: es' ∧
      execLine x (n + 1) ops
        ⟨s.rest.tail, s.env.set (.inst n) (op.keeps p.value), p.memory, p.stack⟩ =
          some (es', t) := by
  rw [execLine] at h
  split at h
  · rename_i p hexec
    obtain ⟨⟨es', t'⟩, hline, heq⟩ := Option.map_eq_some_iff.mp h
    injection heq with hes ht
    subst hes ht
    exact ⟨p, es', hexec, rfl, hline⟩
  · cases h

theorem execLine_append {x : Activation} {n : InstId} {first second : List Op} {s t u : State}
    {es es' : List Event} (hfirst : execLine x n first s = some (es, t))
    (hsecond : execLine x (n + first.length) second t = some (es', u)) :
    execLine x n (first ++ second) s = some (es ++ es', u) := by
  induction first generalizing n s es with
  | nil =>
      cases hfirst
      exact hsecond
  | cons op ops ih =>
      obtain ⟨p, es, hexec, rfl, hline⟩ := execLine_cons_eq_some hfirst
      rw [List.length_cons, Nat.add_comm ops.length, ← Nat.add_assoc] at hsecond
      rw [List.cons_append, execLine, hexec]
      simp only [ih hline hsecond, Option.map_some, List.cons_append]

theorem execLine_append_eq_some {x : Activation} {n : InstId} {first second : List Op} {s u : State}
    {es : List Event} (h : execLine x n (first ++ second) s = some (es, u)) :
    ∃ es₁ es₂ t, es = es₁ ++ es₂ ∧ execLine x n first s = some (es₁, t) ∧
      execLine x (n + first.length) second t = some (es₂, u) := by
  induction first generalizing n s es with
  | nil => exact ⟨[], es, s, rfl, rfl, h⟩
  | cons op ops ih =>
      obtain ⟨p, es', hexec, rfl, hline⟩ := execLine_cons_eq_some h
      obtain ⟨es₁, es₂, t, rfl, hfirst, hsecond⟩ := ih hline
      refine ⟨_ :: es₁, es₂, t, rfl, ?_, ?_⟩
      · rw [execLine, hexec]
        simp only [hfirst, Option.map_some]
      · rwa [List.length_cons, Nat.add_comm ops.length, ← Nat.add_assoc]

/-- A function that holds straight-line code and lists it runs through it. -/
theorem runs_of_execLine {f : Func} {x : Activation} {n : InstId} {ops : List Op} {s t : State}
    {es : List Event} {rest : List InstId} (hholds : f.Holds n ops)
    (hrest : s.rest = List.range' n ops.length ++ rest)
    (hline : execLine x n ops s = some (es, t)) : f.Runs x s es t ∧ t.rest = rest := by
  induction ops generalizing n s es with
  | nil =>
      cases hline
      exact ⟨.refl _, hrest⟩
  | cons op ops ih =>
      obtain ⟨⟨origin, hinst⟩, hholds⟩ := Func.holds_cons.mp hholds
      obtain ⟨p, es, hexec, rfl, htail⟩ := execLine_cons_eq_some hline
      rw [List.length_cons, List.range'_succ, List.cons_append] at hrest
      obtain ⟨hruns, hrest'⟩ := ih hholds (by simp only [hrest, List.tail_cons]) htail
      refine ⟨.step ?_ hruns, hrest'⟩
      rw [Func.step_proceeds hrest hinst hexec, hrest]
      rfl

/-- Straight-line code leaves the values below it alone. -/
theorem execLine_env {x : Activation} {n : InstId} {ops : List Op} {s t : State}
    {es : List Event} (hline : execLine x n ops s = some (es, t)) {v : Value} (hv : v.Below n) :
    t.env v = s.env v := by
  induction ops generalizing n s es with
  | nil =>
      cases hline
      rfl
  | cons op ops ih =>
      obtain ⟨p, es, -, rfl, htail⟩ := execLine_cons_eq_some hline
      have hne : v ≠ .inst n := by
        rintro rfl
        exact lt_irrefl n hv
      rw [ih htail (hv.mono (Nat.le_succ n))]
      exact Env.set_of_ne _ _ hne

/-- The events of straight-line code are those of its own instructions. -/
theorem le_inst_of_execLine {x : Activation} {n : InstId} {ops : List Op} {s t : State}
    {es : List Event} (hline : execLine x n ops s = some (es, t)) : ∀ e ∈ es, n ≤ e.inst := by
  induction ops generalizing n s es with
  | nil =>
      cases hline
      simp
  | cons op ops ih =>
      obtain ⟨p, es, -, rfl, htail⟩ := execLine_cons_eq_some hline
      rw [List.forall_mem_cons]
      exact ⟨le_rfl, fun e he => Nat.le_of_succ_le (ih htail e he)⟩

/-! ### Runs through added code -/

/-- A run through instructions from place `n` on, which leaves the values below and the stack
alone. -/
structure Func.Passes (f : Func) (x : Activation) (n : InstId) (s : State) (es : List Event)
    (t : State) : Prop where
  runs : f.Runs x s es t
  env : ∀ v : Value, v.Below n → t.env v = s.env v
  stack : t.stack = s.stack
  inst : ∀ e ∈ es, n ≤ e.inst

namespace Func.Passes

variable {f : Func} {x : Activation} {n m : InstId} {s t u : State} {es es' : List Event}

theorem refl (s : State) : f.Passes x n s [] s :=
  ⟨.refl s, fun _ _ => rfl, rfl, by simp⟩

theorem trans (hfirst : f.Passes x n s es t) (hsecond : f.Passes x m t es' u) (hle : n ≤ m) :
    f.Passes x n s (es ++ es') u where
  runs := hfirst.runs.trans hsecond.runs
  env v hv := (hsecond.env v (hv.mono hle)).trans (hfirst.env v hv)
  stack := hsecond.stack.trans hfirst.stack
  inst e he := by
    rcases List.mem_append.mp he with he | he
    · exact hfirst.inst e he
    · exact hle.trans (hsecond.inst e he)

theorem of_execLine {ops : List Op} {rest : List InstId} (hholds : f.Holds n ops)
    (hrest : s.rest = List.range' n ops.length ++ rest)
    (hline : execLine x n ops s = some (es, t)) (hstack : t.stack = s.stack) :
    f.Passes x n s es t ∧ t.rest = rest := by
  obtain ⟨hruns, hrest'⟩ := runs_of_execLine hholds hrest hline
  exact ⟨⟨hruns, fun v hv => execLine_env hline hv, hstack, le_inst_of_execLine hline⟩, hrest'⟩

/-- A jump to a block without arguments. -/
theorem of_jump {i : InstId} {instruction : Instruction} {target : BlockId} {rest : List InstId}
    {blk : Block} (hrest : s.rest = i :: rest) (hinst : f.insts[i]? = some instruction)
    (hexec : instruction.op.exec x s.env s.memory s.stack = some (.jumps target []))
    (hblk : f.blocks[target]? = some blk) (hi : n ≤ i) :
    f.Passes x n s [⟨i, none, s.memory, none, none⟩] { s with rest := blk.insts } where
  runs := by
    have hstep := Func.step_jumps hrest hinst hexec hblk
    rw [Env.bind_nil] at hstep
    exact .single hstep
  env _ _ := rfl
  stack := rfl
  inst := by simpa using hi

/-- Straight-line code that ends in a jump to a block without arguments. -/
theorem of_line_jump {ops : List Op} {op : Op} {target : BlockId} {blk : Block}
    (hholds : f.Holds n (ops ++ [op])) (hrest : s.rest = List.range' n (ops ++ [op]).length)
    (hline : execLine x n ops s = some (es, t)) (hstack : t.stack = s.stack)
    (hjump : op.exec x t.env t.memory t.stack = some (.jumps target []))
    (hblk : f.blocks[target]? = some blk) :
    f.Passes x n s (es ++ [⟨n + ops.length, none, t.memory, none, none⟩])
      { t with rest := blk.insts } := by
  obtain ⟨hops, hop⟩ := Func.holds_append.mp hholds
  obtain ⟨⟨origin, hinst⟩, -⟩ := Func.holds_cons.mp hop
  rw [List.length_append, List.length_singleton, List.range'_1_concat] at hrest
  obtain ⟨hpasses, hrest'⟩ := of_execLine hops hrest hline hstack
  exact hpasses.trans (of_jump hrest' hinst hjump hblk (Nat.le_add_right n _)) le_rfl

/-- Straight-line code that ends in a branch to one of two blocks without arguments. -/
theorem of_line_branch {ops : List Op} {cond : Value} {b : Bool} {yes no : BlockId}
    {blk blk' : Block}
    (hholds : f.Holds n (ops ++ [.brif cond { block := yes } { block := no }]))
    (hrest : s.rest = List.range' n (ops.length + 1))
    (hline : execLine x n ops s = some (es, t)) (hstack : t.stack = s.stack)
    (hcond : t.env cond = some (truth b)) (hyes : f.blocks[yes]? = some blk)
    (hno : f.blocks[no]? = some blk') :
    f.Passes x n s (es ++ [⟨n + ops.length, none, t.memory, none, none⟩])
      { t with rest := if b then blk.insts else blk'.insts } := by
  cases b with
  | true =>
      exact of_line_jump hholds (by simpa using hrest) hline hstack
        (by simp [Op.exec, hcond, truth]) hyes
  | false =>
      exact of_line_jump hholds (by simpa using hrest) hline hstack
        (by simp [Op.exec, hcond, truth]) hno

end Func.Passes

end Redzone
