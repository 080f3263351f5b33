import Redzone.Proofs.Execution.Simulation

/-!
# Functions that differ by a detour

Let `g` be `f` with code added: the arena is longer, and in one block the instructions from some
place on are replaced by others, the *detour*.  Where the two functions list the same instructions
they do the same (`stepsAlike_of_same_head`): the code of `f` reads only values of `f`, and the two
environments agree on these.  So `g` simulates `f` as soon as the detour catches up with the code
that it stands for (`Simulation.of_detour`).
-/

namespace Redzone

/-- A value is a block argument or the result of one of the first `n` instructions. -/
def Value.Below (n : Nat) : Value → Prop
  | .inst i => i < n
  | .arg _ => True

@[simp] theorem Value.below_inst {n i : Nat} : (Value.inst i).Below n ↔ i < n := Iff.rfl

theorem Value.Below.mono {n m : Nat} {v : Value} (h : v.Below n) (hle : n ≤ m) : v.Below m := by
  cases v with
  | inst i => exact lt_of_lt_of_le h hle
  | arg i => trivial

/-- An instruction refers to the first `n` instructions and the first `m` blocks only. -/
structure Op.Refers (n m : Nat) (op : Op) : Prop where
  operand : ∀ v ∈ op.operands, v.Below n
  target : ∀ b : Nat, b ∈ op.successors → b < m

theorem Op.Refers.mono {n m n' m' : Nat} {op : Op} (h : op.Refers n m) (hn : n ≤ n')
    (hm : m ≤ m') : op.Refers n' m' :=
  ⟨fun v hv => (h.operand v hv).mono hn, fun b hb => lt_of_lt_of_le (h.target b hb) hm⟩

/-- Whatever a function lists is in its arena and refers to what is there. -/
def Func.Closed (f : Func) : Prop :=
  ∀ i ∈ f.listed, ∃ instruction, f.insts[i]? = some instruction ∧
    instruction.op.Refers f.insts.size f.blocks.size

theorem Func.mem_listed {f : Func} {b : BlockId} {blk : Block} {i : InstId}
    (hblk : f.blocks[b]? = some blk) (hi : i ∈ blk.insts) : i ∈ f.listed :=
  List.mem_flatMap.mpr ⟨blk, (Array.mem_of_getElem? hblk).val, hi⟩

theorem Func.exists_of_mem_listed {f : Func} {i : InstId} (hi : i ∈ f.listed) :
    ∃ (b : BlockId) (blk : Block), f.blocks[b]? = some blk ∧ i ∈ blk.insts := by
  obtain ⟨blk, hblk, hi⟩ := List.mem_flatMap.mp hi
  obtain ⟨b, hb⟩ := Array.getElem?_of_mem (Array.mem_def.mpr hblk)
  exact ⟨b, blk, hb, hi⟩

/-- States with the same memory that agree on the values below `n`. -/
structure Agree (n : Nat) (s t : State) : Prop where
  env : ∀ v : Value, v.Below n → s.env v = t.env v
  memory : s.memory = t.memory
  stack : s.stack = t.stack

theorem Env.set_agree {n : Nat} {env env' : Env} (h : ∀ v : Value, v.Below n → env v = env' v)
    (w : Value) (result : Option Int) :
    ∀ v : Value, v.Below n → env.set w result v = env'.set w result v := by
  intro v hv
  simp only [Env.set, h v hv]

theorem Env.bind_agree {n : Nat} {params : List Value} {vs : List Int} {env env' : Env}
    (h : ∀ v : Value, v.Below n → env v = env' v) :
    ∀ v : Value, v.Below n → env.bind params vs v = env'.bind params vs v := by
  induction params generalizing vs env env' with
  | nil => simpa only [Env.bind] using h
  | cons param params ih =>
      cases vs with
      | nil => simpa only [Env.bind] using h
      | cons v vs => exact ih (Env.set_agree h param (some v))

/-- A jump goes where its operation says. -/
theorem Op.exec_jumps_mem {x : Activation} {env : Env} {memory : Memory} {stack : Nat} {op : Op}
    {target : BlockId} {args : List Int}
    (h : op.exec x env memory stack = some (.jumps target args)) : target ∈ op.successors := by
  cases op with
  | br next =>
      simp only [Op.exec, Option.bind_eq_bind, Option.bind_eq_some_iff, Option.some.injEq,
        Effect.jumps.injEq] at h
      obtain ⟨vs, -, rfl, -⟩ := h
      simp [Op.successors]
  | brif cond ifTrue ifFalse =>
      simp only [Op.exec, Option.bind_eq_bind, Option.bind_eq_some_iff, Option.some.injEq,
        Effect.jumps.injEq] at h
      obtain ⟨c, -, vs, -, rfl, -⟩ := h
      by_cases hc : c = 0 <;> simp [Op.successors, hc]
  | call callee args' =>
      simp only [Op.exec, Option.bind_eq_bind, Option.bind_eq_some_iff] at h
      obtain ⟨c, -, vs, -, h⟩ := h
      cases hreply : x.machine.call c vs memory <;> simp [hreply] at h
  | ret value => cases value <;> simp [Op.exec, Option.bind_eq_some_iff] at h
  | _ => simp [Op.exec, Option.bind_eq_some_iff] at h

section

variable {α : Type} {view : Event → List α} {loud : Event → Prop} {f g : Func} {x y : Activation}
  {n : Nat}

/-- States that agree on the values below `n` and list instructions that are related by `A`. -/
def Alongside (n : Nat) (A : List InstId → List InstId → Prop) (s t : State) : Prop :=
  Agree n s t ∧ A s.rest t.rest

/-- Every block of `f` is one of `g`, takes the same arguments and lists related instructions. -/
def BlocksAlongside (f g : Func) (A : List InstId → List InstId → Prop) : Prop :=
  ∀ (b : BlockId) (blk : Block), f.blocks[b]? = some blk → ∃ blk' : Block,
    g.blocks[b]? = some blk' ∧ blk'.argValues = blk.argValues ∧ A blk.insts blk'.insts

theorem start_alongside {A : List InstId → List InstId → Prop} (hblocks : BlocksAlongside f g A)
    (hsize : 0 < f.blocks.size) (memory : Memory) (stack : Nat) :
    Option.Rel (Alongside n A) (f.start memory stack) (g.start memory stack) := by
  obtain ⟨blk', hblk', -, hinsts⟩ := hblocks 0 _ (Array.getElem?_eq_getElem hsize)
  unfold Func.start Func.enter
  rw [Array.getElem?_eq_getElem hsize, hblk']
  simp only [Env.bind_nil, Option.map_some]
  exact .some ⟨⟨fun _ _ => rfl, rfl, rfl⟩, hinsts⟩

/-- Where both functions are about to execute the same instruction, they take the same step. -/
theorem stepsAlike_of_same_head {A : List InstId → List InstId → Prop} {s t : State} {i : InstId}
    {instruction : Instruction} {rest rest' : List InstId} (hagree : Agree n s t)
    (hs : s.rest = i :: rest) (ht : t.rest = i :: rest') (hf : f.insts[i]? = some instruction)
    (hg : g.insts[i]? = some instruction) (hrefers : instruction.op.Refers n f.blocks.size)
    (hexec : ∀ env memory stack, instruction.op.exec y env memory stack =
      instruction.op.exec x env memory stack)
    (hblocks : BlocksAlongside f g A)
    (hrest : A rest rest') :
    StepsAlike view loud (Alongside n A) (f.step x s) (g.step y t) := by
  have hsame : instruction.op.exec y t.env t.memory t.stack =
      instruction.op.exec x s.env s.memory s.stack := by
    rw [hexec, ← hagree.memory, ← hagree.stack]
    exact Op.exec_congr fun v hv => (hagree.env v (hrefers.operand v hv)).symm
  cases heffect : instruction.op.exec x s.env s.memory s.stack with
  | none =>
      rw [Func.step_undefined hs hf heffect, Func.step_undefined ht hg (hsame.trans heffect)]
      exact .undefined
  | some effect =>
      have heffect' := hsame.trans heffect
      cases effect with
      | proceeds p =>
          rw [Func.step_proceeds hs hf heffect, Func.step_proceeds ht hg heffect']
          exact .next rfl id ⟨⟨Env.set_agree hagree.env _ _, rfl, rfl⟩, hrest⟩
      | jumps target args =>
          have htarget := hrefers.target target (Op.exec_jumps_mem heffect)
          have hblk : f.blocks[target]? = some f.blocks[target] :=
            Array.getElem?_eq_getElem htarget
          obtain ⟨blk', hblk', hargs, hinsts⟩ := hblocks target _ hblk
          rw [Func.step_jumps hs hf heffect hblk, Func.step_jumps ht hg heffect' hblk',
            hargs, hagree.memory]
          exact .next rfl id
            ⟨⟨Env.bind_agree hagree.env, rfl, hagree.stack⟩, hinsts⟩
      | ends ending memory call =>
          rw [Func.step_ends hs hf heffect, Func.step_ends ht hg heffect']
          exact .last rfl id

/-- The instructions that are left in `f` and in `g`: the same, or the code up to the detour is
still to come. -/
def DetourAhead (f g : Func) (tail detour : List InstId) (rest rest' : List InstId) : Prop :=
  (rest' = rest ∧ ∀ i ∈ rest, i ∈ f.listed ∧ g.insts[i]? = f.insts[i]?) ∨
    ∃ kept, rest = kept ++ tail ∧ rest' = kept ++ detour ∧
      ∀ i ∈ kept, i ∈ f.listed ∧ g.insts[i]? = f.insts[i]?

/-- A function simulates another one if it lists the same instructions up to a detour, and the
detour catches up with the code that it stands for. -/
theorem Simulation.of_detour {tail detour : List InstId} (hclosed : f.Closed)
    (hblocks : BlocksAlongside f g (DetourAhead f g tail detour))
    (hdetour : ∀ s t, Agree f.insts.size s t → s.rest = tail → t.rest = detour →
      g.Quiet x loud t →
      CatchesUp view loud f g x x (Alongside f.insts.size (DetourAhead f g tail detour)) s t) :
    Simulation view loud f g x x (Alongside f.insts.size (DetourAhead f g tail detour)) := by
  rintro s t ⟨hagree, hahead⟩ hquiet
  -- the step at an instruction that both functions list, in front of the detour or elsewhere
  have hsame : ∀ {i : InstId} {rest rest' : List InstId}, s.rest = i :: rest →
      t.rest = i :: rest' → i ∈ f.listed ∧ g.insts[i]? = f.insts[i]? →
      DetourAhead f g tail detour rest rest' →
      CatchesUp view loud f g x x (Alongside f.insts.size (DetourAhead f g tail detour)) s t := by
    intro i rest rest' hs ht hi hrest
    obtain ⟨instruction, hinst, hrefers⟩ := hclosed i hi.1
    exact ⟨[], t, .refl t, by simp, stepsAlike_of_same_head hagree hs ht hinst
      (hi.2.trans hinst) hrefers (fun _ _ _ => rfl) hblocks hrest⟩
  rcases hahead with ⟨hrest, hfine⟩ | ⟨kept, hs, ht, hfine⟩
  · cases hs : s.rest with
    | nil =>
        refine ⟨[], t, .refl t, by simp, ?_⟩
        simp only [Func.step, hrest, hs]
        exact .undefined
    | cons i rest =>
        rw [hs, List.forall_mem_cons] at hfine
        exact hsame hs (hrest.trans hs) hfine.1 (.inl ⟨rfl, hfine.2⟩)
  · cases kept with
    | nil => exact hdetour s t hagree hs ht hquiet
    | cons i kept =>
        rw [List.forall_mem_cons] at hfine
        exact hsame hs ht hfine.1 (.inr ⟨kept, rfl, rfl, hfine.2⟩)

end

end Redzone
