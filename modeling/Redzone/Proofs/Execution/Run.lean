import Redzone.Proofs.Execution.Operation

/-!
# Runs of a function

A state holds the instructions that are left of the current block, the values computed so far,
memory and the end of the stack.  `Func.step` executes one instruction, and says with an `Event`
what can be seen of it: the result, memory afterwards, the call that was made and the bytes that
were accessed.

Runs are looked at in three ways:

* `Runs`: from one state to another, with all events in between;
* `Observes`: what an observer has seen at some moment of a run, and how the run has ended if it
  has.  A run that never ends is one that is never observed to end;
* `Emits`: the events of a run.
-/

namespace Redzone

/-- Where the execution of a function is. -/
structure State where
  /-- The instructions that are left of the current block. -/
  rest : List InstId
  env : Env
  memory : Memory
  /-- Where the stack ends. -/
  stack : Nat

/-- What can be seen of an instruction that was executed. -/
structure Event where
  inst : InstId
  value : Option Int
  /-- Memory afterwards. -/
  memory : Memory
  call : Option Call
  /-- Address and number of the bytes that were accessed. -/
  access : Option (Nat × Nat)

/-- What comes of one step. -/
inductive Step
  | next (event : Event) (state : State)
  | last (event : Event) (ending : Ending)
  | undefined

/-- Bind block arguments to what a branch passes. -/
def Env.bind (env : Env) : List Value → List Int → Env
  | param :: params, v :: vs => (env.set param (some v)).bind params vs
  | _, _ => env

@[simp] theorem Env.bind_nil (env : Env) (params : List Value) : env.bind params [] = env := by
  cases params <;> simp [Env.bind]

/-- The result that an instruction leaves: a value of the unit type is none. -/
def Instruction.keeps (instruction : Instruction) (value : Option Int) : Option Int :=
  if instruction.ty = .unit then none else value

namespace Func

/-- Go to a block. -/
def enter (f : Func) (block : BlockId) (args : List Int) (s : State) : Option State :=
  f.blocks[block]?.map fun blk =>
    { s with rest := blk.insts, env := s.env.bind blk.argValues args }

/-- Execute the next instruction. -/
def step (f : Func) (x : Activation) (s : State) : Step :=
  match s.rest with
  | [] => .undefined
  | i :: rest =>
      match f.insts[i]? with
      | none => .undefined
      | some instruction =>
          match instruction.op.exec x s.env s.memory s.stack with
          | none => .undefined
          | some (.proceeds p) =>
              .next ⟨i, instruction.keeps p.value, p.memory, p.call, p.access⟩
                ⟨rest, s.env.set (.inst i) (instruction.keeps p.value), p.memory, p.stack⟩
          | some (.jumps target args) =>
              match f.enter target args s with
              | none => .undefined
              | some t => .next ⟨i, none, s.memory, none, none⟩ t
          | some (.ends ending memory call) => .last ⟨i, none, memory, call, none⟩ ending

/-- The state in which a function is entered. -/
def start (f : Func) (memory : Memory) (stack : Nat) : Option State :=
  f.enter 0 [] ⟨[], fun _ => none, memory, stack⟩

/-- A run from one state to another, with its events. -/
inductive Runs (f : Func) (x : Activation) : State → List Event → State → Prop
  | refl (s : State) : f.Runs x s [] s
  | step {s s' t : State} {e : Event} {es : List Event} (hstep : f.step x s = .next e s')
      (hrest : f.Runs x s' es t) : f.Runs x s (e :: es) t

/-- What an observer who sees `view e` of an event `e` may have seen at some moment of a run. -/
inductive Observes {α : Type} (f : Func) (x : Activation) (view : Event → List α) :
    State → List α → Option Ending → Prop
  | pause (s : State) : f.Observes x view s [] none
  | undefined {s : State} (hstep : f.step x s = .undefined) :
      f.Observes x view s [] (some .undefined)
  | last {s : State} {e : Event} {ending : Ending} (hstep : f.step x s = .last e ending) :
      f.Observes x view s (view e) (some ending)
  | next {s s' : State} {e : Event} {seen : List α} {ending : Option Ending}
      (hstep : f.step x s = .next e s') (hrest : f.Observes x view s' seen ending) :
      f.Observes x view s (view e ++ seen) ending

/-- The events of a run. -/
inductive Emits (f : Func) (x : Activation) : State → Event → Prop
  | next {s s' : State} {e : Event} (hstep : f.step x s = .next e s') : f.Emits x s e
  | last {s : State} {e : Event} {ending : Ending} (hstep : f.step x s = .last e ending) :
      f.Emits x s e
  | later {s s' : State} {e e' : Event} (hstep : f.step x s = .next e s')
      (hlater : f.Emits x s' e') : f.Emits x s e'

variable {f : Func} {x : Activation} {s s' t : State}

/-! ### Steps -/

theorem step_proceeds {i : InstId} {instruction : Instruction} {p : Progress} {rest : List InstId}
    (hrest : s.rest = i :: rest) (hinst : f.insts[i]? = some instruction)
    (hexec : instruction.op.exec x s.env s.memory s.stack = some (.proceeds p)) :
    f.step x s = .next ⟨i, instruction.keeps p.value, p.memory, p.call, p.access⟩
      ⟨rest, s.env.set (.inst i) (instruction.keeps p.value), p.memory, p.stack⟩ := by
  simp [step, hrest, hinst, hexec]

theorem step_jumps {i : InstId} {instruction : Instruction} {target : BlockId} {args : List Int}
    {rest : List InstId} {blk : Block} (hrest : s.rest = i :: rest)
    (hinst : f.insts[i]? = some instruction)
    (hexec : instruction.op.exec x s.env s.memory s.stack = some (.jumps target args))
    (hblk : f.blocks[target]? = some blk) :
    f.step x s = .next ⟨i, none, s.memory, none, none⟩
      { s with rest := blk.insts, env := s.env.bind blk.argValues args } := by
  simp [step, hrest, hinst, hexec, enter, hblk]

theorem step_undefined {i : InstId} {instruction : Instruction} {rest : List InstId}
    (hrest : s.rest = i :: rest) (hinst : f.insts[i]? = some instruction)
    (hexec : instruction.op.exec x s.env s.memory s.stack = none) :
    f.step x s = .undefined := by
  simp [step, hrest, hinst, hexec]

theorem step_ends {i : InstId} {instruction : Instruction} {ending : Ending} {memory : Memory}
    {call : Option Call} {rest : List InstId} (hrest : s.rest = i :: rest)
    (hinst : f.insts[i]? = some instruction)
    (hexec : instruction.op.exec x s.env s.memory s.stack = some (.ends ending memory call)) :
    f.step x s = .last ⟨i, none, memory, call, none⟩ ending := by
  simp [step, hrest, hinst, hexec]

/-! ### Runs -/

theorem Runs.single {e : Event} (hstep : f.step x s = .next e t) : f.Runs x s [e] t :=
  .step hstep (.refl t)

theorem Runs.trans {es es' : List Event} (hfirst : f.Runs x s es s')
    (hsecond : f.Runs x s' es' t) : f.Runs x s (es ++ es') t := by
  induction hfirst with
  | refl => exact hsecond
  | step hstep _ ih => exact .step hstep (ih hsecond)

/-- What happens behind a run happens in the whole. -/
theorem Emits.of_runs {es : List Event} {e : Event} (hruns : f.Runs x s es t)
    (hemits : f.Emits x t e) : f.Emits x s e := by
  induction hruns with
  | refl => exact hemits
  | step hstep _ ih => exact .later hstep (ih hemits)

theorem Emits.of_mem_runs {es : List Event} {e : Event} (hruns : f.Runs x s es t) (he : e ∈ es) :
    f.Emits x s e := by
  induction hruns with
  | refl => simp at he
  | step hstep _ ih =>
      rcases List.mem_cons.mp he with rfl | he
      · exact .next hstep
      · exact .later hstep (ih he)

/-- A call is seen whether or not it comes back. -/
theorem emits_call {i : InstId} {instruction : Instruction} {callee : Value} {args : List Value}
    {rest : List InstId} {c : Int} {vs : List Int} (hrest : s.rest = i :: rest)
    (hinst : f.insts[i]? = some instruction) (hop : instruction.op = .call callee args)
    (hcallee : s.env callee = some c) (hargs : args.mapM s.env = some vs) :
    ∃ e, f.Emits x s e ∧ e.inst = i ∧ e.call = some ⟨c, vs, s.memory⟩ := by
  cases hcall : x.machine.call c vs s.memory with
  | returns value memory =>
      have hexec := Op.exec_call_returns s.stack hcallee hargs hcall
      exact ⟨_, .next (step_proceeds hrest hinst (hop ▸ hexec)), rfl, rfl⟩
  | ends ending memory =>
      have hexec := Op.exec_call_ends s.stack hcallee hargs hcall
      exact ⟨_, .last (step_ends hrest hinst (hop ▸ hexec)), rfl, rfl⟩

theorem Observes.of_runs {α : Type} {view : Event → List α} {es : List Event} {seen : List α}
    {ending : Option Ending} (hruns : f.Runs x s es t) (hseen : f.Observes x view t seen ending) :
    f.Observes x view s (es.flatMap view ++ seen) ending := by
  induction hruns with
  | refl => exact hseen
  | step hstep _ ih =>
      rw [List.flatMap_cons, List.append_assoc]
      exact .next hstep (ih hseen)

end Func

end Redzone
