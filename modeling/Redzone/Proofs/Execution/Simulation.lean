import Redzone.Proofs.Execution.Run

/-!
# Simulation

Two functions behave alike if their states can be related so that, whenever the first takes a step,
the second takes the same one after some steps of its own that no observer sees.  The steps must
agree in what the observer sees of them and in how the run ends.

Added code may end a run that would have gone on, but only with an event that counts as `loud`.  So
the second function is assumed `Quiet`, that is, to show no loud event, and a loud event of the
first one must be one of the second as well.  Then both are observed alike
(`Simulation.observes_iff`), and the first one is quiet, too (`Simulation.quiet`): simulations can
be put one behind the other, from the last one to the first.

`Mirrors` says this of whole calls of the two functions.
-/

namespace Redzone

/-- A run shows none of the events that count as loud. -/
def Func.Quiet (f : Func) (x : Activation) (loud : Event → Prop) (s : State) : Prop :=
  ∀ e, f.Emits x s e → ¬ loud e

theorem Func.Quiet.of_runs {f : Func} {x : Activation} {loud : Event → Prop} {s t : State}
    {es : List Event} (hquiet : f.Quiet x loud s) (hruns : f.Runs x s es t) :
    f.Quiet x loud t :=
  fun e hemits => hquiet e (.of_runs hruns hemits)

section

variable {α : Type} (view : Event → List α) (loud : Event → Prop)

/-- Two steps that an observer cannot tell apart and that lead to related states. -/
inductive StepsAlike (R : State → State → Prop) : Step → Step → Prop
  | undefined : StepsAlike R .undefined .undefined
  | last {e e' : Event} {ending : Ending} (hview : view e = view e')
      (hloud : loud e → loud e') : StepsAlike R (.last e ending) (.last e' ending)
  | next {e e' : Event} {s t : State} (hview : view e = view e') (hloud : loud e → loud e')
      (hrelated : R s t) : StepsAlike R (.next e s) (.next e' t)

/-- From `t` on the second function catches up, unseen, with the first function in `s`. -/
def CatchesUp (f g : Func) (x y : Activation) (R : State → State → Prop) (s t : State) : Prop :=
  ∃ es t', g.Runs y t es t' ∧ (∀ e ∈ es, view e = []) ∧
    StepsAlike view loud R (f.step x s) (g.step y t')

/-- Wherever related states are quiet, the second function catches up with the first. -/
def Simulation (f g : Func) (x y : Activation) (R : State → State → Prop) : Prop :=
  ∀ s t, R s t → g.Quiet y loud t → CatchesUp view loud f g x y R s t

end

namespace Simulation

variable {α : Type} {view : Event → List α} {loud : Event → Prop} {f g : Func} {x y : Activation}
  {R : State → State → Prop} {s t : State} {seen : List α} {ending : Option Ending}

/-- What is seen of the first function can be seen of the second. -/
theorem observes_of_observes (hsim : Simulation view loud f g x y R) (hrelated : R s t)
    (hquiet : g.Quiet y loud t) (hseen : f.Observes x view s seen ending) :
    g.Observes y view t seen ending := by
  induction hseen generalizing t with
  | pause => exact .pause t
  | @undefined s hstep =>
      obtain ⟨es, t', hruns, hsilent, halike⟩ := hsim s t hrelated hquiet
      rw [hstep] at halike
      generalize hstep' : g.step y t' = step at halike
      cases halike with
      | undefined =>
          have hseen' : g.Observes y view t _ _ := .of_runs hruns (.undefined hstep')
          rwa [List.flatMap_eq_nil_iff.mpr hsilent] at hseen'
  | @last s e ending hstep =>
      obtain ⟨es, t', hruns, hsilent, halike⟩ := hsim s t hrelated hquiet
      rw [hstep] at halike
      generalize hstep' : g.step y t' = step at halike
      cases halike with
      | last hview _ =>
          have hseen' : g.Observes y view t _ _ := .of_runs hruns (.last hstep')
          rwa [List.flatMap_eq_nil_iff.mpr hsilent, ← hview] at hseen'
  | @next s s' e seen ending hstep _ ih =>
      obtain ⟨es, t', hruns, hsilent, halike⟩ := hsim s t hrelated hquiet
      rw [hstep] at halike
      generalize hstep' : g.step y t' = step at halike
      cases halike with
      | next hview _ hrelated' =>
          have hquiet' := hquiet.of_runs (hruns.trans (.single hstep'))
          have hseen' := Func.Observes.of_runs hruns (.next hstep' (ih hrelated' hquiet'))
          rwa [List.flatMap_eq_nil_iff.mpr hsilent, ← hview] at hseen'

/-- What is seen of the second function while it catches up can be seen of the first.  The induction
is on the run of the second function; its unseen steps leave the first one where it is. -/
theorem observes_of_catchesUp (hsim : Simulation view loud f g x y R)
    (hcatches : CatchesUp view loud f g x y R s t) (hquiet : g.Quiet y loud t)
    (hseen : g.Observes y view t seen ending) : f.Observes x view s seen ending := by
  -- by induction on what is observed of `g`; `f` waits as long as `g` is catching up
  induction hseen generalizing s with
  | pause => exact .pause s
  | @undefined t hstep =>
      obtain ⟨es, t', hruns, -, halike⟩ := hcatches
      cases hruns with
      | refl =>
          rw [hstep] at halike
          generalize hstep' : f.step x s = step at halike
          cases halike with
          | undefined => exact .undefined hstep'
      | step hstep' _ => simp [hstep] at hstep'
  | @last t e ending hstep =>
      obtain ⟨es, t', hruns, -, halike⟩ := hcatches
      cases hruns with
      | refl =>
          rw [hstep] at halike
          generalize hstep' : f.step x s = step at halike
          cases halike with
          | last hview _ =>
              rw [← hview]
              exact .last hstep'
      | step hstep' _ => simp [hstep] at hstep'
  | @next t t₁ e seen ending hstep _ ih =>
      have hquiet' := hquiet.of_runs (.single hstep)
      obtain ⟨es, t', hruns, hsilent, halike⟩ := hcatches
      cases hruns with
      | refl =>
          rw [hstep] at halike
          generalize hstep' : f.step x s = step at halike
          cases halike with
          | next hview _ hrelated =>
              rw [← hview]
              exact .next hstep' (ih (hsim _ _ hrelated hquiet') hquiet')
      | @step _ t₂ _ e' es hstep' hrest =>
          rw [hstep] at hstep'
          injection hstep' with he ht
          subst he ht
          rw [List.forall_mem_cons] at hsilent
          rw [hsilent.1, List.nil_append]
          exact ih ⟨es, t', hrest, hsilent.2, halike⟩ hquiet'

/-- Related functions are observed alike. -/
theorem observes_iff (hsim : Simulation view loud f g x y R) (hrelated : R s t)
    (hquiet : g.Quiet y loud t) :
    f.Observes x view s seen ending ↔ g.Observes y view t seen ending :=
  ⟨hsim.observes_of_observes hrelated hquiet,
    hsim.observes_of_catchesUp (hsim s t hrelated hquiet) hquiet⟩

/-- A function that is related to a quiet one is quiet. -/
theorem quiet (hsim : Simulation view loud f g x y R) (hrelated : R s t)
    (hquiet : g.Quiet y loud t) : f.Quiet x loud s := by
  intro e hemits
  induction hemits generalizing t with
  | @next s s' e hstep =>
      obtain ⟨es, t', hruns, -, halike⟩ := hsim s t hrelated hquiet
      rw [hstep] at halike
      generalize hstep' : g.step y t' = step at halike
      cases halike with
      | next _ hloud _ => exact fun he => hquiet.of_runs hruns _ (.next hstep') (hloud he)
  | @last s e ending hstep =>
      obtain ⟨es, t', hruns, -, halike⟩ := hsim s t hrelated hquiet
      rw [hstep] at halike
      generalize hstep' : g.step y t' = step at halike
      cases halike with
      | last _ hloud => exact fun he => hquiet.of_runs hruns _ (.last hstep') (hloud he)
  | @later s s' e e' hstep _ ih =>
      obtain ⟨es, t', hruns, -, halike⟩ := hsim s t hrelated hquiet
      rw [hstep] at halike
      generalize hstep' : g.step y t' = step at halike
      cases halike with
      | next _ _ hrelated' => exact ih hrelated' (hquiet.of_runs (hruns.trans (.single hstep')))

end Simulation

/-! ### Calls -/

/-- What may be seen of a call of a function. -/
def Func.Shows {α : Type} (f : Func) (x : Activation) (view : Event → List α) (memory : Memory)
    (stack : Nat) (seen : List α) (ending : Option Ending) : Prop :=
  ∃ s, f.start memory stack = some s ∧ f.Observes x view s seen ending

/-- A call of a function shows none of the events that count as loud. -/
def Func.Calm (f : Func) (x : Activation) (loud : Event → Prop) (memory : Memory) (stack : Nat) :
    Prop :=
  ∀ s, f.start memory stack = some s → f.Quiet x loud s

/-- As long as the second function is calm, an observer cannot tell it from the first one, and the
first one is calm as well. -/
def Mirrors {α : Type} (view : Event → List α) (loud : Event → Prop) (f g : Func)
    (x y : Activation) : Prop :=
  ∀ memory stack, g.Calm y loud memory stack → f.Calm x loud memory stack ∧
    ∀ seen ending, f.Shows x view memory stack seen ending ↔ g.Shows y view memory stack seen ending

namespace Mirrors

variable {α : Type} {view : Event → List α} {loud : Event → Prop} {f g h : Func}
  {x y z : Activation} {R : State → State → Prop}

theorem refl (f : Func) (x : Activation) : Mirrors view loud f f x x :=
  fun _ _ hcalm => ⟨hcalm, fun _ _ => Iff.rfl⟩

theorem trans (hfirst : Mirrors view loud f g x y) (hsecond : Mirrors view loud g h y z) :
    Mirrors view loud f h x z := by
  intro memory stack hcalm
  obtain ⟨hcalm', hshows'⟩ := hsecond memory stack hcalm
  obtain ⟨hcalm'', hshows''⟩ := hfirst memory stack hcalm'
  exact ⟨hcalm'', fun seen ending => (hshows'' seen ending).trans (hshows' seen ending)⟩

theorem of_simulation (hsim : Simulation view loud f g x y R)
    (hstart : ∀ memory stack, Option.Rel R (f.start memory stack) (g.start memory stack)) :
    Mirrors view loud f g x y := by
  intro memory stack hcalm
  have hrel := hstart memory stack
  unfold Func.Calm Func.Shows at *
  generalize f.start memory stack = start at *
  generalize g.start memory stack = start' at *
  cases hrel with
  | none => simp
  | some hrelated =>
      have hquiet := hcalm _ rfl
      simp only [Option.some.injEq, exists_eq_left', forall_eq']
      exact ⟨hsim.quiet hrelated hquiet, fun _ _ => hsim.observes_iff hrelated hquiet⟩

end Mirrors

end Redzone
