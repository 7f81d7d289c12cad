/-!
# Labelled transition systems and guarded runs

A `LabelledSystem` is a step relation with initial states. `Runs` retains the
labels taken, so an invariant may speak about the history as well as about the
state. `guarded` keeps the steps that meet a condition on the state before
them; a property proved of its runs is a property of every run of the original
system whose steps all meet that condition.
-/

namespace Ev6.Support

universe u v w

/-- A step relation with its initial states. -/
structure LabelledSystem (State : Type u) (Label : Type v) where
  Initial : State → Prop
  Step : State → Label → State → Prop

namespace LabelledSystem

variable {State : Type u} {Label : Type v}

/-- Finite runs from an initial state, with the labels taken in order. -/
inductive Runs (system : LabelledSystem State Label) : List Label → State → Prop where
  | initial {state} (valid : system.Initial state) : Runs system [] state
  | step {events state label next}
      (prior : Runs system events state) (transition : system.Step state label next) :
      Runs system (events ++ [label]) next

variable {system : LabelledSystem State Label} {events : List Label} {state : State}

/-- A predicate of the history and the state that holds initially and along
every step holds at the end of every run. -/
theorem Runs.history_invariant (Inv : List Label → State → Prop)
    (initial : ∀ state, system.Initial state → Inv [] state)
    (preserved : ∀ events state label next, Inv events state →
      system.Step state label next → Inv (events ++ [label]) next)
    (runs : system.Runs events state) : Inv events state := by
  induction runs with
  | initial valid => exact initial _ valid
  | step _ transition ih => exact preserved _ _ _ _ ih transition

/-- A predicate of the state that holds initially and along every step holds in
every reachable state. -/
theorem Runs.invariant (Inv : State → Prop) (initial : ∀ state, system.Initial state → Inv state)
    (preserved : ∀ state label next, Inv state → system.Step state label next → Inv next)
    (runs : system.Runs events state) : Inv state :=
  runs.history_invariant (fun _ state => Inv state) initial
    (fun _ state label next holds transition => preserved state label next holds transition)

/-- Forward simulation: what one system can do, the other can do with the same labels, and
the states at the end are related. -/
theorem Runs.simulated {Other : Type w}
    {other : LabelledSystem Other Label} (R : State → Other → Prop)
    (initial : ∀ state, system.Initial state → ∃ start, other.Initial start ∧ R state start)
    (steps : ∀ state label next before, R state before → system.Step state label next →
      ∃ after, other.Step before label after ∧ R next after) (runs : system.Runs events state) :
    ∃ final, other.Runs events final ∧ R state final := by
  induction runs with
  | initial valid =>
    obtain ⟨start, valid, related⟩ := initial _ valid
    exact ⟨start, .initial valid, related⟩
  | step _ transition ih =>
    obtain ⟨before, behind, related⟩ := ih
    obtain ⟨after, taken, related⟩ := steps _ _ _ before related transition
    exact ⟨after, behind.step taken, related⟩

/-- The same system, restricted to the steps whose label meets `Guard` in the
state before them. -/
def guarded (system : LabelledSystem State Label) (Guard : State → Label → Prop) :
    LabelledSystem State Label where
  Initial := system.Initial
  Step state label next := Guard state label ∧ system.Step state label next

variable {Guard : State → Label → Prop}

/-- Forgetting the guard leaves a run of the original system. -/
theorem Runs.forgetGuard
    (runs : (system.guarded Guard).Runs events state) : system.Runs events state := by
  induction runs with
  | initial valid => exact .initial valid
  | step _ transition ih => exact .step ih transition.2

/-- A run under a guard is one under every weaker guard. -/
theorem Runs.weakenGuard {Weaker : State → Label → Prop}
    (weaker : ∀ state label, Guard state label → Weaker state label)
    (runs : (system.guarded Guard).Runs events state) : (system.guarded Weaker).Runs events state := by
  induction runs with
  | initial valid => exact .initial valid
  | step _ transition ih => exact .step ih ⟨weaker _ _ transition.1, transition.2⟩

/-- The system of a partial step function: `none` is a step that cannot be taken. -/
def ofFunction (Initial : State → Prop) (step : State → Label → Option State) :
    LabelledSystem State Label where
  Initial := Initial
  Step state label next := step state label = some next

/-- Run a partial step function along a list of labels. -/
def exec (step : State → Label → Option State) : State → List Label → Option State
  | state, [] => some state
  | state, label :: rest => (step state label).bind fun next => exec step next rest

variable {labels : List Label} {final : State} {step : State → Label → Option State}

/-- `exec` continues a run from its end, when every step it takes is a step of
the system. -/
theorem Runs.append_exec
    (sound : ∀ state label next, label ∈ labels → step state label = some next →
      system.Step state label next)
    (runs : system.Runs events state) (result : exec step state labels = some final) : system.Runs (events ++ labels) final := by
  induction labels generalizing events state with
  | nil =>
    obtain rfl : state = final := Option.some.inj result
    simpa using runs
  | cons label rest ih =>
    obtain ⟨next, taken, remaining⟩ := Option.bind_eq_some_iff.mp result
    have transition := sound state label next List.mem_cons_self taken
    have behind := fun state other next member =>
      sound state other next (List.mem_cons_of_mem label member)
    simpa using ih behind (runs.step transition) remaining

/-- An execution of the step function from an initial state is a run. -/
theorem Runs.of_exec {Initial : State → Prop} (valid : Initial state)
    (result : exec step state labels = some final) :
    (ofFunction Initial step).Runs labels final := by
  have start : (ofFunction Initial step).Runs [] state := .initial valid
  have runs := Runs.append_exec (fun _ _ _ _ taken => taken) start result
  simpa using runs

/-- Take a step of the function only where a decidable guard holds. -/
def checked (Guard : State → Label → Prop) [∀ state label, Decidable (Guard state label)]
    (step : State → Label → Option State) (state : State) (label : Label) : Option State :=
  if Guard state label then step state label else none

/-- An execution of steps of the system that checks the guard before every step is a guarded
run. -/
theorem Runs.of_checked [∀ state label, Decidable (Guard state label)]
    (sound : ∀ state label next, step state label = some next → system.Step state label next)
    (valid : system.Initial state) (result : exec (checked Guard step) state labels = some final) :
    (system.guarded Guard).Runs labels final := by
  have guarded : ∀ state label next, label ∈ labels →
      checked Guard step state label = some next →
      (system.guarded Guard).Step state label next := by
    intro state label next _ taken
    by_cases holds : Guard state label
    · exact ⟨holds, sound state label next (by rwa [checked, if_pos holds] at taken)⟩
    · simp [checked, holds] at taken
  have runs := Runs.append_exec guarded (.initial valid) result
  simpa using runs

/-- An execution that checks the guard before every step is a guarded run. -/
theorem Runs.of_checked_exec {Initial : State → Prop} [∀ state label, Decidable (Guard state label)]
    (valid : Initial state) (result : exec (checked Guard step) state labels = some final) :
    ((ofFunction Initial step).guarded Guard).Runs labels final :=
  Runs.of_checked (fun _ _ _ taken => taken) valid result

end LabelledSystem

end Ev6.Support
