/-!
# Programs that may stop with an error

A program of type `EStateM ε σ α` ends with a value and a state, or stops with
an error and the state it has reached. `Ensures` says what holds at either end;
its rules follow the constructors of programs.
-/

namespace Ev6.Support

universe u

variable {ε σ α β : Type u} {program : EStateM ε σ α} {state : σ}
  {good : α → σ → Prop} {bad : ε → σ → Prop}

/-- The program started in `state` ends with `good` or stops with `bad`. -/
def Ensures (program : EStateM ε σ α) (state : σ) (good : α → σ → Prop)
    (bad : ε → σ → Prop) : Prop :=
  match program.run state with
  | .ok value after => good value after
  | .error cause after => bad cause after

/-- The error a program started in `state` stops with, if it does. -/
def stopsWith (program : EStateM ε σ α) (state : σ) : Option ε :=
  match program.run state with
  | .ok _ _ => none
  | .error cause _ => some cause

/-- What `read` gives at the end of a program started in `state`. -/
def endsWith (program : EStateM ε σ α) (state : σ) (read : α → σ → β) : Option β :=
  match program.run state with
  | .ok value after => some (read value after)
  | .error _ _ => none

namespace Ensures

/-- What holds at the end of a program that has returned. -/
theorem returned {value : α} {after : σ} (ensures : Ensures program state good bad)
    (run : program.run state = .ok value after) : good value after := by
  simpa [Ensures, run] using ensures

/-- What holds where a program has stopped. -/
theorem stopped {cause : ε} {after : σ} (ensures : Ensures program state good bad)
    (run : program.run state = .error cause after) : bad cause after := by
  simpa [Ensures, run] using ensures

/-- A program ensures what holds for each of its outcomes. -/
theorem intro (returns : ∀ value after, program.run state = .ok value after → good value after)
    (stops : ∀ cause after, program.run state = .error cause after → bad cause after) :
    Ensures program state good bad := by
  unfold Ensures
  split
  next value after run => exact returns value after run
  next cause after run => exact stops cause after run

/-- Every program ensures what always holds. -/
theorem trivial (program : EStateM ε σ α) (state : σ) :
    Ensures program state (fun _ _ => True) fun _ _ => True :=
  intro (fun _ _ _ => True.intro) fun _ _ _ => True.intro

theorem mono {good' : α → σ → Prop} {bad' : ε → σ → Prop} (ensures : Ensures program state good bad)
    (returns : ∀ value after, good value after → good' value after)
    (stops : ∀ cause after, bad cause after → bad' cause after) :
    Ensures program state good' bad' :=
  intro (fun value after run => returns value after (ensures.returned run))
    fun cause after run => stops cause after (ensures.stopped run)

/-- A program ensures both of two things that it ensures. -/
theorem and {good' : α → σ → Prop} {bad' : ε → σ → Prop}
    (ensures : Ensures program state good bad) (too : Ensures program state good' bad') :
    Ensures program state (fun value after => good value after ∧ good' value after)
      fun cause after => bad cause after ∧ bad' cause after :=
  intro (fun _ _ run => ⟨ensures.returned run, too.returned run⟩)
    fun _ _ run => ⟨ensures.stopped run, too.stopped run⟩

theorem pure {value : α} (holds : good value state) :
    Ensures (Pure.pure value : EStateM ε σ α) state good bad :=
  holds

theorem throw {cause : ε} (holds : bad cause state) :
    Ensures (MonadExcept.throw cause : EStateM ε σ α) state good bad :=
  holds

/-- Programs one after the other: what the first ends with is what the second
starts from. -/
theorem bind {next : α → EStateM ε σ β} {middle : α → σ → Prop} {good : β → σ → Prop}
    (first : Ensures program state middle bad)
    (second : ∀ value after, middle value after → Ensures (next value) after good bad) :
    Ensures (program >>= next) state good bad := by
  cases run : program.run state with
  | ok value after =>
    have behind := second value after (first.returned run)
    have whole : (program >>= next).run state = (next value).run after := by
      simp only [EStateM.run, Bind.bind, EStateM.bind] at run ⊢
      rw [run]
    simpa only [Ensures, whole] using behind
  | error cause after =>
    have whole : (program >>= next).run state = .error cause after := by
      simp only [EStateM.run, Bind.bind, EStateM.bind] at run ⊢
      rw [run]
    simpa only [Ensures, whole] using first.stopped run

/-- Reading the state and going on with it. -/
theorem get {next : σ → EStateM ε σ β} {good : β → σ → Prop}
    (behind : Ensures (next state) state good bad) :
    Ensures (MonadState.get >>= next) state good bad :=
  behind

/-- Going on in a new state. -/
theorem set {after : σ} {next : PUnit → EStateM ε σ β} {good : β → σ → Prop}
    (behind : Ensures (next ⟨⟩) after good bad) :
    Ensures (MonadStateOf.set after >>= next) state good bad :=
  behind

/-- Going on in a changed state. -/
theorem modify {change : σ → σ} {next : PUnit → EStateM ε σ β} {good : β → σ → Prop}
    (behind : Ensures (next ⟨⟩) (change state) good bad) :
    Ensures (modifyThe σ change >>= next) state good bad :=
  behind

/-- Ending in a new state. -/
theorem set_last {after : σ} {good : PUnit → σ → Prop} {bad : ε → σ → Prop}
    (holds : good ⟨⟩ after) : Ensures (MonadStateOf.set after : EStateM ε σ PUnit) state good bad :=
  holds

/-- Ending in a changed state. -/
theorem modify_last {change : σ → σ} {good : PUnit → σ → Prop} {bad : ε → σ → Prop}
    (holds : good ⟨⟩ (change state)) :
    Ensures (modifyThe σ change : EStateM ε σ PUnit) state good bad :=
  holds

end Ensures

/-- What `read` gives at the end of a program, from what the program ensures. -/
theorem endsWith_of_ensures {read : α → σ → β} {result : β} (ensures : Ensures program state good bad)
    (ends : endsWith program state read = some result) :
    ∃ value after, good value after ∧ read value after = result := by
  unfold endsWith at ends
  split at ends
  next value after run => exact ⟨value, after, ensures.returned run, Option.some.inj ends⟩
  next => cases ends

end Ev6.Support
