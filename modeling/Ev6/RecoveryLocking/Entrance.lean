import Ev6.Kernel.Param
import Ev6.Support.LabelledSystem
import Mathlib.Algebra.BigOperators.Group.Finset.Basic
import Mathlib.Algebra.Order.BigOperators.Group.Finset
import Mathlib.Data.Fintype.BigOperators
import Mathlib.Tactic.Ring

/-!
# The entrance of a section against its recovery handler

One recovery critical section, the statements of
`enter_recovery_critical_section` and `exit_recovery_critical_section` by any
number of processes, and a recovery handler that takes the recovery lock, tests
the entry counter, replaces the object and releases the lock. The entrance tests
the recovery lock under `rlk->lk`; the handler takes it without `rlk->lk`, so a
process that has passed the test may still raise the counter afterwards.
-/

namespace Ev6.RecoveryLocking.Entrance

open Finset (mem_univ)
open Function (update)
open Support

/-- The next statement of a process in the code of the section. -/
inductive Pc where
  /-- Not in the entrance or exit code. -/
  | run
  /-- At `acquire(&rlk->lk)` of the entrance, first or after `sleep`. -/
  | enterLk (exception : Nat)
  /-- Holds `rlk->lk`, at `while(locking(&rlk->lock))`. -/
  | test (exception : Nat)
  /-- In `sleep(rlk, &rlk->lk)`. -/
  | asleep (exception : Nat)
  /-- Holds `rlk->lk` and found the recovery lock free, at the counter update. -/
  | count (exception : Nat)
  /-- At `acquire(&rlk->lk)` of the exit. -/
  | exitLk (exception : Nat)
  /-- Holds `rlk->lk`, at the counter update of the exit. -/
  | uncount (exception : Nat)
  /-- Holds `rlk->lk`, at `release(&rlk->lk)`. -/
  | dropLk
deriving DecidableEq

/-- Where the recovery handler is, and for which faulting process it runs. -/
inductive Handler (procs : Nat) where
  | idle
  /-- Holds the recovery lock, before its count test. -/
  | locked (faulting : Fin procs)
  /-- Past the count test: it replaces the object. -/
  | replacing (faulting : Fin procs)
  /-- Released the recovery lock, before `wakeup`. -/
  | waking
  /-- The count test chose `FAIL_STOP`, or the entrance panicked. -/
  | stopped
deriving DecidableEq

/-- The process that the handler runs for. It takes no step meanwhile. -/
def Handler.faulting? {procs : Nat} : Handler procs → Option (Fin procs)
  | .locked faulting | .replacing faulting => some faulting
  | .idle | .waking | .stopped => none

/-- `locking(&rlk->lock)`: the handler holds the recovery lock. -/
def Handler.locking {procs : Nat} (handler : Handler procs) : Bool :=
  handler.faulting?.isSome

/-- The section's recovery lock, the position of every process, and how often
each process is inside. -/
structure State (procs : Nat) where
  lk : Option (Fin procs)
  num : Int
  exception : Nat
  pc : Fin procs → Pc
  inside : Fin procs → Nat
  handler : Handler procs

/-- One step of a process or of the handler. -/
inductive Move (procs : Nat) where
  | callEnter (p : Fin procs) (exception : Nat)
  | callExit (p : Fin procs) (exception : Nat)
  | takeLk (p : Fin procs)
  | testLock (p : Fin procs)
  | updateNum (p : Fin procs)
  | releaseLk (p : Fin procs)
  | wake (p : Fin procs)
  | acquireRecoveryLock (faulting : Fin procs)
  | countTest
  | releaseRecoveryLock
  | wakeup

variable {procs : Nat}

/-- Move a process to its next statement. -/
def State.goto (state : State procs) (p : Fin procs) (pc : Pc) : State procs :=
  { state with pc := update state.pc p pc }

/-- A process may step unless the machine has stopped or the handler runs for it. -/
def State.mayStep (state : State procs) (p : Fin procs) : Bool :=
  state.handler ≠ .stopped && state.handler.faulting? ≠ some p

/-- The statements of the entrance and the exit for one process. -/
def processStep (state : State procs) : Move procs → Option (State procs)
  | .callEnter p exception =>
    if state.pc p = .run then some (state.goto p (.enterLk exception)) else none
  | .callExit p exception =>
    if state.pc p = .run then some (state.goto p (.exitLk exception)) else none
  | .takeLk p =>
    if state.lk = none then
      match state.pc p with
      | .enterLk exception => some { state.goto p (.test exception) with lk := some p }
      | .exitLk exception => some { state.goto p (.uncount exception) with lk := some p }
      | _ => none
    else none
  | .testLock p =>
    match state.pc p with
    | .test exception =>
      if state.handler.locking then
        if exception = icacheFork then some { state with handler := .stopped }
        else some { state.goto p (.asleep exception) with lk := none }
      else some (state.goto p (.count exception))
    | _ => none
  | .updateNum p =>
    match state.pc p with
    | .count exception =>
      some { state.goto p .dropLk with
        num := state.num + 1
        exception := if exception = 0 then state.exception else exception
        inside := update state.inside p (state.inside p + 1) }
    | .uncount exception =>
      some { state.goto p .dropLk with
        num := state.num - 1
        exception := if state.exception = exception then 0 else state.exception
        inside := update state.inside p (state.inside p - 1) }
    | _ => none
  | .releaseLk p =>
    if state.pc p = .dropLk then some { state.goto p .run with lk := none } else none
  | .wake p =>
    match state.pc p with
    | .asleep exception => some (state.goto p (.enterLk exception))
    | _ => none
  | .acquireRecoveryLock _ | .countTest | .releaseRecoveryLock | .wakeup => none

/-- The process a step belongs to. -/
def Move.process? : Move procs → Option (Fin procs)
  | .callEnter p _ | .callExit p _ | .takeLk p | .testLock p | .updateNum p | .releaseLk p
  | .wake p => some p
  | .acquireRecoveryLock _ | .countTest | .releaseRecoveryLock | .wakeup => none

/-- `wakeup(&recovery_locks[flag])`: every sleeper takes `rlk->lk` again. -/
def wakeAll (pc : Fin procs → Pc) (p : Fin procs) : Pc :=
  match pc p with
  | .asleep exception => .enterLk exception
  | other => other

/-- The statements of the recovery handler. -/
def handlerStep (state : State procs) : Move procs → Option (State procs)
  | .acquireRecoveryLock faulting =>
    if state.handler = .idle then some { state with handler := .locked faulting } else none
  | .countTest =>
    match state.handler with
    | .locked faulting =>
      some { state with handler := if state.num > 1 then .stopped else .replacing faulting }
    | _ => none
  | .releaseRecoveryLock =>
    match state.handler with
    | .replacing _ => some { state with handler := .waking }
    | _ => none
  | .wakeup =>
    if state.handler = .waking then
      some { state with handler := .idle, pc := wakeAll state.pc }
    else none
  | _ => none

/-- One step of the whole system. -/
def step (state : State procs) (move : Move procs) : Option (State procs) :=
  match move.process? with
  | some p => if state.mayStep p then processStep state move else none
  | none => handlerStep state move

/-- No process is in the section and no handler runs. -/
def start (procs : Nat) : State procs where
  lk := none
  num := 0
  exception := 0
  pc _ := .run
  inside _ := 0
  handler := .idle

/-- The interleavings of the processes with the handler. -/
def system (procs : Nat) : LabelledSystem (State procs) (Move procs) :=
  .ofFunction (· = start procs) step

/-- While the handler replaces the object, only the faulting process is inside. -/
def Exclusive (state : State procs) : Prop :=
  ∀ faulting, state.handler = .replacing faulting → ∀ p, p ≠ faulting → state.inside p = 0

/-- The process has seen the recovery lock free and not yet counted itself. -/
def Pc.passed : Pc → Bool
  | .count _ => true
  | _ => false

/-- The condition on the state before a step: the count is tested when no other process
stands between its test and its counter update, and when the faulting process is inside
or nobody else is; an exit is made from inside. -/
def Disciplined (state : State procs) : Move procs → Prop
  | .countTest => ∀ faulting, state.handler = .locked faulting →
      (∀ p, p ≠ faulting → (state.pc p).passed = false) ∧
        (0 < state.inside faulting ∨ ∀ p, p ≠ faulting → state.inside p = 0)
  | .updateNum p => (state.pc p).passed ∨ 0 < state.inside p
  | _ => True

instance (state : State procs) (move : Move procs) : Decidable (Disciplined state move) := by
  cases move with
  | countTest =>
    exact decidable_of_iff
      (∀ faulting : Fin procs, state.handler = .locked faulting →
        (∀ p, p ≠ faulting → (state.pc p).passed = false) ∧
          (0 < state.inside faulting ∨ ∀ p, p ≠ faulting → state.inside p = 0)) Iff.rfl
  | _ => unfold Disciplined; infer_instance

/-! ## What a process step can do -/

/-- The branches of `processStep`, with the tests that lead to them. -/
inductive ProcessEffect (state : State procs) : Move procs → State procs → Prop where
  | callEnter (p exception) (pc : state.pc p = .run) :
      ProcessEffect state (.callEnter p exception) (state.goto p (.enterLk exception))
  | callExit (p exception) (pc : state.pc p = .run) :
      ProcessEffect state (.callExit p exception) (state.goto p (.exitLk exception))
  | takeForEntry (p exception) (pc : state.pc p = .enterLk exception) :
      ProcessEffect state (.takeLk p) { state.goto p (.test exception) with lk := some p }
  | takeForExit (p exception) (pc : state.pc p = .exitLk exception) :
      ProcessEffect state (.takeLk p) { state.goto p (.uncount exception) with lk := some p }
  | panic (p exception) (pc : state.pc p = .test exception) :
      ProcessEffect state (.testLock p) { state with handler := .stopped }
  | sleep (p exception) (pc : state.pc p = .test exception) :
      ProcessEffect state (.testLock p) { state.goto p (.asleep exception) with lk := none }
  | pass (p exception) (pc : state.pc p = .test exception)
      (free : state.handler.locking = false) :
      ProcessEffect state (.testLock p) (state.goto p (.count exception))
  | count (p exception) (pc : state.pc p = .count exception) :
      ProcessEffect state (.updateNum p) { state.goto p .dropLk with
        num := state.num + 1
        exception := if exception = 0 then state.exception else exception
        inside := update state.inside p (state.inside p + 1) }
  | uncount (p exception) (pc : state.pc p = .uncount exception) :
      ProcessEffect state (.updateNum p) { state.goto p .dropLk with
        num := state.num - 1
        exception := if state.exception = exception then 0 else state.exception
        inside := update state.inside p (state.inside p - 1) }
  | releaseLk (p) (pc : state.pc p = .dropLk) :
      ProcessEffect state (.releaseLk p) { state.goto p .run with lk := none }
  | wake (p exception) (pc : state.pc p = .asleep exception) :
      ProcessEffect state (.wake p) (state.goto p (.enterLk exception))

variable {move : Move procs} {next state : State procs}

theorem processStep_cases
    (taken : processStep state move = some next) : ProcessEffect state move next := by
  cases move with
  | callEnter p exception =>
    obtain ⟨pc, rfl⟩ : state.pc p = .run ∧ _ = next := by simpa [processStep] using taken
    exact .callEnter p exception pc
  | callExit p exception =>
    obtain ⟨pc, rfl⟩ : state.pc p = .run ∧ _ = next := by simpa [processStep] using taken
    exact .callExit p exception pc
  | releaseLk p =>
    obtain ⟨pc, rfl⟩ : state.pc p = .dropLk ∧ _ = next := by simpa [processStep] using taken
    exact .releaseLk p pc
  | takeLk p =>
    by_cases free : state.lk = none
    · cases pc : state.pc p <;> simp only [processStep, free, pc, if_true, reduceCtorEq] at taken
      all_goals obtain rfl := Option.some.inj taken
      · exact .takeForEntry p _ pc
      · exact .takeForExit p _ pc
    · simp [processStep, free] at taken
  | testLock p =>
    cases pc : state.pc p <;> simp only [processStep, pc, reduceCtorEq] at taken
    cases locked : state.handler.locking <;> simp only [locked, if_true] at taken
    · cases taken
      exact .pass p _ pc locked
    · split_ifs at taken
      · cases taken
        exact .panic p _ pc
      · cases taken
        exact .sleep p _ pc
  | updateNum p =>
    cases pc : state.pc p <;> simp only [processStep, pc, reduceCtorEq] at taken
    all_goals obtain rfl := Option.some.inj taken
    · exact .count p _ pc
    · exact .uncount p _ pc
  | wake p =>
    cases pc : state.pc p <;> simp only [processStep, pc, reduceCtorEq] at taken
    cases taken
    exact .wake p _ pc
  | _ => cases taken

/-- A process step leaves the handler where it is, or stops the machine. -/
theorem ProcessEffect.handler (effect : ProcessEffect state move next) :
    next.handler = state.handler ∨ next.handler = .stopped := by
  cases effect with
  | panic => exact .inr rfl
  | _ => exact .inl rfl

theorem passed_goto {p q : Fin procs} {pc : Pc}
    (waiting : pc.passed = false) (passed : ((state.goto p pc).pc q).passed = true) :
    (state.pc q).passed = true := by
  by_cases same : q = p
  · subst same
    simp [State.goto, waiting] at passed
  · simpa [State.goto, same] using passed

/-- A process passes the test only while the recovery lock is free. -/
theorem ProcessEffect.passed
    (effect : ProcessEffect state move next) (locked : state.handler.locking = true)
    {q : Fin procs} (passed : (next.pc q).passed = true) : (state.pc q).passed = true := by
  cases effect with
  | panic => exact passed
  | pass p exception pc free => simp [free] at locked
  | _ => exact passed_goto rfl passed

/-- Only a process that passed the test, or an exit, changes who is inside. -/
theorem ProcessEffect.inside (effect : ProcessEffect state move next) :
    (next.num = state.num ∧ next.inside = state.inside) ∨
    (∃ p, move = .updateNum p ∧ (state.pc p).passed = true ∧ next.num = state.num + 1 ∧
      next.inside = update state.inside p (state.inside p + 1)) ∨
    (∃ p, move = .updateNum p ∧ (state.pc p).passed = false ∧ next.num = state.num - 1 ∧
      next.inside = update state.inside p (state.inside p - 1)) := by
  cases effect with
  | count p exception pc => exact .inr (.inl ⟨p, rfl, by rw [pc]; rfl, rfl, rfl⟩)
  | uncount p exception pc => exact .inr (.inr ⟨p, rfl, by rw [pc]; rfl, rfl, rfl⟩)
  | _ => exact .inl ⟨rfl, rfl⟩

/-! ## The invariant of a disciplined run -/

/-- The counter is exact, and while the handler replaces the object no other process can
still count itself. -/
structure Guarded (state : State procs) : Prop where
  counted : state.num = ∑ p, (state.inside p : Int)
  waiting : ∀ faulting, state.handler = .replacing faulting →
    ∀ p, p ≠ faulting → (state.pc p).passed = false
  exclusive : Exclusive state

theorem guarded_start : Guarded (start procs) where
  counted := by simp [start]
  waiting _ running := by cases running
  exclusive _ running := by cases running

/-- Changing one summand changes the sum by the difference. -/
theorem sum_update (inside : Fin procs → Nat) (p : Fin procs) (value : Nat) :
    ∑ q, (update inside p value q : Int) =
      ∑ q, (inside q : Int) + (value - inside p) := by
  have updated : (fun q => (update inside p value q : Int)) =
      update (fun q => (inside q : Int)) p value := by
    funext q
    by_cases same : q = p
    · subst same
      simp
    · simp [same]
  rw [updated, Finset.sum_update_of_mem (mem_univ p),
    ← Finset.add_sum_erase _ (fun q => (inside q : Int)) (mem_univ p),
    Finset.sdiff_singleton_eq_erase]
  ring

/-- A process step keeps the invariant: the handler's process stands still, and
no other process can pass the test while the lock is held. -/
theorem guarded_processStep {p : Fin procs}
    (guarded : Guarded state) (own : move.process? = some p) (may : state.mayStep p = true)
    (disciplined : Disciplined state move) (taken : processStep state move = some next) :
    Guarded next := by
  have effect := processStep_cases taken
  have steps : ∀ faulting, state.handler = .replacing faulting → p ≠ faulting := by
    rintro faulting replacing rfl
    simp [State.mayStep, replacing, Handler.faulting?] at may
  have stays : ∀ faulting, next.handler = .replacing faulting →
      state.handler = .replacing faulting := by
    intro faulting replacing
    rcases effect.handler with same | stopped
    · rwa [same] at replacing
    · rw [stopped] at replacing
      cases replacing
  refine ⟨?_, ?_, ?_⟩
  · rcases effect.inside with ⟨num, inside⟩ | ⟨q, rfl, -, num, inside⟩ | ⟨q, rfl, leaving, num, inside⟩
    · rw [num, inside]
      exact guarded.counted
    · rw [num, inside, sum_update, guarded.counted]
      push_cast
      ring
    · have entered : 0 < state.inside q := by
        rcases disciplined with passed | entered
        · rw [leaving] at passed
          cases passed
        · exact entered
      rw [num, inside, sum_update, guarded.counted]
      omega
  · intro faulting replacing q other
    have before := guarded.waiting faulting (stays faulting replacing) q other
    by_contra passed
    have locked : state.handler.locking = true := by
      rw [stays faulting replacing]
      rfl
    have earlier := effect.passed locked (q := q) (by simpa using passed)
    rw [before] at earlier
    cases earlier
  · intro faulting replacing q other
    have running := stays faulting replacing
    have before : state.inside q = 0 := guarded.exclusive faulting running q other
    rcases effect.inside with ⟨-, inside⟩ | ⟨r, rfl, passed, -, inside⟩ | ⟨r, rfl, -, -, inside⟩
    · rw [inside, before]
    · obtain rfl : r = p := Option.some.inj own
      have blocked := guarded.waiting faulting running r (steps faulting running)
      rw [blocked] at passed
      cases passed
    · rw [inside]
      by_cases same : q = r
      · subst same
        simp [before]
      · simp [same, before]

/-- A handler step keeps the invariant: the count test sees every process that
is inside. -/
theorem guarded_handlerStep (guarded : Guarded state) (disciplined : Disciplined state move)
    (taken : handlerStep state move = some next) : Guarded next := by
  cases move with
  | acquireRecoveryLock faulting =>
    obtain ⟨-, rfl⟩ : state.handler = .idle ∧ _ = next := by
      simpa [handlerStep] using taken
    exact ⟨guarded.counted, (fun _ replacing => by cases replacing),
      fun _ replacing => by cases replacing⟩
  | countTest =>
    cases handler : state.handler <;> simp only [handlerStep, handler, reduceCtorEq] at taken
    rename_i faulting
    cases taken
    obtain ⟨waiting, one⟩ := disciplined faulting handler
    by_cases crowded : state.num > 1
    · simp only [if_pos crowded]
      exact ⟨guarded.counted, (fun _ running => by cases running),
        fun _ replacing => by cases replacing⟩
    · simp only [if_neg crowded]
      refine ⟨guarded.counted, ?_, ?_⟩
      · intro other replacing
        obtain rfl : faulting = other := Handler.replacing.inj replacing
        exact waiting
      · intro other replacing p different
        obtain rfl : faulting = other := Handler.replacing.inj replacing
        rcases one with entered | nobody
        · -- The faulting process accounts for the whole counter.
          have total := guarded.counted
          have split := Finset.add_sum_erase Finset.univ
            (fun q => (state.inside q : Int)) (mem_univ faulting)
          have single := Finset.single_le_sum (f := fun q => (state.inside q : Int))
            (s := Finset.univ.erase faulting) (fun _ _ => Int.natCast_nonneg _)
            (Finset.mem_erase.mpr ⟨different, mem_univ p⟩)
          change state.inside p = 0
          omega
        · exact nobody p different
  | releaseRecoveryLock =>
    cases handler : state.handler <;> simp only [handlerStep, handler, reduceCtorEq] at taken
    cases taken
    exact ⟨guarded.counted, (fun _ running => by cases running),
      fun _ replacing => by cases replacing⟩
  | wakeup =>
    obtain ⟨-, rfl⟩ : state.handler = .waking ∧ _ = next := by
      simpa [handlerStep] using taken
    exact ⟨guarded.counted, (fun _ running => by cases running),
      fun _ replacing => by cases replacing⟩
  | _ => cases taken

/-- In every interleaving whose steps all meet `Disciplined`, no process but the
faulting one is inside the section while the handler replaces the object. -/
theorem exclusive_of_disciplined_run {procs : Nat} {moves : List (Move procs)}
    {state : State procs} (run : ((system procs).guarded Disciplined).Runs moves state) :
    Exclusive state := by
  refine (run.invariant Guarded ?_ ?_).exclusive
  · rintro state rfl
    exact guarded_start
  · intro state move next guarded ⟨disciplined, taken⟩
    unfold system LabelledSystem.ofFunction step at taken
    cases own : move.process? with
    | none =>
      simp only [own] at taken
      exact guarded_handlerStep guarded disciplined taken
    | some p =>
      simp only [own, Option.ite_none_right_eq_some] at taken
      exact guarded_processStep guarded own taken.1 disciplined taken.2

/-- Process 0 enters the section, and the handler that runs for it gets as far
as replacing the object. -/
def entryThenHandler : List (Move 2) :=
  [.callEnter 0 0, .takeLk 0, .testLock 0, .updateNum 0, .releaseLk 0,
    .acquireRecoveryLock 0, .countTest]

theorem exclusive_of_disciplined_run_entry :
    ∃ state, ((system 2).guarded Disciplined).Runs entryThenHandler state ∧
      state.handler = .replacing 0 ∧ Exclusive state := by
  have found : (LabelledSystem.exec (LabelledSystem.checked Disciplined step) (start 2)
      entryThenHandler).map (fun state => state.handler) = some (.replacing 0) := by decide
  obtain ⟨state, result, handler⟩ := Option.map_eq_some_iff.mp found
  have run : ((system 2).guarded Disciplined).Runs entryThenHandler state :=
    .of_checked_exec rfl result
  exact ⟨state, run, handler, exclusive_of_disciplined_run run⟩

/-- Process 1 sees the recovery lock free; the handler for process 0 takes it
and passes its count test; then process 1 raises the counter. -/
theorem entrance_overtaken : ¬ ∀ moves state, (system 2).Runs moves state → Exclusive state := by
  intro claimed
  let moves : List (Move 2) := [.callEnter 0 0, .takeLk 0, .testLock 0, .updateNum 0,
    .releaseLk 0, .callEnter 1 0, .takeLk 1, .testLock 1, .acquireRecoveryLock 0, .countTest,
    .updateNum 1]
  have found : (LabelledSystem.exec step (start 2) moves).map
      (fun state => (state.handler, state.inside 1)) = some (.replacing 0, 1) := by decide
  obtain ⟨state, result, pair⟩ := Option.map_eq_some_iff.mp found
  obtain ⟨handler, entered⟩ := Prod.ext_iff.mp pair
  have run : (system 2).Runs moves state :=
    .of_exec rfl result
  have outside := claimed moves state run 0 handler 1 (by decide)
  simp only at entered
  omega

end Ev6.RecoveryLocking.Entrance
