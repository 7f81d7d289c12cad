import Ev6.Kernel.Param
import Ev6.Support.LabelledSystem
import Mathlib.Logic.Function.Basic
import Mathlib.Tactic.Ring

/-!
# Counting and waiting at the entrance of a section

One recovery critical section with the statements of
`enter_recovery_critical_section`, `exit_recovery_critical_section`,
`acquire_recovery_lock` and `release_recovery_lock`, taken by any number of
contexts. A context is a process, or the recovery handler of a fault; the
context it interrupts takes no step meanwhile. `sleep` and `wakeup` are broken
up at their lock operations: a waiter tests the recovery lock under `rlk->lk`
and then takes its own `p->lock`, while `wakeup` visits the processes one after
the other under theirs.
-/

namespace Ev6.RecoveryLocking.Waiting

open Function (update update_of_ne update_self)
open Support

/-- The next statement of a context. -/
inductive Pc where
  /-- Outside the code of the section. -/
  | run
  /-- At `acquire(&rlk->lk)` of the entrance, first or at the end of `sleep`. -/
  | enterLk (exception : Nat)
  /-- Holds `rlk->lk`, at `while(locking(&rlk->lock))`. -/
  | test (exception : Nat)
  /-- Found the recovery lock held; in `sleep`, at `acquire(&p->lock)`. -/
  | tested (exception : Nat)
  /-- Holds `p->lock`, at `release(lk)`. -/
  | unlock (exception : Nat)
  /-- Holds `p->lock`, at `p->state = SLEEPING` and the switch that drops it. -/
  | doze (exception : Nat)
  /-- `SLEEPING` on `rlk`. -/
  | asleep (exception : Nat)
  /-- Holds `rlk->lk` and found the recovery lock free, at the update of `num`. -/
  | count (exception : Nat)
  /-- At `acquire(&rlk->lk)` of the exit. -/
  | exitLk (exception : Nat)
  /-- Holds `rlk->lk`, at the update of `num` in the exit. -/
  | uncount (exception : Nat)
  /-- Holds `rlk->lk`, at `release(&rlk->lk)`. -/
  | dropLk
  /-- In `wakeup(&recovery_locks[flag])`, before the process at this index. -/
  | waking (index : Nat)
deriving DecidableEq

/-- The context holds its own `p->lock`. -/
def Pc.ownLock : Pc → Bool
  | .unlock _ | .doze _ => true
  | _ => false

/-- The context has found the recovery lock held and does not hold its `p->lock` yet. -/
def Pc.deciding : Pc → Bool
  | .tested _ => true
  | _ => false

/-- The context has found the recovery lock held and will sleep, or sleeps. -/
def Pc.waits : Pc → Bool
  | .tested _ | .unlock _ | .doze _ | .asleep _ => true
  | _ => false

/-- One entry of `recovery_locks[]`, the statement every context is at, the
entries not yet matched by an exit, and who released the recovery lock last. No
statement reads the last two. -/
structure State (procs : Nat) where
  lk : Option (Fin procs)
  lock : Option (Fin procs)
  num : Int
  exception : Nat
  pc : Fin procs → Pc
  panicked : Bool
  opened : Nat
  lastRelease : Option (Fin procs)

/-- One statement of a context; `kill` makes a sleeping process runnable. -/
inductive Move (procs : Nat) where
  | callEnter (p : Fin procs) (exception : Nat)
  | callExit (p : Fin procs) (exception : Nat)
  | takeLk (p : Fin procs)
  | testLock (p : Fin procs)
  | takeOwnLock (p : Fin procs)
  | dropLkToSleep (p : Fin procs)
  | fallAsleep (p : Fin procs)
  | kill (p : Fin procs)
  | updateNum (p : Fin procs)
  | releaseLk (p : Fin procs)
  | acquireRecoveryLock (p : Fin procs)
  | releaseRecoveryLock (p : Fin procs)
  | wakeNext (p : Fin procs)

variable {procs : Nat}

/-- Move a context to its next statement. -/
def State.goto (state : State procs) (p : Fin procs) (pc : Pc) : State procs :=
  { state with pc := update state.pc p pc }

/-- The visit of one process in `wakeup`: a sleeper on this channel becomes
runnable and goes back to `acquire(&rlk->lk)`. -/
def Pc.woken : Pc → Pc
  | .asleep exception => .enterLk exception
  | other => other

/-- `wakeup` visits the process at `index`, whose `p->lock` must be free, or
returns behind the last process. -/
def wakeNext (state : State procs) (p : Fin procs) (index : Nat) : Option (State procs) :=
  if visited : index < procs then
    let q : Fin procs := ⟨index, visited⟩
    if (state.pc q).ownLock then none
    else some ((state.goto q (state.pc q).woken).goto p (.waking (index + 1)))
  else some (state.goto p .run)

/-- The statements of `enter_recovery_critical_section`,
`exit_recovery_critical_section`, `acquire_recovery_lock`,
`release_recovery_lock`, `sleep` and `wakeup`. -/
def step (state : State procs) (move : Move procs) : Option (State procs) :=
  if state.panicked then none
  else match move with
  | .callEnter p exception =>
    if state.pc p = .run then
      -- `holding(&rlk->lock)`: the recovery process skips the inspection and the count.
      if state.lock = some p then some { state with opened := state.opened + 1 }
      else some (state.goto p (.enterLk exception))
    else none
  | .callExit p exception =>
    if state.pc p = .run then some (state.goto p (.exitLk exception)) else none
  | .takeLk p =>
    if state.lk = none then
      match state.pc p with
      | .enterLk exception => some { state.goto p (.test exception) with lk := some p }
      | .exitLk exception => some { state.goto p (.uncount exception) with lk := some p }
      | _ => none
    else none
  | .testLock p =>
    match state.pc p with
    | .test exception =>
      if state.lock = none then some (state.goto p (.count exception))
      else if exception = icacheFork then some { state with panicked := true }
      else some (state.goto p (.tested exception))
    | _ => none
  | .takeOwnLock p =>
    match state.pc p with
    | .tested exception => some (state.goto p (.unlock exception))
    | _ => none
  | .dropLkToSleep p =>
    match state.pc p with
    | .unlock exception => some { state.goto p (.doze exception) with lk := none }
    | _ => none
  | .fallAsleep p =>
    match state.pc p with
    | .doze exception => some (state.goto p (.asleep exception))
    | _ => none
  | .kill p =>
    match state.pc p with
    | .asleep exception => some (state.goto p (.enterLk exception))
    | _ => none
  | .updateNum p =>
    match state.pc p with
    | .count exception =>
      some { state.goto p .dropLk with
        num := state.num + 1
        exception := if exception = 0 then state.exception else exception
        opened := state.opened + 1 }
    | .uncount exception =>
      some { state.goto p .dropLk with
        num := state.num - 1
        exception := if state.exception = exception then 0 else state.exception
        opened := state.opened - 1 }
    | _ => none
  | .releaseLk p =>
    if state.pc p = .dropLk then some { state.goto p .run with lk := none } else none
  | .acquireRecoveryLock p =>
    if state.pc p = .run ∧ state.lock = none then some { state with lock := some p } else none
  | .releaseRecoveryLock p =>
    if state.pc p = .run ∧ state.lock = some p then
      some { state.goto p (.waking 0) with lock := none, lastRelease := some p }
    else none
  | .wakeNext p =>
    match state.pc p with
    | .waking index => wakeNext state p index
    | _ => none

/-- Nobody is in the section and nobody holds a lock. -/
def start (procs : Nat) : State procs where
  lk := none
  lock := none
  num := 0
  exception := 0
  pc _ := .run
  panicked := false
  opened := 0
  lastRelease := none

/-- The interleavings of the contexts. -/
def system (procs : Nat) : LabelledSystem (State procs) (Move procs) :=
  .ofFunction (· = start procs) step

/-- The branches of `step`, with the tests that lead to them. -/
inductive Effect (state : State procs) : Move procs → State procs → Prop where
  | enterHolding (p exception) (holding : state.lock = some p) :
      Effect state (.callEnter p exception) { state with opened := state.opened + 1 }
  | callEnter (p exception) (free : state.lock ≠ some p) (pc : state.pc p = .run) :
      Effect state (.callEnter p exception) (state.goto p (.enterLk exception))
  | callExit (p exception) (pc : state.pc p = .run) :
      Effect state (.callExit p exception) (state.goto p (.exitLk exception))
  | takeForEntry (p exception) (pc : state.pc p = .enterLk exception) :
      Effect state (.takeLk p) { state.goto p (.test exception) with lk := some p }
  | takeForExit (p exception) (pc : state.pc p = .exitLk exception) :
      Effect state (.takeLk p) { state.goto p (.uncount exception) with lk := some p }
  | pass (p exception) (pc : state.pc p = .test exception) (free : state.lock = none) :
      Effect state (.testLock p) (state.goto p (.count exception))
  | panic (p exception) (pc : state.pc p = .test exception) :
      Effect state (.testLock p) { state with panicked := true }
  | found (p exception) (pc : state.pc p = .test exception) (held : state.lock ≠ none) :
      Effect state (.testLock p) (state.goto p (.tested exception))
  | takeOwnLock (p exception) (pc : state.pc p = .tested exception) :
      Effect state (.takeOwnLock p) (state.goto p (.unlock exception))
  | dropLkToSleep (p exception) (pc : state.pc p = .unlock exception) :
      Effect state (.dropLkToSleep p) { state.goto p (.doze exception) with lk := none }
  | fallAsleep (p exception) (pc : state.pc p = .doze exception) :
      Effect state (.fallAsleep p) (state.goto p (.asleep exception))
  | kill (p exception) (pc : state.pc p = .asleep exception) :
      Effect state (.kill p) (state.goto p (.enterLk exception))
  | count (p exception) (pc : state.pc p = .count exception) :
      Effect state (.updateNum p) { state.goto p .dropLk with
        num := state.num + 1
        exception := if exception = 0 then state.exception else exception
        opened := state.opened + 1 }
  | uncount (p exception) (pc : state.pc p = .uncount exception) :
      Effect state (.updateNum p) { state.goto p .dropLk with
        num := state.num - 1
        exception := if state.exception = exception then 0 else state.exception
        opened := state.opened - 1 }
  | releaseLk (p) (pc : state.pc p = .dropLk) :
      Effect state (.releaseLk p) { state.goto p .run with lk := none }
  | acquireRecoveryLock (p) (pc : state.pc p = .run) :
      Effect state (.acquireRecoveryLock p) { state with lock := some p }
  | releaseRecoveryLock (p) (pc : state.pc p = .run) :
      Effect state (.releaseRecoveryLock p)
        { state.goto p (.waking 0) with lock := none, lastRelease := some p }
  | visit (p) (index) (visited : index < procs) (pc : state.pc p = .waking index)
      (free : (state.pc ⟨index, visited⟩).ownLock = false) :
      Effect state (.wakeNext p)
        ((state.goto ⟨index, visited⟩ (state.pc ⟨index, visited⟩).woken).goto p
          (.waking (index + 1)))
  | wakeupReturns (p) (index) (beyond : procs ≤ index) (pc : state.pc p = .waking index) :
      Effect state (.wakeNext p) (state.goto p .run)

variable {state : State procs}

theorem step_cases {next : State procs} {move : Move procs}
    (taken : step state move = some next) : Effect state move next := by
  unfold step at taken
  split at taken
  · cases taken
  cases move with
  | callEnter p exception =>
    simp only [Option.ite_none_right_eq_some] at taken
    obtain ⟨pc, taken⟩ := taken
    split at taken
    · cases taken
      exact .enterHolding p exception (by assumption)
    · cases taken
      exact .callEnter p exception (by assumption) pc
  | callExit p exception =>
    obtain ⟨pc, rfl⟩ : state.pc p = .run ∧ _ = next := by simpa using taken
    exact .callExit p exception pc
  | takeLk p =>
    simp only [Option.ite_none_right_eq_some] at taken
    obtain ⟨-, taken⟩ := taken
    cases pc : state.pc p <;> simp only [pc, reduceCtorEq] at taken
    all_goals obtain rfl := Option.some.inj taken
    · exact .takeForEntry p _ pc
    · exact .takeForExit p _ pc
  | testLock p =>
    cases pc : state.pc p <;> simp only [pc, reduceCtorEq] at taken
    split_ifs at taken with free forking
    all_goals obtain rfl := Option.some.inj taken
    · exact .pass p _ pc free
    · exact .panic p _ pc
    · exact .found p _ pc free
  | takeOwnLock p =>
    cases pc : state.pc p <;> simp only [pc, reduceCtorEq] at taken
    cases taken
    exact .takeOwnLock p _ pc
  | dropLkToSleep p =>
    cases pc : state.pc p <;> simp only [pc, reduceCtorEq] at taken
    cases taken
    exact .dropLkToSleep p _ pc
  | fallAsleep p =>
    cases pc : state.pc p <;> simp only [pc, reduceCtorEq] at taken
    cases taken
    exact .fallAsleep p _ pc
  | kill p =>
    cases pc : state.pc p <;> simp only [pc, reduceCtorEq] at taken
    cases taken
    exact .kill p _ pc
  | updateNum p =>
    cases pc : state.pc p <;> simp only [pc, reduceCtorEq] at taken
    all_goals obtain rfl := Option.some.inj taken
    · exact .count p _ pc
    · exact .uncount p _ pc
  | releaseLk p =>
    obtain ⟨pc, rfl⟩ : state.pc p = .dropLk ∧ _ = next := by simpa using taken
    exact .releaseLk p pc
  | acquireRecoveryLock p =>
    simp only [Option.ite_none_right_eq_some] at taken
    obtain ⟨⟨pc, -⟩, taken⟩ := taken
    cases taken
    exact .acquireRecoveryLock p pc
  | releaseRecoveryLock p =>
    simp only [Option.ite_none_right_eq_some] at taken
    obtain ⟨⟨pc, -⟩, taken⟩ := taken
    cases taken
    exact .releaseRecoveryLock p pc
  | wakeNext p =>
    cases pc : state.pc p <;> simp only [pc, reduceCtorEq] at taken
    rename_i index
    unfold wakeNext at taken
    split at taken
    · rename_i visited
      simp only at taken
      split at taken
      · cases taken
      · rename_i free
        cases taken
        exact .visit p index visited pc (by simpa using free)
    · rename_i beyond
      cases taken
      exact .wakeupReturns p index (by omega) pc

/-! ## The counter -/

/-- The condition on the state before a step: the section is not entered by the
context that holds its recovery lock, and an exit finds an entry to match. -/
def Paired (state : State procs) : Move procs → Prop
  | .callEnter p _ => state.lock ≠ some p
  | .updateNum p => (∃ exception, state.pc p = .uncount exception) → 0 < state.opened
  | _ => True

/-- How far `num` lies below the entries that are not yet matched by an exit. -/
def State.gap (state : State procs) : Int :=
  state.opened - state.num

/-- A step outside the condition, and only such a step, widens the gap. -/
theorem Effect.gap {next : State procs} {move : Move procs} (effect : Effect state move next) :
    Paired state move ∧ next.gap = state.gap ∨ ¬ Paired state move ∧ next.gap = state.gap + 1 := by
  cases effect with
  | enterHolding p exception holding =>
    right
    constructor
    · intro paired
      exact paired holding
    · simp only [State.gap]
      push_cast
      ring
  | callEnter p exception free pc => exact .inl ⟨free, rfl⟩
  | count p exception pc =>
    left
    constructor
    · rintro ⟨other, leaving⟩
      rw [pc] at leaving
      cases leaving
    · simp only [State.gap]
      push_cast
      ring
  | uncount p exception pc =>
    by_cases opened : 0 < state.opened
    · left
      refine ⟨fun _ => opened, ?_⟩
      simp only [State.gap]
      omega
    · right
      refine ⟨fun paired => opened (paired ⟨exception, pc⟩), ?_⟩
      simp only [State.gap]
      omega
  | _ => exact .inl ⟨trivial, rfl⟩

theorem gap_nonneg {moves : List (Move procs)}
    (run : (system procs).Runs moves state) : 0 ≤ state.gap := by
  refine run.invariant (fun state => 0 ≤ state.gap) ?_ ?_
  · rintro state rfl
    exact le_refl 0
  · intro state move next holds taken
    rcases (step_cases taken).gap with ⟨-, gap⟩ | ⟨-, gap⟩ <;> omega

/-- A run has met the condition at all its steps exactly when the counter is the
number of entries that no exit has matched yet. -/
theorem counts_entries_iff {moves : List (Move procs)} {state : State procs}
    (run : (system procs).Runs moves state) : ((system procs).guarded Paired).Runs moves state ↔
      state.num = state.opened ∧ 0 ≤ state.num := by
  constructor
  · intro paired
    have closed : state.gap = 0 := by
      refine paired.invariant (fun state => state.gap = 0) ?_ ?_
      · rintro state rfl
        rfl
      · intro state move next holds ⟨guard, taken⟩
        rcases (step_cases taken).gap with ⟨-, gap⟩ | ⟨breaks, -⟩
        · exact gap.trans holds
        · exact absurd guard breaks
    unfold State.gap at closed
    omega
  · rintro ⟨counted, -⟩
    have closed : state.gap = 0 := by
      unfold State.gap
      omega
    clear counted
    -- The gap never shrinks, so it was closed in every state before.
    induction run with
    | initial valid => exact .initial valid
    | step prior taken ih =>
      have before := gap_nonneg prior
      rcases (step_cases taken).gap with ⟨guard, gap⟩ | ⟨-, gap⟩
      · exact .step (ih (by omega)) ⟨guard, taken⟩
      · omega

/-- A process of two contexts. -/
def process : Fin 2 := ⟨0, Nat.zero_lt_two⟩

/-- The other context, which runs a recovery handler. -/
def handler : Fin 2 := ⟨1, Nat.one_lt_two⟩

/-- A process enters, the handler takes the recovery lock and gives it back, and
the process leaves. -/
def entryAndExit : List (Move 2) :=
  [.callEnter process 0, .takeLk process, .testLock process, .updateNum process,
    .releaseLk process, .acquireRecoveryLock handler, .releaseRecoveryLock handler,
    .callExit process 0, .takeLk process, .updateNum process]

theorem counts_entries_iff_entryAndExit :
    ∃ state, (system 2).Runs entryAndExit state ∧
      (((system 2).guarded Paired).Runs entryAndExit state ↔
        state.num = state.opened ∧ 0 ≤ state.num) := by
  have found : (LabelledSystem.exec step (start 2) entryAndExit).isSome = true := by decide
  obtain ⟨state, result⟩ := Option.isSome_iff_exists.mp found
  have run : (system 2).Runs entryAndExit state := .of_exec rfl result
  exact ⟨state, run, counts_entries_iff run⟩

/-- The handler holds the recovery lock while a function it calls enters the
section and leaves it again: the entry is not counted, the exit is. -/
theorem handler_exit_undercounts :
    ¬ ∀ moves state, (system 1).Runs moves state → state.num = state.opened ∧ 0 ≤ state.num := by
  intro claimed
  let moves : List (Move 1) :=
    [.acquireRecoveryLock 0, .callEnter 0 0, .callExit 0 0, .takeLk 0, .updateNum 0]
  have found : (LabelledSystem.exec step (start 1) moves).map
      (fun state => state.num) = some (-1) := by decide
  obtain ⟨state, result, negative⟩ := Option.map_eq_some_iff.mp found
  have run : (system 1).Runs moves state := .of_exec rfl result
  have counted := claimed moves state run
  omega

/-! ## The sleepers -/

/-- The `wakeup` of the last release of the recovery lock has yet to visit the
process. -/
def State.Pending (state : State procs) (p : Fin procs) : Prop :=
  ∃ releaser index, state.lastRelease = some releaser ∧
    state.pc releaser = .waking index ∧ index ≤ p

/-- A process that sleeps while the recovery lock is free is one that the
`wakeup` of the last release has yet to visit. -/
def NoLostWakeup (state : State procs) : Prop :=
  ∀ p exception, state.pc p = .asleep exception → state.lock = none → state.Pending p

/-- The condition on the state before a step: with the recovery lock free, the
`wakeup` of its last release does not visit a process that found the lock held
and has not taken its `p->lock` yet. -/
def Heeded (state : State procs) : Move procs → Prop
  | .wakeNext releaser =>
    state.lock = none → state.lastRelease = some releaser →
      ∀ p : Fin procs, state.pc releaser = .waking p → (state.pc p).deciding = false
  | _ => True

instance (state : State procs) (move : Move procs) : Decidable (Heeded state move) := by
  cases move <;> unfold Heeded <;> infer_instance

/-- Whoever found the recovery lock held, and may sleep on it, still has its
release or the visit of `wakeup` before him. -/
def Watched (state : State procs) : Prop :=
  ∀ p, (state.pc p).waits = true → state.lock = none → state.Pending p

variable {state : State procs}

theorem Watched.noLostWakeup (watched : Watched state) : NoLostWakeup state := by
  intro p exception asleep free
  refine watched p ?_ free
  rw [asleep]
  rfl

variable {next : State procs}

/-- A statement of a context outside `wakeup` that leaves the recovery lock
alone, and begins to wait only while that lock is held. -/
theorem Watched.goto (watched : Watched state) (p : Fin procs)
    (pc : Pc) (lock : next.lock = state.lock) (last : next.lastRelease = state.lastRelease)
    (moved : next.pc = update state.pc p pc)
    (begins : pc.waits = true → state.lock = none → (state.pc p).waits = true)
    (outside : ∀ index, state.pc p ≠ .waking index) : Watched next := by
  intro q waits free
  rw [lock] at free
  have before : (state.pc q).waits = true := by
    by_cases same : q = p
    · subst same
      rw [moved, update_self] at waits
      exact begins waits free
    · rwa [moved, update_of_ne same] at waits
  obtain ⟨releaser, index, released, waking, ahead⟩ := watched q before free
  refine ⟨releaser, index, last.trans released, ?_, ahead⟩
  have other : releaser ≠ p := by
    rintro rfl
    exact outside index waking
  rw [moved, update_of_ne other]
  exact waking

/-- The visit of one process by `wakeup` leaves nobody behind whom it should
have woken. -/
theorem Watched.visit (watched : Watched state) (p q : Fin procs)
    (pc : state.pc p = .waking q) (free : (state.pc q).ownLock = false)
    (heeded : Heeded state (.wakeNext p)) :
    Watched ((state.goto q (state.pc q).woken).goto p (.waking (q + 1))) := by
  intro r waits unlocked
  have different : r ≠ p := by
    rintro rfl
    simp [State.goto, Pc.waits] at waits
  by_cases visited : r = q
  · -- Its `p->lock` is free, so it is asleep and gets woken, or the guard has excluded it.
    subst visited
    simp only [State.goto, update_of_ne different, update_self] at waits
    have before : (state.pc r).waits = true := by
      cases at_pc : state.pc r <;> simp [at_pc, Pc.woken, Pc.waits] at waits ⊢
    obtain ⟨releaser, index, released, waking, ahead⟩ := watched r before unlocked
    by_cases last : releaser = p
    · subst last
      have untested := heeded unlocked released r pc
      cases at_pc : state.pc r <;>
        simp_all [Pc.woken, Pc.waits, Pc.ownLock, Pc.deciding]
    · refine ⟨releaser, index, released, ?_, ahead⟩
      have other : releaser ≠ r := by
        rintro rfl
        rw [waking] at before
        cases before
      simp only [State.goto, update_of_ne last, update_of_ne other]
      exact waking
  · simp only [State.goto, update_of_ne different, update_of_ne visited] at waits
    obtain ⟨releaser, index, released, waking, ahead⟩ := watched r waits unlocked
    by_cases last : releaser = p
    · subst last
      rw [pc] at waking
      obtain rfl := Pc.waking.inj waking
      refine ⟨releaser, q + 1, released, by simp [State.goto], ?_⟩
      have distinct : (r : Nat) ≠ q := fun same => visited (Fin.ext same)
      omega
    · refine ⟨releaser, index, released, ?_, ahead⟩
      by_cases same : releaser = q
      · subst same
        simp [State.goto, update_of_ne last, waking, Pc.woken]
      · simp only [State.goto, update_of_ne last, update_of_ne same]
        exact waking

/-- Every step that meets the condition keeps the watch. -/
theorem Effect.watched {move : Move procs}
    (effect : Effect state move next) (heeded : Heeded state move) (watched : Watched state) :
    Watched next := by
  cases effect with
  | enterHolding => exact watched
  | panic => exact watched
  | acquireRecoveryLock p pc => intro q waits free; cases free
  | releaseRecoveryLock p pc =>
    intro q waits free
    exact ⟨p, 0, rfl, by simp [State.goto], Nat.zero_le q⟩
  | visit p index visited pc free => exact watched.visit p ⟨index, visited⟩ pc free heeded
  | wakeupReturns p index beyond pc =>
    intro q waits unlocked
    have different : q ≠ p := by
      rintro rfl
      simp [State.goto, Pc.waits] at waits
    simp only [State.goto, update_of_ne different] at waits
    obtain ⟨releaser, position, released, waking, ahead⟩ := watched q waits unlocked
    have other : releaser ≠ p := by
      rintro rfl
      rw [pc] at waking
      obtain rfl := Pc.waking.inj waking
      have bound := q.isLt
      omega
    refine ⟨releaser, position, released, ?_, ahead⟩
    simpa [State.goto, update_of_ne other] using waking
  | found p exception pc held =>
    exact watched.goto p _ rfl rfl rfl (fun _ free => absurd free held) (by simp [pc])
  | _ =>
    refine watched.goto _ _ rfl rfl rfl ?_ (by simp [*])
    simp [*, Pc.waits]

/-- In every interleaving whose steps all meet `Heeded`, no process sleeps on a
free recovery lock once the `wakeup` of its release has passed it. -/
theorem noLostWakeup_of_heeded_run {procs : Nat} {moves : List (Move procs)}
    {state : State procs} (run : ((system procs).guarded Heeded).Runs moves state) :
    NoLostWakeup state := by
  refine (run.invariant Watched ?_ ?_).noLostWakeup
  · rintro state rfl p waits
    cases waits
  · intro state move next watched ⟨heeded, taken⟩
    exact (step_cases taken).watched heeded watched

/-- The condition leaves out nothing else: a visit that breaks it can be followed
by three statements of the visited process, which then sleeps for good. -/
theorem lost_of_unheeded {moves : List (Move procs)}
    {move : Move procs} (run : (system procs).Runs moves state)
    (unheeded : ¬ Heeded state move) (taken : step state move = some next) :
    ∃ later final, (system procs).Runs (moves ++ [move] ++ later) final ∧ ¬ NoLostWakeup final := by
  have going : state.panicked = false := by
    cases panicked : state.panicked
    · rfl
    · simp [step, panicked] at taken
  cases move with
  | wakeNext releaser =>
    simp only [Heeded, not_forall] at unheeded
    obtain ⟨free, released, p, waking, deciding⟩ := unheeded
    obtain ⟨exception, tested⟩ : ∃ exception, state.pc p = .tested exception := by
      cases at_pc : state.pc p <;> simp [at_pc, Pc.deciding] at deciding ⊢
    have other : p ≠ releaser := by
      rintro rfl
      rw [waking] at tested
      cases tested
    have visited : next = (state.goto p (.tested exception)).goto releaser (.waking (p + 1)) := by
      have position := waking
      simp only [step, going, position, wakeNext, p.isLt, tested, Pc.ownLock, Pc.woken] at taken
      exact (Option.some.inj taken).symm
    have behind : (system procs).Runs (moves ++ [.wakeNext releaser]) next := run.step taken
    let later : List (Move procs) := [.takeOwnLock p, .dropLkToSleep p, .fallAsleep p]
    have slept : ∃ final, LabelledSystem.exec step next later = some final ∧
        final.pc p = .asleep exception ∧ final.pc releaser = .waking (p + 1) ∧
        final.lock = none ∧ final.lastRelease = some releaser := by
      subst visited
      simp [later, LabelledSystem.exec, step, State.goto, going, other, other.symm, free,
        released]
    obtain ⟨final, result, asleep, past, unlocked, last⟩ := slept
    refine ⟨later, final, behind.append_exec (fun _ _ _ _ taken => taken) result, ?_⟩
    intro noLoss
    obtain ⟨latest, index, releasedLast, position, ahead⟩ :=
      noLoss p exception asleep unlocked
    rw [last] at releasedLast
    obtain rfl := Option.some.inj releasedLast
    rw [past] at position
    obtain rfl := Pc.waking.inj position
    omega
  | _ => exact absurd trivial unheeded

/-- Process 0 falls asleep while context 1 holds the recovery lock, which is then
released. -/
def sleepThenRelease : List (Move 2) :=
  [.acquireRecoveryLock handler, .callEnter process 0, .takeLk process, .testLock process,
    .takeOwnLock process, .dropLkToSleep process, .fallAsleep process,
    .releaseRecoveryLock handler]

theorem noLostWakeup_of_heeded_run_sleepThenRelease :
    ∃ state, ((system 2).guarded Heeded).Runs sleepThenRelease state ∧
      state.pc 0 = .asleep 0 ∧ state.lock = none ∧ NoLostWakeup state := by
  have found : (LabelledSystem.exec (LabelledSystem.checked Heeded step) (start 2)
      sleepThenRelease).map (fun state => (state.pc 0, state.lock)) =
        some (.asleep 0, none) := by decide
  obtain ⟨state, result, pair⟩ := Option.map_eq_some_iff.mp found
  obtain ⟨asleep, free⟩ := Prod.ext_iff.mp pair
  have run : ((system 2).guarded Heeded).Runs sleepThenRelease state :=
    .of_checked_exec rfl result
  exact ⟨state, run, asleep, free, noLostWakeup_of_heeded_run run⟩

/-- Process 0 finds the recovery lock held; the holder releases it and `wakeup`
goes over all processes; then process 0 takes its `p->lock` and falls asleep. -/
theorem wakeup_passes_waiter :
    ¬ ∀ moves state, (system 2).Runs moves state → NoLostWakeup state := by
  intro claimed
  let moves : List (Move 2) :=
    [.acquireRecoveryLock 1, .callEnter 0 0, .takeLk 0, .testLock 0, .releaseRecoveryLock 1,
      .wakeNext 1, .wakeNext 1, .wakeNext 1, .takeOwnLock 0, .dropLkToSleep 0, .fallAsleep 0]
  have found : (LabelledSystem.exec step (start 2) moves).map
      (fun state => (state.pc 0, state.pc 1, state.lock, state.lastRelease)) =
        some (.asleep 0, .run, none, some 1) := by decide
  obtain ⟨state, result, places⟩ := Option.map_eq_some_iff.mp found
  simp only [Prod.mk.injEq] at places
  obtain ⟨asleep, returned, free, last⟩ := places
  have run : (system 2).Runs moves state := .of_exec rfl result
  obtain ⟨releaser, index, released, waking, -⟩ := claimed moves state run 0 0 asleep free
  rw [last] at released
  cases released
  rw [returned] at waking
  cases waking

end Ev6.RecoveryLocking.Waiting
