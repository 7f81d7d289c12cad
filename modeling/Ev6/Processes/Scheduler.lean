import Ev6.Files.Tables
import Ev6.Locks.Spinlock

/-!
# The scheduler

`scheduler`, `sched`, `yield`, `sleep`, `wakeup`, `kill` and `forkret` of `proc.c`, on any
number of CPUs. A lock of a process that one side of `swtch` acquires is released on the
other side. A step is what is done from one lock operation to the next, as no one else looks
at the state of a process meanwhile. `acquire` is a step that is enabled when the lock is
free; that a lock excludes is shown in `Ev6.Locks.Spinlock`.
-/

namespace Ev6.Processes.Scheduler

open Function (update update_of_ne update_self)
open Support Locks Files

/-! ## The model -/

/-- Why the thread of a process has called `sched`, or that it has not run yet. -/
inductive Why (K Ch : Type) where
  | forkret
  | yield
  | sleep (lk : K) (chan : Ch)
  | exit
deriving DecidableEq

/-- What is done to a process under its lock by another one: `kill`, the end of `fork`, and
`freeproc` in `wait`. -/
inductive Errand where
  | kill
  | fork
  | free
deriving DecidableEq

/-- What the kernel thread of a process does next. `held` are the spin locks that it has
besides the lock of a process. -/
inductive Thread (K Ch : Type) where
  | none
  /-- Code that is in none of these functions. -/
  | run (held : List K)
  /-- `sleep` has acquired `p->lock`; it releases `lk`. -/
  | release (lk : K) (chan : Ch) (held : List K)
  /-- `sleep` writes `p->chan` and `p->state`. -/
  | doze (lk : K) (chan : Ch) (held : List K)
  | sched (why : Why K Ch) (held : List K)
  /-- The context is saved, and the variable `intena` of `sched`. -/
  | saved (why : Why K Ch) (intena : Bool)
  /-- `swtch` has come back. -/
  | back (why : Why K Ch) (intena : Bool)
  /-- The end of `sleep`: `lk` is acquired. -/
  | reacquire (lk : K)
  /-- `wakeup` acquires the lock of a slot. -/
  | wakeup (chan : Ch) (i : Nat) (held : List K)
  /-- `wakeup` has the lock of a slot. -/
  | visit (chan : Ch) (q : Fin nproc) (held : List K)
  | errand (what : Errand) (q : Fin nproc) (held : List K)
  /-- Code that has been switched to without a saved context. -/
  | wild
deriving DecidableEq

/-- What the scheduler of a CPU does next. -/
inductive Loop where
  | scan (i : Nat)
  /-- It has the lock of a slot. -/
  | look (q : Fin nproc)
  /-- It has switched to `c->proc`. -/
  | away
  /-- It has been switched back to. -/
  | back (q : Fin nproc)
deriving DecidableEq

/-- `state`, `chan` and `killed` of `struct proc`. -/
structure Proc (Ch : Type) where
  state : ProcState
  chan : Option Ch
  killed : Bool
deriving DecidableEq

/-- The panics. -/
inductive Panic where
  | popOff
  | schedLock
  | schedLocks
  | schedRunning
  | schedInterruptible
  | zombieExit
deriving DecidableEq

/-- The processes and their locks, the other spin locks, the CPUs with `c->proc`, and what
each thread and each scheduler does next. `setting` is for reasoning only: how the thread of a
process has set its interrupts. -/
structure State (C K Ch : Type) where
  proc : Fin nproc → Proc Ch
  lock : Fin nproc → Option C
  mutex : K → Option C
  cpu : C → Cpu
  cproc : C → Option (Fin nproc)
  loop : C → Loop
  thread : Fin nproc → Thread K Ch
  stopped : C → Option Panic
  setting : Fin nproc → Bool

/-- What a thread calls, or that it goes on in a function. -/
inductive Act (K Ch : Type) where
  | go
  | acquire (lk : K)
  | release (lk : K)
  | yield
  | sleep (lk : K) (chan : Ch)
  | wakeup (chan : Ch)
  | errand (what : Errand) (q : Fin nproc)
  | exit
  | interrupts (on : Bool)

/-- The scheduler of a CPU goes on, or the thread that the CPU runs does something. -/
inductive Event (C K Ch : Type) where
  | loop (c : C)
  | act (c : C) (act : Act K Ch)

section Model

variable {C K Ch : Type} [DecidableEq C] [DecidableEq K] [DecidableEq Ch]

namespace State

def setCpu (state : State C K Ch) (c : C) (cpu : Cpu) : State C K Ch :=
  { state with cpu := update state.cpu c cpu }

def setProc (state : State C K Ch) (q : Fin nproc) (proc : Proc Ch) : State C K Ch :=
  { state with proc := update state.proc q proc }

def setThread (state : State C K Ch) (p : Fin nproc) (thread : Thread K Ch) : State C K Ch :=
  { state with thread := update state.thread p thread }

def setLoop (state : State C K Ch) (c : C) (loop : Loop) : State C K Ch :=
  { state with loop := update state.loop c loop }

def stop (state : State C K Ch) (c : C) (reason : Panic) : State C K Ch :=
  { state with stopped := update state.stopped c (some reason) }

/-- `acquire(&q->lock)`, when it is free. -/
def lockProc (state : State C K Ch) (c : C) (q : Fin nproc) : State C K Ch :=
  { state.setCpu c (pushOff (state.cpu c)) with
    lock := update state.lock q (some c) }

/-- `release(&q->lock)`, and what is next. -/
def unlockProc (state : State C K Ch) (c : C) (q : Fin nproc)
    (next : State C K Ch → State C K Ch) : State C K Ch :=
  match popOff (state.cpu c) with
  | none => state.stop c .popOff
  | some cpu => next { state.setCpu c cpu with lock := update state.lock q none }

/-- `release(lk)`, and what is next. -/
def unlockMutex (state : State C K Ch) (c : C) (lk : K)
    (next : State C K Ch → State C K Ch) : State C K Ch :=
  match popOff (state.cpu c) with
  | none => state.stop c .popOff
  | some cpu => next { state.setCpu c cpu with mutex := update state.mutex lk none }

/-- `acquire(lk)`, when it is free. -/
def lockMutex (state : State C K Ch) (c : C) (lk : K) : State C K Ch :=
  { state.setCpu c (pushOff (state.cpu c)) with
    mutex := update state.mutex lk (some c) }

/-- The next round of `scheduler`. -/
def scan (state : State C K Ch) (c : C) (i : Nat) : Option (State C K Ch) :=
  if inside : i < nproc then
    if state.lock ⟨i, inside⟩ = none then
      some ((state.lockProc c ⟨i, inside⟩).setLoop c (.look ⟨i, inside⟩))
    else none
  else some ((state.setCpu c { state.cpu c with intr := true }).setLoop c (.scan 0))

/-- What `swtch` to a thread finds. -/
def resume : Thread K Ch → Thread K Ch
  | .saved why intena => .back why intena
  | _ => .wild

/-- `scheduler` with the lock of a slot. -/
def look (state : State C K Ch) (c : C) (q : Fin nproc) : State C K Ch :=
  if (state.proc q).state = .runnable then
    { (state.setProc q { state.proc q with state := .running }).setThread q
        (resume (state.thread q)) with
      cproc := update state.cproc c (some q)
      loop := update state.loop c .away }
  else state.unlockProc c q fun state => state.setLoop c (.scan (q + 1))

/-- `scheduler` behind `swtch`. -/
def returned (state : State C K Ch) (c : C) (q : Fin nproc) : State C K Ch :=
  { state with cproc := update state.cproc c none }.unlockProc c q fun state =>
    state.setLoop c (.scan (q + 1))

/-- `sched`. -/
def sched (state : State C K Ch) (c : C) (p : Fin nproc) (why : Why K Ch) : State C K Ch :=
  if state.lock p ≠ some c then state.stop c .schedLock
  else if (state.cpu c).noff ≠ 1 then state.stop c .schedLocks
  else if (state.proc p).state = .running then state.stop c .schedRunning
  else if (state.cpu c).intr = true then state.stop c .schedInterruptible
  else (state.setThread p (.saved why (state.cpu c).intena)).setLoop c (.back p)

/-- A thread behind its `swtch`: `forkret`, or the end of `sched` and of its caller. -/
def resumed (state : State C K Ch) (c : C) (p : Fin nproc) (why : Why K Ch) (intena : Bool) :
    State C K Ch :=
  let restored := state.setCpu c { state.cpu c with intena := intena }
  match why with
  | .forkret =>
    { state.unlockProc c p fun state => state.setThread p (.run []) with
      setting := update state.setting p (state.cpu c).intena }
  | .yield => restored.unlockProc c p fun state => state.setThread p (.run [])
  | .sleep lk _ =>
    (restored.setProc p { state.proc p with chan := none }).unlockProc c p fun state =>
      state.setThread p (.reacquire lk)
  | .exit => state.stop c .zombieExit

/-- `wakeup` at a slot. -/
def visit (state : State C K Ch) (chan : Ch) (q : Fin nproc) : State C K Ch :=
  if (state.proc q).state = .sleeping ∧ (state.proc q).chan = some chan then
    state.setProc q { state.proc q with state := .runnable }
  else state

/-- `kill` at the slot that it is looking for, `fork` at a slot that is unused, and `wait` at
one with a zombie. -/
def errand (state : State C K Ch) (q : Fin nproc) : Errand → State C K Ch
  | .kill =>
    state.setProc q
      { state.proc q with
        killed := true
        state := if (state.proc q).state = .sleeping then .runnable else (state.proc q).state }
  | .fork =>
    if (state.proc q).state = .unused then
      (state.setProc q { state.proc q with state := .runnable }).setThread q
        (.saved .forkret false)
    else state
  | .free =>
    if (state.proc q).state = .zombie then
      (state.setProc q ⟨.unused, none, false⟩).setThread q .none
    else state

/-- A thread goes on in a function. -/
def go (state : State C K Ch) (c : C) (p : Fin nproc) : Option (State C K Ch) :=
  match state.thread p with
  | .release lk chan held =>
    some (state.unlockMutex c lk fun state =>
      state.setThread p (.doze lk chan (held.erase lk)))
  | .doze lk chan held =>
    some ((state.setProc p
      { state.proc p with state := .sleeping, chan := some chan }).setThread p
        (.sched (.sleep lk chan) held))
  | .sched why _ => some (state.sched c p why)
  | .back why intena => some (state.resumed c p why intena)
  | .reacquire lk =>
    if state.mutex lk = none then some ((state.lockMutex c lk).setThread p (.run [lk]))
    else none
  | .wakeup chan i held =>
    if inside : i < nproc then
      if state.lock ⟨i, inside⟩ = none then
        some ((state.lockProc c ⟨i, inside⟩).setThread p (.visit chan ⟨i, inside⟩ held))
      else none
    else some (state.setThread p (.run held))
  | .visit chan q held =>
    some ((state.visit chan q).unlockProc c q fun state =>
      state.setThread p (.wakeup chan (q + 1) held))
  | .errand what q held =>
    some ((state.errand q what).unlockProc c q fun state => state.setThread p (.run held))
  | _ => none

/-- A thread that is in none of the functions calls one. -/
def call (state : State C K Ch) (c : C) (p : Fin nproc) (held : List K) :
    Act K Ch → Option (State C K Ch)
  | .go => none
  | .acquire lk =>
    if state.mutex lk = none then some ((state.lockMutex c lk).setThread p (.run (lk :: held)))
    else none
  | .release lk =>
    if lk ∈ held then
      some (state.unlockMutex c lk fun state => state.setThread p (.run (held.erase lk)))
    else none
  | .yield =>
    if state.lock p = none then
      some (((state.lockProc c p).setProc p { state.proc p with state := .runnable }).setThread p
        (.sched .yield held))
    else none
  | .sleep lk chan =>
    if lk ∈ held ∧ state.lock p = none then
      some ((state.lockProc c p).setThread p (.release lk chan held))
    else none
  | .wakeup chan => some (state.setThread p (.wakeup chan 0 held))
  | .errand what q =>
    if state.lock q = none then
      some ((state.lockProc c q).setThread p (.errand what q held))
    else none
  | .exit =>
    if state.lock p = none then
      some (((state.lockProc c p).setProc p { state.proc p with state := .zombie }).setThread p
        (.sched .exit held))
    else none
  | .interrupts on =>
    if held = [] then
      some { state.setCpu c { state.cpu c with intr := on } with
        setting := update state.setting p on }
    else none

/-- The process that a CPU runs. -/
def current (state : State C K Ch) (c : C) : Option (Fin nproc) :=
  if state.loop c = .away then state.cproc c else none

/-- One step. A CPU that has panicked takes none. A thread calls `release` and `sleep` with a
lock that it has, and sets its interrupts without locks. -/
def step (state : State C K Ch) : Event C K Ch → Option (State C K Ch)
  | .loop c =>
    if state.stopped c = none then
      match state.loop c with
      | .scan i => state.scan c i
      | .look q => some (state.look c q)
      | .away => none
      | .back q => some (state.returned c q)
    else none
  | .act c act =>
    if state.stopped c = none then
      (state.current c).bind fun p =>
        match state.thread p, act with
        | .run held, act => state.call c p held act
        | _, .go => state.go c p
        | _, _ => none
    else none

end State

/-- All CPUs start to scan, with one process that has not run yet. -/
structure Starts (state : State C K Ch) : Prop where
  thread : ∃ first, state.thread first = .saved .forkret false ∧
    (state.proc first).state = .runnable ∧
      ∀ p, p ≠ first → state.thread p = .none ∧ (state.proc p).state = .unused
  lock : ∀ p, state.lock p = none
  mutex : ∀ lk, state.mutex lk = none
  cpu : ∀ c, (state.cpu c).noff = 0
  loop : ∀ c, state.loop c = .scan 0
  stopped : ∀ c, state.stopped c = none

/-- The CPUs and their processes. -/
def system (C K Ch : Type) [DecidableEq C] [DecidableEq K] [DecidableEq Ch] :
    LabelledSystem (State C K Ch) (Event C K Ch) :=
  .ofFunction Starts State.step

end Model

/-! ## The invariant -/

section Invariant

variable {C K Ch : Type}

/-- A CPU is to run the thread. -/
def Thread.Active : Thread K Ch → Prop
  | .none | .saved _ _ => False
  | _ => True

/-- The spin locks of a thread besides the lock of a process. -/
def Thread.held : Thread K Ch → List K
  | .run held | .release _ _ held | .doze _ _ held | .sched _ held | .wakeup _ _ held
  | .visit _ _ held | .errand _ _ held => held
  | _ => []

/-- The process whose lock the thread of `p` has. -/
def Thread.lockOf (p : Fin nproc) : Thread K Ch → Option (Fin nproc)
  | .release _ _ _ | .doze _ _ _ | .sched _ _ | .back _ _ | .wild => some p
  | .visit _ q _ | .errand _ q _ => some q
  | _ => Option.none

/-- What a thread says about its process. -/
def Thread.Agrees (proc : Proc Ch) : Thread K Ch → Prop
  | .none => proc.state = .unused
  | .saved .forkret _ | .saved .yield _ | .sched .yield _ => proc.state = .runnable
  | .sched (.sleep _ chan) _ => proc.state = .sleeping ∧ proc.chan = some chan
  | .saved (.sleep _ chan) _ =>
    proc.state = .sleeping ∧ proc.chan = some chan ∨ proc.state = .runnable
  | .saved .exit _ | .sched .exit _ => proc.state = .zombie
  | .sched .forkret _ | .back .exit _ | .wild => False
  | .release lk _ held => proc.state = .running ∧ lk ∈ held
  | _ => proc.state = .running

/-- The thread has found interrupts as it has set them, and has that in `intena` while it is
switched away. -/
def Thread.Keeps (setting : Bool) : Thread K Ch → Prop
  | .saved why intena | .back why intena => why = .forkret ∨ intena = setting
  | _ => True

/-- The thread has given `lk` up in `sleep`, and nobody has made it runnable. -/
def Thread.Asleep (lk : K) (chan : Ch) (proc : Proc Ch) : Thread K Ch → Prop
  | .doze other to_ _ | .sched (.sleep other to_) _ => other = lk ∧ to_ = chan
  | .saved (.sleep other to_) _ => other = lk ∧ to_ = chan ∧ proc.state = .sleeping
  | _ => False

/-- The thread is in `wakeup`, has looked at the slots below `i`, and has `lk`. -/
def Thread.Wakes (lk : K) (chan : Ch) (i : Nat) : Thread K Ch → Prop
  | .wakeup to_ j held => to_ = chan ∧ i ≤ j ∧ lk ∈ held
  | .visit to_ q held => to_ = chan ∧ i ≤ q.val ∧ lk ∈ held
  | _ => False

namespace State

/-- The spin locks of a CPU besides the lock of a process. -/
def held (state : State C K Ch) (c : C) : List K :=
  match state.current c with
  | some p => (state.thread p).held
  | none => []

/-- The process whose lock a CPU has. -/
def lockOf (state : State C K Ch) (c : C) : Option (Fin nproc) :=
  match state.loop c with
  | .scan _ => none
  | .look q | .back q => some q
  | .away => (state.cproc c).bind fun p => (state.thread p).lockOf p

/-- How many locks a CPU has. -/
def level (state : State C K Ch) (c : C) : Nat :=
  (state.held c).length + (state.lockOf c).toList.length

/-- The counts of a CPU are those of its locks, and its interrupts those of its thread. -/
def TunedAt (state : State C K Ch) (c : C) : Prop :=
  ∃ s, Tuned (state.cpu c) (state.level c) s ∧ ∀ p, state.current c = some p →
    (∀ why intena, state.thread p ≠ .back why intena) → s = state.setting p

/-- No sleeper is passed by a `wakeup` under the lock that it has given up. -/
def Heard (state : State C K Ch) : Prop :=
  ∀ w lk chan i, (state.thread w).Wakes lk chan i →
    ∀ q : Fin nproc, q.val < i → ¬ (state.thread q).Asleep lk chan (state.proc q)

end State

/-- What holds in every reachable state. -/
structure Sound (state : State C K Ch) : Prop where
  lock : ∀ q c, state.lock q = some c ↔ state.lockOf c = some q
  mutex : ∀ lk c, state.mutex lk = some c ↔ lk ∈ state.held c
  nodup : ∀ c, (state.held c).Nodup
  tuned : ∀ c, state.TunedAt c
  away : ∀ c, state.loop c = .away → ∃ p, state.cproc c = some p ∧ (state.thread p).Active
  once : ∀ c d p, state.current c = some p → state.current d = some p → c = d
  runs : ∀ p, (state.thread p).Active → ∃ c, state.current c = some p
  agrees : ∀ p, (state.thread p).Agrees (state.proc p)
  keeps : ∀ p, (state.thread p).Keeps (state.setting p)
  heard : state.Heard
  stopped : ∀ c reason, state.stopped c = some reason → reason = .schedLocks ∧
    ∃ p why held, state.current c = some p ∧ state.thread p = .sched why held ∧ held ≠ []

/-- Nothing has changed for a CPU and the thread that it runs. -/
structure Same (state next : State C K Ch) (d : C) : Prop where
  loop : next.loop d = state.loop d
  cproc : next.cproc d = state.cproc d
  cpu : next.cpu d = state.cpu d
  stopped : next.stopped d = state.stopped d
  thread : ∀ q, state.current d = some q → next.thread q = state.thread q ∧
    next.setting q = state.setting q

section Change

variable {state next : State C K Ch} {c d : C}

theorem Same.current (same : Same state next d) : next.current d = state.current d := by
  unfold State.current
  rw [same.loop, same.cproc]

theorem Same.held (same : Same state next d) : next.held d = state.held d := by
  unfold State.held
  rw [same.current]
  cases here : state.current d with
  | none => rfl
  | some p =>
    show (next.thread p).held = (state.thread p).held
    rw [(same.thread p here).1]

theorem Same.lockOf (same : Same state next d) : next.lockOf d = state.lockOf d := by
  unfold State.lockOf
  rw [same.loop, same.cproc]
  cases at_ : state.loop d with
  | away =>
    cases here : state.cproc d with
    | none => rfl
    | some p =>
      have runs : state.current d = some p := by rw [State.current, if_pos at_, here]
      show (next.thread p).lockOf p = (state.thread p).lockOf p
      rw [(same.thread p runs).1]
  | _ => rfl

theorem Same.tuned (same : Same state next d) (tuned : state.TunedAt d) : next.TunedAt d := by
  obtain ⟨s, counts, keeps⟩ := tuned
  refine ⟨s, ?_, fun p here apart => ?_⟩
  · rw [State.level, same.held, same.lockOf, same.cpu]
    exact counts
  · rw [same.current] at here
    rw [(same.thread p here).1] at apart
    rw [(same.thread p here).2]
    exact keeps p here apart

theorem Sound.change [DecidableEq C] (sound : Sound state) (others : ∀ d, d ≠ c → Same state next d)
    (lock : ∀ q d, next.lock q = some d ↔
      if d = c then next.lockOf c = some q else state.lock q = some d)
    (mutex : ∀ lk d, next.mutex lk = some d ↔
      if d = c then lk ∈ next.held c else state.mutex lk = some d)
    (nodup : (next.held c).Nodup) (tuned : next.TunedAt c)
    (away : next.loop c = .away → ∃ p, next.cproc c = some p ∧ (next.thread p).Active ∧
      ∀ d, d ≠ c → state.current d ≠ some p)
    (runs : ∀ p, (next.thread p).Active → next.current c = some p ∨ ∃ d, d ≠ c ∧
      state.current d = some p)
    (agrees : ∀ p, (next.thread p).Agrees (next.proc p))
    (keeps : ∀ p, (next.thread p).Keeps (next.setting p)) (heard : next.Heard)
    (stopped : ∀ reason, next.stopped c = some reason → reason = .schedLocks ∧
      ∃ p why held, next.current c = some p ∧ next.thread p = .sched why held ∧ held ≠ []) :
    Sound next := by
  have alone (d : C) (p : Fin nproc) (other : d ≠ c) (here : next.current c = some p) :
      state.current d ≠ some p := by
    unfold State.current at here
    split at here
    · next gone =>
       obtain ⟨q, runs, -, apart⟩ := away gone
       rw [runs] at here
       cases here
       exact apart d other
    · cases here
  refine ⟨fun q d => ?_, fun lk d => ?_, fun d => ?_, fun d => ?_, fun d gone => ?_,
    fun d e p one two => ?_, fun p active => ?_, agrees, keeps, heard, fun d reason panic => ?_⟩
  · rw [lock]
    by_cases same : d = c
    · subst same
      rw [if_pos rfl]
    · rw [if_neg same, (others d same).lockOf, sound.lock]
  · rw [mutex]
    by_cases same : d = c
    · subst same
      rw [if_pos rfl]
    · rw [if_neg same, (others d same).held, sound.mutex]
  · by_cases same : d = c
    · subst same
      exact nodup
    · rw [(others d same).held]
      exact sound.nodup d
  · by_cases same : d = c
    · subst same
      exact tuned
    · exact (others d same).tuned (sound.tuned d)
  · by_cases same : d = c
    · subst same
      obtain ⟨p, runs, active, -⟩ := away gone
      exact ⟨p, runs, active⟩
    · have still := others d same
      rw [still.loop] at gone
      obtain ⟨p, runs, active⟩ := sound.away d gone
      have here : state.current d = some p := by rw [State.current, if_pos gone, runs]
      refine ⟨p, by rw [still.cproc, runs], ?_⟩
      rwa [(still.thread p here).1]
  · by_cases first : d = c
    · by_cases second : e = c
      · rw [first, second]
      · subst first
        rw [(others e second).current] at two
        exact absurd two (alone e p second one)
    · rw [(others d first).current] at one
      by_cases second : e = c
      · subst second
        exact absurd one (alone d p first two)
      · rw [(others e second).current] at two
        exact sound.once d e p one two
  · rcases runs p active with here | ⟨d, other, here⟩
    · exact ⟨c, here⟩
    · exact ⟨d, (others d other).current.trans here⟩
  · by_cases same : d = c
    · subst same
      exact stopped reason panic
    · have still := others d same
      rw [still.stopped] at panic
      obtain ⟨known, p, why, held, here, thread, some⟩ := sound.stopped d reason panic
      refine ⟨known, p, why, held, still.current.trans here, ?_, some⟩
      rw [(still.thread p here).1, thread]

theorem State.loop_of_current {p : Fin nproc} (here : state.current c = some p) :
    state.loop c = .away ∧ state.cproc c = some p := by
  unfold State.current at here
  split at here
  · next gone => exact ⟨gone, here⟩
  · cases here

theorem Sound.act [DecidableEq C] (sound : Sound state) {p : Fin nproc} (thread : Thread K Ch)
    (here : state.current c = some p) (going : state.stopped c = none)
    (loop : next.loop = state.loop) (cproc : next.cproc = state.cproc)
    (stopped : next.stopped = state.stopped) (cpu : ∀ d, d ≠ c → next.cpu d = state.cpu d)
    (mine : next.thread p = thread) (active : thread.Active)
    (theirs : ∀ q, q ≠ p → ((next.thread q).Active → (state.thread q).Active) ∧
      ((state.thread q).Active → next.thread q = state.thread q))
    (setting : ∀ q, q ≠ p → next.setting q = state.setting q)
    (lock : ∀ q d, next.lock q = some d ↔
      if d = c then thread.lockOf p = some q else state.lock q = some d)
    (mutex : ∀ lk d, next.mutex lk = some d ↔
      if d = c then lk ∈ thread.held else state.mutex lk = some d)
    (nodup : thread.held.Nodup)
    (tuned : ∃ s, Tuned (next.cpu c) (thread.held.length + (thread.lockOf p).toList.length) s ∧
      ((∀ why intena, thread ≠ .back why intena) → s = next.setting p))
    (agrees : ∀ q, (next.thread q).Agrees (next.proc q))
    (keeps : ∀ q, (next.thread q).Keeps (next.setting q)) (heard : next.Heard) : Sound next := by
  obtain ⟨gone, runs⟩ := State.loop_of_current here
  have current : next.current = state.current := by
    funext d
    unfold State.current
    rw [loop, cproc]
  have apart (d : C) (other : d ≠ c) (q : Fin nproc) (there : state.current d = some q) :
      q ≠ p := by
    rintro rfl
    exact other (sound.once d c q there here)
  have held : next.held c = thread.held := by
    unfold State.held
    rw [current, here]
    show (next.thread p).held = _
    rw [mine]
  have lockOf : next.lockOf c = thread.lockOf p := by
    unfold State.lockOf
    rw [loop, cproc, gone, runs]
    show (next.thread p).lockOf p = _
    rw [mine]
  have activeOf (d : C) (q : Fin nproc) (there : state.current d = some q) :
      (state.thread q).Active := by
    obtain ⟨away, at_⟩ := State.loop_of_current there
    obtain ⟨r, known, active⟩ := sound.away d away
    rw [at_] at known
    cases known
    exact active
  refine sound.change (c := c) (fun d other => ⟨by rw [loop], by rw [cproc], cpu d other,
    by rw [stopped], fun q there => ?_⟩) ?_ ?_ ?_ ?_ (fun _ => ?_) (fun q moves => ?_) agrees keeps
    heard fun reason panic => ?_
  · have different := apart d other q there
    exact ⟨(theirs q different).2 (activeOf d q there), setting q different⟩
  · rw [lockOf]
    exact lock
  · rw [held]
    exact mutex
  · rw [held]
    exact nodup
  · obtain ⟨s, counts, keeps⟩ := tuned
    refine ⟨s, ?_, fun q there notBack => ?_⟩
    · rw [State.level, held, lockOf]
      exact counts
    · rw [current, here] at there
      cases there
      rw [mine] at notBack
      exact keeps notBack
  · refine ⟨p, by rw [cproc, runs], by rwa [mine], fun d other there => ?_⟩
    exact apart d other p there rfl
  · by_cases same : q = p
    · subst same
      exact .inl (current ▸ here)
    · obtain ⟨d, there⟩ := sound.runs q ((theirs q same).1 moves)
      refine .inr ⟨d, ?_, there⟩
      rintro rfl
      rw [here] at there
      exact same (Option.some.inj there).symm
  · rw [stopped, going] at panic
    cases panic

/-- The process whose lock the scheduler of a CPU has. -/
def Loop.lockOf : Loop → Option (Fin nproc)
  | .look q | .back q => some q
  | _ => none

variable [DecidableEq C]

/-- A step of a CPU behind which it is in its scheduler. -/
theorem Sound.spin (sound : Sound state) (going : state.stopped c = none) {l : Loop}
    (stays : l ≠ .away) (bare : ∀ lk, state.mutex lk ≠ some c)
    (loop : next.loop = update state.loop c l)
    (cproc : ∀ d, d ≠ c → next.cproc d = state.cproc d) (stopped : next.stopped = state.stopped)
    (cpu : ∀ d, d ≠ c → next.cpu d = state.cpu d) (mutex : next.mutex = state.mutex)
    (setting : next.setting = state.setting)
    (lock : ∀ q d, next.lock q = some d ↔
      if d = c then l.lockOf = some q else state.lock q = some d)
    (tuned : ∃ s, Tuned (next.cpu c) l.lockOf.toList.length s)
    (theirs : ∀ q, (next.thread q).Active → state.current c ≠ some q ∧ (state.thread q).Active)
    (same : ∀ q, state.current c ≠ some q → next.thread q = state.thread q)
    (agrees : ∀ q, (next.thread q).Agrees (next.proc q))
    (keeps : ∀ q, (next.thread q).Keeps (next.setting q)) (heard : next.Heard) : Sound next := by
  have at_ : next.loop c = l := by rw [loop, update_self]
  have current : next.current c = none := by rw [State.current, at_, if_neg stays]
  have held : next.held c = [] := by rw [State.held, current]
  have lockOf : next.lockOf c = l.lockOf := by
    rw [State.lockOf, at_]
    cases l with
    | away => exact absurd rfl stays
    | _ => rfl
  refine sound.change (c := c) (fun d other => ⟨?_, cproc d other, cpu d other, by rw [stopped],
    fun q there => ⟨same q fun here => ?_, by rw [setting]⟩⟩) ?_ (fun lk d => ?_) ?_ ?_
    (fun gone => absurd (at_.symm.trans gone) stays) (fun q moves => ?_) agrees keeps heard
    fun reason panic => ?_
  · rw [loop, update_of_ne other]
  · exact other (sound.once d c q there here)
  · rw [lockOf]
    exact lock
  · rw [mutex, held]
    by_cases mine : d = c
    · subst mine
      simp [bare lk]
    · rw [if_neg mine]
  · rw [held]
    exact List.nodup_nil
  · obtain ⟨s, counts⟩ := tuned
    refine ⟨s, ?_, fun p there => ?_⟩
    · rw [State.level, held, lockOf, List.length_nil, Nat.zero_add]
      exact counts
    · rw [current] at there
      cases there
  · obtain ⟨apart, active⟩ := theirs q moves
    obtain ⟨d, there⟩ := sound.runs q active
    exact .inr ⟨d, fun mine => apart (mine ▸ there), there⟩
  · rw [stopped, going] at panic
    cases panic

end Change

end Invariant

/-! ## Locks -/

section Owners

variable {A C : Type} [DecidableEq C] {owner : A → Option C} {c : C} {before after : A → Prop}

theorem owner_keep (own : ∀ a, owner a = some c ↔ before a) (same : ∀ a, after a ↔ before a)
    (a : A) (d : C) : owner a = some d ↔ if d = c then after a else owner a = some d := by
  by_cases here : d = c
  · subst here
    rw [if_pos rfl, same, own]
  · rw [if_neg here]

variable [DecidableEq A] {a : A}

theorem owner_take (own : ∀ a, owner a = some c ↔ before a) (free : owner a = none)
    (more : ∀ b, after b ↔ b = a ∨ before b) (b : A) (d : C) :
    update owner a (some c) b = some d ↔
      if d = c then after b else owner b = some d := by
  by_cases this : b = a
  · subst this
    rw [update_self, more, free]
    by_cases here : d = c
    · simp [here]
    · simp [here, Ne.symm here]
  · rw [update_of_ne this, more]
    by_cases here : d = c
    · subst here
      simp [this, own]
    · rw [if_neg here]

theorem owner_drop (own : ∀ a, owner a = some c ↔ before a) (mine : before a)
    (fewer : ∀ b, after b ↔ b ≠ a ∧ before b) (b : A) (d : C) :
    update owner a none b = some d ↔ if d = c then after b else owner b = some d := by
  by_cases this : b = a
  · subst this
    rw [update_self, fewer, (own b).mpr mine]
    by_cases here : d = c
    · simp [here]
    · simp [here, Ne.symm here]
  · rw [update_of_ne this, fewer]
    by_cases here : d = c
    · subst here
      simp [this, own]
    · rw [if_neg here]

end Owners

end Ev6.Processes.Scheduler
