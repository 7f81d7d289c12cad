import Ev6.Files.Tables
import Ev6.Support.LabelledSystem

/-!
# Waiting for a child that exits

`exit` looks at its parent, lets its lock go, and takes the lock of that parent before its
own again; in between the parent may exit itself and give the child to init. `wait` reads
`np->parent` without a lock. A step is what is done under one acquired lock, or one read
without a lock; the locks that are held from step to step are part of the state.
-/

namespace Ev6.Processes.WaitExit

open Function (update)
open Support Files

/-! ## The model -/

/-- `p->chan`: nothing, the process itself, or something else. -/
inductive Chan where
  | none
  | proc (q : Fin nproc)
  | other
deriving DecidableEq

/-- A slot of `proc[]`. -/
structure Proc where
  state : ProcState
  parent : Option (Fin nproc)
  chan : Chan
  killed : Bool
  xstate : Int
  pid : Int
deriving DecidableEq

/-- What `freeproc` leaves of a slot. -/
def Proc.freed : Proc := ⟨.unused, none, .none, false, 0, 0⟩

/-- The address given to `wait`: 0, one that can be written, or one that cannot. -/
inductive Addr where
  | null
  | writable
  | unwritable
deriving DecidableEq

/-- Where a process is in `exit`. -/
inductive ExitPhase where
  /-- The files are closed; init is woken next. -/
  | wakeInit
  /-- The parent is read next. -/
  | sample
  /-- The lock of the parent is taken next. -/
  | parent (o : Fin nproc)
  /-- The own lock is taken next. -/
  | self (o : Fin nproc)
  /-- `reparent` looks at a slot next. -/
  | scan (o : Fin nproc) (i : Nat)
  /-- `reparent` has found a child and gives it to init next. -/
  | give (o : Fin nproc) (i : Fin nproc)
  /-- The process is a zombie; the scheduler releases its lock next. -/
  | last
  | gone
deriving DecidableEq

/-- Where a process is in `wait`. -/
inductive WaitPhase where
  /-- A slot is looked at next. -/
  | scan (i : Nat) (havekids : Bool)
  /-- A child has been found and is locked next. -/
  | check (i : Fin nproc)
  | asleep
deriving DecidableEq

/-- Where a process is. -/
inductive Stage where
  | user
  /-- `fork` holds the lock of a slot; `placed` when it has set the parent. -/
  | fork (q : Fin nproc) (placed : Bool)
  | exit (status : Int) (phase : ExitPhase)
  | wait (addr : Addr) (phase : WaitPhase)
deriving DecidableEq

/-- What a call of `wait` returned, what it stored, and the slot that it freed. -/
structure Answer where
  p : Fin nproc
  returned : Int
  stored : Option Int
  freed : Option (Fin nproc)
deriving DecidableEq

/-- The process table, who holds the lock of each slot, where the processes are, and what
`wait` has returned. The other fields are for reasoning only: the processes are numbered in
the order in which they are made, `maker` is the number of the process that made the one in
a slot, and `left` has the numbers of those that have called `exit`. -/
structure State where
  proc : Fin nproc → Proc
  lock : Fin nproc → Option (Fin nproc)
  stage : Fin nproc → Stage
  nextpid : Int
  answers : List Answer
  number : Fin nproc → Nat
  maker : Fin nproc → Nat
  made : Nat
  left : List Nat

namespace State

/-- Change a slot. -/
def modify (state : State) (q : Fin nproc) (change : Proc → Proc) : State :=
  { state with proc := update state.proc q (change (state.proc q)) }

/-- `acquire`. -/
def take (state : State) (q p : Fin nproc) : State :=
  { state with lock := update state.lock q (some p) }

/-- `release`. -/
def drop (state : State) (q : Fin nproc) : State :=
  { state with lock := update state.lock q none }

def goto (state : State) (p : Fin nproc) (stage : Stage) : State :=
  { state with stage := update state.stage p stage }

/-- `wait` returns. -/
def answer (state : State) (answer : Answer) : State :=
  { state with answers := state.answers ++ [answer] }

end State

/-- `wakeup1`. -/
def wakeup1 (q : Fin nproc) (proc : Proc) : Proc :=
  if proc.chan = .proc q ∧ proc.state = .sleeping then { proc with state := .runnable } else proc

/-- A sleeper is made runnable. -/
def rouse (proc : Proc) : Proc :=
  if proc.state = .sleeping then { proc with state := .runnable } else proc

/-- The next step of `fork`, when it does not fail. -/
def forkStep (state : State) (p q : Fin nproc) : Bool → State
  | false =>
    { state.modify q fun proc => { proc with parent := some p } with
      number := update state.number q state.made
      maker := update state.maker q (state.number p)
      made := state.made + 1 }.goto p (.fork q true)
  | true => ((state.modify q fun proc => { proc with state := .runnable }).drop q).goto p .user

/-- The next step of `exit`. -/
def exitStep (state : State) (p : Fin nproc) (status : Int) : ExitPhase → Option State
  | .wakeInit =>
    if state.lock 0 = none then
      some ((state.modify 0 (wakeup1 0)).goto p (.exit status .sample))
    else none
  | .sample =>
    if state.lock p = none then
      (state.proc p).parent.map fun o => state.goto p (.exit status (.parent o))
    else none
  | .parent o =>
    if state.lock o = none then some ((state.take o p).goto p (.exit status (.self o))) else none
  | .self o =>
    if state.lock p = none then some ((state.take p p).goto p (.exit status (.scan o 0))) else none
  | .scan o i =>
    if inside : i < nproc then
      if (state.proc ⟨i, inside⟩).parent = some p then
        some (state.goto p (.exit status (.give o ⟨i, inside⟩)))
      else some (state.goto p (.exit status (.scan o (i + 1))))
    else
      some ((((state.modify o (wakeup1 o)).modify p fun proc =>
        { proc with xstate := status, state := .zombie }).drop o).goto p (.exit status .last))
  | .give o i =>
    if state.lock i = none then
      some ((state.modify i fun proc => { proc with parent := some 0 }).goto p
        (.exit status (.scan o (i + 1))))
    else none
  | .last => some ((state.drop p).goto p (.exit status .gone))
  | .gone => none

/-- The next step of `wait`. -/
def waitStep (state : State) (p : Fin nproc) (addr : Addr) : WaitPhase → Option State
  | .scan i havekids =>
    if inside : i < nproc then
      if (state.proc ⟨i, inside⟩).parent = some p then
        some (state.goto p (.wait addr (.check ⟨i, inside⟩)))
      else some (state.goto p (.wait addr (.scan (i + 1) havekids)))
    else if havekids = false ∨ (state.proc p).killed = true then
      some (((state.drop p).goto p .user).answer ⟨p, -1, none, none⟩)
    else
      some (((state.modify p fun proc => { proc with state := .sleeping, chan := .proc p }).drop
        p).goto p (.wait addr .asleep))
  | .check i =>
    if state.lock i = none then
      if (state.proc i).state = .zombie then
        if addr = .unwritable then
          some (((state.drop p).goto p .user).answer ⟨p, -1, none, none⟩)
        else
          some (((((state.modify i fun _ => .freed).goto i .user).drop p).goto p .user).answer
            ⟨p, (state.proc i).pid, if addr = .writable then some (state.proc i).xstate else none,
              some i⟩)
      else some (state.goto p (.wait addr (.scan (i + 1) true)))
    else none
  | .asleep => none

/-- A process is in none of the three calls. -/
def Idle (state : State) (p : Fin nproc) : Prop :=
  (state.proc p).state = .running ∧ state.stage p = .user

instance (state : State) (p : Fin nproc) : Decidable (Idle state p) := by
  unfold Idle
  infer_instance

/-- A step of the system. -/
inductive Label where
  /-- `allocproc` in the `fork` of `p` finds the unused slot `q` and calls `allocpid`. -/
  | fork (p q : Fin nproc)
  /-- `allocproc` finds no page, or `uvmcopy` fails and the slot is freed. -/
  | forkFails (p : Fin nproc) (freed : Bool)
  | exit (p : Fin nproc) (status : Int)
  | wait (p : Fin nproc) (addr : Addr)
  /-- The next step of the call that the process is in. -/
  | act (p : Fin nproc)
  /-- The scheduler chooses a process. One that slept in `wait` keeps its lock. -/
  | run (p : Fin nproc)
  /-- A process that holds no lock is interrupted. -/
  | yield (p : Fin nproc)
  /-- A process sleeps on something else. -/
  | sleep (p : Fin nproc)
  /-- `wakeup` of something else. -/
  | wakeup (q : Fin nproc)
  /-- `kill` at its slot. -/
  | kill (q : Fin nproc)

/-- One step, if it can be taken. -/
def step (state : State) : Label → Option State
  | .fork p q =>
    if Idle state p ∧ (state.proc q).state = .unused ∧ state.lock q = none then
      some ((({ state with nextpid := state.nextpid + 1 }.modify q fun proc =>
        { proc with pid := state.nextpid }).take q p).goto p (.fork q false))
    else none
  | .forkFails p freed =>
    match state.stage p with
    | .fork q false =>
      some (((state.modify q fun proc => if freed then .freed else proc).drop q).goto p .user)
    | _ => none
  | .exit p status =>
    if Idle state p ∧ p ≠ 0 then
      some ({ state with left := state.number p :: state.left }.goto p (.exit status .wakeInit))
    else none
  | .wait p addr =>
    if Idle state p ∧ state.lock p = none then
      some ((state.take p p).goto p (.wait addr (.scan 0 false)))
    else none
  | .act p =>
    match state.stage p with
    | .user => none
    | .fork q placed =>
      if (state.proc p).state = .running then some (forkStep state p q placed) else none
    | .exit status phase =>
      if (state.proc p).state = .running ∨ phase = .last then exitStep state p status phase
      else none
    | .wait addr phase =>
      if (state.proc p).state = .running then waitStep state p addr phase else none
  | .run p =>
    if (state.proc p).state = .runnable ∧ state.lock p = none then
      match state.stage p with
      | .wait addr .asleep =>
        some (((state.modify p fun proc => { proc with state := .running, chan := .none }).take
          p p).goto p (.wait addr (.scan 0 false)))
      | _ => some (state.modify p fun proc => { proc with state := .running, chan := .none })
    else none
  | .yield p =>
    if (state.proc p).state = .running ∧ state.lock p = none ∧ ∀ q, state.lock q ≠ some p then
      some (state.modify p fun proc => { proc with state := .runnable })
    else none
  | .sleep p =>
    if Idle state p ∧ state.lock p = none then
      some (state.modify p fun proc => { proc with state := .sleeping, chan := .other })
    else none
  | .wakeup q =>
    if state.lock q = none ∧ (state.proc q).chan = .other then some (state.modify q rouse)
    else none
  | .kill q =>
    if state.lock q = none then
      some (state.modify q fun proc => { rouse proc with killed := true })
    else none

/-- The state after `userinit`, with init in the slot 0. -/
def boot : State where
  proc q := if q = 0 then ⟨.runnable, none, .none, false, 0, 1⟩ else .freed
  lock _ := none
  stage _ := .user
  nextpid := 2
  answers := []
  number _ := 0
  maker _ := 0
  made := 1
  left := []

/-- Every order of steps after `userinit`. -/
def system : LabelledSystem State Label := .ofFunction (· = boot) step

/-! ## What is asked for -/

/-- A zombie whose slot is freed goes to a wait of its parent, which returns its pid and
has stored its status if it was to be stored. -/
def Collected (state next : State) (q : Fin nproc) : Prop :=
  ∃ p addr, (state.proc q).parent = some p ∧ state.stage p = .wait addr (.check q) ∧
    addr ≠ .unwritable ∧ next.proc q = .freed ∧
    next.answers = state.answers ++
      [⟨p, (state.proc q).pid, if addr = .writable then some (state.proc q).xstate else none,
        some q⟩]

/-- A wait that fails has freed nothing, and its process has no child or is killed, or the
status of a zombie could not be stored. -/
def Excused (state next : State) (p : Fin nproc) : Prop :=
  next.proc = state.proc ∧
    ((∀ q, (state.proc q).parent ≠ some p) ∨ (state.proc p).killed = true ∨
      ∃ i, state.stage p = .wait .unwritable (.check i) ∧ (state.proc i).state = .zombie ∧
        (state.proc i).parent = some p)

/-- What a step does for the zombies and the calls of `wait`. -/
structure Settles (state next : State) : Prop where
  collected : ∀ q, (state.proc q).state = .zombie → (next.proc q).state ≠ .zombie →
    Collected state next q
  freed : ∀ answer q, next.answers = state.answers ++ [answer] → answer.freed = some q →
    (state.proc q).state = .zombie ∧ Collected state next q
  failed : ∀ answer, next.answers = state.answers ++ [answer] → answer.freed = none →
    answer.returned = -1 ∧ Excused state next answer.p

/-- Each process but init has a parent: the process that made it, or init when that one has
called `exit`. -/
def Kept (state : State) : Prop :=
  ∀ q, (state.proc q).state ≠ .unused → q ≠ 0 → ∃ p, (state.proc q).parent = some p ∧
    (state.proc p).state ≠ .unused ∧
    (state.number p = state.maker q ∨ p = 0 ∧ state.maker q ∈ state.left)

/-- No parent but init sleeps in `wait` beside a zombie. -/
def Awake (state : State) : Prop :=
  ∀ p q addr, p ≠ 0 → state.stage p = .wait addr .asleep → (state.proc p).state = .sleeping →
    (state.proc q).parent = some p → (state.proc q).state ≠ .zombie

end Ev6.Processes.WaitExit
