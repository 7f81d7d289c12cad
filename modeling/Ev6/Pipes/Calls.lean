import Ev6.FileSystem.Streams
import Ev6.Support.LabelledSystem
import Ev6.Support.RingBuffer

/-!
# Pipes with any number of readers and writers

A call of `pipewrite` or `piperead` holds the lock of the pipe except while it sleeps. A
pass is one turn of its loop. The buffers of the callers are mapped: `copyin` and
`copyout` succeed. An end of the pipe is closed when its file has no reference left, so no
call on that end is under way then.
-/

namespace Ev6.Pipes

open Support FileSystem

/-! ## The model -/

inductive Op where
  | write
  | read
deriving DecidableEq

/-- Where a call is: at the test of the loop that waits for the other side, past the test of
`killed` and about to sleep, asleep, made runnable, or in the loop that copies. -/
inductive Phase where
  | wait
  | drowsy
  | asleep
  | woken
  | copy
deriving DecidableEq

/-- A call under way: the bytes asked for, the bytes moved, and the buffer of a writer. -/
structure Call where
  op : Op
  n : Int
  i : Nat
  source : Nat → UInt8
  phase : Phase

/-- A value that a call has returned. -/
structure Answer where
  p : Fin nproc
  op : Op
  n : Int
  returned : Int
deriving DecidableEq

/-- The pipe, its lock, the calls, the killed processes, and the bytes put into the pipe and
taken out of it, in the order of the lock. -/
structure State where
  pipe : Pipe
  lock : Option (Fin nproc)
  calls : Fin nproc → Option Call
  killed : Fin nproc → Bool
  accepted : List UInt8
  delivered : List UInt8
  answers : List Answer

/-- The pipe is full. -/
def Full (pipe : Pipe) : Prop := pipe.nwrite = pipe.nread + UInt32.ofNat pipesize

instance (pipe : Pipe) : Decidable (Full pipe) := by
  unfold Full
  infer_instance

/-- A sleeper in the given call is made runnable. -/
def Call.wakeIf (op : Op) (call : Call) : Call :=
  if call.op = op ∧ call.phase = .asleep then { call with phase := .woken } else call

namespace State

/-- The call of one process changes. -/
def setCall (state : State) (p : Fin nproc) (call : Option Call) : State :=
  { state with calls := Function.update state.calls p call }

/-- `wakeup(&pi->nread)` wakes the readers, `wakeup(&pi->nwrite)` the writers. -/
def wakeup (state : State) (op : Op) : State :=
  { state with calls := fun p => (state.calls p).map (·.wakeIf op) }

/-- The call lets the lock go and returns. -/
def leave (state : State) (p : Fin nproc) (call : Call) (returned : Int) : State :=
  { state.setCall p none with
    lock := none
    answers := state.answers ++ [⟨p, call.op, call.n, returned⟩] }

/-- `sleep`: the lock is let go and the process sleeps. -/
def sleep (state : State) (p : Fin nproc) (call : Call) : State :=
  { state.setCall p (some { call with phase := .asleep }) with lock := none }

/-- One turn of the loops of `pipewrite`. -/
def pipewrite (state : State) (p : Fin nproc) (call : Call) : State :=
  if call.n ≤ call.i then (state.wakeup .read).leave p call call.n
  else if Full state.pipe then
    if state.pipe.readopen = false ∨ state.killed p = true then state.leave p call (-1)
    else (state.wakeup .read).setCall p (some { call with phase := .drowsy })
  else
    { state.setCall p (some { call with i := call.i + 1 }) with
      pipe := state.pipe.push (call.source call.i)
      accepted := state.accepted ++ [call.source call.i] }

/-- One turn of the loop of `piperead` that waits for data. -/
def pipereadWait (state : State) (p : Fin nproc) (call : Call) : State :=
  if state.pipe.nread = state.pipe.nwrite ∧ state.pipe.writeopen = true then
    if state.killed p then state.leave p call (-1)
    else state.setCall p (some { call with phase := .drowsy })
  else state.setCall p (some { call with phase := .copy })

/-- One turn of the loop of `piperead` that copies. -/
def pipereadCopy (state : State) (p : Fin nproc) (call : Call) : State :=
  if call.n ≤ call.i ∨ state.pipe.nread = state.pipe.nwrite then
    (state.wakeup .write).leave p call call.i
  else
    { state.setCall p (some { call with i := call.i + 1 }) with
      pipe := { state.pipe with nread := state.pipe.nread + 1 }
      delivered := state.delivered ++ [state.pipe.data (state.pipe.nread.toNat % pipesize)] }

/-- The next turn of a call that holds the lock. -/
def turn (state : State) (p : Fin nproc) (call : Call) : Option State :=
  match call.op, call.phase with
  | .write, .wait => some (state.pipewrite p call)
  | .read, .wait => some (state.pipereadWait p call)
  | .read, .copy => some (state.pipereadCopy p call)
  | _, .drowsy => some (state.sleep p call)
  | _, _ => none

/-- `pipeclose`. -/
def pipeclose (state : State) : Op → State
  | .write => { state with pipe := { state.pipe with writeopen := false } }.wakeup .read
  | .read => { state with pipe := { state.pipe with readopen := false } }.wakeup .write

/-- The end of the pipe that a call uses is open. -/
def Open (state : State) : Op → Prop
  | .write => state.pipe.writeopen = true
  | .read => state.pipe.readopen = true

instance (state : State) (op : Op) : Decidable (state.Open op) := by
  cases op <;> unfold Open <;> infer_instance

/-- No call uses the end. -/
def Unused (state : State) (op : Op) : Prop := ∀ p, ∀ call ∈ state.calls p, call.op ≠ op

instance (state : State) (op : Op) : Decidable (state.Unused op) := by
  unfold Unused
  infer_instance

end State

/-- A step of the system. -/
inductive Label where
  /-- A call is made, and gets the lock. -/
  | call (p : Fin nproc) (op : Op) (n : Int) (source : Nat → UInt8)
  /-- The next turn of the call that holds the lock. -/
  | turn (p : Fin nproc)
  /-- `sleep` returns with the lock. -/
  | resume (p : Fin nproc)
  /-- The last file of an end is closed. -/
  | close (op : Op)
  /-- `kill`. -/
  | kill (p : Fin nproc)
  /-- The slot of a process that is in no call goes to a new process. -/
  | renew (p : Fin nproc)

/-- One step, if it can be taken. -/
def step (state : State) : Label → Option State
  | .call p op n source =>
    if state.lock = none ∧ state.calls p = none ∧ state.Open op then
      some { state.setCall p (some ⟨op, n, 0, source, .wait⟩) with lock := some p }
    else none
  | .turn p =>
    if state.lock = some p then (state.calls p).bind (state.turn p) else none
  | .resume p =>
    if state.lock = none then
      (state.calls p).bind fun call =>
        if call.phase = .woken then
          some { state.setCall p (some { call with phase := .wait }) with lock := some p }
        else none
    else none
  | .close op =>
    if state.lock = none ∧ state.Open op ∧ state.Unused op then some (state.pipeclose op)
    else none
  | .kill p =>
    some { state with
      killed := Function.update state.killed p true
      calls := Function.update state.calls p
        ((state.calls p).map fun call => call.wakeIf call.op) }
  | .renew p =>
    if state.calls p = none then
      some { state with killed := Function.update state.killed p false }
    else none

/-- What `pipealloc` leaves. The cells hold what was in the page. -/
def Fresh (state : State) : Prop :=
  ∃ data killed, state =
    ⟨⟨data, 0, 0, true, true⟩, none, fun _ => none, killed, [], [], []⟩

/-- Every order of steps. -/
def system : LabelledSystem State Label := .ofFunction Fresh step

/-! ## What is asked for -/

/-- What a call may sleep for: a reader while the pipe is empty and has a writer, a writer
while the pipe is full and has a reader. -/
def Reason (pipe : Pipe) : Op → Prop
  | .read => pipe.nread = pipe.nwrite ∧ pipe.writeopen = true
  | .write => Full pipe ∧ pipe.readopen = true

/-- The sleepers of a pipe whose lock is free have reason to sleep. -/
def Awaited (state : State) : Prop :=
  state.lock = none → ∀ p, ∀ call ∈ state.calls p, call.phase = .asleep →
    Reason state.pipe call.op

/-- A process sleeps in the call. -/
def Sleeps (state : State) (op : Op) : Prop :=
  ∃ p, ∃ call ∈ state.calls p, call.op = op ∧ call.phase = .asleep

instance (state : State) (op : Op) : Decidable (Sleeps state op) := by
  unfold Sleeps
  infer_instance

/-- The call of a writer finds the pipe full and gives up. -/
def GivesUp (state : State) (p : Fin nproc) : Prop :=
  ∃ call ∈ state.calls p, call.op = .write ∧ call.phase = .wait ∧ call.i < call.n ∧
    Full state.pipe ∧ (state.pipe.readopen = false ∨ state.killed p = true)

instance (state : State) (p : Fin nproc) : Decidable (GivesUp state p) := by
  unfold GivesUp
  infer_instance

/-- When a writer gives up, no reader is asleep. -/
def Heard (state : State) : Label → Prop
  | .turn p => GivesUp state p → ¬Sleeps state .read
  | _ => True

instance (state : State) (label : Label) : Decidable (Heard state label) := by
  cases label <;> unfold Heard <;> infer_instance

end Ev6.Pipes
