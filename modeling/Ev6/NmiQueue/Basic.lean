import Ev6.Kernel.Param
import Ev6.Support.LabelledSystem
import Mathlib.Logic.Function.Basic

/-!
# The NMI queue

`mem_nmi_handle_first` and `mem_nmi_handle_follow` of `nmi_handle.c`, with the loop
of `mlist_tracker` and `ret_and_search_nmiqueue` of `mlist_tracker.c`. The process
that meets the first memory error leads: it handles the errors in the queue, the
first slot of which is also the mailbox of their results. A process that meets
an error meanwhile follows: it queues the error and polls the mailbox. Every
section under `nmi_queue_lock` is one step, and so is every read without it.
-/

namespace Ev6.NmiQueue

open Function (update)
open Support

/-- `SYSCALL_SUCCESS`: the least result of a recovery. -/
def syscallSuccess : Nat := 0x2

/-- `RETURN_TO_KERNEL`: the greatest result of a recovery. -/
def returnToKernel : Nat := 0xa

/-- `struct nmi_info`. -/
structure NmiInfo where
  addr : Nat
  pid : Nat
  sp : Nat
  s0 : Nat
deriving DecidableEq

/-- A slot that is not used. -/
def NmiInfo.zero : NmiInfo := ⟨0, 0, 0, 0⟩

/-- The slots of `nmi_queue`. -/
abbrev Queue := Nat → NmiInfo

/-- A memory error: the broken address and the process that met it. -/
structure Error where
  addr : Nat
  pid : Nat
deriving DecidableEq

/-- The error of a slot. -/
def NmiInfo.error (info : NmiInfo) : Error := ⟨info.addr, info.pid⟩

/-- An error that the leader has handled, with its result. -/
structure Handled where
  error : Error
  result : Nat
  irq : Nat
deriving DecidableEq

/-- A result that a process has received. -/
structure Receipt where
  pid : Nat
  result : Nat
  irq : Nat
deriving DecidableEq

/-- What the owner of a handled error should receive. -/
def Handled.receipt (handled : Handled) : Receipt :=
  ⟨handled.error.pid, handled.result, handled.irq⟩

/-- Where the leader stands. -/
inductive Leading where
  /-- At `next_nmi_continue`. -/
  | load
  /-- In a recovery handler. -/
  | handle (broken : Error)
  /-- Before the test whether the result is its own. -/
  | test
  /-- Waiting for the owner to clear the slot. -/
  | wait
  /-- Before the queue is shifted. -/
  | shift
  /-- Before `return nmi_queue[0].addr`. -/
  | look
  /-- In `cleanup_after_recovery`. -/
  | cleanup
deriving DecidableEq

/-- Where a follower stands. -/
inductive Following where
  /-- Polling the first slot. -/
  | polling
  /-- Before it clears the first slot. -/
  | clearing
deriving DecidableEq

/-- The queue, the leader and the followers by their pids. No function reads the
last three fields: the errors accepted into the queue, those handled, and the
results received, all in order. -/
structure State where
  queue : Option Queue
  leader : Nat
  phase : Leading
  following : Nat → Option Following
  stopped : Bool
  accepted : List Error
  handled : List Handled
  received : List Receipt

/-- The loop of `ret_and_search_nmiqueue` that moves the entries up. -/
def shiftFrom : Nat → Nat → Queue → Queue
  | 0, _, queue => queue
  | count + 1, i, queue =>
    let queue := update queue i (queue (i + 1))
    if (queue (i + 1)).addr = 0 ∧ (queue (i + 1)).pid = 0 then queue
    else shiftFrom count (i + 1) queue

/-- The queue after `ret_and_search_nmiqueue`. -/
def shiftQueue (queue : Queue) : Queue := shiftFrom (nmiQueueSize - 1) 0 queue

/-- The slot in which `mem_nmi_handle_follow` puts an error. -/
def freeSlot (queue : Queue) : Option Nat :=
  (List.range' 1 (nmiQueueSize - 1)).find? fun i => (queue i).addr = 0

/-- A process meets an error. Without a queue it leads; when every slot is used
and the last one is for another address, the kernel panics. -/
def arriveStep (state : State) (info : NmiInfo) : State :=
  match state.queue with
  | none =>
    { state with
      queue := some (update (fun _ => .zero) 0 info)
      leader := info.pid
      phase := .load
      accepted := state.accepted ++ [info.error] }
  | some queue =>
    match freeSlot queue with
    | some i =>
      { state with
        queue := some (update queue i info)
        following := update state.following info.pid (some .polling)
        accepted := state.accepted ++ [info.error] }
    | none =>
      if (queue (nmiQueueSize - 1)).addr ≠ info.addr then { state with stopped := true }
      else { state with following := update state.following info.pid (some .polling) }

/-- The leader goes on, outside the recovery handlers. -/
def leadStep (state : State) (queue : Queue) : Option State :=
  match state.phase with
  | .load => some { state with phase := .handle (queue 0).error }
  | .handle _ => none
  | .test => some { state with phase := if (queue 0).pid ≠ state.leader then .wait else .shift }
  | .wait => some { state with phase := if (queue 0).addr = 0 then .shift else .wait }
  | .shift => some { state with queue := some (shiftQueue queue), phase := .look }
  | .look => some { state with phase := if (queue 0).addr ≠ 0 then .load else .cleanup }
  | .cleanup => some { state with queue := none }

/-- A recovery handler returns, and the leader puts the result into the first slot.
It notes the result as its own when the error is. -/
def finishStep (state : State) (queue : Queue) (result irq : Nat) : Option State :=
  match state.phase with
  | .handle broken =>
    some { state with
      queue := some (update queue 0 { queue 0 with sp := result, s0 := irq })
      phase := .test
      handled := state.handled ++ [⟨broken, result, irq⟩]
      received :=
        if (queue 0).pid = state.leader then state.received ++ [⟨state.leader, result, irq⟩]
        else state.received }
  | _ => none

/-- A recovery handler gives up. -/
def failStep (state : State) : Option State :=
  match state.phase with
  | .handle _ => some { state with stopped := true }
  | _ => none

/-- A follower looks for its result. -/
def pollStep (state : State) (queue : Queue) (pid : Nat) : Option State :=
  if state.following pid = some .polling then
    if (queue 0).pid = pid ∧ syscallSuccess ≤ (queue 0).sp ∧ (queue 0).sp ≤ returnToKernel then
      some { state with
        following := update state.following pid (some .clearing)
        received := state.received ++ [⟨pid, (queue 0).sp, (queue 0).s0⟩] }
    else some state
  else none

/-- A follower that has received its result clears the first slot. -/
def clearStep (state : State) (queue : Queue) (pid : Nat) : Option State :=
  if state.following pid = some .clearing then
    some { state with
      queue := some (update queue 0 .zero)
      following := update state.following pid none }
  else none

/-- The steps of the processes. -/
inductive Label where
  | arrive (info : NmiInfo)
  | lead
  | finish (result irq : Nat)
  | fail
  | poll (pid : Nat)
  | clear (pid : Nat)
deriving DecidableEq

/-- One step. A follower that polls when the leader has given up the queue calls
`mem_nmi_handle_first` with `nmi_queue_lock` held, which it cannot acquire again. -/
def nmiStep (state : State) (label : Label) : Option State :=
  if state.stopped then none
  else
    match label, state.queue with
    | .arrive info, _ => some (arriveStep state info)
    | .lead, some queue => leadStep state queue
    | .finish result irq, some queue => finishStep state queue result irq
    | .fail, some _ => failStep state
    | .poll pid, some queue => pollStep state queue pid
    | .clear pid, some queue => clearStep state queue pid
    | _, none => none

/-- What the processes provide: a process that meets an error takes no part in a
recovery yet, and its stack pointer is no result; handlers return results. -/
def Given (state : State) : Label → Prop
  | .arrive info =>
    info.addr ≠ 0 ∧ info.pid ≠ 0 ∧ returnToKernel < info.sp ∧
      state.following info.pid = none ∧ (state.queue = none ∨ info.pid ≠ state.leader)
  | .finish result _ => syscallSuccess ≤ result ∧ result ≤ returnToKernel
  | _ => True

instance (state : State) (label : Label) : Decidable (Given state label) := by
  cases label <;> unfold Given <;> infer_instance

/-- No process has met an error yet. -/
structure Quiet (state : State) : Prop where
  queue : state.queue = none
  following : ∀ pid, state.following pid = none
  running : state.stopped = false
  accepted : state.accepted = []
  handled : state.handled = []
  received : state.received = []

/-- The interleavings of a leader and its followers. -/
def nmiSystem : LabelledSystem State Label :=
  (LabelledSystem.ofFunction Quiet nmiStep).guarded Given

/-- The condition on the state before a step: an error finds one of the slots free
before the last one, and the leader has not found the queue empty after it was
shifted. -/
def Sound (state : State) : Label → Prop
  | .arrive _ =>
    ∀ queue, state.queue = some queue →
      (∃ i, 1 ≤ i ∧ i < nmiQueueSize - 1 ∧ (queue i).addr = 0) ∧
      ¬((queue 0).addr = 0 ∧ (state.phase = .look ∨ state.phase = .cleanup))
  | _ => True

/-- The errors are handled in the order in which they were accepted, each once, and
each result is received by its owner alone; a result that is still due, and the
errors that wait, have an owner that takes part, and no process polls without
one of these. -/
structure Orderly (state : State) (waiting : List Error) (due : List Handled) : Prop where
  order : state.accepted = state.handled.map Handled.error ++ waiting
  results : state.handled.map Handled.receipt = state.received ++ due.map Handled.receipt
  single : due.length ≤ 1
  owners : ∀ error ∈ waiting, error.pid = state.leader ∨
    state.following error.pid = some .polling
  owner : ∀ result ∈ due, state.following result.error.pid = some .polling
  polling : ∀ pid, state.following pid = some .polling →
    pid ∈ waiting.map Error.pid ++ due.map (·.error.pid)
  complete : state.queue = none → waiting = [] ∧ due = []

/-- The processes can go on, without another error, until the leader is finished. -/
def CanFinish (state : State) : Prop :=
  ∃ labels final, (∀ label ∈ labels, (∀ info, label ≠ .arrive info) ∧ Given state label) ∧
    LabelledSystem.exec nmiStep state labels = some final ∧
    final.queue = none ∧ Orderly final [] []

end Ev6.NmiQueue
