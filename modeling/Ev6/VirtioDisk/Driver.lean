import Ev6.FileSystem.Blocks
import Ev6.Support.LabelledSystem
import Ev6.Support.Slots

/-!
# The driver of the disk

`virtio_disk_rw` and `virtio_disk_intr` with any number of calls under way and a device
that completes requests in any order. What a call does under `vdisk_lock` is one step, and
so is one turn of the loop of the interrupt handler. A recovering process polls instead of
sleeping. The caller holds the lock of the buffer, and the device reports success.
-/

namespace Ev6.VirtioDisk

open Function (update)
open Support

/-- `NUM`. -/
def num : Nat := 8

/-- `VRING_DESC_F_NEXT`. -/
def vringDescFNext : Nat := 1

/-- `VRING_DESC_F_WRITE`. -/
def vringDescFWrite : Nat := 2

/-- What a descriptor points to: nothing, `buf0` on the stack of a process, the data of a
buffer, or the status byte of a request. -/
inductive Address where
  | zero
  | buf0 (p : Fin nproc)
  | data (b : Nat)
  | status (id : Nat)
deriving DecidableEq

structure VRingDesc where
  addr : Address
  len : Nat
  flags : Nat
  next : Nat
deriving DecidableEq

/-- What the driver keeps about the request with a first descriptor. -/
structure Info where
  b : Option Nat
  status : Nat
deriving DecidableEq

/-- The arguments of `virtio_disk_rw`, and whether the process is `RECOVERING`. -/
structure Call where
  b : Nat
  write : Bool
  recovering : Bool
deriving DecidableEq

/-- A call whose request has been handed to the device, with its `idx`. -/
structure Request where
  call : Call
  head : Nat
  data : Nat
  status : Nat
deriving DecidableEq

namespace Request

/-- `desc[idx[0]]`. -/
def headDesc (request : Request) (p : Fin nproc) : VRingDesc :=
  ⟨.buf0 p, 16, vringDescFNext, request.data⟩

/-- `desc[idx[1]]`. -/
def dataDesc (request : Request) : VRingDesc :=
  ⟨.data request.call.b, FileSystem.bsize,
    (if request.call.write then 0 else vringDescFWrite) ||| vringDescFNext, request.status⟩

/-- `desc[idx[2]]`. -/
def statusDesc (request : Request) : VRingDesc := ⟨.status request.head, 1, vringDescFWrite, 0⟩

end Request

/-- Where a process is in `virtio_disk_rw`: about to take the lock, asleep until a
descriptor is free, trying again and again with the lock held, asleep until the request is
done, made runnable, or polling. -/
inductive Stage where
  | idle
  | starting (call : Call)
  | short (call : Call)
  | stuck (call : Call)
  | asleep (request : Request)
  | awake (request : Request)
  | polling (request : Request)
deriving DecidableEq

/-- Who holds `vdisk_lock`. -/
inductive Holder where
  | interrupt
  | process (p : Fin nproc)
deriving DecidableEq

/-- The panics of `free_desc` and of `virtio_disk_intr`, a null buffer, and a chain without
an end. -/
inductive Fault where
  | notDescriptor
  | alreadyFree
  | badStatus
  | nullBuf
  | endless
deriving DecidableEq

/-- `struct disk`, `continue_polling`, the `disk` flags and the locks of the buffers, the
processes, and the device. The device has read the ring of the driver up to `lastAvail` and
works on `pending`. The heads that have gone through the rings so far are no part of the
code. -/
structure State where
  desc : Nat → VRingDesc
  free : Nat → Bool
  avail : Nat → Nat
  availIdx : UInt16
  elems : Nat → Nat
  usedId : UInt16
  usedIdx : Nat
  info : Nat → Info
  continuePolling : Bool
  disk : Nat → Bool
  holder : Nat → Option (Fin nproc)
  lock : Option Holder
  stage : Fin nproc → Stage
  lastAvail : UInt16
  pending : List Nat
  submitted : List Nat
  taken : List Nat
  completed : List Nat
  acknowledged : List Nat
  fault : Option Fault

/-- `wakeup(&disk.free[0])` on one process. -/
def Stage.wakeFree : Stage → Stage
  | .short call => .starting call
  | stage => stage

/-- `wakeup(b)` on one process. -/
def Stage.wakeBuf (b : Nat) : Stage → Stage
  | .asleep request => if request.call.b = b then .awake request else .asleep request
  | stage => stage

/-- A sleeping process is killed. -/
def Stage.kill : Stage → Stage
  | .short call => .starting call
  | .asleep request => .awake request
  | stage => stage

namespace State

def setStage (state : State) (p : Fin nproc) (stage : Stage) : State :=
  { state with stage := update state.stage p stage }

def wakeupFree (state : State) : State :=
  { state with stage := fun p => (state.stage p).wakeFree }

/-! ## Descriptors -/

/-- `alloc_desc`. -/
def allocDesc (state : State) : Option (Nat × State) :=
  (firstSlot state.free num).map fun i =>
    (i, { state with free := update state.free i false })

/-- What `free_desc` does behind its checks. -/
def freed (state : State) (recovering : Bool) (i : Nat) : State :=
  let state :=
    { state with
      desc := update state.desc i { state.desc i with addr := .zero }
      free := update state.free i true }.wakeupFree
  if ¬recovering then state.wakeupFree
  else if state.continuePolling then { state with continuePolling := false }
  else state

/-- `free_desc`. -/
def freeDesc (state : State) (recovering : Bool) (i : Nat) : Except Fault State :=
  if num ≤ i then .error .notDescriptor
  else if state.free i then .error .alreadyFree
  else .ok (state.freed recovering i)

/-- `free_chain`, for at most so many descriptors. -/
def freeChain : Nat → State → Bool → Nat → Except Fault State
  | 0, _, _, _ => .error .endless
  | count + 1, state, recovering, i =>
    (state.freeDesc recovering i).bind fun state =>
      if (state.desc i).flags &&& vringDescFNext ≠ 0 then
        freeChain count state recovering (state.desc i).next
      else .ok state

/-- `alloc3_desc`. -/
def alloc3Desc (state : State) (recovering : Bool) :
    Except Fault (State × Option (Nat × Nat × Nat)) :=
  match state.allocDesc with
  | none => .ok (state, none)
  | some (first, one) =>
    match one.allocDesc with
    | none => (one.freeDesc recovering first).map (·, none)
    | some (second, two) =>
      match two.allocDesc with
      | none =>
        (two.freeDesc recovering first).bind fun state =>
          (state.freeDesc recovering second).map (·, none)
      | some (third, three) => .ok (three, some (first, second, third))

/-! ## `virtio_disk_rw` -/

/-- The descriptors are formatted, and the device is told of the first one. -/
def submit (state : State) (p : Fin nproc) (request : Request) : State :=
  { state with
    continuePolling := false
    desc := update (update (update state.desc
      request.head (request.headDesc p)) request.data request.dataDesc)
      request.status request.statusDesc
    disk := update state.disk request.call.b true
    info := update state.info request.head ⟨some request.call.b, 0⟩
    avail := update state.avail (state.availIdx.toNat % num) request.head
    availIdx := state.availIdx + 1
    submitted := state.submitted ++ [request.head] }

/-- The first test of `b->disk`, which is 1: the process sleeps on the buffer, or it lets
the lock go and polls. -/
def await (state : State) (p : Fin nproc) (request : Request) : State :=
  if request.call.recovering then
    { state.setStage p (.polling request) with lock := none, continuePolling := true }
  else { state.setStage p (.asleep request) with lock := none }

/-- `virtio_disk_rw` from the allocation of descriptors on, with the lock held. -/
def start (state : State) (p : Fin nproc) (call : Call) : Except Fault State :=
  (state.alloc3Desc call.recovering).map fun (state, idx) =>
    match idx with
    | some (head, data, status) =>
      let request : Request := ⟨call, head, data, status⟩
      (state.submit p request).await p request
    | none =>
      if call.recovering then
        { state.setStage p (.stuck call) with
          lock := some (.process p), continuePolling := true }
      else { state.setStage p (.short call) with lock := none }

/-- `virtio_disk_rw` behind its last loop, with the lock held. The caller then releases the
buffer. -/
def finish (state : State) (p : Fin nproc) (request : Request) : Except Fault State :=
  let state :=
    { state with
      info := update state.info request.head { state.info request.head with b := none } }
  (freeChain (num + 1) state request.call.recovering request.head).map fun state =>
    { state.setStage p .idle with
      lock := none
      holder := update state.holder request.call.b none }

/-! ## `virtio_disk_intr` -/

/-- The handler finds a completion. -/
def Completion (state : State) : Prop := state.usedIdx % num ≠ state.usedId.toNat % num

instance (state : State) : Decidable state.Completion := by
  unfold Completion
  infer_instance

/-- One turn of the loop of `virtio_disk_intr`. -/
def acknowledge (state : State) : Except Fault State :=
  let id := state.elems state.usedIdx
  if (state.info id).status ≠ 0 then .error .badStatus
  else
    match (state.info id).b with
    | none => .error .nullBuf
    | some b =>
      .ok { state with
        disk := update state.disk b false
        stage :=
          if state.continuePolling then state.stage else fun p => (state.stage p).wakeBuf b
        usedIdx := (state.usedIdx + 1) % num
        acknowledged := state.acknowledged ++ [id] }

/-! ## The device -/

/-- The device takes a head from the ring of the driver. -/
def take (state : State) : State :=
  let head := state.avail (state.lastAvail.toNat % num)
  { state with
    lastAvail := state.lastAvail + 1
    pending := head :: state.pending
    taken := state.taken ++ [head] }

/-- The device is done with a head: it writes the status byte that the last descriptor of
the chain names, and the head goes to the used ring. -/
def complete (state : State) (head : Nat) : State :=
  { state with
    info :=
      match (state.desc (state.desc (state.desc head).next).next).addr with
      | .status id => update state.info id { state.info id with status := 0 }
      | _ => state.info
    elems := update state.elems (state.usedId.toNat % num) head
    usedId := state.usedId + 1
    pending := state.pending.erase head
    completed := state.completed ++ [head] }

/-- A panic stops the machine. -/
def settle (state : State) : Except Fault State → State
  | .ok next => next
  | .error fault => { state with fault := some fault }

end State

/-! ## The system -/

inductive Label where
  | call (p : Fin nproc) (call : Call)
  | start (p : Fin nproc)
  | kill (p : Fin nproc)
  | resume (p : Fin nproc)
  | poll (p : Fin nproc)
  | take
  | complete (head : Nat)
  | interrupt
  | acknowledge
  | handled
deriving DecidableEq

/-- The step of the label, if it can be taken. -/
def step (state : State) (label : Label) : Option State :=
  if state.fault ≠ none then none
  else
    match label with
    | .call p call =>
      if state.stage p = .idle ∧ state.holder call.b = none then
        some { state.setStage p (.starting call) with
          holder := update state.holder call.b (some p) }
      else none
    | .start p =>
      match state.stage p with
      | .starting call =>
        if state.lock = none then some (state.settle (state.start p call)) else none
      | .stuck call =>
        if state.lock = some (.process p) then some (state.settle (state.start p call)) else none
      | _ => none
    | .kill p => some (state.setStage p (state.stage p).kill)
    | .resume p =>
      match state.stage p with
      | .awake request =>
        if state.lock ≠ none then none
        else if state.disk request.call.b then some (state.await p request)
        else some (state.settle (state.finish p request))
      | _ => none
    | .poll p =>
      match state.stage p with
      | .polling request =>
        if state.disk request.call.b then some { state with continuePolling := true }
        else if state.lock ≠ none then none
        else
          some (state.settle (State.finish { state with continuePolling := false } p request))
      | _ => none
    | .take => if state.lastAvail ≠ state.availIdx then some state.take else none
    | .complete head => if head ∈ state.pending then some (state.complete head) else none
    | .interrupt => if state.lock = none then some { state with lock := some .interrupt } else none
    | .acknowledge =>
      if state.lock = some .interrupt ∧ state.Completion then
        some (state.settle state.acknowledge)
      else none
    | .handled =>
      if state.lock = some .interrupt ∧ ¬state.Completion then some { state with lock := none }
      else none

/-- After `virtio_disk_init`. -/
def booted : State where
  desc := fun _ => ⟨.zero, 0, 0, 0⟩
  free := fun _ => true
  avail := fun _ => 0
  availIdx := 0
  elems := fun _ => 0
  usedId := 0
  usedIdx := 0
  info := fun _ => ⟨none, 0⟩
  continuePolling := false
  disk := fun _ => false
  holder := fun _ => none
  lock := none
  stage := fun _ => .idle
  lastAvail := 0
  pending := []
  submitted := []
  taken := []
  completed := []
  acknowledged := []
  fault := none

/-- The driver, its callers and the device. -/
def system : LabelledSystem State Label := .ofFunction (· = booted) step

end Ev6.VirtioDisk
