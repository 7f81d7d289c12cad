import Ev6.Kernel.Param
import Ev6.Logging.Handlers
import Ev6.Support.LabelledSystem
import Ev6.Support.Loop
import Ev6.Support.Slots
import Ev6.Support.Trail
import Mathlib.Data.List.FinRange

/-!
# The buffer cache and its recovery

`binit`, `bget` and `brelse` of `bio.c` keep the buffers in a doubly linked list
through `bcache.head`. `recovery_handler_buf` takes a broken buffer out of that list
and puts a new page in at the end. The broken buffer cannot be read, so the handler
searches the static array and the head for the two nodes that name it. A commit that the error
has interrupted is redone behind the surgery, and moves buffers in the list like any traffic.
-/

namespace Ev6.BufferCache

open Function (update)
open Support

instance : NeZero nbuf := ⟨Nat.succ_ne_zero 29⟩

/-- The address of a `struct buf`: the list head, a buffer of the static array, or a
page. Page 0 is the null pointer. -/
inductive Node where
  | head
  | buf (index : Fin nbuf)
  | page (address : Nat)
deriving DecidableEq

/-- `struct buf`, without its sleeplock, `qnext` and the data. -/
structure Buf where
  valid : Int
  disk : Int
  dev : UInt32
  blockno : UInt32
  refcnt : UInt32
  prev : Node
  next : Node

/-- A buffer filled with 0. -/
def Buf.zero : Buf where
  valid := 0
  disk := 0
  dev := 0
  blockno := 0
  refcnt := 0
  prev := .page 0
  next := .page 0

abbrev Memory := Node → Buf

/-- `node->next = value`. -/
def setNext (mem : Memory) (node value : Node) : Memory :=
  update mem node { mem node with next := value }

/-- `node->prev = value`. -/
def setPrev (mem : Memory) (node value : Node) : Memory :=
  update mem node { mem node with prev := value }

/-- Put a buffer right behind the head, the way `binit` and `brelse` do. -/
def insertFront (mem : Memory) (b : Node) : Memory :=
  let mem := setNext mem b (mem .head).next
  let mem := setPrev mem b .head
  let mem := setPrev mem (mem .head).next b
  setNext mem .head b

/-- `b->next->prev = b->prev; b->prev->next = b->next;` -/
def unlink (mem : Memory) (b : Node) : Memory :=
  let mem := setPrev mem (mem b).next (mem b).prev
  setNext mem (mem b).prev (mem b).next

/-- `binit`. -/
def binit (mem : Memory) : Memory :=
  (List.finRange nbuf).foldl (fun mem i => insertFront mem (.buf i))
    (setNext (setPrev mem .head .head) .head .head)

/-- The body of the two loops of `bget`: stop behind the last buffer, or at the first
one that meets the test. -/
def scanPass (follow : Node → Node) (test : Node → Bool) (b : Node) : Pass Node (Option Node) :=
  if b = .head then .leave none
  else if test b then .leave (some b)
  else .again (follow b)

/-- `bget` up to the sleeplock, with a bound on the passes of its loops. The result has
no buffer when `bget` panics. -/
def bget (passes : Nat) (mem : Memory) (dev blockno : UInt32) : Option (Option Node × Memory) :=
  (loop (scanPass (fun b => (mem b).next) fun b => (mem b).dev = dev && (mem b).blockno = blockno)
    passes (mem .head).next).bind fun cached =>
      match cached with
      | some b => some (some b, update mem b { mem b with refcnt := (mem b).refcnt + 1 })
      | none =>
        (loop (scanPass (fun b => (mem b).prev) fun b => (mem b).refcnt = 0)
          passes (mem .head).prev).map fun unused =>
            match unused with
            | some b =>
              (some b, update mem b { mem b with
                dev := dev, blockno := blockno, valid := 0, refcnt := 1 })
            | none => (none, mem)

/-- `brelse` behind the sleeplock. -/
def brelse (mem : Memory) (b : Node) : Memory :=
  let mem := update mem b { mem b with refcnt := (mem b).refcnt - 1 }
  if (mem b).refcnt = 0 then insertFront (unlink mem b) b else mem

/-- The search for the node that names the broken one by a pointer: the last static
buffer that does, and the head only when no static buffer does. -/
def searchNeighbour (field : Node → Node) (broken : Node) : Option Node :=
  ((lastHit (fun i => decide (field (.buf i) = broken)) (List.finRange nbuf) none).map
    Node.buf).or (if field .head = broken then some .head else none)

/-- Insert a buffer before the head, at the end of the list. -/
def insertBack (mem : Memory) (b : Node) : Memory :=
  let mem := setNext mem b .head
  let mem := setPrev mem b (mem .head).prev
  let mem := setNext mem (mem .head).prev b
  setPrev mem .head b

/-- `bunpin`. -/
def bunpin (mem : Memory) (b : Node) : Memory :=
  update mem b { mem b with refcnt := (mem b).refcnt - 1 }

/-- A call of `commit` or `recover_from_log` on the buffer cache. -/
inductive CommitCall where
  | bget (dev blockno : UInt32)
  | brelse (b : Node)
  | bunpin (b : Node)

/-- One such call. `none` is a panic of `bget`. -/
def CommitCall.run (mem : Memory) : CommitCall → Option Memory
  | .bget dev blockno =>
    match BufferCache.bget (nbuf + 1) mem dev blockno with
    | some (some _, mem) => some mem
    | _ => none
  | .brelse b => some (BufferCache.brelse mem b)
  | .bunpin b => some (BufferCache.bunpin mem b)

/-- What the handler finds besides the buffers: the error with its call stack, `log->committing`,
and the calls that the interrupted commit makes when it is redone. -/
structure Interrupted where
  fault : Logging.Fault
  committing : Bool
  calls : List CommitCall

/-- `solve_inconsistency_buf` redoes a commit. -/
def Interrupted.Redoes (interrupted : Interrupted) : Prop :=
  interrupted.committing = true ∧ Logging.redo interrupted.fault ≠ .nothing

instance (interrupted : Interrupted) : Decidable interrupted.Redoes := by
  unfold Interrupted.Redoes
  infer_instance

/-- `solve_inconsistency_buf`, as far as it writes buffers. -/
def solveInconsistencyBuf (interrupted : Interrupted) (mem : Memory) : Option Memory :=
  if interrupted.Redoes then interrupted.calls.foldlM CommitCall.run mem else some mem

/-- The surgery of `recovery_handler_buf`. `none` is an access through `prev` or `next` when the
search has found no node. -/
def internalSurgery (mem : Memory) (broken fresh : Node) : Option Memory :=
  let mem := update mem fresh Buf.zero
  match searchNeighbour (fun b => (mem b).next) broken,
      searchNeighbour (fun b => (mem b).prev) broken with
  | some prev, some next => some (insertBack (setPrev (setNext mem prev next) next prev) fresh)
  | _, _ => none

/-- `recovery_handler_buf` where it does not stop the system, as far as it writes buffers. -/
def recoveryHandlerBuf (mem : Memory) (broken fresh : Node) (interrupted : Interrupted) :
    Option Memory :=
  (internalSurgery mem broken fresh).bind (solveInconsistencyBuf interrupted)

/-- The buffers, those on `mlist.buf_list`, and those that `bget` has returned and
nobody has released. -/
structure State where
  mem : Memory
  listed : List Node
  held : List Node

/-- Traffic on the buffer cache, and an error that makes a buffer unreadable: what its
memory then holds is unknown. -/
inductive Move where
  | bget (dev blockno : UInt32)
  | brelse (b : Node)
  | error (broken : Node) (garbage : Buf) (page : Nat) (interrupted : Interrupted)

/-- `my_kalloc` returns a page that is not a buffer already. -/
def Fresh (state : State) (page : Nat) : Prop :=
  page ≠ 0 ∧ .page page ∉ state.listed

instance (state : State) (page : Nat) : Decidable (Fresh state page) := by
  unfold Fresh
  infer_instance

/-- One critical section of `bcache.lock`, or one recovery. An error is met on a
buffer of the M-List. -/
def step (state : State) : Move → Option State
  | .bget dev blockno =>
    match bget (nbuf + 1) state.mem dev blockno with
    | some (some b, mem) => some { state with mem := mem, held := b :: state.held }
    | _ => none
  | .brelse b =>
    if b ∈ state.held then
      some { state with mem := brelse state.mem b, held := state.held.erase b }
    else none
  | .error broken garbage page interrupted =>
    if broken ∈ state.listed ∧ Fresh state page then
      (recoveryHandlerBuf (update state.mem broken garbage) broken (.page page)
        interrupted).map fun mem =>
          { mem := mem
            listed := state.listed.erase broken ++ [.page page]
            held := state.held.filter (· ≠ broken) }
    else none

/-- The buffer cache as `binit` leaves it. -/
def start : State where
  mem := binit fun _ => Buf.zero
  listed := (List.finRange nbuf).map Node.buf
  held := []

def system : LabelledSystem State Move :=
  .ofFunction (· = start) step

/-- The buffers form a list through the head, the same forwards and backwards. -/
def Ringed (mem : Memory) (nodes : List Node) : Prop :=
  DoubleRing (fun b => (mem b).next) (fun b => (mem b).prev) .head nodes

/-- The list has lost the broken node, and has the new one at its end. -/
def Replaced (before after : Memory) (broken fresh : Node) : Prop :=
  ∃ front back, Ringed before (front ++ broken :: back) ∧ Ringed after (front ++ back ++ [fresh])

/-- A node is the last static one to name the broken node by this field, or it is the
head and no static one does. -/
def NamedBy (field : Node → Node) (broken place : Node) : Prop :=
  (∃ i, place = .buf i ∧ field (.buf i) = broken ∧ ∀ j, i < j → field (.buf j) ≠ broken) ∨
    place = .head ∧ field .head = broken ∧ ∀ i, field (.buf i) ≠ broken

/-- The condition on a recovery: in both directions, the last static node that names
the broken one, or the head when none does, is a buffer in use other than the broken
one, or the head. -/
def Searchable (state : State) (broken : Node) (garbage : Buf) : Prop :=
  let mem := update state.mem broken garbage
  (∃ place ∈ Node.head :: state.listed, place ≠ broken ∧
    NamedBy (fun b => (mem b).next) broken place) ∧
  ∃ place ∈ Node.head :: state.listed, place ≠ broken ∧
    NamedBy (fun b => (mem b).prev) broken place

instance (state : State) (broken : Node) (garbage : Buf) :
    Decidable (Searchable state broken garbage) := by
  unfold Searchable NamedBy
  infer_instance

/-- The condition on a step and the state before it: the search finds the neighbours, and no
commit is redone. -/
def Found (state : State) : Move → Prop
  | .error broken garbage _ interrupted =>
    Searchable state broken garbage ∧ ¬interrupted.Redoes
  | _ => True

instance (state : State) (move : Move) : Decidable (Found state move) := by
  cases move <;> unfold Found <;> infer_instance

end Ev6.BufferCache
