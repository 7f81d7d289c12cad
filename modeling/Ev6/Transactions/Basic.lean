import Ev6.Kernel.Param
import Ev6.Support.Slots

/-!
# Transactions

`trans.c`: the counters of the transactions that each process is inside, and the
values logged at the entrance of a transaction, from which a recovery handler
restores the structure that was being updated.
-/

namespace Ev6.Transactions

open Support

/-- `struct logheader`. -/
structure LogHeader where
  n : Nat
  block : Nat → Nat

/-- `struct log`, without the lock and the place of the log on the disk. -/
structure Log where
  size : Nat
  outstanding : Int
  committing : Bool
  lh : LogHeader

/-- `dup_lhdr` and `dup_outstanding`. -/
structure LogReplica where
  lhdr : LogHeader
  outstanding : Int

/-- `TRANS_LOG`, `TRANS_PAGETABLE` and `TRANS_RUN`. -/
inductive Target where
  | log
  | pagetable
  | run
deriving DecidableEq

/-- `struct trans_info`. -/
structure TransInfo where
  pid : Nat
  pagetableNtrans : Int
  logNtrans : Int
  runNtrans : Int

namespace TransInfo

/-- The counter of one kind of transaction. -/
def ntrans (info : TransInfo) : Target → Int
  | .log => info.logNtrans
  | .pagetable => info.pagetableNtrans
  | .run => info.runNtrans

/-- Replace the counter of one kind of transaction. -/
def setNtrans (info : TransInfo) (target : Target) (value : Int) : TransInfo :=
  match target with
  | .log => { info with logNtrans := value }
  | .pagetable => { info with pagetableNtrans := value }
  | .run => { info with runNtrans := value }

@[simp] theorem pid_setNtrans (info : TransInfo) (target : Target) (value : Int) :
    (info.setNtrans target value).pid = info.pid := by
  cases target <;> rfl

theorem ntrans_setNtrans (info : TransInfo) (target other : Target) (value : Int) :
    (info.setNtrans target value).ntrans other = if other = target then value else info.ntrans other := by
  cases target <;> cases other <;> rfl

@[simp] theorem ntrans_setPid (info : TransInfo) (pid : Nat) (target : Target) :
    ({ info with pid := pid } : TransInfo).ntrans target = info.ntrans target := by
  cases target <;> rfl

end TransInfo

/-- The data of `trans.c`, and `nextpid` of `proc.c`. The array has the slots 0 to
`NPROC`; what is read and written at -1 is the memory in front of it. -/
structure TransState where
  nextpid : Nat
  array : Int → TransInfo
  logLogheader : LogHeader
  logOutstanding : Int
  logRun : Nat

namespace TransState

/-- Replace one slot of the array. -/
def setInfo (state : TransState) (index : Int) (info : TransInfo) : TransState :=
  { state with array := Function.update state.array index info }

/-- Change one counter of one slot. -/
def count (state : TransState) (index : Int) (target : Target) (change : Int) : TransState :=
  state.setInfo index
    ((state.array index).setNtrans target ((state.array index).ntrans target + change))

end TransState

/-- `init_trans_info`. -/
def initTransInfo (state : TransState) : TransState :=
  { state with
    array := fun index =>
      if 0 ≤ index ∧ index ≤ nproc then ⟨0, 0, 0, 0⟩ else state.array index }

/-- `register_trans_info`: the first unused slot, if there is one. -/
def registerTransInfo (state : TransState) (pid : Nat) : TransState :=
  match firstSlot (fun i => (state.array i).pid == 0) (nproc + 1) with
  | some i => state.setInfo i { state.array i with pid := pid }
  | none => state

/-- `delete_trans_info`: every slot of the process is marked unused. -/
def deleteTransInfo (state : TransState) (pid : Nat) : TransState :=
  { state with
    array := fun index =>
      if 0 ≤ index ∧ index ≤ nproc ∧ (state.array index).pid = pid then
        { state.array index with pid := 0 }
      else state.array index }

/-- The loop of `search_trans_info`, which keeps the last match of its `size` slots. -/
def searchBelow (array : Int → TransInfo) (pid : Nat) : Nat → Int
  | 0 => -1
  | size + 1 => if (array size).pid = pid then size else searchBelow array pid size

theorem searchBelow_cases (array : Int → TransInfo) (pid size : Nat) :
    (searchBelow array pid size = -1 ∧ ∀ i < size, (array i).pid ≠ pid) ∨
    ∃ i < size, searchBelow array pid size = i ∧ (array i).pid = pid := by
  induction size with
  | zero => exact .inl ⟨rfl, fun i low => absurd low (Nat.not_lt_zero i)⟩
  | succ size ih =>
    by_cases here : (array size).pid = pid
    · exact .inr ⟨size, Nat.lt_succ_self size, by simp [searchBelow, here], here⟩
    · have skip : searchBelow array pid (size + 1) = searchBelow array pid size := by
        simp [searchBelow, here]
      rw [skip]
      rcases ih with ⟨missing, other⟩ | ⟨i, low, found, same⟩
      · refine .inl ⟨missing, fun i low => ?_⟩
        rcases Nat.lt_succ_iff_lt_or_eq.mp low with below | rfl
        · exact other i below
        · exact here
      · exact .inr ⟨i, Nat.lt_succ_of_lt low, found, same⟩

theorem searchBelow_congr {array after : Int → TransInfo} (pid : Nat) {size : Nat}
    (same : ∀ i < size, (after i).pid = (array i).pid) :
    searchBelow after pid size = searchBelow array pid size := by
  induction size with
  | zero => rfl
  | succ size ih =>
    have here := same size (Nat.lt_succ_self size)
    have below := ih fun i low => same i (Nat.lt_succ_of_lt low)
    simp [searchBelow, here, below]

/-- `search_trans_info`. -/
def searchTransInfo (state : TransState) (pid : Nat) : Int :=
  searchBelow state.array pid (nproc + 1)

/-- The slot in which the calling process counts its transactions. -/
def ownIndex (state : TransState) (pid : Nat) : Int :=
  if state.nextpid > 2 then searchTransInfo state pid else 0

/-- Counting does not move a process to another slot. -/
@[simp] theorem searchTransInfo_count (state : TransState) (index : Int) (target : Target)
    (change : Int) (pid : Nat) :
    searchTransInfo (state.count index target change) pid = searchTransInfo state pid := by
  refine searchBelow_congr pid fun i _ => ?_
  by_cases here : (i : Int) = index
  · subst here
    simp [TransState.count, TransState.setInfo]
  · simp [TransState.count, TransState.setInfo, here]

@[simp] theorem ownIndex_count (state : TransState) (index : Int) (target : Target)
    (change : Int) (pid : Nat) :
    ownIndex (state.count index target change) pid = ownIndex state pid := by
  rw [ownIndex, ownIndex, searchTransInfo_count]
  rfl

theorem ntrans_count (state : TransState) (index other : Int) (target : Target) (change : Int) :
    ((state.count index target change).array other).ntrans target =
      (state.array other).ntrans target + if other = index then change else 0 := by
  by_cases here : other = index
  · subst here
    simp [TransState.count, TransState.setInfo, TransInfo.ntrans_setNtrans]
  · simp [TransState.count, TransState.setInfo, here]

/-- The values logged at the entrance of a transaction. -/
inductive Logged where
  | log (log : Log)
  | pagetable
  | run (addr : Nat)

/-- The kind of transaction. -/
def Logged.target : Logged → Target
  | .log _ => .log
  | .pagetable => .pagetable
  | .run _ => .run

/-- The values logged by a transaction that is entered. -/
def logEntry (state : TransState) : Logged → TransState
  | .log log => { state with logLogheader := log.lh, logOutstanding := log.outstanding }
  | .pagetable => state
  | .run addr => { state with logRun := addr }

/-- The values reset by a transaction that is left. -/
def logExit (state : TransState) : Target → TransState
  | .log => { state with logOutstanding := -1 }
  | .pagetable => state
  | .run => { state with logRun := 0 }

/-- The functions that enter a transaction: they panic at a negative counter. -/
def enterTrans (state : TransState) (logged : Logged) (pid : Nat) : Option TransState :=
  let idx := ownIndex state pid
  if (state.array idx).ntrans logged.target < 0 then none
  else some ((logEntry state logged).count idx logged.target 1)

/-- The functions that leave a transaction: they panic when the counter is not
positive. -/
def exitTrans (state : TransState) (target : Target) (pid : Nat) : Option TransState :=
  let idx := ownIndex state pid
  if (state.array idx).ntrans target < 1 then none
  else some (logExit (state.count idx target (-1)) target)

/-- `enter_trans_log`. -/
def enterTransLog (state : TransState) (log : Log) (pid : Nat) : Option TransState :=
  enterTrans state (.log log) pid

/-- `exit_trans_log`. -/
def exitTransLog (state : TransState) (pid : Nat) : Option TransState :=
  exitTrans state .log pid

/-- `enter_trans_pagetable`. Unlike the others it does nothing for a process
without a slot. -/
def enterTransPagetable (state : TransState) (pid : Nat) : Option TransState :=
  if ownIndex state pid < 0 then some state else enterTrans state .pagetable pid

/-- `exit_trans_pagetable`. -/
def exitTransPagetable (state : TransState) (pid : Nat) : Option TransState :=
  if ownIndex state pid < 0 then some state else exitTrans state .pagetable pid

/-- `enter_trans_run`. -/
def enterTransRun (state : TransState) (addr pid : Nat) : Option TransState :=
  enterTrans state (.run addr) pid

/-- `exit_trans_run`. -/
def exitTransRun (state : TransState) (pid : Nat) : Option TransState :=
  exitTrans state .run pid

/-- `check_inside_trans`. -/
def checkInsideTrans (state : TransState) (target : Target) (pid : Nat) : Int :=
  (state.array (searchTransInfo state pid)).ntrans target

/-- `check_and_handle_trans_log`, for the handler of a buffer. -/
def checkAndHandleTransLog (state : TransState) (pid : Nat) (log : Log) (dup : LogReplica) :
    Log × LogReplica :=
  if checkInsideTrans state .log pid > 0 then
    ({ log with lh := state.logLogheader }, ⟨state.logLogheader, state.logOutstanding⟩)
  else (log, dup)

/-- `check_and_handle_trans_logheader`, for the handler of the log. -/
def checkAndHandleTransLogheader (state : TransState) (pid : Nat) (dup : LogReplica) :
    LogReplica :=
  if checkInsideTrans state .log pid > 0 then
    { lhdr := state.logLogheader
      outstanding := if state.logOutstanding ≥ 0 then state.logOutstanding else dup.outstanding }
  else dup

/-- `check_and_handle_trans_pagetable`: 1 inside a transaction, -1 for a negative
counter. -/
def checkAndHandleTransPagetable (state : TransState) (pid : Nat) : Int :=
  let ntrans := checkInsideTrans state .pagetable pid
  if ntrans > 0 then 1 else if ntrans < 0 then -1 else 0

/-- The test of `check_and_handle_trans_run`: the run that was being freed has to be
added to the free list. -/
def returnsLogRun (state : TransState) (pid kmem : Nat) : Prop :=
  checkInsideTrans state .run pid > 0 ∧ kmem ≠ state.logRun

instance (state : TransState) (pid kmem : Nat) : Decidable (returnsLogRun state pid kmem) := by
  unfold returnsLogRun
  infer_instance

/-- The counters after `check_and_handle_trans_run`, run by the process `leader`. It
panics at a negative counter, and when `leader` is in no transaction that it could
leave. -/
def checkAndHandleTransRun (state : TransState) (pid leader kmem : Nat) : Option TransState :=
  if returnsLogRun state pid kmem then exitTransRun state leader
  else if checkInsideTrans state .run pid < 0 then none
  else some state

end Ev6.Transactions
