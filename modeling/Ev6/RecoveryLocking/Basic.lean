import Ev6.Kernel.Param
import Ev6.Support.Slots

/-!
# Recovery critical sections

The functions of `recovery_locking.c` that record which recovery critical
sections a process is inside: the per-process history `rcs_infos` and the entry
counters of `recovery_locks`. Each exported function is one step here; the
interleaving of the statements inside `enter_recovery_critical_section` with a
recovery handler is the subject of `Ev6.RecoveryLocking.Entrance`.
-/

namespace Ev6.RecoveryLocking

open Support

/-- The loop of `add_rcs_history`: the flag goes to the first empty slot, and
nowhere when the array is full. -/
def addHistory (flag : Nat) : List Nat → List Nat
  | [] => []
  | slot :: rest => if slot = 0 then flag :: rest else slot :: addHistory flag rest

/-- The first loop of `del_rcs_history`: scanning from the last slot down, empty
the first one that holds the flag. -/
def clearLast (flag : Nat) : List Nat → Option (List Nat)
  | [] => none
  | slot :: rest =>
    match clearLast flag rest with
    | some cleared => some (slot :: cleared)
    | none => if slot = flag then some (0 :: rest) else none

/-- The second loop of `del_rcs_history` from the slot in hand on, and the store
after it. The loop moves the entry behind an empty slot forward and stops at two
empty slots; when it runs to its end, the store empties the last slot whatever
it holds. -/
def compactFrom : Nat → List Nat → List Nat
  | _, [] => [0]
  | slot, next :: rest =>
    if slot = 0 then
      if next = 0 then slot :: next :: rest else next :: compactFrom 0 rest
    else slot :: compactFrom next rest

/-- The second loop of `del_rcs_history` and the store after it. -/
def compact : List Nat → List Nat
  | [] => []
  | slot :: rest => compactFrom slot rest

/-- `del_rcs_history` on the slots of one process. -/
def delHistory (flag : Nat) (slots : List Nat) : List Nat :=
  compact ((clearLast flag slots).getD slots)

@[simp] theorem length_addHistory (flag : Nat) (slots : List Nat) :
    (addHistory flag slots).length = slots.length := by
  induction slots with
  | nil => rfl
  | cons slot rest ih => by_cases empty : slot = 0 <;> simp [addHistory, empty, ih]

theorem length_clearLast {flag : Nat} {slots cleared : List Nat}
    (found : clearLast flag slots = some cleared) : cleared.length = slots.length := by
  induction slots generalizing cleared with
  | nil => cases found
  | cons slot rest ih =>
    unfold clearLast at found
    cases behind : clearLast flag rest with
    | some shorter =>
      rw [behind] at found
      cases found
      simp [ih behind]
    | none =>
      rw [behind] at found
      by_cases same : slot = flag
      · obtain rfl : 0 :: rest = cleared := by simpa [same] using found
        simp
      · simp [same] at found

theorem length_compactFrom (slot : Nat) (rest : List Nat) :
    (compactFrom slot rest).length = rest.length + 1 := by
  induction rest generalizing slot with
  | nil => rfl
  | cons next rest ih =>
    by_cases empty : slot = 0 <;> by_cases last : next = 0 <;>
      simp [compactFrom, empty, last, ih]

@[simp] theorem length_compact (slots : List Nat) : (compact slots).length = slots.length := by
  cases slots with
  | nil => rfl
  | cons slot rest => simp [compact, length_compactFrom]

@[simp] theorem length_delHistory (flag : Nat) (slots : List Nat) :
    (delHistory flag slots).length = slots.length := by
  unfold delHistory
  cases found : clearLast flag slots with
  | none => simp
  | some cleared => simp [length_clearLast found]

/-- `struct proc_rcs_info`: the process and its history of sections. -/
structure ProcRcsInfo where
  pid : Nat
  historyIdx : List Nat
  slots : historyIdx.length = rcsInfoHistorySize

/-- The history array before any entry. -/
def emptyHistory : List Nat := List.replicate rcsInfoHistorySize 0

namespace ProcRcsInfo

/-- An unused slot of `rcs_infos`. -/
def unused : ProcRcsInfo := ⟨0, emptyHistory, by simp [emptyHistory]⟩

/-- The body of `add_rcs_history` after the slot of the process is found. -/
def add (info : ProcRcsInfo) (flag : Nat) : ProcRcsInfo :=
  ⟨info.pid, addHistory flag info.historyIdx, by simp [info.slots]⟩

/-- The body of `del_rcs_history` after the slot of the process is found. -/
def del (info : ProcRcsInfo) (flag : Nat) : ProcRcsInfo :=
  ⟨info.pid, delHistory flag info.historyIdx, by simp [info.slots]⟩

/-- Every slot emptied, as at the end of `exit_recovery_critical_section_all`. -/
def clear (info : ProcRcsInfo) : ProcRcsInfo :=
  ⟨info.pid, emptyHistory, by simp [emptyHistory]⟩

end ProcRcsInfo

/-- `struct recovery_lock`. `lock` is the process whose CPU holds the recovery
lock; `lk` is free between two of the steps of this module. -/
structure RecoveryLock where
  num : Int
  exception : Nat
  lock : Option Nat

/-- The data of `recovery_locking.c`, and `nextpid` of `proc.c`. -/
structure RcsState where
  rcsInfos : Nat → ProcRcsInfo
  recoveryLocks : Nat → RecoveryLock
  nextpid : Nat

namespace RcsState

/-- The scan of `rcs_infos` for a process. -/
def slotOf (state : RcsState) (pid : Nat) : Option Nat :=
  firstSlot (fun index => (state.rcsInfos index).pid == pid) nproc

/-- Replace one slot of `rcs_infos`. -/
def setInfo (state : RcsState) (index : Nat) (info : ProcRcsInfo) : RcsState :=
  { state with rcsInfos := Function.update state.rcsInfos index info }

/-- Replace one of `recovery_locks`. -/
def setLock (state : RcsState) (flag : Nat) (lock : RecoveryLock) : RcsState :=
  { state with recoveryLocks := Function.update state.recoveryLocks flag lock }

end RcsState

/-- `init_rcs_infos`: take the first unused slot, if there is one. -/
def initRcsInfos (state : RcsState) (pid : Nat) : RcsState :=
  match state.slotOf 0 with
  | some index => state.setInfo index { state.rcsInfos index with pid := pid }
  | none => state

/-- `allocpid` followed by `init_rcs_infos`, as `allocproc` calls them. -/
def allocRcs (state : RcsState) : RcsState :=
  { initRcsInfos state state.nextpid with nextpid := state.nextpid + 1 }

/-- `add_rcs_history`; a process without a slot panics. -/
def addRcsHistory (state : RcsState) (pid flag : Nat) : Option RcsState :=
  (state.slotOf pid).map fun index =>
    state.setInfo index ((state.rcsInfos index).add flag)

/-- `del_rcs_history`; a process without a slot panics. -/
def delRcsHistory (state : RcsState) (pid flag : Nat) : Option RcsState :=
  (state.slotOf pid).map fun index =>
    state.setInfo index ((state.rcsInfos index).del flag)

/-- `free_rcs_history`: nothing happens for a process without a slot. -/
def freeRcsHistory (state : RcsState) (pid : Nat) : RcsState :=
  match state.slotOf pid with
  | some index => state.setInfo index .unused
  | none => state

/-- `enter_recovery_critical_section`. The entrance sleeps while another
process holds the recovery lock, or panics for `ICACHE_FORK`: neither is a
completed entry. The holder itself skips the counter. -/
def enterRecoveryCriticalSection (state : RcsState) (pid flag exception : Nat) :
    Option RcsState :=
  let rlk := state.recoveryLocks flag
  if rlFlagMax < flag then none
  else
    match rlk.lock with
    | some holder => if holder = pid then addRcsHistory state pid flag else none
    | none =>
      addRcsHistory
        (state.setLock flag { rlk with
          num := rlk.num + 1
          exception := if exception = 0 then rlk.exception else exception })
        pid flag

/-- `exit_recovery_critical_section`: the counter is lowered for every caller. -/
def exitRecoveryCriticalSection (state : RcsState) (pid flag exception : Nat) :
    Option RcsState :=
  let rlk := state.recoveryLocks flag
  if rlFlagMax < flag then none
  else
    delRcsHistory
      (state.setLock flag { rlk with
        num := rlk.num - 1
        exception := if rlk.exception = exception then 0 else rlk.exception })
      pid flag

/-- Lower the counter of one section by one. -/
def lowerNum (recoveryLocks : Nat → RecoveryLock) (flag : Nat) : Nat → RecoveryLock :=
  Function.update recoveryLocks flag
    { recoveryLocks flag with num := (recoveryLocks flag).num - 1 }

/-- `exit_recovery_critical_section_all`: the counter of the flag in each slot
of the history is lowered, whatever the slot holds. -/
def exitRecoveryCriticalSectionAll (state : RcsState) (pid : Nat) : Option RcsState :=
  (state.slotOf pid).map fun index =>
    { state.setInfo index (state.rcsInfos index).clear with
      recoveryLocks := (state.rcsInfos index).historyIdx.foldl lowerNum state.recoveryLocks }

/-- `acquire_recovery_lock` by the process that runs a recovery handler. -/
def acquireRecoveryLock (state : RcsState) (pid flag : Nat) : Option RcsState :=
  let rlk := state.recoveryLocks flag
  if rlFlagMax < flag then none
  else
    match rlk.lock with
    | some _ => none
    | none => some (state.setLock flag { rlk with lock := some pid })

/-- `release_recovery_lock` by the process that runs a recovery handler. -/
def releaseRecoveryLock (state : RcsState) (pid flag : Nat) : Option RcsState :=
  let rlk := state.recoveryLocks flag
  if rlFlagMax < flag then none
  else if rlk.lock = some pid then some (state.setLock flag { rlk with lock := none })
  else none

end Ev6.RecoveryLocking
