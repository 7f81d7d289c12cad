import Ev6.Logging.Recovery

/-!
# The counter of the operations in the other handlers

Every handler that lets the system continue adjusts `log->outstanding` for the system
call that is aborted, and some of them adjust `dup_outstanding` as well. This module
has the part of each handler that reads or writes the log, its duplicates or the
transactions, and says exactly when the two counters still agree afterwards.
-/

namespace Ev6.Logging

open Option (bind_eq_some_iff ite_none_left_eq_some map_eq_some_iff)
open Transactions

/-- The log, its duplicates and the transactions. -/
structure LogState where
  log : Log
  dup : LogReplica
  trans : TransState

/-- What a recovery handler knows about the error: `pid` met it, and `leader` runs the
handler. `coop` is `is_enable_user_coop(pid)`. -/
structure Fault where
  text : Text
  mode : RecoveryMode
  pcs : List Nat
  pid : Nat
  leader : Nat
  coop : Bool

namespace Fault

/-- A return address on the call stack lies in one of some functions. -/
def calls (fault : Fault) (routines : List Routine) : Bool :=
  fault.pcs.any fun address => fault.text.isInsideAny address routines

end Fault

/-! ## Commits -/

/-- `commit` on the header and its duplicate. -/
def commitHeader (state : LogState) : LogState :=
  if state.log.lh.n > 0 then
    { state with
      log := { state.log with lh := cleared state.log.lh }
      dup := { state.dup with lhdr := cleared state.dup.lhdr } }
  else state

/-- A header into which the header on the disk has been read, and which has then been
emptied. -/
def replayed (header disk : LogHeader) : LogHeader where
  n := 0
  block i := if i < disk.n then disk.block i else header.block i

/-- `recover_from_log`, run by the process `leader`. -/
def recoverFromLog (disk : LogHeader) (leader : Nat) (state : LogState) : Option LogState :=
  (enterTransLog state.trans state.log leader).bind fun trans =>
    (exitTransLog trans leader).map fun trans =>
      { log := { state.log with lh := replayed state.log.lh disk }
        dup := { state.dup with lhdr := replayed state.dup.lhdr disk }
        trans := trans }

/-- `log->committing = 0`. -/
def stopCommitting (state : LogState) : LogState :=
  { state with log := { state.log with committing := false } }

/-! ## `recovery_handler_buf` -/

/-- What the handler finds on the call stack of a process when a commit is running. -/
inductive Redo where
  | install
  | commit
  | nothing
deriving DecidableEq

/-- The first frame in `install_trans` or `commit`. -/
def redo (fault : Fault) : Redo :=
  match fault.pcs.find? fun address => fault.text.isInsideAny address [.installTrans, .commit] with
  | none => .nothing
  | some address => if fault.text.isInside address .installTrans then .install else .commit

/-- Redo the commit that the error has interrupted. -/
def redoCommit (fault : Fault) (disk : LogHeader) (state : LogState) : Option LogState :=
  if state.log.committing then
    match redo fault with
    | .install => (recoverFromLog disk fault.leader state).map stopCommitting
    | .commit => some (stopCommitting (commitHeader state))
    | .nothing => some (stopCommitting state)
  else some state

/-- Evict the block at an index of the header of length `n`, and slide the others. -/
def evictBlock (header : LogHeader) (i n : Nat) : LogHeader where
  n := header.n - 1
  block j := if i ≤ j ∧ j < n then header.block (j + 1) else if j = n then 0 else header.block j

/-- The loop over the blocks of the header, from index `i` on. Both branches of the
loop over the buffers leave it, so a block is kept when the first buffer has it. The
length of the header bounds the rounds. -/
def evictLost (first : Nat) : Nat → Nat → LogHeader × LogHeader → LogHeader × LogHeader
  | 0, _, headers => headers
  | rounds + 1, i, (lh, dup) =>
    if i < lh.n then
      if first = lh.block i then evictLost first rounds (i + 1) (lh, dup)
      else evictLost first rounds (i + 1) (evictBlock lh i lh.n, evictBlock dup i lh.n)
    else (lh, dup)

/-- Evict the blocks that are lost with the broken buffer. -/
def evictHeader (first : Nat) (state : LogState) : LogState :=
  let headers := evictLost first state.log.lh.n 0 (state.log.lh, state.dup.lhdr)
  { state with
    log := { state.log with lh := headers.1 }
    dup := { state.dup with lhdr := headers.2 } }

/-- Lower both counters, when the first one is positive. -/
def lowerBoth (state : LogState) : LogState :=
  if state.log.outstanding > 0 then
    { state with
      log := { state.log with outstanding := state.log.outstanding - 1 }
      dup := { state.dup with outstanding := state.dup.outstanding - 1 } }
  else state

/-- `check_and_handle_trans_log`. -/
def rollBackLog (pid : Nat) (state : LogState) : LogState :=
  let pair := checkAndHandleTransLog state.trans pid state.log state.dup
  { state with log := pair.1, dup := pair.2 }

/-- `solve_inconsistency_buf`: `disk` is the header on the disk and `first` the block
of the first buffer of the list. -/
def solveInconsistencyBuf (fault : Fault) (disk : LogHeader) (first : Nat) (state : LogState) :
    Option LogState :=
  (redoCommit fault disk state).map fun state =>
    rollBackLog fault.pid (lowerBoth (evictHeader first state))

/-- `check_fail_stop_cases` of the buffers. -/
def bufStops (fault : Fault) : Bool :=
  fault.calls [.brelse, .readsb, .fsinit] ||
    decide (fault.mode = .conservative) &&
      fault.calls [.bfree, .dirlink, .iput, .logWrite, .sysLink, .sysWrite, .writeLog] ||
    fault.calls [.sysChdir] && fault.pcs.any fun address =>
      !fault.text.isInside address .sysChdir && fault.text.isInside address .endOp

/-- `recovery_handler_buf` on the log. `crowded` says that no page was left or that
another process is in the recovery critical section of the buffer. -/
def recoveryHandlerBuf (fault : Fault) (crowded : Bool) (disk : LogHeader) (first : Nat)
    (state : LogState) : Option LogState :=
  if bufStops fault || crowded then none else solveInconsistencyBuf fault disk first state

/-! ## `recovery_handler_inode` -/

/-- The part of `solve_inconsistency_inode` about the log. -/
def solveInconsistencyInode (state : LogState) : LogState :=
  if state.log.outstanding > 0 then
    { state with log := { state.log with outstanding := state.log.outstanding - 1 } }
  else state

/-- The tests of `check_fail_stop` on the call stack. -/
def inodeStops (fault : Fault) : Bool :=
  decide (fault.mode = .conservative) &&
    fault.calls [.create, .idup, .iput, .iupdate, .sysLink, .sysOpen, .sysUnlink, .writei]

/-- `recovery_handler_inode` on the log. `lost` says that no other inode of a device, or
of the root, is cached, or that another process is in the critical section. -/
def recoveryHandlerInode (fault : Fault) (lost : Bool) (state : LogState) : Option LogState :=
  if inodeStops fault || lost then none else some (solveInconsistencyInode state)

/-! ## `recovery_handler_kmem` and `recovery_handler_run` -/

/-- One round of the scan of `after_treatment`. -/
def afterTreatmentFrame (fault : Fault) : Policy × Log → Nat → Option (Policy × Log)
  | (ret, log), address =>
    let inside := fault.text.isInsideAny address
    if inside [.freeproc, .kvminit, .procinit, .uvmunmap] then none
    else if fault.mode = .conservative ∧ inside [.sysExec, .uvmalloc, .uvmcopy] then none
    else
      let ret := if inside [.exit, .uvmalloc] then Policy.processKill else ret
      let ret := if inside [.sysClose] then Policy.syscallSuccess else ret
      some (ret, if inside [.sysSbrk] ∧ log.outstanding > 1 then
        { log with outstanding := log.outstanding - 1 } else log)

/-- `after_treatment`: the policy and the log. -/
def afterTreatment (fault : Fault) (state : LogState) : Option (Policy × LogState) :=
  (fault.pcs.foldlM (afterTreatmentFrame fault)
    (if fault.coop then Policy.syscallRedo else Policy.syscallFail, state.log)).map
      fun (ret, log) =>
        (if checkAndHandleTransPagetable state.trans fault.pid > 0 ∧ ret = Policy.syscallFail
          then Policy.processKill else ret, { state with log := log })

/-- `recovery_handler_kmem` on the log: `new` is the page that becomes `struct kmem`. -/
def recoveryHandlerKmem (fault : Fault) (new : Nat) (state : LogState) : Option LogState :=
  (checkAndHandleTransRun state.trans fault.pid fault.leader new).bind fun trans =>
    (afterTreatment fault { state with trans := trans }).map Prod.snd

/-- `recovery_handler_run` on the log. -/
def recoveryHandlerRun (fault : Fault) (state : LogState) : Option LogState :=
  (afterTreatment fault state).map Prod.snd

/-! ## The other paths -/

/-- The part of `recovery_handler_pagetable` about the log. `holding` says whether the
CPU holds `log->lock`. -/
def settlePagetableLog (holding : Bool) (state : LogState) : LogState :=
  if state.log.committing && !holding then stopCommitting (commitHeader state)
  else if holding then lowerBoth state
  else state

/-- The end of `mlist_tracker` for an object that has been recovered before. -/
def alreadyRecovered (state : LogState) : LogState :=
  if state.log.outstanding ≠ 0 then
    { state with log := { state.log with outstanding := state.log.outstanding - 1 } }
  else state

/-- A recovery path, with what it depends on besides the log and the call stack. -/
inductive RecoveryPath where
  | buf (crowded : Bool) (disk : LogHeader) (first : Nat)
  | inode (lost : Bool)
  | kmem (new : Nat)
  | run
  /-- `ret` is the policy of the handler. -/
  | pagetable (holding : Bool) (ret : Policy)
  /-- `num` is the number of processes in the critical section, `page` the new page. -/
  | log (num : Int) (nlog : Nat) (page : LogHeader)
  /-- `recorded` is the policy recorded at the first recovery. -/
  | recovered (recorded : Policy)

/-- `PIPE`: the policy recorded for a pipe. -/
def Policy.pipe : Policy := 0xb

/-- The log after a recovery path. `none` is FAIL_STOP or a panic. -/
def recover (fault : Fault) (path : RecoveryPath) (state : LogState) : Option LogState :=
  match path with
  | .buf crowded disk first => recoveryHandlerBuf fault crowded disk first state
  | .inode lost => recoveryHandlerInode fault lost state
  | .kmem new => recoveryHandlerKmem fault new state
  | .run => recoveryHandlerRun fault state
  | .pagetable holding ret =>
    if ret = Policy.failStop then none else some (settlePagetableLog holding state)
  | .log num nlog page =>
    (recoveryHandlerLog fault.text fault.mode fault.pcs num state.trans fault.pid nlog page
      state.dup).map fun (log, dup) => { state with log := log, dup := dup }
  | .recovered recorded =>
    if recorded = Policy.pipe ∨ recorded = Policy.syscallFail ∨
        recorded = Policy.syscallSuccess ∨ recorded = Policy.syscallRedo ∨
        recorded = Policy.processKill then
      some (alreadyRecovered state)
    else none

/-! ## The counters after each handler -/

/-- Entering and leaving a log transaction at once keeps the counters. -/
theorem checkInsideTrans_of_enter_exit {trans entered left : TransState} {log : Log}
    {leader : Nat} (enters : enterTransLog trans log leader = some entered)
    (exits : exitTransLog entered leader = some left) (pid : Nat) :
    checkInsideTrans left .log pid = checkInsideTrans trans .log pid ∧
      left.logOutstanding = -1 := by
  simp only [enterTransLog, enterTrans, ite_none_left_eq_some] at enters
  cases enters.2
  simp only [exitTransLog, exitTrans, ite_none_left_eq_some, ownIndex_count] at exits
  cases exits.2
  refine ⟨?_, rfl⟩
  show ((TransState.count (TransState.count _ _ .log 1) _ .log (-1)).array
    (searchTransInfo (TransState.count (TransState.count _ _ .log 1) _ .log (-1)) pid)).ntrans .log = _
  rw [searchTransInfo_count, searchTransInfo_count, ntrans_count, ntrans_count]
  show (trans.array (searchTransInfo trans pid)).ntrans .log + _ + _ = _
  rw [checkInsideTrans]
  have same : ownIndex (logEntry trans (.log log)) leader = ownIndex trans leader := rfl
  rw [same]
  split <;> omega

/-- A counter that has been lowered where it was positive. -/
def lowered (outstanding : Int) : Int :=
  if outstanding > 0 then outstanding - 1 else outstanding

/-- The count that `check_and_handle_trans_log` would restore: `recover_from_log` leaves
-1 behind. -/
def snapshot (fault : Fault) (state : LogState) : Int :=
  if state.log.committing ∧ redo fault = .install then -1 else state.trans.logOutstanding

/-- The exact condition under which a path keeps the two counters equal. -/
def Balanced (fault : Fault) (path : RecoveryPath) (state : LogState) : Prop :=
  match path with
  | .buf _ _ _ =>
    checkInsideTrans state.trans .log fault.pid ≤ 0 ∨
      snapshot fault state = lowered state.log.outstanding
  | .inode _ => state.log.outstanding ≤ 0
  | .kmem _ | .run => state.log.outstanding ≤ 1 ∨ fault.calls [.sysSbrk] = false
  | .pagetable _ _ | .log _ _ _ => True
  | .recovered _ => state.log.outstanding = 0

section Handlers

variable {fault : Fault} {state next : LogState}

theorem commitHeader_kept (state : LogState) :
    (commitHeader state).log.outstanding = state.log.outstanding ∧
      (commitHeader state).dup.outstanding = state.dup.outstanding ∧
      (commitHeader state).trans = state.trans := by
  unfold commitHeader
  split
  · exact ⟨rfl, rfl, rfl⟩
  · exact ⟨rfl, rfl, rfl⟩

/-- Redoing a commit changes no counter, but it can change the snapshot. -/
theorem redoCommit_kept {disk : LogHeader} (redone : redoCommit fault disk state = some next) :
    next.log.outstanding = state.log.outstanding ∧
      next.dup.outstanding = state.dup.outstanding ∧
      checkInsideTrans next.trans .log fault.pid = checkInsideTrans state.trans .log fault.pid ∧
      next.trans.logOutstanding = snapshot fault state := by
  unfold redoCommit at redone
  split at redone
  · rename_i committing
    split at redone
    · rename_i install
      obtain ⟨after, recovered, rfl⟩ := map_eq_some_iff.mp redone
      obtain ⟨entered, enters, rest⟩ := bind_eq_some_iff.mp recovered
      obtain ⟨left, exits, rfl⟩ := map_eq_some_iff.mp rest
      obtain ⟨inside, outstanding⟩ := checkInsideTrans_of_enter_exit enters exits fault.pid
      refine ⟨rfl, rfl, inside, ?_⟩
      rw [snapshot, if_pos ⟨committing, install⟩]
      exact outstanding
    · rename_i commit
      cases redone
      obtain ⟨outstanding, dup, trans⟩ := commitHeader_kept state
      have kept : (stopCommitting (commitHeader state)).trans = state.trans := trans
      refine ⟨outstanding, dup, by rw [kept], ?_⟩
      rw [kept, snapshot, if_neg]
      rintro ⟨-, install⟩
      rw [commit] at install
      cases install
    · rename_i nothing
      cases redone
      refine ⟨rfl, rfl, rfl, ?_⟩
      rw [snapshot, if_neg]
      · rfl
      · rintro ⟨-, install⟩
        rw [nothing] at install
        cases install
  · rename_i calm
    cases redone
    refine ⟨rfl, rfl, rfl, ?_⟩
    rw [snapshot, if_neg]
    exact fun both => calm both.1

theorem lowerBoth_kept (state : LogState) :
    (lowerBoth state).log.outstanding = lowered state.log.outstanding ∧
      (lowerBoth state).dup.outstanding =
        state.dup.outstanding - (state.log.outstanding - lowered state.log.outstanding) ∧
      (lowerBoth state).trans = state.trans := by
  unfold lowerBoth lowered
  split
  · refine ⟨rfl, ?_, rfl⟩
    show state.dup.outstanding - 1 = _
    omega
  · refine ⟨rfl, ?_, rfl⟩
    show state.dup.outstanding = _
    omega

/-- The handler of a buffer lowers both counters and then restores the second one, when
the process was inside a log transaction. -/
theorem recoveryHandlerBuf_agrees {crowded : Bool} {disk : LogHeader} {first : Nat}
    (equal : state.log.outstanding = state.dup.outstanding)
    (continued : recoveryHandlerBuf fault crowded disk first state = some next) :
    next.log.outstanding = next.dup.outstanding ↔
      checkInsideTrans state.trans .log fault.pid ≤ 0 ∨
        snapshot fault state = lowered state.log.outstanding := by
  obtain ⟨-, solved⟩ := ite_none_left_eq_some.mp continued
  obtain ⟨redone, redo, rfl⟩ := map_eq_some_iff.mp solved
  obtain ⟨outstanding, dup, inside, logged⟩ := redoCommit_kept redo
  obtain ⟨low, lowDup, trans⟩ := lowerBoth_kept (evictHeader first redone)
  have evicted : (evictHeader first redone).log.outstanding = redone.log.outstanding ∧
      (evictHeader first redone).dup.outstanding = redone.dup.outstanding ∧
      (evictHeader first redone).trans = redone.trans := ⟨rfl, rfl, rfl⟩
  rw [evicted.1, outstanding] at low
  rw [evicted.1, evicted.2.1, outstanding, dup] at lowDup
  rw [evicted.2.2] at trans
  unfold rollBackLog checkAndHandleTransLog
  rw [trans, inside]
  split
  · rename_i within
    show (lowerBoth (evictHeader first redone)).log.outstanding = redone.trans.logOutstanding ↔ _
    rw [low, logged]
    constructor
    · exact fun same => .inr same.symm
    · rintro (outside | same)
      · omega
      · exact same.symm
  · rename_i outside
    refine ⟨fun _ => .inl (Int.not_lt.mp outside), fun _ => ?_⟩
    show (lowerBoth (evictHeader first redone)).log.outstanding =
      (lowerBoth (evictHeader first redone)).dup.outstanding
    rw [low, lowDup]
    omega

/-- The handler of an inode lowers the first counter only. -/
theorem recoveryHandlerInode_agrees {lost : Bool}
    (equal : state.log.outstanding = state.dup.outstanding)
    (continued : recoveryHandlerInode fault lost state = some next) :
    next.log.outstanding = next.dup.outstanding ↔ state.log.outstanding ≤ 0 := by
  obtain ⟨-, same⟩ := ite_none_left_eq_some.mp continued
  cases same
  unfold solveInconsistencyInode
  split
  · show state.log.outstanding - 1 = state.dup.outstanding ↔ _
    omega
  · rename_i none
    exact ⟨fun _ => Int.not_lt.mp none, fun _ => equal⟩

/-- One round of `after_treatment`. -/
theorem afterTreatmentFrame_outstanding {ret ret' : Policy} {log log' : Log} {address : Nat}
    (scanned : afterTreatmentFrame fault (ret, log) address = some (ret', log')) :
    log'.outstanding =
      if fault.text.isInsideAny address [.sysSbrk] ∧ log.outstanding > 1 then log.outstanding - 1
      else log.outstanding := by
  obtain ⟨-, rest⟩ := ite_none_left_eq_some.mp scanned
  obtain ⟨-, same⟩ := ite_none_left_eq_some.mp rest
  cases same
  split <;> rfl

/-- The scan of `after_treatment` lowers the counter when it meets `sys_sbrk` and the
counter is above 1. -/
theorem foldlM_afterTreatmentFrame {pcs : List Nat} {start final : Policy × Log}
    (scanned : pcs.foldlM (afterTreatmentFrame fault) start = some final) :
    final.2.outstanding ≤ start.2.outstanding ∧
      (final.2.outstanding = start.2.outstanding ↔
        start.2.outstanding ≤ 1 ∨
          pcs.any (fun address => fault.text.isInsideAny address [.sysSbrk]) = false) := by
  induction pcs generalizing start with
  | nil =>
    cases scanned
    simp
  | cons address rest ih =>
    rw [List.foldlM_cons] at scanned
    obtain ⟨middle, first, tail⟩ := bind_eq_some_iff.mp scanned
    have step := afterTreatmentFrame_outstanding first
    obtain ⟨below, kept⟩ := ih tail
    rw [List.any_cons, Bool.or_eq_false_iff]
    split at step
    · rename_i lowers
      refine ⟨by omega, ⟨fun same => by omega, ?_⟩⟩
      rintro (few | ⟨outside, -⟩)
      · omega
      · exact absurd (lowers.1.symm.trans outside) (by decide)
    · rename_i keeps
      rw [step] at below kept
      refine ⟨below, kept.trans ?_⟩
      by_cases few : start.2.outstanding ≤ 1
      · exact iff_of_true (.inl few) (.inl few)
      · have other : fault.text.isInsideAny address [.sysSbrk] = false := by
          by_contra inside
          exact keeps ⟨by simpa using inside, Int.not_le.mp few⟩
        rw [other]
        exact or_congr_right ⟨fun outside => ⟨rfl, outside⟩, And.right⟩

theorem afterTreatment_outstanding {ret : Policy}
    (treated : afterTreatment fault state = some (ret, next)) :
    next.dup = state.dup ∧ (next.log.outstanding = state.log.outstanding ↔
      state.log.outstanding ≤ 1 ∨ fault.calls [.sysSbrk] = false) := by
  obtain ⟨⟨found, log⟩, scanned, same⟩ := map_eq_some_iff.mp treated
  obtain ⟨-, rfl⟩ := Prod.mk.inj same
  exact ⟨rfl, (foldlM_afterTreatmentFrame scanned).2⟩

/-- The handlers of `struct run` and `struct kmem` lower the first counter only, for a
system call that grows or shrinks a process. -/
theorem recoveryHandlerRun_agrees (equal : state.log.outstanding = state.dup.outstanding)
    (continued : recoveryHandlerRun fault state = some next) :
    next.log.outstanding = next.dup.outstanding ↔
      state.log.outstanding ≤ 1 ∨ fault.calls [.sysSbrk] = false := by
  obtain ⟨⟨ret, after⟩, treated, rfl⟩ := map_eq_some_iff.mp continued
  obtain ⟨dup, kept⟩ := afterTreatment_outstanding treated
  rw [dup, ← equal]
  exact kept

theorem recoveryHandlerKmem_agrees {new : Nat}
    (equal : state.log.outstanding = state.dup.outstanding)
    (continued : recoveryHandlerKmem fault new state = some next) :
    next.log.outstanding = next.dup.outstanding ↔
      state.log.outstanding ≤ 1 ∨ fault.calls [.sysSbrk] = false := by
  obtain ⟨trans, -, treated⟩ := bind_eq_some_iff.mp continued
  exact @recoveryHandlerRun_agrees fault { state with trans := trans } next equal treated

/-- The handler of a page table lowers both counters or neither. -/
theorem settlePagetableLog_agrees (holding : Bool)
    (equal : state.log.outstanding = state.dup.outstanding) :
    (settlePagetableLog holding state).log.outstanding =
      (settlePagetableLog holding state).dup.outstanding := by
  unfold settlePagetableLog
  split
  · obtain ⟨outstanding, dup, -⟩ := commitHeader_kept state
    exact outstanding.trans (equal.trans dup.symm)
  · split
    · obtain ⟨low, lowDup, -⟩ := lowerBoth_kept state
      omega
    · exact equal

theorem alreadyRecovered_agrees (equal : state.log.outstanding = state.dup.outstanding) :
    (alreadyRecovered state).log.outstanding = (alreadyRecovered state).dup.outstanding ↔
      state.log.outstanding = 0 := by
  unfold alreadyRecovered
  split
  · show state.log.outstanding - 1 = state.dup.outstanding ↔ _
    omega
  · rename_i zero
    exact iff_of_true equal (not_not.mp zero)

/-- A recovery path keeps the two counters equal exactly in the states that `Balanced`
describes. -/
theorem recover_agrees_iff (path : RecoveryPath)
    (equal : state.log.outstanding = state.dup.outstanding)
    (continued : recover fault path state = some next) :
    next.log.outstanding = next.dup.outstanding ↔ Balanced fault path state := by
  cases path with
  | buf crowded disk first => exact recoveryHandlerBuf_agrees equal continued
  | inode lost => exact recoveryHandlerInode_agrees equal continued
  | kmem new => exact recoveryHandlerKmem_agrees equal continued
  | run => exact recoveryHandlerRun_agrees equal continued
  | pagetable holding ret =>
    obtain ⟨-, same⟩ := ite_none_left_eq_some.mp continued
    cases same
    exact iff_of_true (settlePagetableLog_agrees holding equal) trivial
  | log num nlog page =>
    obtain ⟨⟨log, dup⟩, recovered, rfl⟩ := map_eq_some_iff.mp continued
    exact iff_of_true (recoveryHandlerLog_outstanding recovered).2.1 trivial
  | recovered recorded =>
    obtain ⟨-, same⟩ := Option.ite_none_right_eq_some.mp continued
    cases same
    exact alreadyRecovered_agrees equal

end Handlers

/-- A process with pid 2 inside a log transaction, in its operation. -/
def sampleLogState : LogState where
  log := ⟨30, 1, false, 0, fun _ => 0⟩
  dup := ⟨⟨0, fun _ => 0⟩, 1⟩
  trans :=
    { nextpid := 3
      array := fun index =>
        if index = 0 then ⟨1, 0, 0, 0⟩ else if index = 1 then ⟨2, 0, 1, 0⟩ else ⟨0, 0, 0, 0⟩
      logLogheader := ⟨0, fun _ => 0⟩
      logOutstanding := 1
      logRun := 0 }

/-- The process met the error in `log_write`. -/
def sampleFault : Fault := ⟨sampleText, .aggressive, [0x80004410], 2, 2, false⟩

/-- A page-table error in the same place. -/
theorem recover_agrees_iff_sample : ∃ next,
    recover sampleFault (.pagetable true Policy.processKill) sampleLogState = some next ∧
    (next.log.outstanding = next.dup.outstanding ↔
      Balanced sampleFault (.pagetable true Policy.processKill) sampleLogState) := by
  obtain ⟨next, continued⟩ : ∃ next,
      recover sampleFault (.pagetable true Policy.processKill) sampleLogState = some next := ⟨_, rfl⟩
  exact ⟨next, continued, recover_agrees_iff _ rfl continued⟩

/-- A broken buffer in `log_write`: the operation is subtracted from the counter, and
the snapshot puts it back into the duplicate. -/
theorem snapshot_restores_aborted_operation : ¬∀ fault path state next,
    state.log.outstanding = state.dup.outstanding → recover fault path state = some next →
    next.log.outstanding = next.dup.outstanding := by
  intro always
  have found : ((recover sampleFault (.buf false ⟨0, fun _ => 0⟩ 7) sampleLogState).any fun next =>
      decide (next.log.outstanding = 0 ∧ next.dup.outstanding = 1)) = true := by
    decide +kernel
  cases result : recover sampleFault (.buf false ⟨0, fun _ => 0⟩ 7) sampleLogState with
  | none =>
    rw [result] at found
    cases found
  | some next =>
    rw [result] at found
    obtain ⟨zero, one⟩ := of_decide_eq_true found
    have same := always sampleFault _ sampleLogState next rfl result
    rw [zero, one] at same
    cases same

end Ev6.Logging
