import Ev6.Logging.Header

/-!
# Recovery of `struct log`

`recovery_handler_log`: the scan of the call stack, the new `struct log` with the
header of the duplicate, and the counter of the operations. The locks of the buffers
and inodes that the process held are released by the handler; no counter depends on
them.
-/

namespace Ev6.Logging

open Option (any_some bind_eq_some_iff ite_none_left_eq_some)
open Support Transactions

/-- What the scan of the call stack has met. -/
structure LogFlags where
  isChdir : Bool
  isBeginOp : Bool
  isEndOp : Bool
  isLogWrite : Bool

/-- The flags before the scan. -/
def LogFlags.start : LogFlags := ⟨false, false, false, false⟩

/-- An operation of the log is being aborted. -/
def LogFlags.aborts (flags : LogFlags) : Bool :=
  flags.isBeginOp || flags.isEndOp || flags.isLogWrite

/-- The first chain of tests of the scan. `none` is FAIL_STOP. -/
def logFrame (text : Text) (mode : RecoveryMode) (flags : LogFlags) (address : Nat) :
    Option LogFlags :=
  if text.isInside address .logWrite then
    if mode = .conservative then none else some { flags with isLogWrite := true }
  else if text.isInside address .beginOp then some { flags with isBeginOp := true }
  else if text.isInside address .endOp then some { flags with isEndOp := true }
  else if text.isInside address .sysChdir then some { flags with isChdir := true }
  -- never reached: the address would have passed the test for `end_op`
  else if text.isInside address .endOp && flags.isChdir then none
  else some flags

/-- One round of the scan. -/
def scanLogFrame (text : Text) (mode : RecoveryMode) (flags : LogFlags) (address : Nat) :
    Option LogFlags :=
  (logFrame text mode flags address).bind fun flags =>
    if mode = .conservative ∧ (text.isInside address .create ∨
        text.isInside address .fileclose ∧ flags.isBeginOp ∨
        text.isInside address .sysWrite) then none
    else some flags

/-- The scan of the call stack. -/
def scanLog (text : Text) (mode : RecoveryMode) (pcs : List Nat) : Option LogFlags :=
  pcs.foldlM (scanLogFrame text mode) .start

/-- The new `struct log` and the duplicates: `page` is the header in the page that
`my_kalloc` returns, and `nlog` the size in the superblock. -/
def rebuildLog (trans : TransState) (pid nlog : Nat) (page : LogHeader) (dup : LogReplica) :
    Log × LogReplica :=
  let dup := checkAndHandleTransLogheader trans pid dup
  ({ size := nlog
     outstanding := dup.outstanding
     committing := false
     lh :=
      { n := dup.lhdr.n
        block := fun i => if i < dup.lhdr.n then dup.lhdr.block i else page.block i } }, dup)

/-- Reflect the abort of the system call to the counters. -/
def reflectAbort (flags : LogFlags) : Log × LogReplica → Log × LogReplica
  | (log, dup) =>
    if log.outstanding ≠ 0 ∧ flags.aborts then
      ({ log with outstanding := log.outstanding - 1 },
        { dup with outstanding := dup.outstanding - 1 })
    else (log, dup)

/-- Commit when no operation is left. -/
def commitRecovered : Log × LogReplica → Log × LogReplica
  | (log, dup) =>
    if log.outstanding = 0 ∧ log.lh.n > 0 then
      ({ log with lh := cleared log.lh }, { dup with lhdr := cleared dup.lhdr })
    else (log, dup)

/-- `recovery_handler_log` after the commits of other processes have been waited for.
`num` is the number of processes in the recovery critical section. `none` is
FAIL_STOP. -/
def recoveryHandlerLog (text : Text) (mode : RecoveryMode) (pcs : List Nat) (num : Int)
    (trans : TransState) (pid nlog : Nat) (page : LogHeader) (dup : LogReplica) :
    Option (Log × LogReplica) :=
  (scanLog text mode pcs).bind fun flags =>
    if num > 1 then none
    else some (commitRecovered (reflectAbort flags (rebuildLog trans pid nlog page dup)))

/-! ## The scan of the call stack -/

/-- One of the functions of an operation that the scan looks for. -/
def Text.isLogOperation (text : Text) (address : Nat) : Bool :=
  text.isInsideAny address [.logWrite, .beginOp, .endOp]

variable {flags : LogFlags} {mode : RecoveryMode} {text : Text}

theorem scanLogFrame_aborts {next : LogFlags}
    {address : Nat} (scanned : scanLogFrame text mode flags address = some next) :
    next.aborts = (flags.aborts || Text.isLogOperation text address) := by
  obtain ⟨found, chained, kept⟩ := bind_eq_some_iff.mp scanned
  obtain ⟨-, same⟩ := ite_none_left_eq_some.mp kept
  cases same
  unfold logFrame at chained
  split at chained
  · rename_i write
    obtain ⟨-, same⟩ := ite_none_left_eq_some.mp chained
    cases same
    simp [LogFlags.aborts, Text.isLogOperation, Text.isInsideAny, write]
  · rename_i notWrite
    split at chained
    · rename_i begins
      cases chained
      simp [LogFlags.aborts, Text.isLogOperation, Text.isInsideAny, begins]
    · rename_i notBegin
      split at chained
      · rename_i ends
        cases chained
        simp [LogFlags.aborts, Text.isLogOperation, Text.isInsideAny, ends]
      · rename_i notEnd
        have none : Text.isLogOperation text address = false := by
          simp [Text.isLogOperation, Text.isInsideAny, notWrite, notBegin, notEnd]
        split at chained
        · cases chained
          simp [LogFlags.aborts, none]
        · obtain ⟨-, same⟩ := ite_none_left_eq_some.mp chained
          cases same
          simp [none]

/-- The scan finds out whether an operation of the log is on the call stack. -/
theorem foldlM_scanLogFrame_aborts {pcs : List Nat}
    {next : LogFlags} (scanned : pcs.foldlM (scanLogFrame text mode) flags = some next) :
    next.aborts = (flags.aborts || pcs.any (Text.isLogOperation text)) := by
  induction pcs generalizing flags with
  | nil =>
    cases scanned
    simp
  | cons address rest ih =>
    rw [List.foldlM_cons] at scanned
    obtain ⟨after, first, tail⟩ := bind_eq_some_iff.mp scanned
    rw [ih tail, scanLogFrame_aborts first, List.any_cons, Bool.or_assoc]

theorem scanLog_aborts {pcs : List Nat} (scanned : scanLog text mode pcs = some flags) :
    flags.aborts = pcs.any (Text.isLogOperation text) := by
  rw [foldlM_scanLogFrame_aborts scanned]
  rfl

/-! ## The rebuilt header -/

section Rebuild

variable {others : Nat} {pid : Fin (others + 1) → Nat} {slot : Fin (others + 1) → Int}
  {machine : Machine others}

/-- The rebuilt header is the duplicate that `check_and_handle_trans_logheader`
leaves. -/
theorem same_rebuildLog (trans : TransState) (own nlog : Nat) (page : LogHeader)
    (dup : LogReplica) :
    Same (rebuildLog trans own nlog page dup).1.lh
      (checkAndHandleTransLogheader trans own dup).lhdr :=
  ⟨rfl, fun i inside => by simp [rebuildLog] at inside ⊢; intro outside; omega⟩

/-- Inside a transaction the handler takes the snapshot, else the duplicate. -/
theorem Framed.replica (framed : Framed pid slot machine) (p : Fin (others + 1)) :
    checkAndHandleTransLogheader machine.trans (pid p) machine.dup =
      if (machine.pc p).inTrans then
        ⟨machine.trans.logLogheader,
          if machine.trans.logOutstanding ≥ 0 then machine.trans.logOutstanding
          else machine.dup.outstanding⟩
      else machine.dup := by
  have depth : checkInsideTrans machine.trans .log (pid p) =
      if (machine.pc p).inTrans then 1 else 0 := by
    rw [checkInsideTrans, framed.seats.found p]
    exact framed.depth p
  rw [checkAndHandleTransLogheader, depth]
  cases (machine.pc p).inTrans <;> rfl

/-- Between two updates, and during those outside a transaction, the duplicate is the
header before the update or after it. -/
theorem Framed.duplicate (framed : Framed pid slot machine) {before after : LogHeader}
    (update : machine.update = some (before, after)) (p : Fin (others + 1))
    (outside : (machine.pc p).inTrans = false) (calm : ∀ q, q ≠ p → (machine.pc q).inBoot = false) :
    Same machine.dup.lhdr before ∨ Same machine.dup.lhdr after := by
  obtain ⟨q, updates, progress⟩ := framed.busy before after update
  have quiet : (machine.pc q).inBoot = true → (machine.pc q).inTrans = false := by
    intro boots
    by_cases same : q = p
    · exact same ▸ outside
    · exact absurd (boots.symm.trans (calm q same)) (by decide)
  cases here : machine.pc q with
  | writeBlock b i =>
    rw [here] at progress
    exact .inl progress.duplicate
  | writeDupBlock b i | writeTest b i | writePin b i | writeGrow b i =>
    rw [here] at progress
    exact .inl progress.1.duplicate
  | writeDupGrow b i | commitClearDup | bootClearDup =>
    rw [here] at progress
    exact .inl progress.1
  | writeExit =>
    rw [here] at progress
    exact .inr progress.1
  | bootN | bootDupN | bootTest i | bootBlock i | bootDupBlock i | bootExit =>
    rw [here] at quiet
    exact absurd (quiet rfl) (by simp [Pc.inTrans])
  | _ =>
    rw [here] at updates
    cases updates

/-- The memory of a machine with two processes when the first one boots it. -/
def sampleMachine : Machine 1 where
  log := ⟨30, 0, false, 0, fun _ => 0⟩
  dup := ⟨⟨0, fun _ => 0⟩, 0⟩
  trans :=
    { nextpid := 2
      array := fun index => ⟨if index = 0 then 1 else if index = 1 then 2 else 0, 0, 0, 0⟩
      logLogheader := ⟨0, fun _ => 0⟩
      logOutstanding := -1
      logRun := 0 }
  lock := none
  pc := fun p => if p = ⟨0, Nat.zero_lt_two⟩ then .bootEnter else .out
  booted := false
  disk := ⟨0, fun _ => 0⟩
  update := none

/-- The pids of the two processes. -/
def samplePid (p : Fin 2) : Nat := p + 1

theorem boots_sampleMachine : Boots samplePid sampleMachine where
  empty := ⟨rfl, rfl⟩
  idle := ⟨rfl, rfl, rfl⟩
  free := rfl
  locations := rfl
  booting := rfl
  quiet := rfl
  seated := ⟨fun p => (p : Nat), ⟨by decide, by decide, rfl⟩, by decide⟩

/-- A process runs through a number of steps. -/
def steps {others : Nat} (p : Fin (others + 1)) (n : Nat) : List (Label others) :=
  List.replicate n (.act p .step)

/-- Wherever in `read_head`, `log_write`, `commit` or `recover_from_log` a process
meets an error in `struct log`, the handler rebuilds the header just before, or just
after, the update in progress; when none is, the header itself. -/
theorem rebuilt_header {labels : List (Label others)}
    (runs : (logSystem pid).Runs labels machine) (p : Fin (others + 1))
    (inside : ((machine.pc p).inWrite || (machine.pc p).inCommit || (machine.pc p).inBoot) = true)
    (nlog : Nat) (page : LogHeader) :
    match machine.update with
    | none => Same (rebuildLog machine.trans (pid p) nlog page machine.dup).1.lh machine.log.lh
    | some (before, after) =>
      Same (rebuildLog machine.trans (pid p) nlog page machine.dup).1.lh before ∨
      Same (rebuildLog machine.trans (pid p) nlog page machine.dup).1.lh after := by
  obtain ⟨controlled, slot, framed⟩ := framed_of_runs runs
  have rebuilt := same_rebuildLog machine.trans (pid p) nlog page machine.dup
  rw [framed.replica p] at rebuilt
  have calm : ∀ q, q ≠ p → (machine.pc q).inBoot = false := by
    intro q other
    by_contra boots
    rw [(controlled.boot (by simpa using boots)).2 p fun same => other same.symm] at inside
    cases inside
  cases transaction : (machine.pc p).inTrans with
  | true =>
    obtain ⟨⟨after, snapshot⟩, -⟩ := framed.snapshot p transaction
    rw [transaction, if_pos rfl] at rebuilt
    rw [snapshot]
    exact .inl rebuilt
  | false =>
    rw [transaction] at rebuilt
    cases update : machine.update with
    | none => exact rebuilt.trans (framed.quiet update).1
    | some pair =>
      exact (framed.duplicate update p transaction calm).imp rebuilt.trans rebuilt.trans

/-- The first process is in `log_write`, before it writes the block. -/
theorem rebuilt_header_sample : ∃ machine before after, (logSystem samplePid).Runs
      (steps 0 9 ++ [.act 0 .beginOp] ++ steps 0 7 ++ [.act 0 (.logWrite 7)] ++ steps 0 5)
      machine ∧ machine.update = some (before, after) ∧
    (Same (rebuildLog machine.trans 1 30 ⟨0, fun _ => 0⟩ machine.dup).1.lh before ∨
      Same (rebuildLog machine.trans 1 30 ⟨0, fun _ => 0⟩ machine.dup).1.lh after) := by
  have found : ((LabelledSystem.exec (Machine.step samplePid) sampleMachine
      (steps 0 9 ++ [.act 0 .beginOp] ++ steps 0 7 ++ [.act 0 (.logWrite 7)] ++ steps 0 5)).any
        fun machine => (machine.pc 0).inWrite && machine.update.isSome) = true := by
    decide +kernel
  cases result : LabelledSystem.exec (Machine.step samplePid) sampleMachine
      (steps 0 9 ++ [.act 0 .beginOp] ++ steps 0 7 ++ [.act 0 (.logWrite 7)] ++ steps 0 5) with
  | none =>
    rw [result] at found
    cases found
  | some machine =>
    rw [result, any_some, Bool.and_eq_true] at found
    obtain ⟨⟨before, after⟩, update⟩ := Option.isSome_iff_exists.mp found.2
    have run := LabelledSystem.Runs.of_exec boots_sampleMachine result
    have rebuilt := rebuilt_header run 0 (by simp [found.1]) 30 ⟨0, fun _ => 0⟩
    rw [update] at rebuilt
    exact ⟨machine, before, after, run, update, rebuilt⟩

/-! ## The rebuilt counter -/

/-- The other processes that are between `begin_op` and `end_op`. -/
def othersInOperation (machine : Machine others) (p : Fin (others + 1)) : Int :=
  tally fun q => decide (q ≠ p) && (machine.pc q).inOperation

variable {pc : Pc}

/-- Outside the recovery critical section the operations that run are the counted
ones. -/
theorem Pc.counted_of_outside (outside : pc.inSection = false) (running : pc.inBoot = false) :
    pc.counted = pc.inOperation ∧ pc.dupCounted = pc.inOperation := by
  cases pc <;> simp_all [Pc.inSection, Pc.inBoot, Pc.counted, Pc.dupCounted, Pc.inOperation]

/-- The duplicate of the counter is written right after the counter, and neither of
these two steps is an access to `struct log` that the other has not preceded. -/
theorem Pc.dupCounted_of_touchesLog (touches : pc.touchesLog = true) :
    pc.dupCounted = pc.counted := by
  cases pc <;> simp_all [Pc.touchesLog, Pc.counted, Pc.dupCounted, Pc.inWrite]

theorem Pc.not_inBoot (inside : pc.inSection = true) : pc.inBoot = false := by
  cases pc <;> first | rfl | cases inside

/-- A process that accesses `struct log` in an operation is in the recovery critical
section. -/
theorem Pc.inSection_of_touchesLog {pc : Pc} (touches : pc.touchesLog = true)
    (operation : (pc.inBegin || pc.inWrite || pc.inEnd || pc.inCommit) = true) :
    pc.inSection = true := by
  cases pc <;> simp_all [Pc.touchesLog, Pc.inSection, Pc.inBoot, Pc.inBegin, Pc.inWrite,
    Pc.inEnd, Pc.inCommit]

/-- The counters when no other process is in the recovery critical section. -/
theorem Controlled.alone (controlled : Controlled machine) {p : Fin (others + 1)}
    (inside : (machine.pc p).inSection = true)
    (few : tally (fun q => (machine.pc q).inSection) ≤ 1) :
    machine.log.outstanding =
        (if (machine.pc p).counted then 1 else 0) + othersInOperation machine p ∧
      machine.dup.outstanding =
        (if (machine.pc p).dupCounted then 1 else 0) + othersInOperation machine p := by
  have outside : ∀ q, q ≠ p → (machine.pc q).inSection = false :=
    @tally_others_eq_zero _ _ _ (fun q => (machine.pc q).inSection) p inside few
  have running : ∀ q, (machine.pc q).inBoot = false := by
    intro q
    by_cases same : p = q
    · subst same
      exact Pc.not_inBoot inside
    · by_contra boots
      rw [(controlled.boot (by simpa using boots)).2 p same] at inside
      cases inside
  rw [controlled.counted, controlled.dupCounted, tally_split _ p,
    tally_split (fun q => (machine.pc q).dupCounted) p, othersInOperation]
  have same : ∀ q, (decide (q ≠ p) && (machine.pc q).counted) =
      (decide (q ≠ p) && (machine.pc q).inOperation) ∧
      (decide (q ≠ p) && (machine.pc q).dupCounted) =
        (decide (q ≠ p) && (machine.pc q).inOperation) := by
    intro q
    by_cases other : q = p
    · simp [other]
    · obtain ⟨counted, dupCounted⟩ := Pc.counted_of_outside (outside q other) (running q)
      rw [counted, dupCounted]
      exact ⟨rfl, rfl⟩
  rw [tally_congr fun q => (same q).1, tally_congr fun q => (same q).2]
  exact ⟨rfl, rfl⟩

theorem commitRecovered_outstanding (log : Log) (dup : LogReplica) :
    (commitRecovered (log, dup)).1.outstanding = log.outstanding ∧
      (commitRecovered (log, dup)).2.outstanding = dup.outstanding := by
  rw [commitRecovered]
  split
  · exact ⟨rfl, rfl⟩
  · exact ⟨rfl, rfl⟩

theorem reflectAbort_outstanding (flags : LogFlags) {log : Log} {dup : LogReplica}
    (equal : log.outstanding = dup.outstanding) :
    (reflectAbort flags (log, dup)).1.outstanding =
        (reflectAbort flags (log, dup)).2.outstanding ∧
      (reflectAbort flags (log, dup)).2.outstanding =
        if dup.outstanding ≠ 0 ∧ flags.aborts then dup.outstanding - 1
        else dup.outstanding := by
  by_cases reflects : dup.outstanding ≠ 0 ∧ flags.aborts = true
  · simp [reflectAbort, equal, reflects]
  · simp only [reflectAbort, equal, reflects, if_false, and_self]

theorem recoveryHandlerLog_outstanding {text : Text} {mode : RecoveryMode} {pcs : List Nat}
    {num : Int} {trans : TransState} {own nlog : Nat} {page : LogHeader} {dup : LogReplica}
    {log' : Log} {dup' : LogReplica}
    (continued : recoveryHandlerLog text mode pcs num trans own nlog page dup = some (log', dup')) :
    num ≤ 1 ∧ log'.outstanding = dup'.outstanding ∧
      dup'.outstanding =
        let outstanding := (checkAndHandleTransLogheader trans own dup).outstanding
        if outstanding ≠ 0 ∧ pcs.any (Text.isLogOperation text) then outstanding - 1
        else outstanding := by
  obtain ⟨flags, scanned, rest⟩ := bind_eq_some_iff.mp continued
  obtain ⟨few, same⟩ := ite_none_left_eq_some.mp rest
  have result := Option.some.inj same
  obtain ⟨equal, value⟩ := reflectAbort_outstanding flags
    (show (rebuildLog trans own nlog page dup).1.outstanding =
      (rebuildLog trans own nlog page dup).2.outstanding from rfl)
  obtain ⟨log, replica⟩ := commitRecovered_outstanding
    (reflectAbort flags (rebuildLog trans own nlog page dup)).1
    (reflectAbort flags (rebuildLog trans own nlog page dup)).2
  rw [Prod.mk.eta, result] at log replica
  refine ⟨Int.not_lt.mp few, (log.trans equal).trans replica.symm, ?_⟩
  rw [← scanLog_aborts scanned]
  exact replica.trans value

/-- Where a process meets an error in `struct log`, in an operation on the log. -/
def Faults (machine : Machine others) (p : Fin (others + 1)) : Prop :=
  (machine.pc p).touchesLog = true ∧
    ((machine.pc p).inBegin || (machine.pc p).inWrite || (machine.pc p).inEnd ||
      (machine.pc p).inCommit) = true

instance {others : Nat} (machine : Machine others) (p : Fin (others + 1)) :
    Decidable (Faults machine p) := by
  unfold Faults
  infer_instance

/-- Where the functions lie in a sample kernel. -/
def sampleText : Text
  | .beginOp => (0x80004000, 0x80004142)
  | .endOp => (0x80004200, 0x8000431a)
  | .logWrite => (0x80004400, 0x80004574)
  | _ => (0x80009000, 0x80009000)

/-- The first process is in an operation and the second one forks off and calls
`begin_op`: the steps up to `log->committing`. -/
def sampleBegin (first second : Fin 2) : List (Label 1) :=
  steps first 9 ++ [.act first .beginOp] ++ steps first 7 ++ [.fork, .act second .beginOp] ++
    steps second 1

end Rebuild

end Ev6.Logging
