import Ev6.Kernel.CallStack
import Ev6.Support.LabelledSystem
import Ev6.Support.Tally
import Ev6.Transactions.Basic

/-!
# The log, instruction by instruction

`begin_op`, `log_write` and `end_op` with `commit`, and `recover_from_log` at boot, of
`log.c`. A step of a process is an access to `struct log`, to its lock or to the
duplicates. Reads that do not steer the control flow, such as those of `write_log`,
`write_head` and `install_trans`, are one location each: a process may meet an error
there as well.
-/

namespace Ev6.Logging

open Support Transactions

/-- Where a process stands: the location of its next access. Inside `log_write`, `b`
is the block and `i` the index of the loop. -/
inductive Pc where
  /-- Outside the file-system operations. -/
  | out
  /-- Between `begin_op` and `end_op`. -/
  | op
  | beginTake
  | beginTest
  | beginSpace
  | beginAsleep
  | beginAdd
  | beginAddDup
  | beginDrop
  | beginLeave
  | writeSpace (b : Nat)
  | writeCaller (b : Nat)
  | writeTake (b : Nat)
  | writeScan (b i : Nat)
  | writeEnter (b i : Nat)
  | writeBlock (b i : Nat)
  | writeDupBlock (b i : Nat)
  | writeTest (b i : Nat)
  | writePin (b i : Nat)
  | writeGrow (b i : Nat)
  | writeDupGrow (b i : Nat)
  | writeExit
  | writeDrop
  | writeLeave
  | endTake
  | endSub
  | endSubDup
  | endTest
  | endLast
  | endSet
  | endDrop (commit : Bool)
  | endLeave (commit : Bool)
  | commitEnter
  | commitTest
  | commitLog
  | commitHead
  | commitInstall
  | commitClear
  | commitClearDup
  | commitErase
  | commitLeave
  | doneEnter
  | doneTake
  | doneClear
  | doneDrop
  | doneLeave
  | bootEnter
  | bootN
  | bootDupN
  | bootTest (i : Nat)
  | bootBlock (i : Nat)
  | bootDupBlock (i : Nat)
  | bootExit
  | bootInstall
  | bootClear
  | bootClearDup
  | bootErase
deriving DecidableEq

namespace Pc

/-- The process is in `log_write`. -/
def inWrite : Pc → Bool
  | writeSpace _ | writeCaller _ | writeTake _ | writeScan _ _ | writeEnter _ _ | writeBlock _ _
  | writeDupBlock _ _ | writeTest _ _ | writePin _ _ | writeGrow _ _ | writeDupGrow _ _ | writeExit
  | writeDrop | writeLeave => true
  | _ => false

/-- The process is in `begin_op`. -/
def inBegin : Pc → Bool
  | beginTake | beginTest | beginSpace | beginAsleep | beginAdd | beginAddDup | beginDrop
  | beginLeave => true
  | _ => false

/-- The process is in `end_op`, before or after `commit`. -/
def inEnd : Pc → Bool
  | endTake | endSub | endSubDup | endTest | endLast | endSet | endDrop _ | endLeave _
  | doneEnter | doneTake | doneClear | doneDrop | doneLeave => true
  | _ => false

/-- The process is in `commit`. -/
def inCommit : Pc → Bool
  | commitEnter | commitTest | commitLog | commitHead | commitInstall | commitClear
  | commitClearDup | commitErase | commitLeave => true
  | _ => false

/-- The process is in `recover_from_log`, at boot. -/
def inBoot : Pc → Bool
  | bootEnter | bootN | bootDupN | bootTest _ | bootBlock _ | bootDupBlock _ | bootExit
  | bootInstall | bootClear | bootClearDup | bootErase => true
  | _ => false

/-- The next access is to `struct log`, which includes its lock. -/
def touchesLog : Pc → Bool
  | beginTake | beginTest | beginSpace | beginAsleep | beginAdd | beginDrop
  | writeSpace _ | writeCaller _ | writeTake _ | writeScan _ _ | writeEnter _ _ | writeBlock _ _
  | writeTest _ _ | writeGrow _ _ | writeDrop
  | endTake | endSub | endTest | endLast | endSet | endDrop _
  | commitTest | commitLog | commitHead | commitInstall | commitClear | commitErase
  | doneTake | doneClear | doneDrop
  | bootEnter | bootN | bootTest _ | bootBlock _ | bootInstall | bootClear | bootErase => true
  | _ => false

/-- The process is in the recovery critical section of the log. -/
def inSection : Pc → Bool
  | out | op | commitEnter | doneEnter => false
  | pc => !pc.inBoot

/-- The process is between `begin_op` and `end_op`. -/
def inOperation : Pc → Bool
  | op => true
  | pc => pc.inWrite

/-- The operation of the process is counted in `log->outstanding`. -/
def counted : Pc → Bool
  | op | beginAddDup | beginDrop | beginLeave | endTake | endSub => true
  | pc => pc.inWrite

/-- The operation of the process is counted in `dup_outstanding`. -/
def dupCounted : Pc → Bool
  | op | beginDrop | beginLeave | endTake | endSub | endSubDup => true
  | pc => pc.inWrite

/-- The process holds `log->lock`. -/
def holds : Pc → Bool
  | beginTest | beginSpace | beginAdd | beginAddDup | beginDrop
  | writeScan _ _ | writeEnter _ _ | writeBlock _ _ | writeDupBlock _ _ | writeTest _ _
  | writePin _ _ | writeGrow _ _ | writeDupGrow _ _ | writeExit | writeDrop
  | endSub | endSubDup | endTest | endLast | endSet | endDrop _ | doneClear | doneDrop => true
  | _ => false

/-- The process commits: it has set `log->committing` and not cleared it. -/
def commits : Pc → Bool
  | endDrop commit | endLeave commit => commit
  | doneEnter | doneTake | doneClear => true
  | pc => pc.inCommit

/-- The process is inside a log transaction. -/
def inTrans : Pc → Bool
  | writeBlock _ _ | writeDupBlock _ _ | writeTest _ _ | writePin _ _ | writeGrow _ _
  | writeDupGrow _ _ | writeExit | bootN | bootDupN | bootTest _ | bootBlock _ | bootDupBlock _
  | bootExit => true
  | _ => false

/-- The process is in the middle of an update of the header. -/
def updates : Pc → Bool
  | commitClearDup | bootClearDup => true
  | pc => pc.inTrans

end Pc

/-- Two headers have the same length and the same blocks up to it. -/
def Same (header other : LogHeader) : Prop :=
  header.n = other.n ∧ ∀ i < header.n, header.block i = other.block i

/-- A header with block `b` at index `i`, which is in use or the next one. -/
def putBlock (header : LogHeader) (i b : Nat) : LogHeader where
  n := if i = header.n then header.n + 1 else header.n
  block := Function.update header.block i b

/-- An empty header. -/
def cleared (header : LogHeader) : LogHeader := { header with n := 0 }

/-- The log, its duplicates, the transactions, and where each process stands. The
first process is the one that boots. `disk` is the header on the disk at boot. No
function reads `update`: during an update of the header, the header just before it
and the one just after it. -/
structure Machine (others : Nat) where
  log : Log
  dup : LogReplica
  trans : TransState
  lock : Option (Fin (others + 1))
  pc : Fin (others + 1) → Pc
  booted : Bool
  disk : LogHeader
  update : Option (LogHeader × LogHeader)

/-- What one step does to the data. -/
inductive Change where
  | keep
  | takeLock
  | dropLock
  | addOutstanding (change : Int)
  | addDup (change : Int)
  | setCommitting (value : Bool)
  /-- A part of the header is copied by `enter_trans_log`. -/
  | tear (header : LogHeader) (outstanding : Int)
  /-- `enter_trans_log`, before an update that leads to `after`. -/
  | enter (after : LogHeader)
  | exit
  | setN (n : Nat)
  | setDupN (n : Nat)
  | setBlock (i b : Nat)
  | setDupBlock (i b : Nat)
  /-- `log->lh.n = 0`. -/
  | clear
  /-- `dup_lhdr.n = 0`. -/
  | clearDup
  | finishBoot
deriving Inhabited

/-- What a process does next, or which call it makes. -/
inductive Action where
  | step
  | beginOp
  | logWrite (b : Nat)
  | endOp
  | tear (header : LogHeader) (outstanding : Int)

/-- A step of the machine. A fork hands out the next pid. -/
inductive Label (others : Nat) where
  | act (p : Fin (others + 1)) (action : Action)
  | fork

variable {others : Nat}

namespace Machine

/-- The process goes to another location. -/
def goto (machine : Machine others) (p : Fin (others + 1)) (pc : Pc) : Machine others :=
  { machine with pc := Function.update machine.pc p pc }

/-- The next location of a process and what its step does. A panic is no step. -/
def control (machine : Machine others) : Pc → Option (Pc × Change)
  | .out | .op => none
  -- `begin_op`
  | .beginTake => some (.beginTest, .takeLock)
  | .beginTest =>
    some (if machine.log.committing then (.beginAsleep, .dropLock) else (.beginSpace, .keep))
  | .beginSpace =>
    some (if machine.log.lh.n + (machine.log.outstanding + 1) * maxopblocks > logsize then
      (.beginAsleep, .dropLock) else (.beginAdd, .keep))
  | .beginAsleep => some (.beginTest, .takeLock)
  | .beginAdd => some (.beginAddDup, .addOutstanding 1)
  | .beginAddDup => some (.beginDrop, .addDup 1)
  | .beginDrop => some (.beginLeave, .dropLock)
  | .beginLeave => some (.op, .keep)
  -- `log_write`
  | .writeSpace b =>
    if machine.log.lh.n ≥ logsize ∨ machine.log.lh.n + 1 ≥ machine.log.size then none
    else some (.writeCaller b, .keep)
  | .writeCaller b => if machine.log.outstanding < 1 then none else some (.writeTake b, .keep)
  | .writeTake b => some (.writeScan b 0, .takeLock)
  | .writeScan b i =>
    some (if i < machine.log.lh.n ∧ machine.log.lh.block i ≠ b then (.writeScan b (i + 1), .keep)
      else (.writeEnter b i, .keep))
  | .writeEnter b i => some (.writeBlock b i, .enter (putBlock machine.log.lh i b))
  | .writeBlock b i => some (.writeDupBlock b i, .setBlock i b)
  | .writeDupBlock b i => some (.writeTest b i, .setDupBlock i b)
  | .writeTest b i => some (if i = machine.log.lh.n then .writePin b i else .writeExit, .keep)
  | .writePin b i => some (.writeGrow b i, .keep)
  | .writeGrow b i => some (.writeDupGrow b i, .setN (machine.log.lh.n + 1))
  | .writeDupGrow _ _ => some (.writeExit, .setDupN (machine.dup.lhdr.n + 1))
  | .writeExit => some (.writeDrop, .exit)
  | .writeDrop => some (.writeLeave, .dropLock)
  | .writeLeave => some (.op, .keep)
  -- `end_op`
  | .endTake => some (.endSub, .takeLock)
  | .endSub => some (.endSubDup, .addOutstanding (-1))
  | .endSubDup => some (.endTest, .addDup (-1))
  | .endTest => if machine.log.committing then none else some (.endLast, .keep)
  | .endLast => some (if machine.log.outstanding = 0 then .endSet else .endDrop false, .keep)
  | .endSet => some (.endDrop true, .setCommitting true)
  | .endDrop commit => some (.endLeave commit, .dropLock)
  | .endLeave commit => some (if commit then .commitEnter else .out, .keep)
  -- `commit`
  | .commitEnter => some (.commitTest, .keep)
  | .commitTest => some (if machine.log.lh.n > 0 then .commitLog else .commitLeave, .keep)
  | .commitLog => some (.commitHead, .keep)
  | .commitHead => some (.commitInstall, .keep)
  | .commitInstall => some (.commitClear, .keep)
  | .commitClear => some (.commitClearDup, .clear)
  | .commitClearDup => some (.commitErase, .clearDup)
  | .commitErase => some (.commitLeave, .keep)
  | .commitLeave => some (.doneEnter, .keep)
  -- The end of `end_op`
  | .doneEnter => some (.doneTake, .keep)
  | .doneTake => some (.doneClear, .takeLock)
  | .doneClear => some (.doneDrop, .setCommitting false)
  | .doneDrop => some (.doneLeave, .dropLock)
  | .doneLeave => some (.out, .keep)
  -- `recover_from_log`
  | .bootEnter => some (.bootN, .enter machine.disk)
  | .bootN => some (.bootDupN, .setN machine.disk.n)
  | .bootDupN => some (.bootTest 0, .setDupN machine.disk.n)
  | .bootTest i => some (if i < machine.log.lh.n then .bootBlock i else .bootExit, .keep)
  | .bootBlock i => some (.bootDupBlock i, .setBlock i (machine.disk.block i))
  | .bootDupBlock i => some (.bootTest (i + 1), .setDupBlock i (machine.disk.block i))
  | .bootExit => some (.bootInstall, .exit)
  | .bootInstall => some (.bootClear, .keep)
  | .bootClear => some (.bootClearDup, .clear)
  | .bootClearDup => some (.bootErase, .clearDup)
  | .bootErase => some (.out, .finishBoot)

/-- The next location and the change of an action. -/
def moves (machine : Machine others) (p : Fin (others + 1)) : Action → Option (Pc × Change)
  | .step => machine.control (machine.pc p)
  | .beginOp =>
    if machine.pc p = .out ∧ machine.booted = true ∧ (p = 0 ∨ machine.trans.nextpid > 2) then
      some (.beginTake, .keep)
    else none
  | .logWrite b => if machine.pc p = .op then some (.writeSpace b, .keep) else none
  | .endOp => if machine.pc p = .op then some (.endTake, .keep) else none
  | .tear header outstanding =>
    match machine.pc p with
    | .writeEnter b i => some (.writeEnter b i, .tear header outstanding)
    | .bootEnter => some (.bootEnter, .tear header outstanding)
    | _ => none

/-- Apply a change made by a process with the given pid. -/
def apply (pid : Fin (others + 1) → Nat) (machine : Machine others) (p : Fin (others + 1)) :
    Change → Option (Machine others)
  | .keep => some machine
  | .takeLock => if machine.lock = none then some { machine with lock := some p } else none
  | .dropLock => some { machine with lock := none }
  | .addOutstanding change =>
    some { machine with
      log := { machine.log with outstanding := machine.log.outstanding + change } }
  | .addDup change =>
    some { machine with
      dup := { machine.dup with outstanding := machine.dup.outstanding + change } }
  | .setCommitting value => some { machine with log := { machine.log with committing := value } }
  | .tear header outstanding =>
    some { machine with
      trans := { machine.trans with logLogheader := header, logOutstanding := outstanding } }
  | .enter after =>
    (enterTransLog machine.trans machine.log (pid p)).map fun trans =>
      { machine with trans := trans, update := some (machine.log.lh, after) }
  | .exit =>
    (exitTransLog machine.trans (pid p)).map fun trans =>
      { machine with trans := trans, update := none }
  | .setN n => some { machine with log := { machine.log with lh := { machine.log.lh with n := n } } }
  | .setDupN n =>
    some { machine with dup := { machine.dup with lhdr := { machine.dup.lhdr with n := n } } }
  | .setBlock i b =>
    some { machine with
      log := { machine.log with
        lh := { machine.log.lh with block := Function.update machine.log.lh.block i b } } }
  | .setDupBlock i b =>
    some { machine with
      dup := { machine.dup with
        lhdr := { machine.dup.lhdr with
          block := Function.update machine.dup.lhdr.block i b } } }
  | .clear =>
    some { machine with
      log := { machine.log with lh := cleared machine.log.lh }
      update := some (machine.log.lh, cleared machine.log.lh) }
  | .clearDup =>
    some { machine with
      dup := { machine.dup with lhdr := cleared machine.dup.lhdr }
      update := none }
  | .finishBoot => some { machine with booted := true }

/-- One step. -/
def step (pid : Fin (others + 1) → Nat) (machine : Machine others) :
    Label others → Option (Machine others)
  | .act p action =>
    (machine.moves p action).bind fun (pc, change) =>
      (machine.apply pid p change).map fun next => next.goto p pc
  | .fork =>
    if machine.booted then
      some { machine with trans := { machine.trans with nextpid := machine.trans.nextpid + 1 } }
    else none

end Machine

/-- The processes have different slots of the transaction array, the first process
the first one. -/
structure Seats (trans : TransState) (pid : Fin (others + 1) → Nat)
    (slot : Fin (others + 1) → Int) : Prop where
  found : ∀ p, searchTransInfo trans (pid p) = slot p
  apart : Function.Injective slot
  first : slot 0 = 0

/-- The machine when the first process starts `recover_from_log`: the log is empty,
as is its duplicate, and no process is inside a log transaction. -/
structure Boots (pid : Fin (others + 1) → Nat) (machine : Machine others) : Prop where
  empty : machine.log.lh.n = 0 ∧ machine.dup.lhdr.n = 0
  idle : machine.log.outstanding = 0 ∧ machine.dup.outstanding = 0 ∧ machine.log.committing = false
  free : machine.lock = none
  locations : machine.pc = fun p => if p = 0 then .bootEnter else .out
  booting : machine.booted = false
  quiet : machine.update = none
  seated : ∃ slot, Seats machine.trans pid slot ∧
    ∀ p, (machine.trans.array (slot p)).logNtrans = 0

/-- Runs of the log from the boot on. -/
def logSystem (pid : Fin (others + 1) → Nat) :
    LabelledSystem (Machine others) (Label others) :=
  .ofFunction (Boots pid) (Machine.step pid)

end Ev6.Logging
