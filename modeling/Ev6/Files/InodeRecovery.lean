import Ev6.Files.Tables
import Ev6.Kernel.CallStack

/-!
# Moving the inode cache

`recovery_handler_inode` copies every entry of the inode cache but the broken one
into a new cache, lets `icache` point there and turns round the pointers that
files and processes hold. A file on the broken entry is cleared and evicted from
every process; a working directory on it is moved like any other.
-/

namespace Ev6.Files

open Support

/-- What the handler finds out about the process that met the error: its return
addresses, whether it cooperates, whether other processes are in the sections of
the inode and the file (`check_and_wait_procs_in_rcs_inode`), and where
`my_kalloc` put the new cache. -/
structure InodeFault where
  text : Text
  mode : RecoveryMode
  pcs : List Nat
  coop : Bool
  crowded : Bool
  page : Nat

/-- `check_fail_stop`: the call stack forbids a recovery, or the entries left do not
show that the broken one was neither the device nor the root directory. -/
def checkFailStop (fault : InodeFault) (inodes : Fin ninode → Inode) (broken : Fin ninode) : Bool :=
  let others := (List.finRange ninode).filter (· ≠ broken)
  let isTdev := others.any fun i => (inodes i).type = tDevice
  let isRoot := others.any fun i => (inodes i).type ≠ tDevice ∧ (inodes i).inum = rootino
  (decide (fault.mode = .conservative) && fault.pcs.any fun address =>
    fault.text.isInsideAny address
      [.create, .idup, .iput, .iupdate, .sysLink, .sysOpen, .sysUnlink, .writei]) ||
  !isTdev || !isRoot

/-- A file in `solve_inconsistency_inode`: cleared when it is on the broken entry,
and turned round otherwise. -/
def solveFile (old new : Nat) (broken : Fin ninode) (fp : File) : File :=
  if fp.ip = some ⟨old, broken⟩ then
    { fp with type := .none, ref := 0, ip := none, off := 0, major := 0 }
  else { fp with ip := relocate old new (· = broken) fp.ip }

/-- Evict a file on the broken entry from an `ofile[]`. -/
def evictFd (kernel : Kernel) (broken : InodePtr) (coop : Bool) : Fd → Fd
  | .file ptr =>
    if ptr.table = kernel.ftable ∧ (kernel.file ptr.index).ip = some broken then
      if coop then .reserved else .empty
    else .file ptr
  | fd => fd

/-- A process in `solve_inconsistency_inode`. A slot without a pid keeps its `cwd`. -/
def solveProc (kernel : Kernel) (old new : Nat) (broken : Fin ninode) (coop : Bool)
    (p : Proc) : Proc :=
  { p with
    ofile := fun fd => evictFd kernel ⟨old, broken⟩ coop (p.ofile fd)
    cwd := if p.pid = 0 then p.cwd else relocate old new (fun _ => false) p.cwd }

/-- `solve_inconsistency_inode`, between the files, the log and the processes. -/
def solveInconsistencyInode (kernel : Kernel) (old new : Nat) (broken : Fin ninode)
    (coop : Bool) : Kernel :=
  { kernel with
    files := Function.update kernel.files kernel.ftable
      fun k => solveFile old new broken (kernel.file k)
    outstanding := if kernel.outstanding > 0 then kernel.outstanding - 1 else kernel.outstanding
    proc := fun p => solveProc kernel old new broken coop (kernel.proc p) }

/-- `recovery_handler_inode` for an entry of the current cache, up to its
after-treatment. `none` is Fail-Stop. -/
def recoveryHandlerInode (fault : InodeFault) (kernel : Kernel) (broken : Fin ninode) :
    Option Kernel :=
  if checkFailStop fault kernel.inode broken then none
  else if fault.page = 0 then none
  else if fault.crowded then none
  else
    let old := kernel.icache
    let moved : Kernel :=
      { kernel with
        icache := fault.page
        inodes := Function.update kernel.inodes fault.page
          fun i => if i = broken then Inode.cleared else kernel.inode i }
    some (solveInconsistencyInode moved old fault.page broken fault.coop)

/-- Nothing points into the memory that the new cache is put in. -/
structure FreshCache (kernel : Kernel) (page : Nat) : Prop where
  unused : page ≠ kernel.icache
  files : ∀ k i, (kernel.file k).ip ≠ some ⟨page, i⟩
  cwds : ∀ p i, (kernel.proc p).cwd ≠ some ⟨page, i⟩

/-- A file holds a reference to its inode. -/
def File.onInode (fp : File) : Bool :=
  fp.type = .inode ∨ fp.type = .device

/-- How many files and working directories point to an inode. -/
def Kernel.references (kernel : Kernel) (ptr : InodePtr) : Int :=
  tally (fun k => (kernel.file k).onInode && decide ((kernel.file k).ip = some ptr)) +
    tally (fun p => decide ((kernel.proc p).pid ≠ 0) && decide ((kernel.proc p).cwd = some ptr))

/-- Every entry of the inode cache counts the references to it. -/
def Counted (kernel : Kernel) : Prop :=
  ∀ i, (kernel.inode i).ref = kernel.references ⟨kernel.icache, i⟩

/-- The references have moved to the new cache with what they refer to, and none
is left to the old cache or to the cleared entry. -/
structure CacheMoved (before after : Kernel) (broken : Fin ninode) : Prop where
  files : ∀ k i, i ≠ broken → (before.file k).ip = some ⟨before.icache, i⟩ →
    (after.file k).ip = some ⟨after.icache, i⟩
  cwds : ∀ p i, (before.proc p).pid ≠ 0 → i ≠ broken →
    (before.proc p).cwd = some ⟨before.icache, i⟩ → (after.proc p).cwd = some ⟨after.icache, i⟩
  contents : ∀ i, i ≠ broken →
    (after.inode i).dev = (before.inode i).dev ∧ (after.inode i).inum = (before.inode i).inum ∧
    (after.inode i).type = (before.inode i).type ∧ (after.inode i).size = (before.inode i).size ∧
    (after.inode i).addrs = (before.inode i).addrs
  noFile : ∀ k, (after.file k).ip ≠ some ⟨after.icache, broken⟩ ∧
    ∀ i, (after.file k).ip ≠ some ⟨before.icache, i⟩
  noCwd : ∀ p, (after.proc p).pid ≠ 0 → (after.proc p).cwd ≠ some ⟨after.icache, broken⟩ ∧
    ∀ i, (after.proc p).cwd ≠ some ⟨before.icache, i⟩
  counted : Counted after

section

variable {fault : InodeFault} {before after : Kernel} {broken : Fin ninode}

/-- What a recovery that does not stop leaves behind. -/
structure Outcome (fault : InodeFault) (before after : Kernel) (broken : Fin ninode) : Prop where
  icache : after.icache = fault.page
  inode : ∀ i, after.inode i = if i = broken then Inode.cleared else before.inode i
  file : ∀ k, after.file k = solveFile before.icache fault.page broken (before.file k)
  pid : ∀ p, (after.proc p).pid = (before.proc p).pid
  cwd : ∀ p, (before.proc p).pid ≠ 0 →
    (after.proc p).cwd = relocate before.icache fault.page (fun _ => false) (before.proc p).cwd

theorem recoveryHandlerInode_outcome
    (recovered : recoveryHandlerInode fault before broken = some after) :
    Outcome fault before after broken := by
  unfold recoveryHandlerInode at recovered
  split_ifs at recovered
  cases recovered
  constructor
  · rfl
  · intro i
    simp [Kernel.inode, solveInconsistencyInode]
  · intro k
    simp [Kernel.file, solveInconsistencyInode]
  · intro p
    rfl
  · intro p used
    simp [solveInconsistencyInode, solveProc, used]

theorem Outcome.file_ip (outcome : Outcome fault before after broken)
    (fresh : FreshCache before fault.page) (k : Fin nfile) (i : Fin ninode) :
    (after.file k).ip = some ⟨fault.page, i⟩ ↔
      (before.file k).ip = some ⟨before.icache, i⟩ ∧ i ≠ broken := by
  rw [outcome.file k]
  unfold solveFile
  split_ifs with lost
  · rw [lost]
    constructor
    · intro absent
      cases absent
    · rintro ⟨same, other⟩
      obtain ⟨-, rfl⟩ := EntryPtr.mk.inj (Option.some.inj same)
      exact absurd rfl other
  · simp only
    rw [relocate_eq_new fresh.unused (fresh.files k i)]
    simp

theorem Outcome.file_left (outcome : Outcome fault before after broken)
    (fresh : FreshCache before fault.page) (k : Fin nfile) (i : Fin ninode) :
    (after.file k).ip ≠ some ⟨before.icache, i⟩ := by
  rw [outcome.file k]
  unfold solveFile
  split_ifs with lost
  · simp
  · simp only
    rw [Ne, relocate_eq_old fresh.unused]
    rintro ⟨here, there⟩
    obtain rfl : i = broken := by simpa using there
    exact lost here

/-- A file counts as a reference afterwards as it did before. -/
theorem Outcome.file_onInode (outcome : Outcome fault before after broken)
    (fresh : FreshCache before fault.page) (k : Fin nfile) {i : Fin ninode} (other : i ≠ broken) :
    ((after.file k).onInode && decide ((after.file k).ip = some ⟨fault.page, i⟩)) =
      ((before.file k).onInode && decide ((before.file k).ip = some ⟨before.icache, i⟩)) := by
  have moved := outcome.file_ip fresh k i
  by_cases lost : (before.file k).ip = some ⟨before.icache, broken⟩
  · have different : (before.file k).ip ≠ some ⟨before.icache, i⟩ := by
      rw [lost]
      intro same
      exact other (EntryPtr.mk.inj (Option.some.inj same)).2.symm
    simp [moved, different]
  · have type : (after.file k).type = (before.file k).type := by
      simp [outcome.file k, solveFile, lost]
    simp [File.onInode, type, moved, other]

/-- Where a process's working directory points afterwards. -/
theorem Outcome.cwd_eq (outcome : Outcome fault before after broken)
    (fresh : FreshCache before fault.page) (p : Fin nproc) (used : (before.proc p).pid ≠ 0)
    (i : Fin ninode) :
    (after.proc p).cwd = some ⟨fault.page, i⟩ ↔ (before.proc p).cwd = some ⟨before.icache, i⟩ := by
  rw [outcome.cwd p used, relocate_eq_new fresh.unused (fresh.cwds p i)]
  simp

theorem Outcome.cwd_left (outcome : Outcome fault before after broken)
    (fresh : FreshCache before fault.page) (p : Fin nproc) (used : (before.proc p).pid ≠ 0)
    (i : Fin ninode) : (after.proc p).cwd ≠ some ⟨before.icache, i⟩ := by
  rw [outcome.cwd p used, Ne, relocate_eq_old fresh.unused]
  simp

/-- The references to an entry that was not broken are as many as before. -/
theorem Outcome.references (outcome : Outcome fault before after broken)
    (fresh : FreshCache before fault.page) {i : Fin ninode} (other : i ≠ broken) :
    after.references ⟨fault.page, i⟩ = before.references ⟨before.icache, i⟩ := by
  unfold Kernel.references
  congr 1
  · apply tally_congr
    intro k
    exact outcome.file_onInode fresh k other
  · apply tally_congr
    intro p
    rw [outcome.pid p]
    by_cases used : (before.proc p).pid = 0
    · simp [used]
    · simp [outcome.cwd_eq fresh p used]

/-- The cleared entry has no references when no working directory was broken. -/
theorem Outcome.references_broken (outcome : Outcome fault before after broken)
    (fresh : FreshCache before fault.page)
    (spared : ∀ p, (before.proc p).pid ≠ 0 → (before.proc p).cwd ≠ some ⟨before.icache, broken⟩) :
    after.references ⟨fault.page, broken⟩ = 0 := by
  unfold Kernel.references
  have files := @tally_eq_zero _ _ fun k =>
    (after.file k).onInode && decide ((after.file k).ip = some ⟨fault.page, broken⟩)
  have cwds := @tally_eq_zero _ _ fun p =>
    decide ((after.proc p).pid ≠ 0) && decide ((after.proc p).cwd = some ⟨fault.page, broken⟩)
  rw [files.mpr, cwds.mpr, add_zero]
  · intro p
    by_cases used : (before.proc p).pid = 0
    · simp [outcome.pid p, used]
    · simp [outcome.cwd_eq fresh p used, spared p used]
  · intro k
    simp [outcome.file_ip fresh k broken]

end

/-- A recovery that does not stop moves every reference to the new cache, and keeps
every count, exactly when no process has the broken entry as its working
directory. -/
theorem cacheMoved_iff {fault : InodeFault} {before after : Kernel} {broken : Fin ninode}
    (fresh : FreshCache before fault.page) (counted : Counted before)
    (recovered : recoveryHandlerInode fault before broken = some after) :
    CacheMoved before after broken ↔
      ∀ p, (before.proc p).pid ≠ 0 → (before.proc p).cwd ≠ some ⟨before.icache, broken⟩ := by
  have outcome := recoveryHandlerInode_outcome recovered
  constructor
  · intro moved p used lost
    refine (moved.noCwd p (by rwa [outcome.pid p])).1 ?_
    rw [outcome.icache]
    exact (outcome.cwd_eq fresh p used broken).mpr lost
  · intro spared
    constructor
    · intro k i other here
      rw [outcome.icache]
      exact (outcome.file_ip fresh k i).mpr ⟨here, other⟩
    · intro p i used _ here
      rw [outcome.icache]
      exact (outcome.cwd_eq fresh p used i).mpr here
    · intro i other
      simp [outcome.inode i, other]
    · intro k
      rw [outcome.icache]
      refine ⟨?_, outcome.file_left fresh k⟩
      intro here
      exact ((outcome.file_ip fresh k broken).mp here).2 rfl
    · intro p used
      rw [outcome.pid p] at used
      rw [outcome.icache]
      refine ⟨?_, outcome.cwd_left fresh p used⟩
      intro here
      exact spared p used ((outcome.cwd_eq fresh p used broken).mp here)
    · intro i
      rw [outcome.icache, outcome.inode i]
      by_cases same : i = broken
      · subst same
        rw [if_pos rfl, outcome.references_broken fresh spared]
        rfl
      · rw [if_neg same, outcome.references fresh same]
        exact counted i

/-- An inode of the disk in use. -/
def sampleInode (inum : Nat) (type : Int) (ref : Int) : Inode :=
  { Inode.cleared with dev := 1, inum := inum, type := type, ref := ref, valid := 1 }

/-- A process in a directory, with one open file or none. -/
def sampleProc (pid : Nat) (console : Fd) (cwd : InodePtr) : Proc :=
  { Proc.cleared with
    state := .sleeping
    pid := pid
    ofile := fun fd => if fd = 0 then console else .empty
    cwd := some cwd }

/-- A system with the root directory, the console device and a directory in its
inode cache, one file on the device, and two processes, of which the second works
in the given directory. -/
def shellIn (home : Fin ninode) : Kernel where
  ftable := 0x80020000
  files _ k :=
    if k = 0 then
      { File.cleared with type := .device, ref := 1, ip := some ⟨0x80030000, 1⟩ }
    else File.cleared
  icache := 0x80030000
  inodes _ i :=
    if i = 0 then sampleInode 1 1 (if home = 0 then 2 else 1)
    else if i = 1 then sampleInode 5 3 1
    else if i = 2 then sampleInode 9 1 (if home = 2 then 1 else 0)
    else Inode.cleared
  pipes _ := ⟨0, 0⟩
  proc p :=
    if p = 0 then sampleProc 1 .empty ⟨0x80030000, 0⟩
    else if p = 1 then sampleProc 2 (.file ⟨0x80020000, 0⟩) ⟨0x80030000, home⟩
    else Proc.cleared
  outstanding := 0
  nextpid := 3

/-- An error met by a process that is in none of the functions looked for. -/
def quietFault : InodeFault where
  text _ := (1, 0)
  mode := .aggressive
  pcs := []
  coop := false
  crowded := false
  page := 0x86000000

theorem shellIn_fresh (home : Fin ninode) : FreshCache (shellIn home) quietFault.page where
  unused := by simp [shellIn, quietFault]
  files k i := by
    simp only [Kernel.file, shellIn, quietFault]
    split_ifs <;> simp [File.cleared]
  cwds p i := by
    simp only [shellIn, quietFault]
    split_ifs <;> simp [sampleProc, Proc.cleared]

theorem shellIn_root_counted : Counted (shellIn 0) := by
  unfold Counted
  decide +kernel

theorem shellIn_directory_counted : Counted (shellIn 2) := by
  unfold Counted
  decide +kernel

theorem cacheMoved_iff_shell :
    ∃ after, recoveryHandlerInode quietFault (shellIn 0) 2 = some after ∧
      (CacheMoved (shellIn 0) after 2 ↔
        ∀ p, ((shellIn 0).proc p).pid ≠ 0 →
          ((shellIn 0).proc p).cwd ≠ some ⟨(shellIn 0).icache, 2⟩) := by
  have found : (recoveryHandlerInode quietFault (shellIn 0) 2).isSome = true := by decide +kernel
  obtain ⟨after, recovered⟩ := Option.isSome_iff_exists.mp found
  exact ⟨after, recovered, cacheMoved_iff (shellIn_fresh 0) shellIn_root_counted recovered⟩

/-- The directory that a process works in breaks: its `cwd` is moved to the cleared
entry of the new cache. -/
theorem broken_cwd_moved :
    ¬ ∀ fault before after broken, FreshCache before fault.page → Counted before →
      recoveryHandlerInode fault before broken = some after → CacheMoved before after broken := by
  intro claimed
  have found : (recoveryHandlerInode quietFault (shellIn 2) 2).any fun after =>
      decide ((after.proc 1).pid ≠ 0 ∧ (after.proc 1).cwd = some ⟨after.icache, 2⟩) := by
    decide +kernel
  obtain ⟨after, recovered, kept⟩ := Option.any_eq_true _ _ |>.mp found
  obtain ⟨used, cwd⟩ := of_decide_eq_true kept
  have moved := claimed quietFault (shellIn 2) after 2 (shellIn_fresh 2)
    shellIn_directory_counted recovered
  exact (moved.noCwd 1 used).1 cwd

end Ev6.Files
