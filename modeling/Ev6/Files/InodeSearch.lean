import Ev6.Files.FileRecovery
import Mathlib.Data.Fin.Basic

/-!
# Which inode a broken file has referred to

`recovery_handler_file` cannot read the broken file. It counts, for one cached inode
after the other, the other files and the working directories that point to it, and
takes the first inode whose reference count is different for that of the broken file.
The after-treatment drops one reference to it, unless a pipe is open or the process is to
open its files again.
-/

namespace Ev6.Files

open Support

/-- `T_FILE`: the type of the inode of a file. -/
def tFile : Int := 2

/-- `match` when the loops over the files and the processes have ended. -/
def matchCount (kernel : Kernel) (broken : Fin nfile) (i : Fin ninode) : Int :=
  tally (fun k => decide (k ≠ broken) && (decide ((kernel.file k).type ≠ .none) &&
    decide ((kernel.file k).ip = some ⟨kernel.icache, i⟩))) +
  tally (fun p => decide ((kernel.proc p).cwd = some ⟨kernel.icache, i⟩))

/-- An inode the search looks at: it is in use, and a file or a device. -/
def Candidate (kernel : Kernel) (i : Fin ninode) : Prop :=
  1 ≤ (kernel.inode i).ref ∧ ((kernel.inode i).type = tFile ∨ (kernel.inode i).type = tDevice)

instance (kernel : Kernel) (i : Fin ninode) : Decidable (Candidate kernel i) := by
  unfold Candidate
  infer_instance

/-- `b_ip`: the search of the handler for the inode of the broken file. -/
def searchInode (kernel : Kernel) (broken : Fin nfile) : Option (Fin ninode) :=
  Fin.find? fun i => decide (Candidate kernel i) &&
    decide ((kernel.inode i).ref ≠ matchCount kernel broken i)

/-- The loop of `after_treatment` over the call stack, from the addresses left on. -/
def scanPolicy (fault : FileFault) : List Nat → Policy → Policy
  | [], ret => ret
  | address :: rest, ret =>
    if fault.text.isInside address .sysClose then scanPolicy fault rest .syscallSuccess
    else if fault.text.isInside address .exit then .processKill
    else if fault.coop && fault.text.isInside address .sysWrite then
      scanPolicy fault rest .reopenSyscallFail
    else scanPolicy fault rest ret

/-- What `after_treatment` returns. -/
def afterTreatmentFile (fault : FileFault) (pipe : Bool) : Policy :=
  scanPolicy fault fault.pcs
    (if pipe then .syscallFail else if fault.coop then .reopenSyscallRedo else .syscallFail)

/-- `REOPEN_SYSCALL_FAIL` and `REOPEN_SYSCALL_REDO`. -/
def opensAgain (ret : Policy) : Bool := ret = .reopenSyscallFail ∨ ret = .reopenSyscallRedo

/-- `bfd_num`: how many descriptors point to the broken file. -/
def brokenFds (kernel : Kernel) (broken : Fin nfile) : Nat :=
  ((List.finRange nproc).map fun p => (List.finRange nofile).countP fun fd =>
    decide ((kernel.proc p).ofile fd = .file ⟨kernel.ftable, broken⟩)).sum

/-- The inode that `after_treatment` calls `iput` for. -/
def putInode (fault : FileFault) (kernel : Kernel) (broken : Fin nfile) : Option (Fin ninode) :=
  let ends := pipeEnds kernel.file broken
  let pipe := ends.2.isSome || ends.1.isSome
  if (!opensAgain (afterTreatmentFile fault pipe) || decide (brokenFds kernel broken = 1)) && !pipe then
    searchInode kernel broken
  else none

/-! ## What the search is for -/

/-- A file holds a reference to an inode of the cache. -/
def Kernel.holds (kernel : Kernel) (i : Fin ninode) (k : Fin nfile) : Bool :=
  (kernel.file k).onInode && decide ((kernel.file k).ip = some ⟨kernel.icache, i⟩)

/-- The working directories on an inode. -/
def Kernel.cwds (kernel : Kernel) (i : Fin ninode) : Int :=
  tally fun p => decide ((kernel.proc p).cwd = some ⟨kernel.icache, i⟩)

/-- Every inode counts the files of type `FD_INODE` and `FD_DEVICE` and the working
directories that point to it. -/
def RefsExact (kernel : Kernel) : Prop :=
  ∀ i, (kernel.inode i).ref = tally (kernel.holds i) + kernel.cwds i

/-- The inode that the broken file has referred to: none for a pipe and an unused file. -/
def lostInode (kernel : Kernel) (broken : Fin nfile) : Option (Fin ninode) :=
  Fin.find? fun i => kernel.holds i broken

/-- The handler finds the inode of the broken file, and what the after-treatment leaves of the
references is what the other files and the working directories hold. -/
structure FindsReference (fault : FileFault) (kernel : Kernel) (broken : Fin nfile) : Prop where
  found : searchInode kernel broken = lostInode kernel broken
  dropped : ∀ i, (kernel.inode i).ref - (if putInode fault kernel broken = some i then 1 else 0) =
    tally (fun k => decide (k ≠ broken) && kernel.holds i k) + kernel.cwds i

/-- The other files that are ends of a pipe, in a slot that has been on the inode
before: `fileclose`, `filealloc` and `pipealloc` leave `ip` as it is. -/
def recycled (kernel : Kernel) (broken : Fin nfile) (i : Fin ninode) : Int :=
  tally fun k => decide (k ≠ broken) && (decide ((kernel.file k).type = .pipe) &&
    decide ((kernel.file k).ip = some ⟨kernel.icache, i⟩))

/-- The process that met the error is one that opens its files again: it cooperates, is not in
`exit`, and in `sys_close` only above `sys_write`. -/
structure Reopens (fault : FileFault) : Prop where
  coop : fault.coop = true
  stays : ∀ address ∈ fault.pcs, fault.text.isInside address .exit = true →
    fault.text.isInside address .sysClose = true
  writes : ∀ before address rest, fault.pcs = before ++ address :: rest →
    fault.text.isInside address .sysClose = true →
      ∃ other ∈ rest, fault.text.isInside other .sysWrite = true ∧
        fault.text.isInside other .sysClose = false

/-- The condition: the inode of the broken file is a file or a device and not met by
exactly one recycled slot, and no inode before it, or none at all when there is no such
inode, is met by one; and where there is such an inode, no other file is an end of a pipe, and
a process that opens its files again has one descriptor of the broken file. -/
structure Unmistakable (fault : FileFault) (kernel : Kernel) (broken : Fin nfile) : Prop where
  candidate : ∀ j, lostInode kernel broken = some j → Candidate kernel j
  own : ∀ j, lostInode kernel broken = some j → recycled kernel broken j ≠ 1
  before : ∀ j, lostInode kernel broken = some j →
    ∀ i < j, Candidate kernel i → recycled kernel broken i = 0
  nothing : lostInode kernel broken = none →
    ∀ i, Candidate kernel i → recycled kernel broken i = 0
  noPipe : ∀ j, lostInode kernel broken = some j →
    ∀ k writing, k ≠ broken → (kernel.file k).isEnd writing = false
  single : ∀ j, lostInode kernel broken = some j → Reopens fault → brokenFds kernel broken = 1

/-! ## The count of the search -/

variable {i : Fin ninode} {kernel : Kernel}

theorem holds_unique {k : Fin nfile} {j : Fin ninode}
    (first : kernel.holds i k = true) (second : kernel.holds j k = true) : i = j := by
  simp only [Kernel.holds, Bool.and_eq_true, decide_eq_true_eq] at first second
  rw [first.2] at second
  exact (EntryPtr.mk.inj (Option.some.inj second.2)).2

variable {broken : Fin nfile}

theorem lostInode_eq_some : lostInode kernel broken = some i ↔ kernel.holds i broken = true := by
  rw [lostInode, Fin.find?_eq_some_iff]
  refine ⟨And.left, fun holds => ⟨holds, fun j below => ?_⟩⟩
  by_contra also
  have same := holds_unique (by simpa using also) holds
  omega

theorem lostInode_eq_none :
    lostInode kernel broken = none ↔ ∀ i, kernel.holds i broken = false := by
  rw [lostInode, Fin.find?_eq_none_iff]

/-- The other files that point to an inode hold a reference to it, or are recycled. -/
theorem matchCount_eq (kernel : Kernel) (broken : Fin nfile) (i : Fin ninode) :
    matchCount kernel broken i =
      tally (fun k => decide (k ≠ broken) && kernel.holds i k) + recycled kernel broken i +
        kernel.cwds i := by
  have apart : ∀ k, (decide (k ≠ broken) && kernel.holds i k) = true →
      (decide (k ≠ broken) && (decide ((kernel.file k).type = .pipe) &&
        decide ((kernel.file k).ip = some ⟨kernel.icache, i⟩))) = false := by
    intro k held
    simp only [Kernel.holds, File.onInode, Bool.and_eq_true, decide_eq_true_eq] at held
    rcases held.2.1 with type | type <;> simp [type]
  rw [recycled, ← tally_or apart, matchCount, Kernel.cwds]
  congr 1
  refine tally_congr fun k => ?_
  rw [← Bool.and_or_distrib_left, Kernel.holds, ← Bool.and_or_distrib_right, File.onInode]
  cases (kernel.file k).type <;> simp

/-- The references of the other files and of the working directories. -/
theorem RefsExact.remaining (exact : RefsExact kernel) (broken : Fin nfile) (i : Fin ninode) :
    tally (fun k => decide (k ≠ broken) && kernel.holds i k) + kernel.cwds i =
      (kernel.inode i).ref - (if kernel.holds i broken = true then 1 else 0) := by
  have split := tally_split (kernel.holds i) broken
  have counted := exact i
  omega

/-- The search stops at a candidate exactly when the recycled slots on it are not as many
as the references of the broken file to it. -/
theorem RefsExact.ref_ne_matchCount (exact : RefsExact kernel)
    (broken : Fin nfile) (i : Fin ninode) : (kernel.inode i).ref ≠ matchCount kernel broken i ↔
      recycled kernel broken i ≠ if kernel.holds i broken = true then 1 else 0 := by
  have remaining := exact.remaining broken i
  rw [matchCount_eq]
  omega

theorem searchInode_eq_some (exact : RefsExact kernel) : searchInode kernel broken = some i ↔
      (Candidate kernel i ∧
        recycled kernel broken i ≠ if kernel.holds i broken = true then 1 else 0) ∧
      ∀ j < i, Candidate kernel j →
        recycled kernel broken j = if kernel.holds j broken = true then 1 else 0 := by
  rw [searchInode, Fin.find?_eq_some_iff]
  simp only [Bool.and_eq_true, decide_eq_true_eq, Bool.and_eq_false_imp, decide_eq_false_iff_not,
    exact.ref_ne_matchCount broken, not_not]

theorem searchInode_eq_none (exact : RefsExact kernel) : searchInode kernel broken = none ↔
      ∀ i, Candidate kernel i →
        recycled kernel broken i = if kernel.holds i broken = true then 1 else 0 := by
  rw [searchInode, Fin.find?_eq_none_iff]
  simp only [Bool.and_eq_false_imp, decide_eq_true_eq, decide_eq_false_iff_not,
    exact.ref_ne_matchCount broken, not_not]

/-! ## The after-treatment -/

/-- With cooperation, the scan of the stack ends in a policy that opens the files again where no
address in `exit` stops it, and an address in `sys_write` is behind the last one in
`sys_close`. -/
theorem reopens_scanPolicy {fault : FileFault} (coop : fault.coop = true) (pcs : List Nat)
    (ret : Policy) :
    opensAgain (scanPolicy fault pcs ret) = true ↔
      (∀ address ∈ pcs, fault.text.isInside address .exit = true →
        fault.text.isInside address .sysClose = true) ∧
      (∀ before address rest, pcs = before ++ address :: rest →
        fault.text.isInside address .sysClose = true →
          ∃ other ∈ rest, fault.text.isInside other .sysWrite = true ∧
            fault.text.isInside other .sysClose = false) ∧
      (opensAgain ret = true ∨ ∃ other ∈ pcs, fault.text.isInside other .sysWrite = true ∧
        fault.text.isInside other .sysClose = false) := by
  induction pcs generalizing ret with
  | nil => simp [scanPolicy]
  | cons first rest ih =>
    have later : (∀ before address others, first :: rest = before ++ address :: others →
        fault.text.isInside address .sysClose = true →
          ∃ other ∈ others, fault.text.isInside other .sysWrite = true ∧
            fault.text.isInside other .sysClose = false) ↔
        (fault.text.isInside first .sysClose = true →
          ∃ other ∈ rest, fault.text.isInside other .sysWrite = true ∧
            fault.text.isInside other .sysClose = false) ∧
        ∀ before address others, rest = before ++ address :: others →
          fault.text.isInside address .sysClose = true →
            ∃ other ∈ others, fault.text.isInside other .sysWrite = true ∧
              fault.text.isInside other .sysClose = false := by
      constructor
      · intro all
        exact ⟨all [] first rest rfl, fun before address others split =>
          all (first :: before) address others (by rw [split]; rfl)⟩
      · rintro ⟨head, tail⟩ before address others split
        cases before with
        | nil =>
          obtain ⟨rfl, rfl⟩ := List.cons.inj split
          exact head
        | cons _ before => exact tail before address others (List.cons.inj split).2
    rw [later, List.forall_mem_cons]
    unfold scanPolicy
    cases close : fault.text.isInside first .sysClose with
    | true =>
      rw [if_pos rfl, ih]
      simp [close, opensAgain, Policy.syscallSuccess, Policy.reopenSyscallFail,
        Policy.reopenSyscallRedo]
      tauto
    | false =>
      rw [if_neg Bool.false_ne_true]
      cases exit : fault.text.isInside first .exit with
      | true =>
        rw [if_pos rfl]
        simp [opensAgain, Policy.processKill, Policy.reopenSyscallFail,
          Policy.reopenSyscallRedo]
      | false =>
        rw [if_neg Bool.false_ne_true, coop, Bool.true_and]
        cases write : fault.text.isInside first .sysWrite with
        | true =>
          rw [if_pos rfl, ih]
          simp [close, write, opensAgain]
        | false =>
          rw [if_neg Bool.false_ne_true, ih]
          simp [write]

/-- Without cooperation, no policy of the scan opens the files again. -/
theorem not_reopens_scanPolicy {fault : FileFault} (coop : fault.coop = false) (pcs : List Nat)
    {ret : Policy} (not : opensAgain ret = false) : opensAgain (scanPolicy fault pcs ret) = false := by
  induction pcs generalizing ret with
  | nil => exact not
  | cons first rest ih =>
    unfold scanPolicy
    split_ifs with close exit write
    · exact ih (by decide)
    · decide
    · rw [coop] at write
      cases write
    · exact ih not

theorem reopens_afterTreatmentFile (fault : FileFault) :
    opensAgain (afterTreatmentFile fault false) = true ↔ Reopens fault := by
  unfold afterTreatmentFile
  rw [if_neg Bool.false_ne_true]
  cases coop : fault.coop with
  | false =>
    rw [if_neg Bool.false_ne_true,
      not_reopens_scanPolicy coop fault.pcs (show opensAgain .syscallFail = false by decide)]
    refine iff_of_false Bool.false_ne_true fun reopens => ?_
    rw [reopens.coop] at coop
    cases coop
  | true =>
    rw [if_pos rfl, reopens_scanPolicy coop]
    constructor
    · rintro ⟨stays, writes, -⟩
      exact ⟨coop, stays, writes⟩
    · rintro ⟨-, stays, writes⟩
      exact ⟨stays, writes, .inl (by decide)⟩

/-- The handler has met an end of a pipe among the other files. -/
theorem pipeEnds_isSome (kernel : Kernel) (broken : Fin nfile) :
    ((pipeEnds kernel.file broken).2.isSome || (pipeEnds kernel.file broken).1.isSome) = false ↔
      ∀ k writing, k ≠ broken → (kernel.file k).isEnd writing = false := by
  have none (writing : Bool) :
      (lastHit (fun k => decide (k ≠ broken) && (kernel.file k).isEnd writing)
        (List.finRange nfile) none).isSome = false ↔
          ∀ k, k ≠ broken → (kernel.file k).isEnd writing = false := by
    rw [Option.isSome_eq_false_iff, Option.isNone_iff_eq_none, lastHit_eq_none]
    simp [List.mem_finRange]
  rw [pipeEnds_eq, Bool.or_eq_false_iff, none, none]
  constructor
  · rintro ⟨writers, readers⟩ k writing other
    cases writing
    · exact readers k other
    · exact writers k other
  · exact fun all => ⟨fun k => all k true, fun k => all k false⟩

/-- The after-treatment drops a reference to the inode that the search has found, or none. -/
theorem putInode_eq (fault : FileFault) (kernel : Kernel) (broken : Fin nfile) :
    ((∀ k writing, k ≠ broken → (kernel.file k).isEnd writing = false) ∧
        (Reopens fault → brokenFds kernel broken = 1) ∧
          putInode fault kernel broken = searchInode kernel broken) ∨
      (¬ ((∀ k writing, k ≠ broken → (kernel.file k).isEnd writing = false) ∧
        (Reopens fault → brokenFds kernel broken = 1)) ∧ putInode fault kernel broken = none) := by
  rw [← reopens_afterTreatmentFile, ← pipeEnds_isSome]
  unfold putInode
  dsimp only
  cases ((pipeEnds kernel.file broken).2.isSome || (pipeEnds kernel.file broken).1.isSome) with
  | true => exact .inr ⟨by simp, by simp⟩
  | false =>
    by_cases reopens : opensAgain (afterTreatmentFile fault false) = true
    · by_cases one : brokenFds kernel broken = 1
      · exact .inl ⟨rfl, fun _ => one, by simp [one]⟩
      · exact .inr ⟨fun both => one (both.2 reopens), by simp [reopens, one]⟩
    · exact .inl ⟨rfl, fun does => absurd does reopens, by simp [reopens]⟩

/-- When the handler finds the right inode, one reference less to it is what the others hold. -/
theorem RefsExact.dropped_iff (exact : RefsExact kernel) (put : Option (Fin ninode)) :
    (∀ i, (kernel.inode i).ref - (if put = some i then 1 else 0) =
      tally (fun k => decide (k ≠ broken) && kernel.holds i k) + kernel.cwds i) ↔
        put = lostInode kernel broken := by
  have same : (∀ i, (kernel.inode i).ref - (if put = some i then 1 else 0) =
      tally (fun k => decide (k ≠ broken) && kernel.holds i k) + kernel.cwds i) ↔
        ∀ i, put = some i ↔ lostInode kernel broken = some i := by
    refine forall_congr' fun i => ?_
    rw [exact.remaining broken i, lostInode_eq_some]
    have count : (if put = some i then (1 : Int) else 0) =
        (if kernel.holds i broken = true then 1 else 0) ↔
          (put = some i ↔ kernel.holds i broken = true) := by
      by_cases gone : put = some i <;> by_cases lost : kernel.holds i broken = true <;>
        simp [gone, lost]
    rw [← count]
    exact sub_right_inj
  rw [same]
  exact ⟨Option.ext, fun equal i => by rw [equal]⟩

/-- The handler finds the inode of the broken file and gives up its reference exactly when
nothing on the way can be mistaken for it, and nothing keeps the after-treatment from it. -/
theorem findsReference_iff_unmistakable {kernel : Kernel} (exact : RefsExact kernel)
    (fault : FileFault) (broken : Fin nfile) :
    FindsReference fault kernel broken ↔ Unmistakable fault kernel broken := by
  have other : ∀ {i j}, lostInode kernel broken = some j → i ≠ j →
      kernel.holds i broken = false := by
    intro i j lost different
    by_contra held
    exact different (holds_unique (by simpa using held) (lostInode_eq_some.mp lost))
  constructor
  · rintro ⟨found, dropped⟩
    have put := (exact.dropped_iff _).mp dropped
    have given {j : Fin ninode} (lost : lostInode kernel broken = some j) :
        (∀ k writing, k ≠ broken → (kernel.file k).isEnd writing = false) ∧
          (Reopens fault → brokenFds kernel broken = 1) := by
      rcases putInode_eq fault kernel broken with ⟨noPipe, single, -⟩ | ⟨-, none⟩
      · exact ⟨noPipe, single⟩
      · rw [put, lost] at none
        cases none
    refine ⟨fun j lost => ?_, fun j lost => ?_, fun j lost i below candidate => ?_,
      fun lost i candidate => ?_, fun j lost => (given lost).1, fun j lost => (given lost).2⟩
    · exact ((searchInode_eq_some exact).mp (found.trans lost)).1.1
    · have differs := ((searchInode_eq_some exact).mp (found.trans lost)).1.2
      rwa [if_pos (lostInode_eq_some.mp lost)] at differs
    · have skipped := ((searchInode_eq_some exact).mp (found.trans lost)).2 i below candidate
      rwa [other lost (ne_of_lt below), if_neg Bool.false_ne_true] at skipped
    · have skipped := (searchInode_eq_none exact).mp (found.trans lost) i candidate
      rwa [lostInode_eq_none.mp lost i, if_neg Bool.false_ne_true] at skipped
  · rintro ⟨candidate, own, before, nothing, noPipe, single⟩
    have found : searchInode kernel broken = lostInode kernel broken := by
      cases lost : lostInode kernel broken with
      | none =>
        refine (searchInode_eq_none exact).mpr fun i isCandidate => ?_
        rw [lostInode_eq_none.mp lost i, if_neg Bool.false_ne_true]
        exact nothing lost i isCandidate
      | some j =>
        refine (searchInode_eq_some exact).mpr
          ⟨⟨candidate j lost, ?_⟩, fun i below isCandidate => ?_⟩
        · rw [if_pos (lostInode_eq_some.mp lost)]
          exact own j lost
        · rw [other lost (ne_of_lt below), if_neg Bool.false_ne_true]
          exact before j lost i below isCandidate
    refine ⟨found, (exact.dropped_iff _).mpr ?_⟩
    rcases putInode_eq fault kernel broken with ⟨-, -, put⟩ | ⟨never, none⟩
    · rw [put, found]
    · rw [none]
      cases lost : lostInode kernel broken with
      | none => rfl
      | some j => exact absurd ⟨noPipe j lost, single j lost⟩ never

/-- One open file, on the first inode of the cache, which has a type. -/
def oneOpen (type : Int) : Kernel where
  ftable := 0x80020000
  files _ k :=
    if k = 0 then { File.cleared with type := .inode, ref := 1, ip := some ⟨0x80030000, 0⟩ }
    else File.cleared
  icache := 0x80030000
  inodes _ i := if i = 0 then { Inode.cleared with inum := 7, ref := 1, type := type } else .cleared
  pipes _ := ⟨0, 0⟩
  proc _ := Proc.cleared
  outstanding := 0
  nextpid := 3

theorem oneOpen_refsExact (type : Int) : RefsExact (oneOpen type) := by
  have files : ∀ i, tally ((oneOpen type).holds i) = if i = 0 then 1 else 0 := by
    intro i
    rw [tally_split _ 0, tally_eq_zero.mpr]
    · by_cases first : i = 0
      · subst first
        rfl
      · have other : ¬ (0 : Fin ninode) = i := fun same => first same.symm
        simp [Kernel.holds, Kernel.file, oneOpen, first, other]
    · intro k
      by_cases first : k = 0
      · simp [first]
      · simp [Kernel.holds, Kernel.file, oneOpen, first, File.onInode, File.cleared]
  have cwds : ∀ i, (oneOpen type).cwds i = 0 := fun i => tally_eq_zero.mpr fun _ => rfl
  intro i
  rw [files, cwds]
  by_cases first : i = 0 <;> simp [Kernel.inode, oneOpen, first, Inode.cleared]

theorem oneOpen_recycled (type : Int) (i : Fin ninode) : recycled (oneOpen type) 0 i = 0 := by
  refine tally_eq_zero.mpr fun k => ?_
  by_cases first : k = 0
  · simp [first]
  · simp [Kernel.file, oneOpen, first, File.cleared]

/-- An error of a process that does not cooperate. -/
def plainFault : FileFault where
  text _ := (1, 0)
  mode := .aggressive
  pcs := []
  coop := false
  crowded := false
  page := 0x80040000
  fork := (1, 0)

theorem findsReference_iff_unmistakable_file :
    RefsExact (oneOpen tFile) ∧ FindsReference plainFault (oneOpen tFile) 0 := by
  have exact := oneOpen_refsExact tFile
  refine ⟨exact, (findsReference_iff_unmistakable exact plainFault 0).mpr ⟨?_, ?_, ?_, ?_, ?_, ?_⟩⟩
  · intro j lost
    obtain rfl : 0 = j := holds_unique (k := 0) rfl (lostInode_eq_some.mp lost)
    exact ⟨by decide, .inl rfl⟩
  · intro j _
    rw [oneOpen_recycled]
    decide
  · intro j _ i _ _
    exact oneOpen_recycled tFile i
  · intro _ i _
    exact oneOpen_recycled tFile i
  · intro _ _ k writing other
    simp [File.isEnd, Kernel.file, oneOpen, other, File.cleared]
  · intro _ _ reopens
    exact absurd reopens.coop Bool.false_ne_true

/-- The inode of an open directory is not found: its type is neither that of a file nor
that of a device. -/
theorem open_directory_not_found :
    ¬ ∀ kernel, RefsExact kernel → ∀ fault broken, FindsReference fault kernel broken := by
  intro claimed
  have finds := (claimed (oneOpen 1) (oneOpen_refsExact 1) plainFault 0).found
  have lost : lostInode (oneOpen 1) 0 = some 0 := lostInode_eq_some.mpr rfl
  rw [lost] at finds
  have candidate := ((searchInode_eq_some (oneOpen_refsExact 1)).mp finds).1.1
  revert candidate
  decide

end Ev6.Files
