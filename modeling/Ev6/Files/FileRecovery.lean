import Ev6.Files.InodeRecovery
import Ev6.Support.Slots

/-!
# Moving the file table

`recovery_handler_file` copies every file but the broken one into a new table and
turns round the `ofile[]` of every process. It cannot read the broken file, so it
guesses from the files left whether that was the end of a pipe: when they have
only reading ends, or only writing ends, the pipe of the last of them loses that
end and every process with that file is killed.
-/

namespace Ev6.Files

open Support

/-- What the handler finds out about the process that met the error, with the first
and the last address of `fork`. -/
structure FileFault extends InodeFault where
  fork : Nat × Nat

/-- `check_fail_stop` of the file handler. -/
def checkFailStopFile (fault : FileFault) : Bool :=
  fault.pcs.any fun address =>
    fault.text.isInside address .sysOpen ||
      (decide (fault.mode = .conservative) &&
        (decide (fault.fork.1 ≤ address ∧ address ≤ fault.fork.2) ||
          fault.text.isInsideAny address [.pipealloc, .sysWrite]))

/-- A file is an end of a pipe: the writing end is one that is not readable. -/
def File.isEnd (fp : File) (writing : Bool) : Bool :=
  decide (fp.type = .pipe) && if writing then !fp.readable && fp.writable else fp.readable

/-- The loop that looks for the reading and the writing ends among the files left
and remembers the last of each in `r_fp` and `w_fp`. -/
def pipeEnds (file : Fin nfile → File) (broken : Fin nfile) :
    Option (Fin nfile) × Option (Fin nfile) :=
  (List.finRange nfile).foldl
    (fun ends k =>
      if k = broken then ends
      else if (file k).type = .pipe ∧ (file k).readable then (some k, ends.2)
      else if (file k).type = .pipe ∧ (file k).writable then (ends.1, some k)
      else ends)
    (none, none)

/-- `pi->readopen = 0` or `pi->writeopen = 0`. -/
def Pipe.close (pipe : Pipe) (writing : Bool) : Pipe :=
  if writing then { pipe with writeopen := 0 } else { pipe with readopen := 0 }

/-- Kill every process that has a file open. -/
def killUsers (ptr : FilePtr) (p : Proc) : Proc :=
  if ∃ fd, p.ofile fd = .file ptr then { p with killed := 1 } else p

/-- The treatment of a pipe that is believed to have lost the other end. -/
def closeEnd (kernel : Kernel) (k : Fin nfile) (writing : Bool) : Option Kernel :=
  (kernel.file k).pipe.map fun pipe =>
    { kernel with
      pipes := Function.update kernel.pipes pipe ((kernel.pipes pipe).close writing)
      proc := fun p => killUsers ⟨kernel.ftable, k⟩ (kernel.proc p) }

/-- Compare the ends of pipes that are left. -/
def closeLostPipe (kernel : Kernel) (broken : Fin nfile) : Option Kernel :=
  match pipeEnds kernel.file broken with
  | (some r, none) => closeEnd kernel r false
  | (none, some w) => closeEnd kernel w true
  | _ => some kernel

/-- An entry of `ofile[]` when the tables are switched. -/
def switchFd (old new : Nat) (broken : Fin nfile) (replaced : Fd) : Fd → Fd
  | .file ptr =>
    if ptr = ⟨old, broken⟩ then replaced
    else ((relocate old new (fun _ => false) (some ptr)).map Fd.file).getD .empty
  | fd => fd

/-- What becomes of an entry on the broken file: `RESERVED` for a process that
cooperates, unless an end of a pipe was found. -/
def replacement (fault : FileFault) (kernel : Kernel) (broken : Fin nfile) : Fd :=
  let ends := pipeEnds kernel.file broken
  if fault.coop && !(ends.2.isSome || ends.1.isSome) then .reserved else .empty

/-- `recovery_handler_file` for an entry of the current table, up to its
after-treatment. `none` is Fail-Stop, or an access through a null pointer. -/
def recoveryHandlerFile (fault : FileFault) (kernel : Kernel) (broken : Fin nfile) :
    Option Kernel :=
  if checkFailStopFile fault then none
  else if fault.page = 0 then none
  else
    (closeLostPipe kernel broken).bind fun closed =>
      if fault.crowded then none
      else some { closed with
        ftable := fault.page
        files := Function.update closed.files fault.page
          fun k => if k = broken then File.cleared else closed.file k
        proc := fun p => { closed.proc p with
          ofile := fun fd =>
            switchFd closed.ftable fault.page broken (replacement fault kernel broken)
              ((closed.proc p).ofile fd) } }

/-- A file is the end of this pipe. -/
def File.OnPipe (fp : File) (pipe : Nat) : Prop :=
  fp.type = .pipe ∧ fp.pipe = some pipe

/-- A process has a file open. -/
def Kernel.Uses (kernel : Kernel) (p : Fin nproc) (k : Fin nfile) : Prop :=
  ∃ fd, (kernel.proc p).ofile fd = .file ⟨kernel.ftable, k⟩

/-- A process has an end open of the pipe that the broken file belonged to. -/
def Kernel.SharesPipe (kernel : Kernel) (broken : Fin nfile) (p : Fin nproc) : Prop :=
  ∃ k pipe, kernel.Uses p k ∧ (kernel.file k).OnPipe pipe ∧ (kernel.file broken).OnPipe pipe

/-- Users of other files keep them, and nobody is killed and no pipe closed but for
the pipe of the broken file. -/
structure BystandersKept (before after : Kernel) (broken : Fin nfile) : Prop where
  named : ∀ p fd k, k ≠ broken →
    (before.proc p).ofile fd = .file ⟨before.ftable, k⟩ →
      (after.proc p).ofile fd = .file ⟨after.ftable, k⟩ ∧ after.file k = before.file k
  empty : ∀ p fd, (before.proc p).ofile fd = .empty → (after.proc p).ofile fd = .empty
  reserved : ∀ p fd, (before.proc p).ofile fd = .reserved → (after.proc p).ofile fd = .reserved
  lost : ∀ p fd, (before.proc p).ofile fd = .file ⟨before.ftable, broken⟩ →
    (after.proc p).ofile fd = .empty ∨ (after.proc p).ofile fd = .reserved
  alive : ∀ p, (after.proc p).killed = (before.proc p).killed ∨ before.SharesPipe broken p
  pipes : ∀ pipe, after.pipes pipe = before.pipes pipe ∨ (before.file broken).OnPipe pipe

/-- Among the files left, one is the last end of a pipe on one side, and there is no
end on the other side. -/
structure LoneEnd (kernel : Kernel) (broken k : Fin nfile) (writing : Bool) : Prop where
  other : k ≠ broken
  isEnd : (kernel.file k).isEnd writing = true
  last : ∀ j, j ≠ broken → k < j → (kernel.file j).isEnd writing = false
  alone : ∀ j, j ≠ broken → (kernel.file j).isEnd (!writing) = false

/-- The condition: the file taken for the peer of the broken one is on its pipe, or
its end of the pipe is closed already and its users are killed or share the broken
file's pipe anyway. -/
def PeerOrSpent (kernel : Kernel) (broken : Fin nfile) : Prop :=
  ∀ k writing pipe, LoneEnd kernel broken k writing → (kernel.file k).pipe = some pipe →
    (kernel.file broken).OnPipe pipe ∨
      (kernel.pipes pipe).close writing = kernel.pipes pipe ∧
        ∀ p, kernel.Uses p k → (kernel.proc p).killed = 1 ∨ kernel.SharesPipe broken p

theorem LoneEnd.isPipe {kernel : Kernel} {broken k : Fin nfile} {writing : Bool}
    (lone : LoneEnd kernel broken k writing) : (kernel.file k).type = .pipe := by
  have isEnd := lone.isEnd
  simp only [File.isEnd, Bool.and_eq_true, decide_eq_true_eq] at isEnd
  exact isEnd.1

theorem LoneEnd.unique {kernel : Kernel} {broken k k' : Fin nfile} {writing writing' : Bool}
    (lone : LoneEnd kernel broken k writing) (lone' : LoneEnd kernel broken k' writing') :
    k = k' ∧ writing = writing' := by
  obtain rfl : writing = writing' := by
    by_contra different
    have opposite : writing' = !writing := by
      cases writing <;> cases writing' <;> simp at different ⊢
    have hit := lone'.isEnd
    rw [opposite, lone.alone k' lone'.other] at hit
    cases hit
  refine ⟨?_, rfl⟩
  rcases lt_trichotomy k k' with below | same | above
  · have hit := lone'.isEnd
    rw [lone.last k' lone'.other below] at hit
    cases hit
  · exact same
  · have hit := lone.isEnd
    rw [lone'.last k lone.other above] at hit
    cases hit

/-! ## The search for pipe ends -/

theorem pipeEnds_foldl (file : Fin nfile → File) (broken : Fin nfile) (entries : List (Fin nfile))
    (ends : Option (Fin nfile) × Option (Fin nfile)) :
    entries.foldl
      (fun ends k =>
        if k = broken then ends
        else if (file k).type = .pipe ∧ (file k).readable then (some k, ends.2)
        else if (file k).type = .pipe ∧ (file k).writable then (ends.1, some k)
        else ends) ends =
      (lastHit (fun k => decide (k ≠ broken) && (file k).isEnd false) entries ends.1,
        lastHit (fun k => decide (k ≠ broken) && (file k).isEnd true) entries ends.2) := by
  induction entries generalizing ends with
  | nil => rfl
  | cons k rest ih =>
    rw [List.foldl_cons, ih]
    simp only [lastHit, List.foldl_cons]
    by_cases same : k = broken
    · simp [same]
    · by_cases pipe : (file k).type = .pipe
      · cases readable : (file k).readable
        · cases writable : (file k).writable <;> simp [same, pipe, readable, writable, File.isEnd]
        · simp [same, pipe, readable, File.isEnd]
      · simp [same, pipe, File.isEnd]

theorem pipeEnds_eq (file : Fin nfile → File) (broken : Fin nfile) :
    pipeEnds file broken =
      (lastHit (fun k => decide (k ≠ broken) && (file k).isEnd false) (List.finRange nfile) none,
        lastHit (fun k => decide (k ≠ broken) && (file k).isEnd true) (List.finRange nfile) none) :=
  pipeEnds_foldl file broken (List.finRange nfile) (none, none)

/-- What the two searches found, as facts about the files left. -/
theorem loneEnd_iff (kernel : Kernel) (broken k : Fin nfile) (writing : Bool) :
    LoneEnd kernel broken k writing ↔
      lastHit (fun k => decide (k ≠ broken) && (kernel.file k).isEnd writing)
          (List.finRange nfile) none = some k ∧
        lastHit (fun k => decide (k ≠ broken) && (kernel.file k).isEnd (!writing))
          (List.finRange nfile) none = none := by
  rw [lastHit_eq_some (List.pairwise_lt_finRange nfile), lastHit_eq_none]
  constructor
  · intro lone
    refine ⟨⟨List.mem_finRange k, by simp [lone.other, lone.isEnd], ?_⟩, ?_⟩
    · intro j _ above
      by_cases same : j = broken
      · simp [same]
      · simp [lone.last j same above]
    · intro j _
      by_cases same : j = broken
      · simp [same]
      · simp [lone.alone j same]
  · rintro ⟨⟨-, hit, greatest⟩, absent⟩
    simp only [Bool.and_eq_true, decide_eq_true_eq] at hit
    refine ⟨hit.1, hit.2, ?_, ?_⟩
    · intro j different above
      simpa [different] using greatest j (List.mem_finRange j) above
    · intro j different
      simpa [different] using absent j (List.mem_finRange j)

/-- What `closeLostPipe` does: it treats the lone end, and without one nothing. -/
theorem closeLostPipe_cases {kernel closed : Kernel} {broken : Fin nfile}
    (done : closeLostPipe kernel broken = some closed) :
    (∃ k writing, LoneEnd kernel broken k writing ∧ closeEnd kernel k writing = some closed) ∨
      (closed = kernel ∧ ∀ k writing, ¬ LoneEnd kernel broken k writing) := by
  have lone := loneEnd_iff kernel broken
  unfold closeLostPipe at done
  rw [pipeEnds_eq] at done
  cases reader : lastHit (fun k => decide (k ≠ broken) && (kernel.file k).isEnd false)
      (List.finRange nfile) none with
  | none =>
    cases writer : lastHit (fun k => decide (k ≠ broken) && (kernel.file k).isEnd true)
        (List.finRange nfile) none with
    | none =>
      simp only [reader, writer, Option.some.injEq] at done
      refine .inr ⟨done.symm, ?_⟩
      rintro k (_ | _) single
      · have found := ((lone k false).mp single).1
        rw [reader] at found
        cases found
      · have found := ((lone k true).mp single).1
        rw [writer] at found
        cases found
    | some w =>
      simp only [reader, writer] at done
      exact .inl ⟨w, true, (lone w true).mpr ⟨writer, reader⟩, done⟩
  | some r =>
    cases writer : lastHit (fun k => decide (k ≠ broken) && (kernel.file k).isEnd true)
        (List.finRange nfile) none with
    | none =>
      simp only [reader, writer] at done
      exact .inl ⟨r, false, (lone r false).mpr ⟨reader, writer⟩, done⟩
    | some w =>
      simp only [reader, writer, Option.some.injEq] at done
      refine .inr ⟨done.symm, ?_⟩
      rintro k (_ | _) single
      · have absent := ((lone k false).mp single).2
        simp only [Bool.not_false] at absent
        rw [writer] at absent
        cases absent
      · have absent := ((lone k true).mp single).2
        simp only [Bool.not_true] at absent
        rw [reader] at absent
        cases absent

/-! ## The effect of the handler -/

section

variable {fault : FileFault} {before after closed : Kernel} {broken : Fin nfile}

/-- Treating a lone end touches one pipe and kills the users of one file. -/
structure Closed (before closed : Kernel) : Prop where
  ftable : closed.ftable = before.ftable
  files : closed.files = before.files
  ofile : ∀ p, (closed.proc p).ofile = (before.proc p).ofile

theorem closeEnd_closed {k : Fin nfile} {writing : Bool}
    (done : closeEnd before k writing = some closed) : Closed before closed := by
  obtain ⟨pipe, -, rfl⟩ := Option.map_eq_some_iff.mp done
  refine ⟨rfl, rfl, fun p => ?_⟩
  simp only [killUsers]
  split_ifs <;> rfl

theorem closeLostPipe_closed (done : closeLostPipe before broken = some closed) :
    Closed before closed := by
  rcases closeLostPipe_cases done with ⟨k, writing, -, treated⟩ | ⟨rfl, -⟩
  · exact closeEnd_closed treated
  · exact ⟨rfl, rfl, fun _ => rfl⟩

theorem replacement_cases (fault : FileFault) (kernel : Kernel) (broken : Fin nfile) :
    replacement fault kernel broken = .empty ∨ replacement fault kernel broken = .reserved := by
  simp only [replacement]
  split
  · exact .inr rfl
  · exact .inl rfl

theorem recoveryHandlerFile_cases (recovered : recoveryHandlerFile fault before broken = some after) :
    ∃ closed replaced, closeLostPipe before broken = some closed ∧
      (replaced = .empty ∨ replaced = .reserved) ∧ after.pipes = closed.pipes ∧
      after.ftable = fault.page ∧
      (∀ k, after.file k = if k = broken then File.cleared else before.file k) ∧
      (∀ p, (after.proc p).killed = (closed.proc p).killed) ∧
      ∀ p fd, (after.proc p).ofile fd =
        switchFd before.ftable fault.page broken replaced ((before.proc p).ofile fd) := by
  unfold recoveryHandlerFile at recovered
  split at recovered
  · cases recovered
  split at recovered
  · cases recovered
  obtain ⟨closed, done, recovered⟩ := Option.bind_eq_some_iff.mp recovered
  split at recovered
  · cases recovered
  cases recovered
  have kept := closeLostPipe_closed done
  refine ⟨closed, replacement fault before broken, done, ?_, rfl, rfl, ?_, fun _ => rfl, ?_⟩
  · exact replacement_cases fault before broken
  · intro k
    simp [Kernel.file, kept.files, kept.ftable]
  · intro p fd
    simp [kept.ftable, kept.ofile p]

theorem switchFd_named {old new : Nat} (distinct : new ≠ old) {replaced : Fd} {k : Fin nfile}
    (other : k ≠ broken) : switchFd old new broken replaced (.file ⟨old, k⟩) = .file ⟨new, k⟩ := by
  have turned := @relocate_old _ (fun _ => false) new old distinct k rfl
  simp [switchFd, other, turned]

/-- The whole effect of a lone end: one pipe closed on one side, its users killed. -/
theorem closeEnd_effect {k : Fin nfile} {writing : Bool}
    (done : closeEnd before k writing = some closed) :
    ∃ pipe, (before.file k).pipe = some pipe ∧
      closed.pipes = Function.update before.pipes pipe ((before.pipes pipe).close writing) ∧
      ∀ p, (before.Uses p k → (closed.proc p).killed = 1) ∧
        (¬ before.Uses p k → (closed.proc p).killed = (before.proc p).killed) := by
  obtain ⟨pipe, found, rfl⟩ := Option.map_eq_some_iff.mp done
  refine ⟨pipe, found, rfl, fun p => ⟨?_, ?_⟩⟩
  · intro uses
    simp [killUsers, show ∃ fd, (before.proc p).ofile fd = .file ⟨before.ftable, k⟩ from uses]
  · intro unused
    simp [killUsers, show ¬ ∃ fd, (before.proc p).ofile fd = .file ⟨before.ftable, k⟩ from unused]

end

/-- A recovery that succeeds leaves the users of other files alone exactly when the
file it takes for the peer of the broken one is on its pipe, or nothing is left to
close and to kill. -/
theorem bystandersKept_iff {fault : FileFault} {before after : Kernel} {broken : Fin nfile}
    (fresh : fault.page ≠ before.ftable)
    (recovered : recoveryHandlerFile fault before broken = some after) :
    BystandersKept before after broken ↔ PeerOrSpent before broken := by
  obtain ⟨closed, replaced, done, emptied, pipes, ftable, file, killed, ofile⟩ :=
    recoveryHandlerFile_cases recovered
  constructor
  · intro kept k writing pipe lone found
    rcases closeLostPipe_cases done with ⟨k', writing', lone', treated⟩ | ⟨-, absent⟩
    · obtain ⟨rfl, rfl⟩ : k' = k ∧ writing' = writing := lone'.unique lone
      obtain ⟨pipe', found', closing, users⟩ := closeEnd_effect treated
      obtain rfl : pipe' = pipe := Option.some.inj (found'.symm.trans found)
      by_cases peer : (before.file broken).OnPipe pipe'
      · exact .inl peer
      refine .inr ⟨?_, ?_⟩
      · have untouched := (kept.pipes pipe').resolve_right peer
        rw [pipes, closing, Function.update_self] at untouched
        exact untouched
      · intro p uses
        rcases kept.alive p with same | shares
        · left
          rw [← same, killed p]
          exact (users p).1 uses
        · exact .inr shares
    · exact absurd lone (absent k writing)
  · intro spared
    constructor
    · intro p fd k other here
      rw [ofile, here, switchFd_named fresh other, ftable, file k, if_neg other]
      exact ⟨rfl, rfl⟩
    · intro p fd here
      rw [ofile, here]
      rfl
    · intro p fd here
      rw [ofile, here]
      rfl
    · intro p fd here
      rw [ofile, here]
      simpa [switchFd] using emptied
    · intro p
      rw [killed p]
      rcases closeLostPipe_cases done with ⟨k, writing, lone, treated⟩ | ⟨rfl, -⟩
      · obtain ⟨pipe, found, -, users⟩ := closeEnd_effect treated
        by_cases uses : before.Uses p k
        · rcases spared k writing pipe lone found with peer | ⟨-, spent⟩
          · exact .inr ⟨k, pipe, uses, ⟨lone.isPipe, found⟩, peer⟩
          · rcases spent p uses with dead | shares
            · left
              rw [dead]
              exact (users p).1 uses
            · exact .inr shares
        · exact .inl ((users p).2 uses)
      · exact .inl rfl
    · intro pipe
      rw [pipes]
      rcases closeLostPipe_cases done with ⟨k, writing, lone, treated⟩ | ⟨rfl, -⟩
      · obtain ⟨pipe', found, closing, -⟩ := closeEnd_effect treated
        rw [closing]
        by_cases same : pipe = pipe'
        · subst same
          rcases spared k writing pipe lone found with peer | ⟨spent, -⟩
          · exact .inr peer
          · left
            rw [Function.update_self]
            exact spent
        · left
          rw [Function.update_of_ne same]
      · exact .inl rfl

/-- A process that reads from a pipe, next to a file of another process. -/
def readerBeside (second : File) : Kernel where
  ftable := 0x80020000
  files _ k :=
    if k = 0 then
      { File.cleared with type := .pipe, ref := 1, readable := true, pipe := some 0x87f00000 }
    else if k = 1 then second
    else File.cleared
  icache := 0x80030000
  inodes _ _ := Inode.cleared
  pipes _ := ⟨1, 1⟩
  proc p :=
    if p = 0 then sampleProc 1 (.file ⟨0x80020000, 0⟩) ⟨0x80030000, 0⟩
    else if p = 1 then sampleProc 2 (.file ⟨0x80020000, 1⟩) ⟨0x80030000, 0⟩
    else Proc.cleared
  outstanding := 0
  nextpid := 3

/-- The writing end of the pipe that is read from. -/
def writingEnd : File :=
  { File.cleared with type := .pipe, ref := 1, writable := true, pipe := some 0x87f00000 }

/-- A file on an inode. -/
def plainFile : File :=
  { File.cleared with type := .inode, ref := 1, readable := true, ip := some ⟨0x80030000, 4⟩ }

/-- An error met by a process that is in none of the functions looked for. -/
def quietFileFault : FileFault :=
  { quietFault with fork := (1, 0) }

theorem bystandersKept_iff_pipe :
    ∃ after, recoveryHandlerFile quietFileFault (readerBeside writingEnd) 1 = some after ∧
      (after.proc 0).killed = 1 ∧
      (BystandersKept (readerBeside writingEnd) after 1 ↔
        PeerOrSpent (readerBeside writingEnd) 1) := by
  have found : (recoveryHandlerFile quietFileFault (readerBeside writingEnd) 1).any
      (fun after => decide ((after.proc 0).killed = 1)) = true := by decide +kernel
  obtain ⟨after, recovered, killed⟩ := (Option.any_eq_true _ _).mp found
  exact ⟨after, recovered, of_decide_eq_true killed, bystandersKept_iff (by decide) recovered⟩

/-- The writing end of the pipe has been closed by its owner; the file of another
process breaks, and the reader is killed for it. -/
theorem bystander_killed :
    ¬ ∀ (fault : FileFault) before after broken, fault.page ≠ before.ftable →
      recoveryHandlerFile fault before broken = some after →
        BystandersKept before after broken := by
  intro claimed
  have found : (recoveryHandlerFile quietFileFault (readerBeside plainFile) 1).any
      (fun after => decide ((after.proc 0).killed = 1)) = true := by decide +kernel
  obtain ⟨after, recovered, killed⟩ := (Option.any_eq_true _ _).mp found
  have kept := claimed quietFileFault (readerBeside plainFile) after 1 (by decide) recovered
  rcases kept.alive 0 with same | ⟨k, pipe, -, -, onPipe⟩
  · rw [of_decide_eq_true killed] at same
    revert same
    decide
  · exact absurd onPipe.1 (by decide)

end Ev6.Files
