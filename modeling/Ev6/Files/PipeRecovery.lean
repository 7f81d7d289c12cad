import Ev6.Files.FileRecovery

/-!
# Replacing a pipe

`recovery_handler_pipe` puts a new `struct pipe` for the broken one. It looks through the
`ofile[]` of every process for the files on the broken pipe, and leaves both loops at the
first of them: that file is turned to the new pipe, and that process killed.
-/

namespace Ev6.Files

open List (mem_cons mem_map)
open Function (update)
open Support

/-- What the handler finds out about the process that met the error, with the first and
the last address of `sys_pipe`; `page` is where the new pipe is put. -/
structure PipeFault extends InodeFault where
  sysPipe : Nat × Nat

/-- The file at an address. -/
def Kernel.fileAt (kernel : Kernel) (ptr : FilePtr) : File := kernel.files ptr.table ptr.index

/-- The entries of every `ofile[]`, in the order of the two loops. -/
def ofileEntries : List (Fin nproc × Fin nofile) :=
  (List.finRange nproc).flatMap fun p => (List.finRange nofile).map fun fd => (p, fd)

/-- The two loops: the first process with a file whose `pipe` is the broken address, and
that file. `none` is an access through `RESERVED`. -/
def findHolder (kernel : Kernel) (address : Nat) :
    List (Fin nproc × Fin nofile) → Option (Option (Fin nproc × FilePtr))
  | [] => some none
  | (p, fd) :: rest =>
    match (kernel.proc p).ofile fd with
    | .empty => findHolder kernel address rest
    | .reserved => none
    | .file ptr =>
      if (kernel.fileAt ptr).pipe = some address then some (some (p, ptr))
      else findHolder kernel address rest

/-- The ends of the new pipe, for the file that was found. -/
def newPipe (fp : File) : Pipe :=
  if fp.writable then ⟨0, 1⟩ else if fp.readable then ⟨1, 0⟩ else ⟨0, 0⟩

/-- `f->pipe = new`. -/
def turnFile (new : Nat) (fp : File) : File :=
  if fp.writable ∨ fp.readable then { fp with pipe := some new } else fp

/-- The process that was found is killed, and made runnable if it sleeps. -/
def turnProc (p : Proc) : Proc :=
  if p.state = .sleeping then { p with state := .runnable, chan := 0, killed := 1 }
  else { p with killed := 1 }

/-- Replace a file. -/
def Kernel.setFile (kernel : Kernel) (ptr : FilePtr) (fp : File) : Kernel :=
  { kernel with
    files := update kernel.files ptr.table
      (update (kernel.files ptr.table) ptr.index fp) }

/-- The body of the loops for what they have found. -/
def turnHolder (kernel : Kernel) (new : Nat) : Option (Fin nproc × FilePtr) → Kernel
  | none => { kernel with pipes := update kernel.pipes new ⟨0, 0⟩ }
  | some (p, ptr) =>
    { kernel.setFile ptr (turnFile new (kernel.fileAt ptr)) with
      pipes := update kernel.pipes new (newPipe (kernel.fileAt ptr))
      proc := update kernel.proc p (turnProc (kernel.proc p)) }

/-- One round of the scan of `after_treatment_pipe`: `file` is what `f` points to. -/
def afterTreatmentPipeFrame (fault : PipeFault) (file : Option FilePtr) :
    Policy × Kernel → Nat → Policy × Kernel
  | (ret, kernel), address =>
    if fault.text.isInside address .exit then
      (Policy.processKill,
        match file with
        | some ptr =>
          if (kernel.fileAt ptr).ref = 0 then
            kernel.setFile ptr { kernel.fileAt ptr with ref := 1 }
          else kernel
        | none => kernel)
    else if fault.text.isInside address .sysClose then (Policy.syscallSuccess, kernel)
    else if fault.coop ∧ fault.sysPipe.1 ≤ address ∧ address ≤ fault.sysPipe.2 then
      (Policy.syscallRedo, kernel)
    else (ret, kernel)

/-- What `f` points to behind the loops. -/
def lastFile (kernel : Kernel) : Option (Fin nproc × FilePtr) → Option FilePtr
  | some (_, ptr) => some ptr
  | none =>
    match (kernel.proc (Fin.last 63)).ofile (Fin.last 15) with
    | .file ptr => some ptr
    | _ => none

/-- `recovery_handler_pipe`: `address` is the address of the error. `none` is FAIL_STOP,
or an access through a null pointer or `RESERVED`. -/
def recoveryHandlerPipe (fault : PipeFault) (kernel : Kernel) (address : Nat) :
    Option (Policy × Kernel) :=
  if fault.page = 0 then none
  else if fault.crowded then none
  else
    (findHolder kernel address ofileEntries).map fun found =>
      fault.pcs.foldl (afterTreatmentPipeFrame fault (lastFile kernel found))
        (Policy.syscallFail, turnHolder kernel fault.page found)

/-! ## What the handler is for -/

/-- A process has a file open. -/
def Kernel.Opens (kernel : Kernel) (p : Fin nproc) (ptr : FilePtr) : Prop :=
  ∃ fd, (kernel.proc p).ofile fd = .file ptr

/-- A process has an end of a pipe open. -/
def Kernel.OpensEnd (kernel : Kernel) (p : Fin nproc) (ptr : FilePtr) (pipe : Nat) : Prop :=
  kernel.Opens p ptr ∧ (kernel.fileAt ptr).OnPipe pipe

/-- A process sleeps on `&pi->nread` or `&pi->nwrite`. -/
def Proc.AsleepOn (p : Proc) (pipe : Nat) : Prop :=
  p.state = .sleeping ∧ (p.chan = pipe + 536 ∨ p.chan = pipe + 540)

/-- The new pipe has taken the place of the old one, and every process that had an end of
it open is killed. -/
structure PipeReplaced (before after : Kernel) (old new : Nat) : Prop where
  left : ∀ p ptr, ¬ after.OpensEnd p ptr old
  moved : ∀ p ptr, before.OpensEnd p ptr old → (after.fileAt ptr).OnPipe new
  readopen : (after.pipes new).readopen = 1 ↔
    ∃ p ptr, after.OpensEnd p ptr new ∧ (after.fileAt ptr).readable = true
  writeopen : (after.pipes new).writeopen = 1 ↔
    ∃ p ptr, after.OpensEnd p ptr new ∧ (after.fileAt ptr).writable = true
  killed : ∀ p ptr, before.OpensEnd p ptr old → (after.proc p).killed ≠ 0
  woken : ∀ p ptr, before.OpensEnd p ptr old → (before.proc p).AsleepOn old →
    (after.proc p).state = .runnable

/-- A process and a file of it come first, in the order of the two loops, among those
whose `pipe` is an address. -/
def Kernel.FirstOn (kernel : Kernel) (address : Nat) (p : Fin nproc) (ptr : FilePtr) : Prop :=
  ∃ fd, (kernel.proc p).ofile fd = .file ptr ∧ (kernel.fileAt ptr).pipe = some address ∧
    ∀ q fd' other, (q < p ∨ q = p ∧ fd' < fd) → (kernel.proc q).ofile fd' = .file other →
      (kernel.fileAt other).pipe ≠ some address

/-- The condition: whoever has an end of the pipe open has the file that comes first for
the address of the error, and comes first with it, or is killed and awake already; and
the file that comes first is an end in one direction, if it is open for anything. -/
structure SingleEnd (kernel : Kernel) (old address : Nat) : Prop where
  first : ∀ p ptr, kernel.OpensEnd p ptr old →
    ∃ q, kernel.FirstOn address q ptr ∧
      (p = q ∨ (kernel.proc p).killed ≠ 0 ∧ ¬ (kernel.proc p).AsleepOn old)
  opened : ∀ p ptr, kernel.OpensEnd p ptr old →
    (kernel.fileAt ptr).writable = true ∨ (kernel.fileAt ptr).readable = true
  direction : ∀ p ptr, kernel.FirstOn address p ptr →
    ((kernel.fileAt ptr).writable = true ∨ (kernel.fileAt ptr).readable = true →
      (kernel.fileAt ptr).type = .pipe) ∧
    ¬ ((kernel.fileAt ptr).writable = true ∧ (kernel.fileAt ptr).readable = true)

/-- No process has an end of a pipe open where the new one is put. -/
structure FreshPipe (kernel : Kernel) (old new : Nat) : Prop where
  apart : new ≠ old
  unused : ∀ p ptr, ¬ kernel.OpensEnd p ptr new

/-! ## The loops -/

/-- One entry is visited before another. -/
def Visited (first second : Fin nproc × Fin nofile) : Prop :=
  first.1 < second.1 ∨ first.1 = second.1 ∧ first.2 < second.2

theorem ofileEntries_pairwise : ofileEntries.Pairwise Visited := by
  refine List.pairwise_flatMap.mpr ⟨fun p _ => ?_, ?_⟩
  · refine List.pairwise_map.mpr ((List.pairwise_lt_finRange nofile).imp fun below => ?_)
    exact .inr ⟨rfl, below⟩
  · refine (List.pairwise_lt_finRange nproc).imp fun below first left second right => ?_
    obtain ⟨fd, -, rfl⟩ := mem_map.mp left
    obtain ⟨fd', -, rfl⟩ := mem_map.mp right
    exact .inl below

theorem mem_ofileEntries (p : Fin nproc) (fd : Fin nofile) : (p, fd) ∈ ofileEntries :=
  List.mem_flatMap.mpr ⟨p, List.mem_finRange p, mem_map.mpr ⟨fd, List.mem_finRange fd, rfl⟩⟩

theorem visited_irrefl {entry : Fin nproc × Fin nofile} : ¬ Visited entry entry := by
  rintro (below | ⟨-, below⟩) <;> exact lt_irrefl _ below

theorem visited_asymm {first second : Fin nproc × Fin nofile} (before : Visited first second) :
    ¬ Visited second first := by
  rcases before with before | ⟨same, before⟩ <;> rintro (behind | ⟨same', behind⟩) <;> omega

/-- What comes before an entry of the list is what is visited before it. -/
theorem mem_before_of_visited {before behind : List (Fin nproc × Fin nofile)}
    {entry other : Fin nproc × Fin nofile} (split : ofileEntries = before ++ entry :: behind)
    (visited : Visited other entry) : other ∈ before := by
  have mem := mem_ofileEntries other.1 other.2
  have ordered := ofileEntries_pairwise
  rw [split] at mem ordered
  rcases List.mem_append.mp mem with before | rest
  · exact before
  · rcases mem_cons.mp rest with same | behind
    · obtain rfl : other = entry := same
      exact absurd visited visited_irrefl
    · have later := (List.pairwise_cons.mp (List.pairwise_append.mp ordered).2.1).1 _ behind
      exact absurd visited (visited_asymm later)

variable {kernel : Kernel} {address : Nat}

theorem findHolder_eq_some {entries : List (Fin nproc × Fin nofile)} {p : Fin nproc}
    {ptr : FilePtr} (found : findHolder kernel address entries = some (some (p, ptr))) :
    ∃ before fd behind, entries = before ++ (p, fd) :: behind ∧
      (kernel.proc p).ofile fd = .file ptr ∧ (kernel.fileAt ptr).pipe = some address ∧
      ∀ entry ∈ before, ∀ other, (kernel.proc entry.1).ofile entry.2 = .file other →
        (kernel.fileAt other).pipe ≠ some address := by
  induction entries with
  | nil => cases found
  | cons entry rest ih =>
    obtain ⟨q, fd⟩ := entry
    unfold findHolder at found
    have skip : findHolder kernel address rest = some (some (p, ptr)) →
        (∀ other, (kernel.proc q).ofile fd = .file other →
          (kernel.fileAt other).pipe ≠ some address) →
        ∃ before fd' behind, (q, fd) :: rest = before ++ (p, fd') :: behind ∧
          (kernel.proc p).ofile fd' = .file ptr ∧ (kernel.fileAt ptr).pipe = some address ∧
          ∀ entry ∈ before, ∀ other, (kernel.proc entry.1).ofile entry.2 = .file other →
            (kernel.fileAt other).pipe ≠ some address := by
      intro later missed
      obtain ⟨before, fd', behind, rfl, opened, hit, misses⟩ := ih later
      refine ⟨(q, fd) :: before, fd', behind, rfl, opened, hit, fun entry mem => ?_⟩
      rcases mem_cons.mp mem with rfl | mem
      · exact missed
      · exact misses entry mem
    cases entry : (kernel.proc q).ofile fd with
    | empty =>
      rw [entry] at found
      refine skip found fun other same => ?_
      rw [entry] at same
      cases same
    | reserved =>
      rw [entry] at found
      cases found
    | file here =>
      rw [entry] at found
      simp only at found
      split_ifs at found with hit
      · obtain ⟨rfl, rfl⟩ := Prod.ext_iff.mp (Option.some.inj (Option.some.inj found))
        refine ⟨[], fd, rest, rfl, entry, hit, fun _ mem => ?_⟩
        cases mem
      · refine skip found fun other same => ?_
        rw [entry] at same
        cases same
        exact hit

theorem findHolder_eq_none {entries : List (Fin nproc × Fin nofile)}
    (found : findHolder kernel address entries = some none) :
    ∀ entry ∈ entries, ∀ other, (kernel.proc entry.1).ofile entry.2 = .file other →
      (kernel.fileAt other).pipe ≠ some address := by
  induction entries with
  | nil =>
    intro _ mem
    cases mem
  | cons first rest ih =>
    obtain ⟨q, fd⟩ := first
    intro entry mem other opened
    unfold findHolder at found
    cases here : (kernel.proc q).ofile fd with
    | empty =>
      rw [here] at found
      rcases mem_cons.mp mem with rfl | mem
      · rw [here] at opened
        cases opened
      · exact ih found entry mem other opened
    | reserved =>
      rw [here] at found
      cases found
    | file ptr =>
      rw [here] at found
      simp only at found
      split_ifs at found with hit
      · cases found
      · rcases mem_cons.mp mem with rfl | mem
        · rw [here] at opened
          cases opened
          exact hit
        · exact ih found entry mem other opened

/-- The loops stop at the first file on the address. -/
theorem firstOn_of_findHolder {p : Fin nproc} {ptr : FilePtr}
    (found : findHolder kernel address ofileEntries = some (some (p, ptr))) :
    kernel.FirstOn address p ptr := by
  obtain ⟨before, fd, behind, split, opened, hit, misses⟩ := findHolder_eq_some found
  refine ⟨fd, opened, hit, fun q fd' other earlier held => ?_⟩
  exact misses (q, fd') (mem_before_of_visited split earlier) other held

theorem pipe_ne_of_findHolder_none (found : findHolder kernel address ofileEntries = some none)
    {p : Fin nproc} {ptr : FilePtr} (opens : kernel.Opens p ptr) :
    (kernel.fileAt ptr).pipe ≠ some address := by
  obtain ⟨fd, held⟩ := opens
  exact findHolder_eq_none found (p, fd) (mem_ofileEntries p fd) ptr held

theorem Kernel.FirstOn.unique {p q : Fin nproc} {first second : FilePtr}
    (left : kernel.FirstOn address p first) (right : kernel.FirstOn address q second) :
    p = q ∧ first = second := by
  obtain ⟨fd, held, hit, misses⟩ := left
  obtain ⟨fd', held', hit', misses'⟩ := right
  have notBefore : ¬ Visited (q, fd') (p, fd) := fun earlier => misses q fd' second earlier held' hit'
  have notBehind : ¬ Visited (p, fd) (q, fd') := fun earlier => misses' p fd first earlier held hit
  simp only [Visited] at notBefore notBehind
  obtain rfl : p = q := by omega
  obtain rfl : fd = fd' := by omega
  rw [held] at held'
  exact ⟨rfl, Fd.file.inj held'⟩

theorem Kernel.FirstOn.opens {p : Fin nproc} {ptr : FilePtr}
    (first : kernel.FirstOn address p ptr) : kernel.Opens p ptr :=
  ⟨first.choose, first.choose_spec.1⟩

theorem Kernel.FirstOn.hit {p : Fin nproc} {ptr : FilePtr}
    (first : kernel.FirstOn address p ptr) : (kernel.fileAt ptr).pipe = some address :=
  first.choose_spec.2.1

/-! ## The kernel behind the loops -/

section

variable {new : Nat}

theorem ofile_turnProc (p : Proc) : (turnProc p).ofile = p.ofile := by
  unfold turnProc
  split_ifs <;> rfl

@[simp]
theorem opens_turnHolder {found : Option (Fin nproc × FilePtr)} {p : Fin nproc} {ptr : FilePtr} :
    (turnHolder kernel new found).Opens p ptr ↔ kernel.Opens p ptr := by
  cases found with
  | none => rfl
  | some holder =>
    unfold Kernel.Opens turnHolder
    by_cases same : p = holder.1
    · subst same
      simp [ofile_turnProc]
    · simp [same]

theorem fileAt_setFile (ptr other : FilePtr) (fp : File) :
    (kernel.setFile ptr fp).fileAt other = if other = ptr then fp else kernel.fileAt other := by
  unfold Kernel.setFile Kernel.fileAt
  by_cases table : other.table = ptr.table
  · by_cases index : other.index = ptr.index
    · obtain rfl : other = ptr := by
        cases other
        cases ptr
        simp_all
      simp
    · have different : other ≠ ptr := fun same => index (congrArg EntryPtr.index same)
      simp [table, index, different]
  · have different : other ≠ ptr := fun same => table (congrArg EntryPtr.table same)
    simp [table, different]

theorem fileAt_turnHolder_some (q : Fin nproc) (ptr other : FilePtr) :
    (turnHolder kernel new (some (q, ptr))).fileAt other =
      if other = ptr then turnFile new (kernel.fileAt ptr) else kernel.fileAt other :=
  fileAt_setFile ptr other _

theorem proc_turnHolder_some (q : Fin nproc) (ptr : FilePtr) (p : Fin nproc) :
    (turnHolder kernel new (some (q, ptr))).proc p =
      if p = q then turnProc (kernel.proc q) else kernel.proc p := by
  unfold turnHolder
  by_cases same : p = q
  · subst same
    simp
  · simp [same]

theorem pipes_turnHolder_some (q : Fin nproc) (ptr : FilePtr) :
    (turnHolder kernel new (some (q, ptr))).pipes new = newPipe (kernel.fileAt ptr) := by
  simp [turnHolder]

theorem type_turnFile (fp : File) : (turnFile new fp).type = fp.type := by
  unfold turnFile
  split_ifs <;> rfl

theorem writable_turnFile (fp : File) : (turnFile new fp).writable = fp.writable := by
  unfold turnFile
  split_ifs <;> rfl

theorem readable_turnFile (fp : File) : (turnFile new fp).readable = fp.readable := by
  unfold turnFile
  split_ifs <;> rfl

/-- A file open for something is turned to the new pipe. -/
theorem onPipe_turnFile {fp : File} (type : fp.type = .pipe)
    (opened : fp.writable = true ∨ fp.readable = true) : (turnFile new fp).OnPipe new := by
  refine ⟨by rwa [type_turnFile], ?_⟩
  unfold turnFile
  rw [if_pos opened]

theorem turnFile_of_shut {fp : File} (shut : ¬ (fp.writable = true ∨ fp.readable = true)) :
    turnFile new fp = fp := if_neg shut

theorem killed_turnProc (p : Proc) : (turnProc p).killed = 1 := by
  unfold turnProc
  split_ifs <;> rfl

theorem state_turnProc {p : Proc} (asleep : p.state = .sleeping) :
    (turnProc p).state = .runnable := by
  rw [turnProc, if_pos asleep]

theorem writeopen_newPipe {fp : File} : (newPipe fp).writeopen = 1 ↔ fp.writable = true := by
  unfold newPipe
  split_ifs with writes reads <;> simp [writes]

theorem readopen_newPipe {fp : File} :
    (newPipe fp).readopen = 1 ↔ fp.writable = false ∧ fp.readable = true := by
  unfold newPipe
  split_ifs <;> simp [*]

/-- The after-treatment changes nothing but the references of a file. -/
structure SameButRefs (first second : Kernel) : Prop where
  proc : second.proc = first.proc
  pipes : second.pipes = first.pipes
  onPipe : ∀ ptr pipe, (second.fileAt ptr).OnPipe pipe ↔ (first.fileAt ptr).OnPipe pipe
  readable : ∀ ptr, (second.fileAt ptr).readable = (first.fileAt ptr).readable
  writable : ∀ ptr, (second.fileAt ptr).writable = (first.fileAt ptr).writable

theorem SameButRefs.refl (kernel : Kernel) : SameButRefs kernel kernel :=
  ⟨rfl, rfl, fun _ _ => Iff.rfl, fun _ => rfl, fun _ => rfl⟩

theorem SameButRefs.symm {first second : Kernel} (same : SameButRefs first second) :
    SameButRefs second first where
  proc := same.proc.symm
  pipes := same.pipes.symm
  onPipe ptr pipe := (same.onPipe ptr pipe).symm
  readable ptr := (same.readable ptr).symm
  writable ptr := (same.writable ptr).symm

theorem SameButRefs.trans {first second third : Kernel} (left : SameButRefs first second)
    (right : SameButRefs second third) : SameButRefs first third where
  proc := right.proc.trans left.proc
  pipes := right.pipes.trans left.pipes
  onPipe ptr pipe := (right.onPipe ptr pipe).trans (left.onPipe ptr pipe)
  readable ptr := (right.readable ptr).trans (left.readable ptr)
  writable ptr := (right.writable ptr).trans (left.writable ptr)

theorem sameButRefs_setRef (kernel : Kernel) (ptr : FilePtr) (ref : Int) :
    SameButRefs kernel (kernel.setFile ptr { kernel.fileAt ptr with ref := ref }) where
  proc := rfl
  pipes := rfl
  onPipe other pipe := by
    rw [fileAt_setFile]
    split_ifs with same
    · subst same
      rfl
    · rfl
  readable other := by
    rw [fileAt_setFile]
    split_ifs with same
    · rw [same]
    · rfl
  writable other := by
    rw [fileAt_setFile]
    split_ifs with same
    · rw [same]
    · rfl

theorem sameButRefs_frame (fault : PipeFault) (file : Option FilePtr)
    (treated : Policy × Kernel) (address : Nat) :
    SameButRefs treated.2 (afterTreatmentPipeFrame fault file treated address).2 := by
  obtain ⟨ret, kernel⟩ := treated
  simp only [afterTreatmentPipeFrame]
  split_ifs
  · cases file with
    | none => exact .refl _
    | some ptr =>
      simp only
      split_ifs
      · exact sameButRefs_setRef _ _ _
      · exact .refl _
  · exact .refl _
  · exact .refl _
  · exact .refl _

theorem sameButRefs_foldl (fault : PipeFault) (file : Option FilePtr) (pcs : List Nat)
    (treated : Policy × Kernel) :
    SameButRefs treated.2 (pcs.foldl (afterTreatmentPipeFrame fault file) treated).2 := by
  induction pcs generalizing treated with
  | nil => exact .refl _
  | cons address rest ih => exact (sameButRefs_frame fault file treated address).trans (ih _)

theorem SameButRefs.opensEnd {first second : Kernel} (same : SameButRefs first second)
    {p : Fin nproc} {ptr : FilePtr} {pipe : Nat} :
    second.OpensEnd p ptr pipe ↔ first.OpensEnd p ptr pipe := by
  unfold Kernel.OpensEnd Kernel.Opens
  rw [same.proc, same.onPipe]

theorem SameButRefs.pipeReplaced {before first second : Kernel} (same : SameButRefs first second)
    {old : Nat} (replaced : PipeReplaced before first old new) :
    PipeReplaced before second old new where
  left p ptr opens := replaced.left p ptr (same.opensEnd.mp opens)
  moved p ptr opens := (same.onPipe ptr new).mpr (replaced.moved p ptr opens)
  readopen := by
    simp only [same.opensEnd, same.readable, same.pipes]
    exact replaced.readopen
  writeopen := by
    simp only [same.opensEnd, same.writable, same.pipes]
    exact replaced.writeopen
  killed p ptr opens := by
    rw [same.proc]
    exact replaced.killed p ptr opens
  woken p ptr opens asleep := by
    rw [same.proc]
    exact replaced.woken p ptr opens asleep

/-! ## Exactly when the new pipe takes the place of the old one -/

variable {old : Nat} {q : Fin nproc} {held : FilePtr}

/-- A file open behind the loops that is an end of a pipe was one before, or is the file
that was turned. -/
theorem opensEnd_turnHolder {p : Fin nproc} {ptr : FilePtr} {pipe : Nat} :
    (turnHolder kernel new (some (q, held))).OpensEnd p ptr pipe ↔
      kernel.Opens p ptr ∧
        (if ptr = held then turnFile new (kernel.fileAt held) else kernel.fileAt ptr).OnPipe pipe := by
  unfold Kernel.OpensEnd
  rw [opens_turnHolder, fileAt_turnHolder_some]

theorem SingleEnd.of_replaced (fresh : FreshPipe kernel old new)
    (first : kernel.FirstOn address q held)
    (replaced : PipeReplaced kernel (turnHolder kernel new (some (q, held))) old new) :
    SingleEnd kernel old address := by
  have single : ∀ p ptr, kernel.OpensEnd p ptr old → ptr = held := by
    intro p ptr opens
    by_contra other
    refine replaced.left p ptr (opensEnd_turnHolder.mpr ⟨opens.1, ?_⟩)
    rw [if_neg other]
    exact opens.2
  have turned : ∀ p ptr, (turnHolder kernel new (some (q, held))).OpensEnd p ptr new →
      ptr = held ∧ (kernel.fileAt held).type = .pipe := by
    intro p ptr opens
    obtain ⟨opened, onPipe⟩ := opensEnd_turnHolder.mp opens
    split_ifs at onPipe with same
    · exact ⟨same, by rw [← onPipe.1, type_turnFile]⟩
    · exact absurd ⟨opened, onPipe⟩ (fresh.unused p ptr)
  have typed : (kernel.fileAt held).writable = true ∨ (kernel.fileAt held).readable = true →
      (kernel.fileAt held).type = .pipe := by
    intro opened
    cases writes : (kernel.fileAt held).writable with
    | true =>
      have ends := replaced.writeopen.mp (by
        rw [pipes_turnHolder_some]
        exact writeopen_newPipe.mpr writes)
      obtain ⟨p, ptr, opens, -⟩ := ends
      exact (turned p ptr opens).2
    | false =>
      have reads : (kernel.fileAt held).readable = true := by
        rcases opened with writes' | reads
        · rw [writes] at writes'
          cases writes'
        · exact reads
      have ends := replaced.readopen.mp (by
        rw [pipes_turnHolder_some]
        exact readopen_newPipe.mpr ⟨writes, reads⟩)
      obtain ⟨p, ptr, opens, -⟩ := ends
      exact (turned p ptr opens).2
  refine ⟨fun p ptr opens => ⟨q, ?_, ?_⟩, fun p ptr opens => ?_, fun p ptr firstOn => ?_⟩
  · rw [single p ptr opens]
    exact first
  · by_cases same : p = q
    · exact .inl same
    · have kept : (turnHolder kernel new (some (q, held))).proc p = kernel.proc p := by
        rw [proc_turnHolder_some, if_neg same]
      have killed := replaced.killed p ptr opens
      rw [kept] at killed
      refine .inr ⟨killed, fun asleep => ?_⟩
      have woken := replaced.woken p ptr opens asleep
      rw [kept, asleep.1] at woken
      cases woken
  · by_contra shut
    obtain rfl := single p ptr opens
    refine replaced.left p ptr (opensEnd_turnHolder.mpr ⟨opens.1, ?_⟩)
    rw [if_pos rfl, turnFile_of_shut shut]
    exact opens.2
  · obtain ⟨rfl, rfl⟩ := firstOn.unique first
    refine ⟨typed, fun both => ?_⟩
    have onPipe : (turnFile new (kernel.fileAt ptr)).OnPipe new :=
      onPipe_turnFile (typed (.inl both.1)) (.inl both.1)
    have reads := replaced.readopen.mpr ⟨p, ptr, opensEnd_turnHolder.mpr
      ⟨firstOn.opens, by rwa [if_pos rfl]⟩, by
        rw [fileAt_turnHolder_some, if_pos rfl, readable_turnFile]
        exact both.2⟩
    rw [pipes_turnHolder_some, readopen_newPipe, both.1] at reads
    cases reads.1

theorem SingleEnd.replaced (fresh : FreshPipe kernel old new)
    (first : kernel.FirstOn address q held) (singleEnd : SingleEnd kernel old address) :
    PipeReplaced kernel (turnHolder kernel new (some (q, held))) old new := by
  have single : ∀ p ptr, kernel.OpensEnd p ptr old → ptr = held := by
    intro p ptr opens
    obtain ⟨q', first', -⟩ := singleEnd.first p ptr opens
    exact (first'.unique first).2
  have others : ∀ p ptr, kernel.OpensEnd p ptr old → p ≠ q →
      (kernel.proc p).killed ≠ 0 ∧ ¬ (kernel.proc p).AsleepOn old := by
    intro p ptr opens different
    obtain ⟨q', first', same | spent⟩ := singleEnd.first p ptr opens
    · exact absurd (same.trans (first'.unique first).1) different
    · exact spent
  obtain ⟨typed, direction⟩ := singleEnd.direction q held first
  have turned : ∀ p ptr, (turnHolder kernel new (some (q, held))).OpensEnd p ptr new →
      ptr = held ∧ ((kernel.fileAt held).writable = true ∨ (kernel.fileAt held).readable = true) := by
    intro p ptr opens
    obtain ⟨opened, onPipe⟩ := opensEnd_turnHolder.mp opens
    split_ifs at onPipe with same
    · refine ⟨same, ?_⟩
      by_contra shut
      rw [turnFile_of_shut shut] at onPipe
      rw [same] at opened
      exact fresh.unused p held ⟨opened, onPipe⟩
    · exact absurd ⟨opened, onPipe⟩ (fresh.unused p ptr)
  have opensNew : (kernel.fileAt held).writable = true ∨ (kernel.fileAt held).readable = true →
      (turnHolder kernel new (some (q, held))).OpensEnd q held new := by
    intro opened
    refine opensEnd_turnHolder.mpr ⟨first.opens, ?_⟩
    rw [if_pos rfl]
    exact onPipe_turnFile (typed opened) opened
  refine ⟨fun p ptr opens => ?_, fun p ptr opens => ?_, ⟨fun reads => ?_, ?_⟩,
    ⟨fun writes => ?_, ?_⟩, fun p ptr opens => ?_, fun p ptr opens asleep => ?_⟩
  · obtain ⟨opened, onPipe⟩ := opensEnd_turnHolder.mp opens
    split_ifs at onPipe with same
    · subst same
      by_cases some : (kernel.fileAt ptr).writable = true ∨ (kernel.fileAt ptr).readable = true
      · have pipe : (turnFile new (kernel.fileAt ptr)).pipe = Option.some new :=
          (onPipe_turnFile (typed some) some).2
        rw [onPipe.2] at pipe
        exact fresh.apart (Option.some.inj pipe).symm
      · rw [turnFile_of_shut some] at onPipe
        exact some (singleEnd.opened p ptr ⟨opened, onPipe⟩)
    · exact same (single p ptr ⟨opened, onPipe⟩)
  · have opened := singleEnd.opened p ptr opens
    rw [fileAt_turnHolder_some, if_pos (single p ptr opens)]
    rw [single p ptr opens] at opened
    exact onPipe_turnFile (typed opened) opened
  · rw [pipes_turnHolder_some, readopen_newPipe] at reads
    refine ⟨q, held, opensNew (.inr reads.2), ?_⟩
    rw [fileAt_turnHolder_some, if_pos rfl, readable_turnFile]
    exact reads.2
  · rintro ⟨p, ptr, opens, reads⟩
    obtain ⟨rfl, -⟩ := turned p ptr opens
    rw [fileAt_turnHolder_some, if_pos rfl, readable_turnFile] at reads
    rw [pipes_turnHolder_some, readopen_newPipe]
    refine ⟨?_, reads⟩
    by_contra writes
    exact direction ⟨by simpa using writes, reads⟩
  · rw [pipes_turnHolder_some, writeopen_newPipe] at writes
    refine ⟨q, held, opensNew (.inl writes), ?_⟩
    rw [fileAt_turnHolder_some, if_pos rfl, writable_turnFile]
    exact writes
  · rintro ⟨p, ptr, opens, writes⟩
    obtain ⟨rfl, -⟩ := turned p ptr opens
    rw [fileAt_turnHolder_some, if_pos rfl, writable_turnFile] at writes
    rw [pipes_turnHolder_some, writeopen_newPipe]
    exact writes
  · rw [proc_turnHolder_some]
    split_ifs with same
    · rw [killed_turnProc]
      decide
    · exact (others p ptr opens same).1
  · rw [proc_turnHolder_some]
    split_ifs with same
    · subst same
      exact state_turnProc asleep.1
    · exact absurd asleep (others p ptr opens same).2

/-- Without a file on the address, the new pipe is right when nobody has an end open. -/
theorem replaced_none_iff (fresh : FreshPipe kernel old new)
    (missed : ∀ p ptr, kernel.Opens p ptr → (kernel.fileAt ptr).pipe ≠ some address) :
    PipeReplaced kernel (turnHolder kernel new none) old new ↔ SingleEnd kernel old address := by
  have unread : (turnHolder kernel new none).pipes new = ⟨0, 0⟩ := by
    simp [turnHolder]
  constructor
  · intro replaced
    have nobody : ∀ p ptr, ¬ kernel.OpensEnd p ptr old := replaced.left
    exact ⟨fun p ptr opens => absurd opens (nobody p ptr),
      fun p ptr opens => absurd opens (nobody p ptr),
      fun p ptr first => absurd first.hit (missed p ptr first.opens)⟩
  · intro singleEnd
    have nobody : ∀ p ptr, ¬ kernel.OpensEnd p ptr old := by
      intro p ptr opens
      obtain ⟨q, first, -⟩ := singleEnd.first p ptr opens
      exact missed q ptr first.opens first.hit
    refine ⟨nobody, fun p ptr opens => absurd opens (nobody p ptr), ?_, ?_,
      fun p ptr opens => absurd opens (nobody p ptr),
      fun p ptr opens => absurd opens (nobody p ptr)⟩
    · rw [unread]
      refine iff_of_false (by decide) ?_
      rintro ⟨p, ptr, opens, -⟩
      exact fresh.unused p ptr opens
    · rw [unread]
      refine iff_of_false (by decide) ?_
      rintro ⟨p, ptr, opens, -⟩
      exact fresh.unused p ptr opens

end

/-- A successful `recovery_handler_pipe` has replaced the pipe exactly when all its open
ends are the one file that the loops stop at. -/
theorem pipeReplaced_iff_singleEnd {fault : PipeFault} {kernel after : Kernel}
    {old address : Nat} {ret : Policy} (fresh : FreshPipe kernel old fault.page)
    (success : recoveryHandlerPipe fault kernel address = some (ret, after)) :
    PipeReplaced kernel after old fault.page ↔ SingleEnd kernel old address := by
  unfold recoveryHandlerPipe at success
  obtain ⟨-, success⟩ := Option.ite_none_left_eq_some.mp success
  obtain ⟨-, success⟩ := Option.ite_none_left_eq_some.mp success
  obtain ⟨found, scanned, treated⟩ := Option.map_eq_some_iff.mp success
  have same := sameButRefs_foldl fault (lastFile kernel found) fault.pcs
    (Policy.syscallFail, turnHolder kernel fault.page found)
  rw [treated] at same
  have turned : PipeReplaced kernel after old fault.page ↔
      PipeReplaced kernel (turnHolder kernel fault.page found) old fault.page :=
    ⟨same.symm.pipeReplaced, same.pipeReplaced⟩
  rw [turned]
  cases found with
  | none =>
    exact replaced_none_iff fresh fun p ptr => pipe_ne_of_findHolder_none scanned
  | some holder =>
    have first : kernel.FirstOn address holder.1 holder.2 := firstOn_of_findHolder scanned
    exact ⟨SingleEnd.of_replaced fresh first, SingleEnd.replaced fresh first⟩

/-- An end of the pipe at an address. -/
def pipeEnd (pipe : Nat) (writing : Bool) : File :=
  { File.cleared with
    type := .pipe, ref := 1, pipe := some pipe, readable := !writing, writable := writing }

/-- The first process has the writing end of a pipe open, and the processes in `readers`
the reading end. -/
def sharedPipe (readers : Fin nproc → Bool) : Kernel where
  ftable := 0x80020000
  files _ k := if k = 0 then pipeEnd 0x87f10000 true
    else if k = 1 then pipeEnd 0x87f10000 false
    else File.cleared
  icache := 0x80030000
  inodes _ _ := .cleared
  pipes _ := ⟨1, 1⟩
  proc p := { Proc.cleared with
    ofile := fun fd =>
      if fd = 0 ∧ p = 0 then .file ⟨0x80020000, 0⟩
      else if fd = 0 ∧ readers p then .file ⟨0x80020000, 1⟩
      else .empty }
  outstanding := 0
  nextpid := 3

/-- An error without a call stack; the new pipe is put in a page of its own. -/
def pipeFault : PipeFault where
  text _ := (0, 0)
  mode := .aggressive
  pcs := []
  coop := false
  crowded := false
  page := 0x87f11000
  sysPipe := (0, 0)

theorem sharedPipe_opens {readers : Fin nproc → Bool} {p : Fin nproc} {ptr : FilePtr}
    (opens : (sharedPipe readers).Opens p ptr) :
    p = 0 ∧ ptr = ⟨0x80020000, 0⟩ ∨ readers p = true ∧ ptr = ⟨0x80020000, 1⟩ := by
  obtain ⟨fd, held⟩ := opens
  simp only [sharedPipe] at held
  split_ifs at held with first second
  · exact .inl ⟨first.2, (Fd.file.inj held).symm⟩
  · exact .inr ⟨second.2, (Fd.file.inj held).symm⟩

theorem sharedPipe_fresh (readers : Fin nproc → Bool) :
    FreshPipe (sharedPipe readers) 0x87f10000 0x87f11000 where
  apart := by decide
  unused p ptr opens := by
    have pipe : some 0x87f10000 = some 0x87f11000 := by
      rcases sharedPipe_opens opens.1 with ⟨-, rfl⟩ | ⟨-, rfl⟩
      · exact opens.2.2
      · exact opens.2.2
    exact absurd pipe (by decide)

theorem pipeReplaced_iff_singleEnd_writer :
    ∃ ret after, FreshPipe (sharedPipe fun _ => false) 0x87f10000 pipeFault.page ∧
      recoveryHandlerPipe pipeFault (sharedPipe fun _ => false) 0x87f10000 = some (ret, after) ∧
        PipeReplaced (sharedPipe fun _ => false) after 0x87f10000 pipeFault.page := by
  have found : (recoveryHandlerPipe pipeFault (sharedPipe fun _ => false) 0x87f10000).isSome =
      true := by
    decide +kernel
  obtain ⟨⟨ret, after⟩, success⟩ := Option.isSome_iff_exists.mp found
  have fresh : FreshPipe (sharedPipe fun _ => false) 0x87f10000 pipeFault.page :=
    sharedPipe_fresh _
  have only : ∀ {p ptr}, (sharedPipe fun _ => false).Opens p ptr → p = 0 ∧ ptr = ⟨0x80020000, 0⟩ := by
    intro p ptr opens
    rcases sharedPipe_opens opens with writer | ⟨reader, -⟩
    · exact writer
    · cases reader
  have first : (sharedPipe fun _ => false).FirstOn 0x87f10000 0 ⟨0x80020000, 0⟩ := by
    refine ⟨0, rfl, by decide, fun q fd other earlier => ?_⟩
    rcases earlier with below | ⟨-, below⟩
    · exact absurd below (Nat.not_lt_zero _)
    · exact absurd below (Nat.not_lt_zero _)
  refine ⟨ret, after, fresh, success, (pipeReplaced_iff_singleEnd fresh success).mpr ⟨?_, ?_, ?_⟩⟩
  · intro p ptr opens
    obtain ⟨rfl, rfl⟩ := only opens.1
    exact ⟨0, first, .inl rfl⟩
  · intro p ptr opens
    obtain ⟨rfl, rfl⟩ := only opens.1
    exact .inl (by decide)
  · intro p ptr firstOn
    obtain ⟨rfl, rfl⟩ := only firstOn.opens
    exact ⟨fun _ => by decide, by decide⟩

/-- The reader of a pipe keeps its file on the broken pipe when the writer comes first. -/
theorem reader_keeps_broken_pipe :
    ¬ ∀ fault kernel after old address ret, FreshPipe kernel old fault.page →
      recoveryHandlerPipe fault kernel address = some (ret, after) →
        PipeReplaced kernel after old fault.page := by
  intro claimed
  have found : (recoveryHandlerPipe pipeFault (sharedPipe fun p => p = 1) 0x87f10000).any
      (fun treated => decide ((treated.2.proc 1).ofile 0 = .file ⟨0x80020000, 1⟩ ∧
        (treated.2.fileAt ⟨0x80020000, 1⟩).type = .pipe ∧
        (treated.2.fileAt ⟨0x80020000, 1⟩).pipe = some 0x87f10000)) = true := by
    decide +kernel
  obtain ⟨⟨ret, after⟩, success, facts⟩ := (Option.any_eq_true _ _).mp found
  obtain ⟨held, type, pipe⟩ := of_decide_eq_true facts
  have replaced := claimed pipeFault (sharedPipe fun p => p = 1) after 0x87f10000 0x87f10000 ret
    (sharedPipe_fresh _) success
  exact replaced.left 1 ⟨0x80020000, 1⟩ ⟨⟨0, held⟩, type, pipe⟩

end Ev6.Files
