import Ev6.Files.InodeRecovery
import Mathlib.Control.Monad.Basic

/-!
# A fork that a memory error cuts off

`fork` is a list of writes to the slot of the child and to the reference counts of
what the child inherits. A memory error in the parent leaves a prefix of that list
done; after the recovery `cleanup_unused_procs` looks for the slots that have a pid
but are still `UNUSED`, takes back the counts of what they name, and frees them.
-/

namespace Ev6.Files

open Option (bind_eq_some_iff)
open List (foldlM_cons mem_cons)
open Function (update update_of_ne)
open Support

/-- One write of `fork`, of the functions it calls, in the slot of the child or in a
reference count. -/
inductive ForkAction where
  /-- `p->pid = allocpid()`. -/
  | allocPid
  /-- `p->tf = kalloc()`. -/
  | allocTf (page : Nat)
  /-- `p->pagetable = proc_pagetable(p)`. -/
  | makePagetable (page : Nat)
  /-- `uvmcopy` failed: `freeproc(np)`. -/
  | freeChild
  /-- `np->sz = p->sz`. -/
  | copySz
  /-- `np->parent = p`. -/
  | setParent
  /-- `f->ref++` in `filedup`. -/
  | countFile (fd : Fin nofile)
  /-- `np->ofile[i] = ` what `filedup` returns. -/
  | storeFile (fd : Fin nofile)
  /-- `ip->ref++` in `idup`. -/
  | countCwd
  /-- `np->cwd = ` what `idup` returns. -/
  | storeCwd
  /-- `safestrcpy(np->name, p->name, sizeof(p->name))`. -/
  | copyName
  /-- `np->state = RUNNABLE`. -/
  | setRunnable
deriving DecidableEq

/-- The action raises a reference count. -/
def ForkAction.counts : ForkAction → Bool
  | .countFile _ | .countCwd => true
  | _ => false

/-- Write one slot of `proc[]`. -/
def Kernel.setProc (kernel : Kernel) (p : Fin nproc) (proc : Proc) : Kernel :=
  { kernel with proc := update kernel.proc p proc }

/-- Write the reference count of a file. -/
def Kernel.setFileRef (kernel : Kernel) (ptr : FilePtr) (ref : Int) : Kernel :=
  { kernel with
    files := update kernel.files ptr.table
      (update (kernel.files ptr.table) ptr.index
        { kernel.files ptr.table ptr.index with ref := ref }) }

/-- Write the reference count of an inode. -/
def Kernel.setInodeRef (kernel : Kernel) (ptr : InodePtr) (ref : Int) : Kernel :=
  { kernel with
    inodes := update kernel.inodes ptr.table
      (update (kernel.inodes ptr.table) ptr.index
        { kernel.inodes ptr.table ptr.index with ref := ref }) }

/-- `freeproc`, as far as it writes the slot. It leaves `ofile[]` and `cwd` alone. -/
def freeproc (p : Proc) : Proc :=
  { p with
    tf := 0
    pagetable := 0
    sz := 0
    pid := 0
    parent := none
    name := []
    chan := 0
    killed := 0
    xstate := 0
    state := .unused }

/-- `filedup`, which panics on a file without references. An entry that is
`RESERVED` makes the entrance of its section panic. -/
def filedup (kernel : Kernel) : Fd → Option Kernel
  | .file ptr =>
    let ref := (kernel.files ptr.table ptr.index).ref
    if ref < 1 then none else some (kernel.setFileRef ptr (ref + 1))
  | .reserved => none
  | .empty => none

/-- `idup` of a working directory. -/
def idup (kernel : Kernel) : Option InodePtr → Option Kernel
  | some ptr => some (kernel.setInodeRef ptr ((kernel.inodes ptr.table ptr.index).ref + 1))
  | none => none

/-- An action of the parent `p` for the child in slot `q`. `none` is a panic. -/
def ForkAction.run (p q : Fin nproc) (kernel : Kernel) : ForkAction → Option Kernel
  | .allocPid =>
    some { kernel.setProc q { kernel.proc q with pid := kernel.nextpid } with
      nextpid := kernel.nextpid + 1 }
  | .allocTf page => some (kernel.setProc q { kernel.proc q with tf := page })
  | .makePagetable page => some (kernel.setProc q { kernel.proc q with pagetable := page })
  | .freeChild => some (kernel.setProc q (freeproc (kernel.proc q)))
  | .copySz => some (kernel.setProc q { kernel.proc q with sz := (kernel.proc p).sz })
  | .setParent => some (kernel.setProc q { kernel.proc q with parent := some p })
  | .countFile fd => filedup kernel ((kernel.proc p).ofile fd)
  | .storeFile fd =>
    some (kernel.setProc q { kernel.proc q with
      ofile := update (kernel.proc q).ofile fd ((kernel.proc p).ofile fd) })
  | .countCwd => idup kernel (kernel.proc p).cwd
  | .storeCwd => some (kernel.setProc q { kernel.proc q with cwd := (kernel.proc p).cwd })
  | .copyName => some (kernel.setProc q { kernel.proc q with name := (kernel.proc p).name })
  | .setRunnable => some (kernel.setProc q { kernel.proc q with state := .runnable })

/-- What `fork` does before it counts a reference: `allocproc`, and what follows
`uvmcopy`. -/
def setupActions (copied : Bool) (tf pagetable : Nat) : List ForkAction :=
  [.allocPid, .allocTf tf, .makePagetable pagetable] ++
    if copied then [.copySz, .setParent] else [.freeChild]

/-- The files and the directory that the child inherits, and its release to the
scheduler. -/
def inheritActions (ofile : Fin nofile → Fd) : List ForkAction :=
  ((List.finRange nofile).flatMap fun fd =>
      if ofile fd ≠ .empty then [.countFile fd, .storeFile fd] else []) ++
    [.countCwd, .storeCwd, .copyName, .setRunnable]

/-- The writes of `fork` in order. -/
def forkActions (ofile : Fin nofile → Fd) (copied : Bool) (tf pagetable : Nat) :
    List ForkAction :=
  setupActions copied tf pagetable ++ if copied then inheritActions ofile else []

/-- Where a memory error leaves `fork`: this many of its writes are done. -/
def abortedFork (kernel : Kernel) (p q : Fin nproc) (copied : Bool) (tf pagetable point : Nat) :
    Option Kernel :=
  ((forkActions (kernel.proc p).ofile copied tf pagetable).take point).foldlM
    (ForkAction.run p q) kernel

/-- `fileundup` for an entry of `ofile[]`. `RESERVED` is not an address. -/
def fileundup (kernel : Kernel) : Fd → Option Kernel
  | .empty => some kernel
  | .reserved => none
  | .file ptr =>
    let ref := (kernel.files ptr.table ptr.index).ref
    some (if ref > 0 then kernel.setFileRef ptr (ref - 1) else kernel)

/-- `iundup` for a `cwd`. -/
def iundup (kernel : Kernel) : Option InodePtr → Kernel
  | none => kernel
  | some ptr =>
    let ref := (kernel.inodes ptr.table ptr.index).ref
    if ref > 1 then kernel.setInodeRef ptr (ref - 1) else kernel

/-- The body of the loop of `cleanup_unused_procs`. -/
def cleanupSlot (kernel : Kernel) (p : Fin nproc) : Option Kernel :=
  let proc := kernel.proc p
  if proc.pid = 0 then some kernel
  else if proc.state = .unused ∧ (proc.parent = none ∨ proc.pid ≠ 0) then
    ((List.finRange nofile).foldlM (fun kernel fd => fileundup kernel (proc.ofile fd)) kernel).map
      fun counted => (iundup counted proc.cwd).setProc p (freeproc proc)
  else some kernel

/-- `cleanup_unused_procs`. Without a process of this pid it ends at a null pointer. -/
def cleanupUnusedProcs (kernel : Kernel) (epid : Nat) : Option Kernel :=
  if ∃ p, (kernel.proc p).pid = epid then (List.finRange nproc).foldlM cleanupSlot kernel
  else none

/-- A slot names no file and no directory. -/
def Proc.OwnsNothing (p : Proc) : Prop :=
  (∀ fd, p.ofile fd = .empty) ∧ p.cwd = none

/-- Where a fork starts: the slot of the child is free, the parent's is not, and no
free slot owns anything. -/
structure ForkStart (kernel : Kernel) (p q : Fin nproc) : Prop where
  slot : (kernel.proc q).state = .unused
  parent : (kernel.proc p).state ≠ .unused
  vacant : ∀ r, (kernel.proc r).state = .unused → (kernel.proc r).OwnsNothing

/-- The reference counts are those before the fork, and the slot of the child is
empty. -/
structure RolledBack (before after : Kernel) (q : Fin nproc) : Prop where
  files : ∀ table k, (after.files table k).ref = (before.files table k).ref
  inodes : ∀ table i, (after.inodes table i).ref = (before.inodes table i).ref
  pid : (after.proc q).pid = 0
  vacant : (after.proc q).OwnsNothing

/-! ## What the cleanup does -/

theorem foldlM_invariant {α β : Type} {body : β → α → Option β} (Inv : β → Prop)
    {entries : List α} {start final : β}
    (preserved : ∀ a ∈ entries, ∀ state next, Inv state → body state a = some next → Inv next)
    (holds : Inv start) (done : entries.foldlM body start = some final) : Inv final := by
  induction entries generalizing start with
  | nil =>
    cases done
    exact holds
  | cons first rest ih =>
    rw [foldlM_cons] at done
    obtain ⟨next, step, remaining⟩ := bind_eq_some_iff.mp done
    have kept := preserved first List.mem_cons_self start next holds step
    exact ih (fun a member => preserved a (List.mem_cons_of_mem first member)) kept remaining

@[simp]
theorem Kernel.setFileRef_proc (kernel : Kernel) (ptr : FilePtr) (ref : Int) :
    (kernel.setFileRef ptr ref).proc = kernel.proc := rfl

@[simp]
theorem Kernel.setInodeRef_proc (kernel : Kernel) (ptr : InodePtr) (ref : Int) :
    (kernel.setInodeRef ptr ref).proc = kernel.proc := rfl

@[simp]
theorem fileundup_proc {kernel next : Kernel} {fd : Fd} (done : fileundup kernel fd = some next) :
    next.proc = kernel.proc := by
  cases fd with
  | empty =>
    cases done
    rfl
  | reserved => cases done
  | file ptr =>
    cases done
    split <;> rfl

theorem iundup_proc (kernel : Kernel) (cwd : Option InodePtr) :
    (iundup kernel cwd).proc = kernel.proc := by
  cases cwd with
  | none => rfl
  | some ptr =>
    simp only [iundup]
    split <;> rfl

/-- The cleanup of a slot takes nothing away from any process. -/
theorem cleanupSlot_owned {kernel next : Kernel} {p : Fin nproc}
    (done : cleanupSlot kernel p = some next) (r : Fin nproc) :
    (next.proc r).ofile = (kernel.proc r).ofile ∧ (next.proc r).cwd = (kernel.proc r).cwd := by
  simp only [cleanupSlot] at done
  split_ifs at done
  · cases done
    exact ⟨rfl, rfl⟩
  · obtain ⟨counted, undone, rfl⟩ := Option.map_eq_some_iff.mp done
    have procs : counted.proc = kernel.proc := by
      refine foldlM_invariant (fun state => state.proc = kernel.proc) ?_ rfl undone
      intro fd _ state next same step
      exact (fileundup_proc step).trans same
    by_cases same : r = p
    · subst same
      simp [Kernel.setProc, freeproc]
    · simp [Kernel.setProc, same, iundup_proc, procs]
  · cases done
    exact ⟨rfl, rfl⟩

theorem cleanupUnusedProcs_owned {kernel after : Kernel} {epid : Nat}
    (done : cleanupUnusedProcs kernel epid = some after) (r : Fin nproc) :
    (after.proc r).ofile = (kernel.proc r).ofile ∧ (after.proc r).cwd = (kernel.proc r).cwd := by
  unfold cleanupUnusedProcs at done
  split_ifs at done
  refine foldlM_invariant (fun state => (state.proc r).ofile = (kernel.proc r).ofile ∧
    (state.proc r).cwd = (kernel.proc r).cwd) ?_ ⟨rfl, rfl⟩ done
  intro p _ state next same step
  have kept := cleanupSlot_owned step r
  exact ⟨kept.1.trans same.1, kept.2.trans same.2⟩

/-- The cleanup of a slot that owns nothing frees the slot and does no more. -/
theorem cleanupSlot_vacant {kernel : Kernel} {p : Fin nproc}
    (vacant : (kernel.proc p).state = .unused → (kernel.proc p).OwnsNothing) :
    cleanupSlot kernel p = some
      (if (kernel.proc p).pid ≠ 0 ∧ (kernel.proc p).state = .unused then
        kernel.setProc p (freeproc (kernel.proc p)) else kernel) := by
  simp only [cleanupSlot]
  by_cases free : (kernel.proc p).pid = 0
  · simp [free]
  by_cases unused : (kernel.proc p).state = .unused
  · obtain ⟨files, cwd⟩ := vacant unused
    have undone : (List.finRange nofile).foldlM
        (fun state fd => fileundup state ((kernel.proc p).ofile fd)) kernel = some kernel := by
      generalize List.finRange nofile = entries
      induction entries with
      | nil => rfl
      | cons fd rest ih =>
        rw [foldlM_cons, files fd]
        exact ih
    simp [free, unused, undone, cwd, iundup]
  · simp [free, unused]

/-- The cleanup of slots that own nothing changes no count, and leaves no slot with a
pid behind that is not used. -/
theorem cleanupUnusedProcs_vacant {kernel after : Kernel} {epid : Nat}
    (vacant : ∀ r, (kernel.proc r).state = .unused → (kernel.proc r).OwnsNothing)
    (done : cleanupUnusedProcs kernel epid = some after) :
    after.files = kernel.files ∧ after.inodes = kernel.inodes ∧
      ∀ r, (kernel.proc r).state = .unused → (after.proc r).pid = 0 := by
  unfold cleanupUnusedProcs at done
  split_ifs at done
  -- Along the loop: which slots are unused never changes, and those passed have no pid.
  have along : ∀ (slots : List (Fin nproc)) (state : Kernel),
      (∀ r, (state.proc r).state = .unused → (state.proc r).OwnsNothing) →
      slots.foldlM cleanupSlot state = some after →
      after.files = state.files ∧ after.inodes = state.inodes ∧
        ∀ r, (state.proc r).state = .unused →
          (r ∈ slots ∨ (state.proc r).pid = 0) → (after.proc r).pid = 0 := by
    intro slots
    induction slots with
    | nil =>
      intro state _ done
      cases done
      refine ⟨rfl, rfl, ?_⟩
      rintro r - (member | free)
      · cases member
      · exact free
    | cons p rest ih =>
      intro state owned done
      rw [foldlM_cons, cleanupSlot_vacant (owned p)] at done
      split_ifs at done with freed
      · have kept : ∀ r, ((state.setProc p (freeproc (state.proc p))).proc r).state = .unused →
            ((state.setProc p (freeproc (state.proc p))).proc r).OwnsNothing := by
          intro r unused
          by_cases same : r = p
          · subst same
            simpa [Kernel.setProc, freeproc, Proc.OwnsNothing] using owned r freed.2
          · simp only [Kernel.setProc, update_of_ne same] at unused ⊢
            exact owned r unused
        obtain ⟨files, inodes, cleared⟩ := ih _ kept done
        refine ⟨files, inodes, ?_⟩
        intro r unused reached
        apply cleared r
        · by_cases same : r = p
          · subst same
            simp [Kernel.setProc, freeproc]
          · simpa [Kernel.setProc, same] using unused
        · by_cases same : r = p
          · subst same
            right
            simp [Kernel.setProc, freeproc]
          · simpa [Kernel.setProc, same] using reached
      · obtain ⟨files, inodes, cleared⟩ := ih state owned done
        refine ⟨files, inodes, ?_⟩
        intro r unused reached
        apply cleared r unused
        rcases reached with member | free
        · rcases mem_cons.mp member with rfl | member
          · right
            by_contra used
            exact freed ⟨used, unused⟩
          · exact .inl member
        · exact .inr free
  obtain ⟨files, inodes, cleared⟩ := along _ kernel vacant done
  exact ⟨files, inodes, fun r unused => cleared r unused (.inl (List.mem_finRange r))⟩

/-! ## What a fork has done when it is cut off -/

section

variable {kernel next before half after : Kernel} {p q : Fin nproc} {action : ForkAction}

/-- The action belongs to the part of `fork` before the first count. -/
def ForkAction.setsUp : ForkAction → Bool
  | .allocPid | .allocTf _ | .makePagetable _ | .freeChild | .copySz | .setParent => true
  | _ => false

theorem setupActions_setsUp {copied : Bool} {tf pagetable : Nat} :
    ∀ action ∈ setupActions copied tf pagetable, action.setsUp = true := by
  cases copied <;> simp [setupActions, ForkAction.setsUp]

/-- The slot of the child may have been written, but it owns what it owned before, and
nothing has been counted. -/
structure SetUp (before half : Kernel) (q : Fin nproc) : Prop where
  files : half.files = before.files
  inodes : half.inodes = before.inodes
  others : ∀ r, r ≠ q → half.proc r = before.proc r
  state : (half.proc q).state = .unused
  ofile : (half.proc q).ofile = (before.proc q).ofile
  cwd : (half.proc q).cwd = (before.proc q).cwd

theorem SetUp.run (setUp : SetUp before kernel q) (kind : action.setsUp = true)
    (done : action.run p q kernel = some next) : SetUp before next q := by
  cases action with
  | countFile fd => cases kind
  | storeFile fd => cases kind
  | countCwd => cases kind
  | storeCwd => cases kind
  | copyName => cases kind
  | setRunnable => cases kind
  | _ =>
    cases done
    refine ⟨setUp.files, setUp.inodes, ?_, ?_, ?_, ?_⟩
    · intro r other
      simpa [Kernel.setProc, other] using setUp.others r other
    · simp [Kernel.setProc, freeproc, setUp.state]
    · simpa [Kernel.setProc, freeproc] using setUp.ofile
    · simpa [Kernel.setProc, freeproc] using setUp.cwd

theorem SetUp.of_actions {actions : List ForkAction} (start : ForkStart before p q)
    (kinds : ∀ action ∈ actions, action.setsUp = true)
    (done : actions.foldlM (ForkAction.run p q) before = some half) : SetUp before half q := by
  refine foldlM_invariant (fun state => SetUp before state q) ?_ ?_ done
  · intro action member state next setUp step
    exact setUp.run (kinds action member) step
  · exact ⟨rfl, rfl, fun _ _ => rfl, start.slot, rfl, rfl⟩

theorem SetUp.vacant (setUp : SetUp before half q) (start : ForkStart before p q) (r : Fin nproc)
    (unused : (half.proc r).state = .unused) : (half.proc r).OwnsNothing := by
  by_cases same : r = q
  · subst same
    have owned := start.vacant r start.slot
    rw [Proc.OwnsNothing, setUp.ofile, setUp.cwd]
    exact owned
  · rw [setUp.others r same] at unused ⊢
    exact start.vacant r unused

/-- A fork cut off before its first count is rolled back. -/
theorem SetUp.rolledBack {epid : Nat} (setUp : SetUp before half q) (start : ForkStart before p q)
    (cleaned : cleanupUnusedProcs half epid = some after) : RolledBack before after q := by
  obtain ⟨files, inodes, freed⟩ := cleanupUnusedProcs_vacant (setUp.vacant start) cleaned
  have owned := cleanupUnusedProcs_owned cleaned q
  constructor
  · intro table k
    rw [files, setUp.files]
  · intro table i
    rw [inodes, setUp.inodes]
  · exact freed q setUp.state
  · rw [Proc.OwnsNothing, owned.1, owned.2]
    exact setUp.vacant start q setUp.state

/-- The first reference that the child inherits: raising its count and storing it. -/
inductive FirstCount (proc : Proc) : ForkAction → ForkAction → Prop where
  | file (fd : Fin nofile) (used : proc.ofile fd ≠ .empty) :
      FirstCount proc (.countFile fd) (.storeFile fd)
  | cwd : FirstCount proc .countCwd .storeCwd

theorem inheritActions_shape (proc : Proc) :
    ∃ count store rest, inheritActions proc.ofile = count :: store :: rest ∧
      FirstCount proc count store := by
  unfold inheritActions
  generalize List.finRange nofile = entries
  induction entries with
  | nil => exact ⟨_, _, _, rfl, .cwd⟩
  | cons fd rest ih =>
    by_cases used : proc.ofile fd = .empty
    · simpa [used] using ih
    · rw [List.flatMap_cons, if_pos used]
      exact ⟨_, _, _, rfl, .file fd used⟩

/-- Counting a reference raises one count by 1 and writes no slot. -/
theorem FirstCount.effect {proc : Proc} {count store : ForkAction}
    (first : FirstCount proc count store) (done : count.run p q kernel = some next) :
    next.proc = kernel.proc ∧
      ((∃ table k, (next.files table k).ref = (kernel.files table k).ref + 1) ∨
        ∃ table i, (next.inodes table i).ref = (kernel.inodes table i).ref + 1) := by
  cases first with
  | file fd used =>
    cases entry : (kernel.proc p).ofile fd <;>
      simp only [ForkAction.run, filedup, entry, reduceCtorEq] at done
    rename_i ptr
    split at done
    · cases done
    · cases done
      refine ⟨rfl, .inl ⟨ptr.table, ptr.index, ?_⟩⟩
      simp [Kernel.setFileRef]
  | cwd =>
    cases entry : (kernel.proc p).cwd <;>
      simp only [ForkAction.run, idup, entry, reduceCtorEq] at done
    rename_i ptr
    cases done
    refine ⟨rfl, .inr ⟨ptr.table, ptr.index, ?_⟩⟩
    simp [Kernel.setInodeRef]

/-- A reference counted and not stored yet stays counted. -/
theorem SetUp.counted {epid : Nat} {count store : ForkAction} (setUp : SetUp before kernel q)
    (start : ForkStart before p q) (first : FirstCount (before.proc p) count store)
    (done : count.run p q kernel = some half)
    (cleaned : cleanupUnusedProcs half epid = some after) : ¬ RolledBack before after q := by
  intro rolled
  obtain ⟨procs, raised⟩ := first.effect done
  have vacant : ∀ r, (half.proc r).state = .unused → (half.proc r).OwnsNothing := by
    rw [procs]
    exact setUp.vacant start
  obtain ⟨files, inodes, -⟩ := cleanupUnusedProcs_vacant vacant cleaned
  rcases raised with ⟨table, k, raised⟩ | ⟨table, i, raised⟩
  · have same := rolled.files table k
    rw [files, raised, setUp.files] at same
    omega
  · have same := rolled.inodes table i
    rw [inodes, raised, setUp.inodes] at same
    omega

/-- No action of `fork` writes a slot other than the child's. -/
theorem ForkAction.run_others (done : action.run p q kernel = some next) {r : Fin nproc}
    (other : r ≠ q) : next.proc r = kernel.proc r := by
  cases action with
  | countFile fd =>
    cases entry : (kernel.proc p).ofile fd <;>
      simp only [ForkAction.run, filedup, entry, reduceCtorEq] at done
    split at done
    · cases done
    · cases done
      rfl
  | countCwd =>
    cases entry : (kernel.proc p).cwd <;>
      simp only [ForkAction.run, idup, entry, reduceCtorEq] at done
    cases done
    rfl
  | _ =>
    cases done
    simp [Kernel.setProc, other]

/-- The child owns a file, or the directory that its parent works in. -/
def Kernel.ChildOwns (kernel : Kernel) (p q : Fin nproc) : Prop :=
  (∃ fd, (kernel.proc q).ofile fd ≠ .empty) ∨
    ((kernel.proc q).cwd ≠ none ∧ (kernel.proc p).cwd ≠ none)

/-- An action behind the setup takes nothing away from the child. -/
theorem ForkAction.run_childOwns (distinct : p ≠ q) (kept : action ≠ .freeChild)
    (stores : ∀ fd, action = .storeFile fd → (kernel.proc p).ofile fd ≠ .empty)
    (owns : kernel.ChildOwns p q) (done : action.run p q kernel = some next) :
    next.ChildOwns p q := by
  have parent := action.run_others done distinct
  unfold Kernel.ChildOwns at owns ⊢
  rw [parent]
  cases action with
  | freeChild => exact absurd rfl kept
  | countFile fd =>
    cases entry : (kernel.proc p).ofile fd <;>
      simp only [ForkAction.run, filedup, entry, reduceCtorEq] at done
    split at done
    · cases done
    · cases done
      exact owns
  | countCwd =>
    cases entry : (kernel.proc p).cwd <;>
      simp only [ForkAction.run, idup, entry, reduceCtorEq] at done
    cases done
    simpa [entry] using owns
  | storeFile fd =>
    cases done
    refine .inl ⟨fd, ?_⟩
    simpa [Kernel.setProc] using stores fd rfl
  | storeCwd =>
    cases done
    rcases owns with ⟨fd, owned⟩ | ⟨-, directory⟩
    · exact .inl ⟨fd, by simpa [Kernel.setProc] using owned⟩
    · exact .inr ⟨by simpa [Kernel.setProc] using directory, directory⟩
  | _ =>
    cases done
    simpa [Kernel.setProc] using owns

/-- Storing the first reference makes the child own something. -/
theorem FirstCount.stored {count store : ForkAction} (distinct : p ≠ q)
    (first : FirstCount (kernel.proc p) count store) (counted : count.run p q kernel = some half)
    (done : store.run p q half = some next) : next.ChildOwns p q := by
  have procs := (first.effect counted).1
  cases first with
  | file fd used =>
    cases done
    refine .inl ⟨fd, ?_⟩
    simpa [Kernel.setProc, procs] using used
  | cwd =>
    cases entry : (kernel.proc p).cwd <;>
      simp only [ForkAction.run, idup, entry, reduceCtorEq] at counted
    cases done
    right
    simp [Kernel.setProc, procs, entry, distinct]

theorem inheritActions_keeps {ofile : Fin nofile → Fd} :
    ∀ action ∈ inheritActions ofile, action ≠ .freeChild ∧
      ∀ fd, action = .storeFile fd → ofile fd ≠ .empty := by
  intro action member
  simp only [inheritActions, List.mem_append, List.mem_flatMap] at member
  rcases member with ⟨fd, -, member⟩ | member
  · split_ifs at member with used
    · simp only [mem_cons, List.not_mem_nil, or_false] at member
      rcases member with rfl | rfl
      · simp
      · refine ⟨by simp, ?_⟩
        rintro other same
        obtain rfl := ForkAction.storeFile.inj same
        exact used
    · cases member
  · simp only [mem_cons, List.not_mem_nil, or_false] at member
    rcases member with rfl | rfl | rfl | rfl <;> simp

/-- A child that owns something when the parent is cut off keeps it in its slot. -/
theorem not_rolledBack_of_owns {epid : Nat} (owns : half.ChildOwns p q)
    (cleaned : cleanupUnusedProcs half epid = some after) : ¬ RolledBack before after q := by
  intro rolled
  have kept := cleanupUnusedProcs_owned cleaned q
  obtain ⟨files, cwd⟩ := rolled.vacant
  rcases owns with ⟨fd, owned⟩ | ⟨owned, -⟩
  · exact owned (by rw [← kept.1]; exact files fd)
  · exact owned (by rw [← kept.2]; exact cwd)

/-- A fork cut off behind its first count leaves that count raised, or its
descriptors in the slot. -/
theorem not_rolledBack_of_inherit {epid : Nat} {actions : List ForkAction} {count store : ForkAction}
    {rest : List ForkAction} (start : ForkStart before p q) (setUp : SetUp before kernel q)
    (first : FirstCount (before.proc p) count store)
    (keeps : ∀ action ∈ rest, action ≠ .freeChild ∧
      ∀ fd, action = .storeFile fd → (before.proc p).ofile fd ≠ .empty)
    (reached : actions = [count] ∨ ∃ point, actions = count :: store :: rest.take point)
    (done : actions.foldlM (ForkAction.run p q) kernel = some half)
    (cleaned : cleanupUnusedProcs half epid = some after) : ¬ RolledBack before after q := by
  have distinct : p ≠ q := by
    rintro rfl
    exact start.parent start.slot
  have parent := setUp.others p distinct
  rcases reached with rfl | ⟨point, rfl⟩
  · simp only [foldlM_cons, List.foldlM_nil] at done
    obtain ⟨last, counted, ended⟩ := bind_eq_some_iff.mp done
    cases ended
    exact setUp.counted start first counted cleaned
  · simp only [foldlM_cons] at done
    obtain ⟨raised, counted, done⟩ := bind_eq_some_iff.mp done
    obtain ⟨named, stored, done⟩ := bind_eq_some_iff.mp done
    rw [← parent] at first
    have owns := first.stored distinct counted stored
    have unchanged : named.proc p = before.proc p := by
      rw [store.run_others stored distinct, count.run_others counted distinct, parent]
    refine not_rolledBack_of_owns (p := p) ?_ cleaned
    refine (foldlM_invariant (fun state => state.proc p = before.proc p ∧ state.ChildOwns p q)
      ?_ ⟨unchanged, owns⟩ done).2
    rintro action member state next ⟨same, owned⟩ step
    obtain ⟨kept, stores⟩ := keeps action (List.mem_of_mem_take member)
    refine ⟨(action.run_others step distinct).trans same, ?_⟩
    refine action.run_childOwns distinct kept ?_ owned step
    rw [same]
    exact stores

end

/-- The cleanup after a fork that was cut off restores every reference count and
leaves an empty slot exactly when no reference had been counted. -/
theorem rolledBack_iff {before half after : Kernel} {p q : Fin nproc} {copied : Bool}
    {tf pagetable point epid : Nat} (start : ForkStart before p q)
    (aborted : abortedFork before p q copied tf pagetable point = some half)
    (cleaned : cleanupUnusedProcs half epid = some after) :
    RolledBack before after q ↔
      ∀ action ∈ (forkActions (before.proc p).ofile copied tf pagetable).take point,
        action.counts = false := by
  unfold abortedFork at aborted
  have uncounted : ∀ action : ForkAction, action.setsUp = true → action.counts = false := by
    rintro (_ | _) <;> simp [ForkAction.setsUp, ForkAction.counts]
  unfold forkActions at aborted ⊢
  rw [List.take_append] at aborted ⊢
  have early : ∀ action ∈ (setupActions copied tf pagetable).take point, action.setsUp = true :=
    fun action member => setupActions_setsUp action (List.mem_of_mem_take member)
  by_cases behind : copied = true ∧ (setupActions copied tf pagetable).length < point
  · obtain ⟨rfl, behind⟩ := behind
    obtain ⟨count, store, rest, shape, first⟩ := inheritActions_shape (before.proc p)
    have keeps : ∀ action ∈ rest, action ≠ .freeChild ∧
        ∀ fd, action = .storeFile fd → (before.proc p).ofile fd ≠ .empty := by
      intro action member
      refine inheritActions_keeps action ?_
      rw [shape]
      simp [member]
    obtain ⟨more, reach⟩ : ∃ more, point - (setupActions true tf pagetable).length = more + 1 :=
      ⟨point - (setupActions true tf pagetable).length - 1, by omega⟩
    rw [if_pos rfl, shape, reach, List.foldlM_append] at aborted
    rw [if_pos rfl, shape, reach]
    obtain ⟨kernel, setUp, inherits⟩ := bind_eq_some_iff.mp aborted
    constructor
    · intro rolled
      refine absurd rolled (not_rolledBack_of_inherit start (SetUp.of_actions start early setUp)
        first keeps ?_ inherits cleaned)
      cases more with
      | zero => exact .inl rfl
      | succ more => exact .inr ⟨more, rfl⟩
    · intro spared
      have raised := spared count (by simp)
      cases first <;> cases raised
  · have stops : ((if copied = true then inheritActions (before.proc p).ofile else []).take
        (point - (setupActions copied tf pagetable).length)) = [] := by
      cases copied
      · simp
      · have reach : point - (setupActions true tf pagetable).length = 0 := by
          simp only [true_and, not_lt] at behind
          omega
        rw [reach, List.take_zero]
    rw [stops, List.append_nil] at aborted ⊢
    constructor
    · intro _ action member
      exact uncounted action (early action member)
    · intro _
      exact (SetUp.of_actions start early aborted).rolledBack start cleaned

theorem shellIn_forkStart : ForkStart (shellIn 0) 1 2 where
  slot := rfl
  parent := by decide
  vacant r unused := by
    simp only [shellIn] at unused ⊢
    split_ifs at unused ⊢ with first second
    · cases unused
    · cases unused
    · exact ⟨fun _ => rfl, rfl⟩

/-- The parent is cut off in `proc_pagetable`. -/
theorem rolledBack_iff_early :
    ∃ half after, abortedFork (shellIn 0) 1 2 true 0x87e01000 0x87e02000 2 = some half ∧
      cleanupUnusedProcs half 2 = some after ∧
      (RolledBack (shellIn 0) after 2 ↔
        ∀ action ∈ (forkActions ((shellIn 0).proc 1).ofile true 0x87e01000 0x87e02000).take 2,
          action.counts = false) := by
  have found : ((abortedFork (shellIn 0) 1 2 true 0x87e01000 0x87e02000 2).bind fun half =>
      cleanupUnusedProcs half 2).isSome = true := by decide +kernel
  obtain ⟨after, result⟩ := Option.isSome_iff_exists.mp found
  obtain ⟨half, aborted, cleaned⟩ := bind_eq_some_iff.mp result
  exact ⟨half, after, aborted, cleaned, rolledBack_iff shellIn_forkStart aborted cleaned⟩

/-- The parent is cut off when its first file has been duplicated: the count is taken
back, and the slot keeps the file. -/
theorem slot_keeps_descriptor :
    ¬ ∀ before half after p q copied tf pagetable point epid, ForkStart before p q →
      abortedFork before p q copied tf pagetable point = some half →
        cleanupUnusedProcs half epid = some after → RolledBack before after q := by
  intro claimed
  have found : ((abortedFork (shellIn 0) 1 2 true 0x87e03000 0x87e04000 7).bind fun half =>
      (cleanupUnusedProcs half 2).filter fun after =>
        decide ((after.proc 2).ofile 0 ≠ .empty)).isSome = true := by decide +kernel
  obtain ⟨after, result⟩ := Option.isSome_iff_exists.mp found
  obtain ⟨half, aborted, filtered⟩ := bind_eq_some_iff.mp result
  obtain ⟨cleaned, kept⟩ := Option.filter_eq_some_iff.mp filtered
  have rolled := claimed (shellIn 0) half after 1 2 true 0x87e03000 0x87e04000 7 2
    shellIn_forkStart aborted cleaned
  exact of_decide_eq_true kept (rolled.vacant.1 0)

end Ev6.Files
