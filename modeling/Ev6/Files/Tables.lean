import Ev6.Kernel.Param
import Ev6.Support.Tally
import Mathlib.Data.List.FinRange

/-!
# Open files, cached inodes and the processes that name them

The structures of `file.h`, `pipe.h` and `proc.h` that the recovery of the file
table and of the inode cache moves. A table is known by the address it lies at:
a recovery handler allocates a new table, copies the old one and turns every
pointer into it round.
-/

namespace Ev6.Files

instance : NeZero nfile := ⟨by decide⟩
instance : NeZero ninode := ⟨by decide⟩
instance : NeZero nofile := ⟨by decide⟩

/-- The address of an entry: `&table->entry[index]`. -/
structure EntryPtr (size : Nat) where
  table : Nat
  index : Fin size
deriving DecidableEq

abbrev FilePtr := EntryPtr nfile
abbrev InodePtr := EntryPtr ninode

/-- `FD_NONE`, `FD_PIPE`, `FD_INODE` and `FD_DEVICE`. -/
inductive FileType where
  | none
  | pipe
  | inode
  | device
deriving DecidableEq

/-- `struct file`. -/
structure File where
  type : FileType
  ref : Int
  readable : Bool
  writable : Bool
  pipe : Option Nat
  ip : Option InodePtr
  off : Nat
  major : Int
deriving DecidableEq

/-- A file entry whose fields are all 0. -/
def File.cleared : File where
  type := .none
  ref := 0
  readable := false
  writable := false
  pipe := none
  ip := none
  off := 0
  major := 0

/-- `NDIRECT`. -/
def ndirect : Nat := 12

/-- `T_DEVICE`: the type of a device inode. -/
def tDevice : Int := 3

/-- `ROOTINO`: the number of the root inode. -/
def rootino : Nat := 1

/-- `struct inode`, without its sleeplock. -/
structure Inode where
  dev : Nat
  inum : Nat
  ref : Int
  valid : Int
  type : Int
  major : Int
  minor : Int
  nlink : Int
  size : Nat
  addrs : Fin (ndirect + 1) → Nat

/-- An inode entry whose fields are all 0. -/
def Inode.cleared : Inode where
  dev := 0
  inum := 0
  ref := 0
  valid := 0
  type := 0
  major := 0
  minor := 0
  nlink := 0
  size := 0
  addrs _ := 0

/-- The ends of a `struct pipe`. -/
structure Pipe where
  readopen : Int
  writeopen : Int
deriving DecidableEq

/-- `enum procstate`. -/
inductive ProcState where
  | unused
  | sleeping
  | runnable
  | running
  | zombie
  | recovering
deriving DecidableEq

/-- An entry of `ofile[]`: 0, `RESERVED`, or a file. -/
inductive Fd where
  | empty
  | reserved
  | file (ptr : FilePtr)
deriving DecidableEq

/-- `struct proc`, as far as a fork and the recovery handlers write it. -/
structure Proc where
  state : ProcState
  parent : Option (Fin nproc)
  chan : Nat
  killed : Int
  xstate : Int
  pid : Nat
  sz : Nat
  pagetable : Nat
  tf : Nat
  ofile : Fin nofile → Fd
  cwd : Option InodePtr
  name : List Char

/-- A slot of `proc[]` that has never been used. -/
def Proc.cleared : Proc where
  state := .unused
  parent := none
  chan := 0
  killed := 0
  xstate := 0
  pid := 0
  sz := 0
  pagetable := 0
  tf := 0
  ofile _ := .empty
  cwd := none
  name := []

/-- The file tables and inode caches at their addresses, the two that `ftable`
and `icache` point to, the pipes, and the processes. -/
structure Kernel where
  ftable : Nat
  files : Nat → Fin nfile → File
  icache : Nat
  inodes : Nat → Fin ninode → Inode
  pipes : Nat → Pipe
  proc : Fin nproc → Proc
  outstanding : Int
  nextpid : Nat

/-- The entry of the current file table. -/
def Kernel.file (kernel : Kernel) (index : Fin nfile) : File :=
  kernel.files kernel.ftable index

/-- The entry of the current inode cache. -/
def Kernel.inode (kernel : Kernel) (index : Fin ninode) : Inode :=
  kernel.inodes kernel.icache index

/-! ## Turning pointers round -/

variable {size : Nat}

/-- The loop that looks for a pointer among the entries of the old table, some of
them left out, and makes it point to the same entry of the new table. -/
def relocate (old new : Nat) (skip : Fin size → Bool) (ptr : Option (EntryPtr size)) :
    Option (EntryPtr size) :=
  (List.finRange size).foldl
    (fun ptr i => if !skip i && decide (ptr = some ⟨old, i⟩) then some ⟨new, i⟩ else ptr) ptr

/-- A loop body that leaves a value alone at every entry leaves it alone. -/
theorem foldl_fixed {α ι : Type*} {body : α → ι → α} {value : α} {entries : List ι}
    (fixed : ∀ i ∈ entries, body value i = value) : entries.foldl body value = value := by
  induction entries with
  | nil => rfl
  | cons first rest ih =>
    rw [List.foldl_cons, fixed first List.mem_cons_self]
    exact ih fun i member => fixed i (List.mem_cons_of_mem first member)

variable {skip : Fin size → Bool} {new old : Nat} {ptr : Option (EntryPtr size)}

/-- A pointer to none of the entries looked for stays. -/
theorem relocate_of_other
    (other : ∀ i, skip i = false → ptr ≠ some ⟨old, i⟩) : relocate old new skip ptr = ptr := by
  apply foldl_fixed
  intro i _
  cases skipped : skip i
  · simp [other i skipped]
  · simp

/-- A pointer to an entry of the old table points to the same entry of the new one. -/
theorem relocate_old (distinct : new ≠ old) (i : Fin size)
    (kept : skip i = false) : relocate old new skip (some ⟨old, i⟩) = some ⟨new, i⟩ := by
  obtain ⟨before, after, split⟩ := List.append_of_mem (List.mem_finRange i)
  have once : i ∉ before := by
    have nodup := List.nodup_finRange size
    rw [split] at nodup
    intro member
    exact (List.nodup_append.mp nodup).2.2 i member i List.mem_cons_self rfl
  unfold relocate
  rw [split, List.foldl_append, List.foldl_cons, @foldl_fixed _ _ _ _ before]
  · simp only [kept, Bool.not_false, Bool.true_and, decide_true, if_true]
    apply foldl_fixed
    intro j _
    simp [distinct]
  · intro j member
    have different : i ≠ j := by
      rintro rfl
      exact once member
    simp [different]

/-- Only the old table is left behind: what points into the new table afterwards
came from the old one, or pointed there before. -/
theorem relocate_eq_new (distinct : new ≠ old) {i : Fin size} (fresh : ptr ≠ some ⟨new, i⟩) :
    relocate old new skip ptr = some ⟨new, i⟩ ↔ ptr = some ⟨old, i⟩ ∧ skip i = false := by
  constructor
  · intro moved
    by_cases found : ∃ j, skip j = false ∧ ptr = some ⟨old, j⟩
    · obtain ⟨j, kept, rfl⟩ := found
      rw [relocate_old distinct j kept] at moved
      obtain ⟨-, rfl⟩ := EntryPtr.mk.inj (Option.some.inj moved)
      exact ⟨rfl, kept⟩
    · rw [relocate_of_other fun j kept here => found ⟨j, kept, here⟩] at moved
      exact absurd moved fresh
  · rintro ⟨rfl, kept⟩
    exact relocate_old distinct i kept

/-- What points into the old table afterwards pointed to an entry left out. -/
theorem relocate_eq_old (distinct : new ≠ old) {i : Fin size} :
    relocate old new skip ptr = some ⟨old, i⟩ ↔ ptr = some ⟨old, i⟩ ∧ skip i = true := by
  constructor
  · intro stays
    by_cases found : ∃ j, skip j = false ∧ ptr = some ⟨old, j⟩
    · obtain ⟨j, kept, rfl⟩ := found
      rw [relocate_old distinct j kept] at stays
      exact absurd (EntryPtr.mk.inj (Option.some.inj stays)).1 distinct
    · rw [relocate_of_other fun j kept here => found ⟨j, kept, here⟩] at stays
      refine ⟨stays, ?_⟩
      cases skipped : skip i
      · exact absurd ⟨i, skipped, stays⟩ found
      · rfl
  · rintro ⟨rfl, skipped⟩
    apply relocate_of_other
    rintro j kept same
    obtain ⟨-, rfl⟩ := EntryPtr.mk.inj (Option.some.inj same)
    rw [skipped] at kept
    cases kept

end Ev6.Files
