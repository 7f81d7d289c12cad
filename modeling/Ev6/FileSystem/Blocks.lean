import Ev6.Kernel.Param
import Ev6.Support.Bytes
import Ev6.Support.Ensures
import Ev6.Support.Slots

/-!
# Blocks of the file system

The state is what the file-system code sees through the buffer cache: the
superblock, the free map with one bit for each block, the disk inodes, the
contents of the other blocks and the header of the running transaction. The
free map and the inode blocks are kept by their entries, so that their block
numbers appear only where they are logged.
-/

namespace Ev6.FileSystem

open Function (update)
open Support

/-- `BSIZE`: bytes per block. -/
def bsize : Nat := 1024

/-- `NDIRECT`: block pointers held in an inode. -/
def ndirect : Nat := 12

/-- `NINDIRECT`: block pointers held in an indirect block. -/
def nindirect : Nat := 256

/-- `MAXFILE`: the largest number of blocks of a file. -/
def maxfile : Nat := ndirect + nindirect

/-- `BPB`: bits of the free map per block. -/
def bpb : Nat := bsize * 8

/-- `IPB`: inodes per block. -/
def ipb : Nat := 16

theorem bsize_eq : bsize = 1024 := rfl

theorem ndirect_eq : ndirect = 12 := rfl

theorem nindirect_eq : nindirect = 256 := rfl

theorem maxfile_eq : maxfile = 268 := rfl

/-- The panics of the modelled functions. -/
inductive Panic where
  | tooBigTransaction
  | logWriteOutsideOfTrans
  | outOfBlocks
  | freeingFreeBlock
  | bmapOutOfRange
  | shortFilewrite
  | fileread
  | filewrite
  | iallocNoInodes
  | ilock
  | ilockNoType
  | dirlookupNotDir
  | dirlookupRead
  | dirlinkRead
  | dirlink
  | isdiremptyReadi
  | unlinkNlink
  | unlinkWritei
  | createDots
  | createDirlink
  deriving DecidableEq, Repr

/-- The fields of `struct superblock` that the modelled functions read. -/
structure Superblock where
  size : Nat
  ninodes : Nat
  nlog : Nat
  inodestart : Nat
  bmapstart : Nat

/-- `struct dinode`; `addrs` is read at the indices up to `NDIRECT`. -/
structure Dinode where
  type : Nat
  major : Nat
  minor : Nat
  nlink : Nat
  size : Nat
  addrs : Nat → Nat

/-- The file system as its code sees it. -/
structure Volume where
  sb : Superblock
  /-- The bit of each block in the free map. -/
  used : Nat → Bool
  dinode : Nat → Dinode
  block : Nat → Nat → UInt8
  outstanding : Nat
  /-- `lh.block[0]` to `lh.block[lh.n - 1]`. -/
  lh : List Nat

/-- Code that works on the volume and may panic. -/
abbrev FsM := EStateM Panic Volume

/-- `BBLOCK(b, sb)`: the block of the free map that holds the bit of `b`. -/
def Superblock.bblock (sb : Superblock) (b : Nat) : Nat :=
  b / bpb + sb.bmapstart

/-- `IBLOCK(i, sb)`: the block that holds inode `i`. -/
def Superblock.iblock (sb : Superblock) (i : Nat) : Nat :=
  i / ipb + sb.inodestart

/-- The two limits `log_write` checks `lh.n` against. -/
def Volume.LogFull (volume : Volume) : Prop :=
  logsize ≤ volume.lh.length ∨ volume.sb.nlog - 1 ≤ volume.lh.length

instance (volume : Volume) : Decidable volume.LogFull := by
  unfold Volume.LogFull
  infer_instance

/-- `log_write`: a block that the transaction has logged before is absorbed. -/
def logWrite (blockno : Nat) : FsM Unit := do
  let volume ← get
  if volume.LogFull then
    throw .tooBigTransaction
  else if volume.outstanding < 1 then
    throw .logWriteOutsideOfTrans
  else if blockno ∈ volume.lh then
    pure ()
  else
    set { volume with lh := volume.lh ++ [blockno] }

/-- `bzero`. -/
def bzero (bno : Nat) : FsM Unit := do
  modify fun volume => { volume with block := update volume.block bno fun _ => 0 }
  logWrite bno

/-- `balloc`: the first block whose bit is clear, marked and zeroed. -/
def balloc : FsM Nat := do
  let volume ← get
  match firstSlot (fun b => !volume.used b) volume.sb.size with
  | none => throw .outOfBlocks
  | some b =>
    set { volume with used := update volume.used b true }
    logWrite (volume.sb.bblock b)
    bzero b
    pure b

/-- `bfree`. -/
def bfree (b : Nat) : FsM Unit := do
  let volume ← get
  if volume.used b then
    set { volume with used := update volume.used b false }
    logWrite (volume.sb.bblock b)
  else
    throw .freeingFreeBlock

/-! ## Stopping -/

/-- Where the code may stop although nothing is wrong: the free map is full, or
the transaction does not go on. -/
inductive Exhausted : Panic → Volume → Prop where
  | outOfBlocks {volume : Volume} (full : ∀ b < volume.sb.size, volume.used b = true) :
      Exhausted .outOfBlocks volume
  | tooBigTransaction {volume : Volume} (full : volume.LogFull) :
      Exhausted .tooBigTransaction volume
  | outsideOfTrans {volume : Volume} (none : volume.outstanding = 0) :
      Exhausted .logWriteOutsideOfTrans volume

theorem Exhausted.inRange {panic : Panic} {volume : Volume} (exhausted : Exhausted panic volume) :
    panic ≠ .bmapOutOfRange := by
  cases exhausted <;> decide

/-! ## What each function changes -/

/-- Two volumes that differ at most in the header of the transaction. -/
def SameBut (before after : Volume) : Prop :=
  after = { before with lh := after.lh }

theorem SameBut.refl (volume : Volume) : SameBut volume volume := rfl

theorem logWrite_ensures (blockno : Nat) (volume : Volume) :
    Ensures (logWrite blockno) volume (fun _ after => SameBut volume after) Exhausted := by
  unfold logWrite
  refine .get ?_
  split
  next full => exact .throw (.tooBigTransaction full)
  next =>
    split
    next outside => exact .throw (.outsideOfTrans (by omega))
    next =>
      split
      · exact .pure (SameBut.refl volume)
      · exact .set_last rfl

theorem bzero_ensures (bno : Nat) (volume : Volume) :
    Ensures (bzero bno) volume
      (fun _ after =>
        SameBut { volume with block := update volume.block bno fun _ => 0 } after)
      Exhausted := by
  unfold bzero
  exact .modify (logWrite_ensures bno _)

/-- What `balloc` leaves: a block that was free is marked and zeroed. -/
structure Allocates (before : Volume) (b : Nat) (after : Volume) : Prop where
  bound : b < before.sb.size
  free : before.used b = false
  sb : after.sb = before.sb
  dinode : after.dinode = before.dinode
  outstanding : after.outstanding = before.outstanding
  used : after.used = update before.used b true
  block : after.block = update before.block b fun _ => 0

theorem balloc_ensures (volume : Volume) :
    Ensures balloc volume (fun b after => Allocates volume b after) Exhausted := by
  unfold balloc
  refine .get ?_
  split
  next scan =>
    have marked := firstSlot_eq_none.mp scan
    exact .throw (.outOfBlocks (by simpa using marked))
  next b scan =>
    obtain ⟨bound, clear, -⟩ := firstSlot_eq_some.mp scan
    have free : volume.used b = false := by simpa using clear
    refine .set (.bind (logWrite_ensures _ _) ?_)
    rintro ⟨⟩ logged first
    refine .bind (bzero_ensures _ _) ?_
    rintro ⟨⟩ after second
    rw [first] at second
    rw [second]
    exact .pure ⟨bound, free, rfl, rfl, rfl, rfl, rfl⟩

end Ev6.FileSystem
