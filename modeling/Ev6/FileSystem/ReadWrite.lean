import Ev6.FileSystem.BlockMap
import Ev6.FileSystem.UserCopy
import Mathlib.Algebra.Ring.Int.Defs

/-!
# Reading and writing an inode

`readi` and `writei` go through a file block by block. The first part of this
module is the code; the second says what its loops do to the bytes of the file.
-/

namespace Ev6.FileSystem

open Support

/-- The `int` that a `uint` is returned as. -/
def asInt (value : Nat) : Int :=
  if value < 2 ^ 31 then value else value - 2 ^ 32

theorem asInt_of_small {value : Nat} (small : value < 2 ^ 31) : asInt value = value :=
  if_pos small

/-- What the loop of `readi` leaves: `moved` counts the bytes it has copied out. -/
structure ReadDone where
  ip : Inode
  memory : Nat → UInt8
  moved : Nat

/-- What the loop of `writei` leaves: `moved` counts the bytes it has copied in. -/
structure WriteDone where
  ip : Inode
  off : Nat
  moved : Nat

/-- The loop of `readi`, from `tot` on. The check `off + n < off` before it rules
out that `off` wraps. -/
def readLoop (pagetable : UserPages) (user_dst : Bool) (n tot off dst : Nat)
    (memory : Nat → UInt8) (ip : Inode) : FsM ReadDone :=
  if tot < n then do
    let (addr, ip) ← bmap ip (off / bsize)
    let volume ← get
    let m := min (n - tot) (bsize - off % bsize)
    let copy := eitherCopyout pagetable memory user_dst dst
      (extract (volume.block addr) (off % bsize) m)
    if copy.ok then
      readLoop pagetable user_dst n (tot + m) (off + m) (dst + m) copy.memory ip
    else
      pure ⟨ip, copy.memory, tot + copy.moved⟩
  else
    pure ⟨ip, memory, tot⟩
termination_by n - tot
decreasing_by
  have inside := Nat.mod_lt off (show 0 < bsize by decide)
  omega

/-- The loop of `writei`, from `tot` on. A copy that fails leaves what it has
moved in the buffer. -/
def writeLoop (pagetable : UserPages) (memory : Nat → UInt8) (user_src : Bool)
    (n tot off src : Nat) (ip : Inode) : FsM WriteDone :=
  if tot < n then do
    let (addr, ip) ← bmap ip (off / bsize)
    let m := min (n - tot) (bsize - off % bsize)
    let copy := eitherCopyin pagetable memory user_src src m
    modifyThe Volume fun volume =>
      { volume with
        block := Function.update volume.block addr
          (patch (volume.block addr) (off % bsize) copy.bytes) }
    if copy.ok then do
      logWrite addr
      writeLoop pagetable memory user_src n (tot + m) (off + m) (src + m) ip
    else
      pure ⟨ip, off, tot + copy.bytes.length⟩
  else
    pure ⟨ip, off, tot⟩
termination_by n - tot
decreasing_by
  have inside := Nat.mod_lt off (show 0 < bsize by decide)
  omega

/-- What `readi` and `writei` leave: the value returned, the inode, the memory
and the number of bytes that the copies have moved. -/
structure Transfer where
  returned : Int
  ip : Inode
  memory : Nat → UInt8
  moved : Nat

/-- `readi`. -/
def readi (pagetable : UserPages) (memory : Nat → UInt8) (ip : Inode) (user_dst : Bool)
    (dst : Nat) (off n : UInt32) : FsM Transfer :=
  if ip.size < off.toNat ∨ off + n < off then
    pure ⟨-1, ip, memory, 0⟩
  else do
    let n := if ip.size < (off + n).toNat then ip.size - off.toNat else n.toNat
    let done ← readLoop pagetable user_dst n 0 off.toNat dst memory ip
    pure ⟨asInt n, done.ip, done.memory, done.moved⟩

/-- The inode after the loop of `writei`: `off` is where the loop has arrived. -/
def extendSize (ip : Inode) (off : Nat) : Inode :=
  if ip.size < off then { ip with size := off } else ip

/-- `writei`. -/
def writei (pagetable : UserPages) (memory : Nat → UInt8) (ip : Inode) (user_src : Bool)
    (src : Nat) (off n : UInt32) : FsM Transfer :=
  if ip.size < off.toNat ∨ off + n < off then
    pure ⟨-1, ip, memory, 0⟩
  else if maxfile * bsize < (off + n).toNat then
    pure ⟨-1, ip, memory, 0⟩
  else do
    let done ← writeLoop pagetable memory user_src n.toNat 0 off.toNat src ip
    if 0 < n then do
      iupdate (extendSize done.ip done.off)
      pure ⟨asInt n.toNat, extendSize done.ip done.off, memory, done.moved⟩
    else
      pure ⟨asInt n.toNat, done.ip, memory, done.moved⟩

/-! ## Arithmetic of the bounds -/

/-- The sum of two `uint`s wraps when it is out of range. -/
theorem add_lt_iff (off n : UInt32) : off + n < off ↔ 2 ^ 32 ≤ off.toNat + n.toNat := by
  have first := off.toNat_lt
  have second := n.toNat_lt
  rw [UInt32.lt_iff_toNat_lt, UInt32.toNat_add]
  omega

theorem toNat_add_of_fits {off n : UInt32} (fits : ¬2 ^ 32 ≤ off.toNat + n.toNat) :
    (off + n).toNat = off.toNat + n.toNat := by
  rw [UInt32.toNat_add]
  exact Nat.mod_eq_of_lt (Nat.not_le.mp fits)

theorem chunk_positive {n tot : Nat} (off : Nat) (more : tot < n) :
    0 < min (n - tot) (bsize - off % bsize) := by
  have inside := Nat.mod_lt off (show 0 < bsize by decide)
  omega

theorem extendSize_size (ip : Inode) (off : Nat) : (extendSize ip off).size = max ip.size off := by
  unfold extendSize
  split_ifs with short
  · exact (Nat.max_eq_right (Nat.le_of_lt short)).symm
  · exact (Nat.max_eq_left (Nat.not_lt.mp short)).symm

theorem extendSize_addrs (ip : Inode) (off : Nat) : (extendSize ip off).addrs = ip.addrs := by
  unfold extendSize
  split_ifs <;> rfl

/-- A write out of range fails before it has changed anything. -/
theorem writei_rejects (pagetable : UserPages) (volume : Volume) (ip : Inode)
    (memory : Nat → UInt8) (user : Bool) (src : Nat) {off n : UInt32}
    (rejected : ip.size < off.toNat ∨ 2 ^ 32 ≤ off.toNat + n.toNat ∨
      maxfile * bsize < off.toNat + n.toNat) :
    (writei pagetable memory ip user src off n).run volume =
      .ok ⟨-1, ip, memory, 0⟩ volume := by
  simp only [writei, add_lt_iff]
  by_cases early : ip.size < off.toNat ∨ 2 ^ 32 ≤ off.toNat + n.toNat
  · rw [if_pos early]
    rfl
  · have large : maxfile * bsize < (off + n).toNat := by
      rw [toNat_add_of_fits (by tauto)]
      tauto
    rw [if_neg early, if_pos large]
    rfl

/-! ## The bytes of a file -/

/-- The bytes of a file as its cells hold them; a block that is missing reads as
zeros. -/
def Volume.content (volume : Volume) (addrs : Nat → Nat) (index : Nat) : UInt8 :=
  if volume.pointer addrs (cellOf (index / bsize)) = 0 then 0
  else volume.block (volume.pointer addrs (cellOf (index / bsize))) (index % bsize)

variable {index : Nat}

theorem block_inside (inside : index < maxfile * bsize) : index / bsize < maxfile :=
  Nat.div_lt_of_lt_mul (by rwa [Nat.mul_comm])

/-- The indirect block of a tidy inode holds none of its bytes. -/
theorem Volume.Tidy.ne_indirect {volume : Volume} {addrs : Nat → Nat}
    (tidy : volume.Tidy addrs) {bn : Nat} (inside : bn < maxfile)
    (present : volume.pointer addrs (cellOf bn) ≠ 0) :
    volume.pointer addrs (cellOf bn) ≠ addrs ndirect := by
  intro same
  have top : ndirect ≤ maxfile := by decide
  rw [← Volume.pointer_addrs volume addrs (Nat.le_refl ndirect)] at same
  exact cellOf_ne_ndirect bn (tidy.distinct _ (cellOf_le inside) _ top present same)

variable {attached ip : Inode} {after before : Volume}

/-- A fresh block reads like the vacant cell it fills. -/
theorem Attaches.content {cell b : Nat}
    (attaches : Attaches before ip cell b after attached) (tidy : before.Tidy ip.addrs)
    (inside : index < maxfile * bsize) :
    after.content attached.addrs index = before.content ip.addrs index := by
  have low := block_inside inside
  unfold Volume.content
  rw [attaches.pointer _ (cellOf_le low)]
  by_cases same : cellOf (index / bsize) = cell
  · rw [if_pos same, same, attaches.vacant, if_neg attaches.nonzero, attaches.zeroed, if_pos rfl]
  · rw [if_neg same]
    by_cases vacant : before.pointer ip.addrs (cellOf (index / bsize)) = 0
    · rw [if_pos vacant, if_pos vacant]
    · rw [if_neg vacant, if_neg vacant, attaches.block _
        (tidy.used _ (cellOf_le low) vacant) (tidy.ne_indirect low vacant)]

theorem Extends.content (extends_ : Extends before ip after attached) (tidy : before.Tidy ip.addrs)
    (inside : index < maxfile * bsize) :
    after.content attached.addrs index = before.content ip.addrs index := by
  induction extends_ with
  | refl => rfl
  | attach prior step ih => rw [step.content (prior.tidy tidy) inside, ih]

theorem Extends.inode (extends_ : Extends before ip after attached) :
    attached = { ip with addrs := attached.addrs } := by
  induction extends_ with
  | refl => rfl
  | attach _ step ih =>
    rw [step.inode, ih]

theorem Extends.dinode
    (extends_ : Extends before ip after attached) : after.dinode = before.dinode := by
  induction extends_ with
  | refl => rfl
  | attach _ step ih => rw [step.dinode, ih]

/-- Within one block, the bytes of the file are the bytes of the block. -/
theorem Volume.content_eq_block {volume : Volume} {addrs : Nat → Nat} {off place : Nat}
    (present : volume.pointer addrs (cellOf (off / bsize)) ≠ 0)
    (inside : off % bsize + place < bsize) :
    volume.content addrs (off + place) =
      volume.block (volume.pointer addrs (cellOf (off / bsize))) (off % bsize + place) := by
  have block : (off + place) / bsize = off / bsize := by
    rw [bsize_eq] at inside ⊢
    omega
  have offset : (off + place) % bsize = off % bsize + place := by
    rw [bsize_eq] at inside ⊢
    omega
  unfold content
  rw [block, offset, if_neg present]

/-- A store of some bytes into the block that holds offset `off` of a file. -/
structure Stores (before : Volume) (ip : Inode) (off : Nat) (chunk : List UInt8)
    (after : Volume) : Prop where
  inside : off / bsize < maxfile
  present : before.pointer ip.addrs (cellOf (off / bsize)) ≠ 0
  fits : off % bsize + chunk.length ≤ bsize
  same : SameBut
    { before with
      block := Function.update before.block (before.pointer ip.addrs (cellOf (off / bsize)))
        (patch (before.block (before.pointer ip.addrs (cellOf (off / bsize)))) (off % bsize)
          chunk) } after

namespace Stores

variable {before after : Volume} {ip : Inode} {off : Nat} {chunk : List UInt8}

theorem used (stores : Stores before ip off chunk after) : after.used = before.used := by
  rw [stores.same]

theorem sb (stores : Stores before ip off chunk after) : after.sb = before.sb := by
  rw [stores.same]

theorem dinode (stores : Stores before ip off chunk after) : after.dinode = before.dinode := by
  rw [stores.same]

theorem block (stores : Stores before ip off chunk after) :
    after.block = Function.update before.block
      (before.pointer ip.addrs (cellOf (off / bsize)))
      (patch (before.block (before.pointer ip.addrs (cellOf (off / bsize)))) (off % bsize)
        chunk) := by
  rw [stores.same]

/-- The store goes to a data block, so every pointer stays. -/
theorem pointer (stores : Stores before ip off chunk after) (tidy : before.Tidy ip.addrs)
    (cell : Nat) : after.pointer ip.addrs cell = before.pointer ip.addrs cell := by
  have different := tidy.ne_indirect stores.inside stores.present
  apply Volume.pointer_congr
  intro _
  rw [stores.block, Function.update_of_ne different.symm]

theorem sane (stores : Stores before ip off chunk after) (held : before.Sane) : after.Sane :=
  ⟨by rw [stores.used]; exact held.boot, by rw [stores.sb]; exact held.small⟩

theorem tidy (stores : Stores before ip off chunk after) (held : before.Tidy ip.addrs) :
    after.Tidy ip.addrs := by
  constructor
  · intro cell inside present
    rw [stores.pointer held] at present ⊢
    rw [stores.used]
    exact held.used cell inside present
  · intro first inside second inside' present same
    rw [stores.pointer held] at present same
    rw [stores.pointer held] at same
    exact held.distinct first inside second inside' present same

/-- The store overwrites its own stretch of the file and nothing else. -/
theorem content (stores : Stores before ip off chunk after) (tidy : before.Tidy ip.addrs)
    {index : Nat} (inside : index < maxfile * bsize) :
    after.content ip.addrs index = patch (before.content ip.addrs) off chunk index := by
  have fits := stores.fits
  have positive : 0 < bsize := by decide
  have low := block_inside inside
  by_cases same : index / bsize = off / bsize
  · -- the block that is stored to: offsets in the block and in the file agree
    have offsets := Nat.div_add_mod index bsize
    have start := Nat.div_add_mod off bsize
    rw [same] at offsets
    unfold Volume.content
    rw [stores.pointer tidy, same, if_neg stores.present, stores.block, Function.update_self]
    rcases Nat.lt_or_ge index off with early | late
    · rw [patch_before early, patch_before (by omega), same, if_neg stores.present]
    · rcases Nat.lt_or_ge index (off + chunk.length) with within | behind
      · obtain ⟨place, rfl⟩ : ∃ place, index = off + place := ⟨index - off, by omega⟩
        have offset : (off + place) % bsize = off % bsize + place := by omega
        rw [offset, patch_inside (by omega), patch_inside (by omega)]
      · rw [patch_behind behind, patch_behind (by omega), same, if_neg stores.present]
  · -- another block of the file, which is stored elsewhere
    have outside : patch (before.content ip.addrs) off chunk index =
        before.content ip.addrs index := by
      rcases Nat.lt_or_ge index off with early | late
      · exact patch_before early
      · apply patch_behind
        by_contra within
        apply same
        rw [bsize_eq] at fits ⊢
        omega
    rw [outside]
    unfold Volume.content
    rw [stores.pointer tidy]
    split_ifs with vacant
    · rfl
    · have different : before.pointer ip.addrs (cellOf (index / bsize)) ≠
          before.pointer ip.addrs (cellOf (off / bsize)) := by
        intro equal
        exact same (cellOf_injective (tidy.distinct _ (cellOf_le low) _
          (cellOf_le stores.inside) vacant equal))
      rw [stores.block, Function.update_of_ne different]

end Stores

/-- A file that is overwritten by some bytes from offset `start` on, in stores to
blocks that `bmap` has found or allocated. -/
inductive Writes (volume : Volume) (ip : Inode) (start : Nat) :
    List UInt8 → Volume → Inode → Prop where
  | refl : Writes volume ip start [] volume ip
  | extend {bytes : List UInt8} {middle after : Volume} {grown attached : Inode}
      (prior : Writes volume ip start bytes middle grown)
      (further : Extends middle grown after attached) :
      Writes volume ip start bytes after attached
  | store {bytes chunk : List UInt8} {middle after : Volume} {grown : Inode}
      (prior : Writes volume ip start bytes middle grown)
      (stores : Stores middle grown (start + bytes.length) chunk after) :
      Writes volume ip start (bytes ++ chunk) after grown

namespace Writes

variable {before after : Volume} {ip written : Inode} {start : Nat} {bytes : List UInt8}

theorem sane (writes : Writes before ip start bytes after written) (held : before.Sane) :
    after.Sane := by
  induction writes with
  | refl => exact held
  | extend _ further ih => exact further.sane ih
  | store _ stores ih => exact stores.sane ih

theorem tidy (writes : Writes before ip start bytes after written)
    (held : before.Tidy ip.addrs) : after.Tidy written.addrs := by
  induction writes with
  | refl => exact held
  | extend _ further ih => exact further.tidy ih
  | store _ stores ih => exact stores.tidy ih

theorem inode (writes : Writes before ip start bytes after written) :
    written = { ip with addrs := written.addrs } := by
  induction writes with
  | refl => rfl
  | extend _ further ih => rw [further.inode, ih]
  | store _ _ ih => exact ih

theorem dinode (writes : Writes before ip start bytes after written) :
    after.dinode = before.dinode := by
  induction writes with
  | refl => rfl
  | extend _ further ih => rw [further.dinode, ih]
  | store _ stores ih => rw [stores.dinode, ih]

/-- The bytes from `start` on are the ones written, all others are as before. -/
theorem content (writes : Writes before ip start bytes after written)
    (tidy : before.Tidy ip.addrs) {index : Nat} (inside : index < maxfile * bsize) :
    after.content written.addrs index = patch (before.content ip.addrs) start bytes index := by
  induction writes with
  | refl => rw [patch_nil]
  | extend prior further ih => rw [further.content (prior.tidy tidy) inside, ih]
  | @store bytes chunk middle after grown prior stores ih =>
    rw [stores.content (prior.tidy tidy) inside, ← patch_append]
    unfold patch at ih ⊢
    rw [ih]

end Writes

end Ev6.FileSystem
