import Ev6.FileSystem.Blocks
import Mathlib.Tactic.SplitIfs

/-!
# The block map of an inode

An inode owns block pointers in numbered cells: the direct pointers, the pointer
to the indirect block (cell `NDIRECT`) and behind it the slots of that block.
`bmap` fills vacant cells with freshly allocated blocks and changes nothing else
that an inode points to.
-/

namespace Ev6.FileSystem

open Function (update update_apply update_of_ne update_self)
open Support

/-- `struct inode`: the copy of a disk inode kept in memory, with its number. -/
structure Inode extends Dinode where
  inum : Nat

/-- The block `ip->addrs[index]` points to, allocated if there is none. -/
def addrsOrAlloc (ip : Inode) (index : Nat) : FsM (Nat × Inode) :=
  if ip.addrs index = 0 then do
    let addr ← balloc
    pure (addr, { ip with addrs := update ip.addrs index addr })
  else
    pure (ip.addrs index, ip)

/-- The block that slot `bn` of the indirect block `addr` points to, allocated if
there is none. -/
def slotOrAlloc (addr bn : Nat) : FsM Nat := do
  let volume ← get
  if entry (volume.block addr) bn = 0 then
    let slot ← balloc
    modify fun volume =>
      { volume with
        block := update volume.block addr (setEntry (volume.block addr) bn slot) }
    logWrite addr
    pure slot
  else
    pure (entry (volume.block addr) bn)

/-- `bmap`: the block number, and the inode with the pointers it has now. -/
def bmap (ip : Inode) (bn : Nat) : FsM (Nat × Inode) :=
  if bn < ndirect then
    addrsOrAlloc ip bn
  else if bn - ndirect < nindirect then do
    let (addr, ip) ← addrsOrAlloc ip ndirect
    let slot ← slotOrAlloc addr (bn - ndirect)
    pure (slot, ip)
  else
    throw .bmapOutOfRange

/-- `iupdate`: copy a modified inode to disk. -/
def iupdate (ip : Inode) : FsM Unit := do
  let volume ← get
  set { volume with dinode := update volume.dinode ip.inum ip.toDinode }
  logWrite (volume.sb.iblock ip.inum)

theorem iupdate_ensures (ip : Inode) (volume : Volume) :
    Ensures (iupdate ip) volume
      (fun _ after =>
        SameBut { volume with dinode := update volume.dinode ip.inum ip.toDinode } after)
      Exhausted := by
  unfold iupdate
  exact .get (.set (logWrite_ensures _ _))

/-! ## Cells -/

/-- The block pointer in a cell of an inode, 0 if the cell is vacant. -/
def Volume.pointer (volume : Volume) (addrs : Nat → Nat) (cell : Nat) : Nat :=
  if cell ≤ ndirect then addrs cell
  else if addrs ndirect = 0 then 0
  else entry (volume.block (addrs ndirect)) (cell - (ndirect + 1))

/-- The cell that holds the pointer to block `bn` of a file. -/
def cellOf (bn : Nat) : Nat :=
  if bn < ndirect then bn else bn + 1

theorem cellOf_injective {first second : Nat} (same : cellOf first = cellOf second) :
    first = second := by
  unfold cellOf at same
  split_ifs at same <;> omega

theorem cellOf_ne_ndirect (bn : Nat) : cellOf bn ≠ ndirect := by
  unfold cellOf
  split_ifs <;> omega

theorem cellOf_le {bn : Nat} (inside : bn < maxfile) : cellOf bn ≤ maxfile := by
  have bound := maxfile_eq
  unfold cellOf
  split_ifs <;> omega

section Pointer

variable {volume : Volume} {addrs : Nat → Nat} {cell : Nat}

theorem Volume.pointer_addrs (volume : Volume) (addrs : Nat → Nat) {index : Nat}
    (low : index ≤ ndirect) : volume.pointer addrs index = addrs index := by
  simp [pointer, low]

theorem Volume.pointer_slot (present : addrs ndirect ≠ 0) (bn : Nat) :
    volume.pointer addrs (bn + (ndirect + 1)) = entry (volume.block (addrs ndirect)) bn := by
  have high : ¬bn + (ndirect + 1) ≤ ndirect := by omega
  simp [pointer, high, present]

/-- Cells past the direct ones are slots of the indirect block. -/
theorem Volume.pointer_high (high : ndirect < cell) :
    volume.pointer addrs cell =
      if addrs ndirect = 0 then 0
      else entry (volume.block (addrs ndirect)) (cell - (ndirect + 1)) := by
  simp [pointer, Nat.not_le.mpr high]

/-- Pointers depend on the volume through the indirect block only. -/
theorem Volume.pointer_congr {other : Volume}
    (same : addrs ndirect ≠ 0 → other.block (addrs ndirect) = volume.block (addrs ndirect)) :
    other.pointer addrs cell = volume.pointer addrs cell := by
  unfold pointer
  split_ifs with low vacant
  · rfl
  · rfl
  · rw [same vacant]

end Pointer

/-! ## Tidy inodes -/

/-- A volume on which `balloc` gives usable block numbers: the boot block is
taken and block numbers fit into a word. -/
structure Volume.Sane (volume : Volume) : Prop where
  boot : volume.used 0 = true
  small : volume.sb.size ≤ 2 ^ 32

/-- The blocks of an inode are marked, and no two cells share one. -/
structure Volume.Tidy (volume : Volume) (addrs : Nat → Nat) : Prop where
  used : ∀ cell ≤ maxfile, volume.pointer addrs cell ≠ 0 →
    volume.used (volume.pointer addrs cell) = true
  distinct : ∀ first ≤ maxfile, ∀ second ≤ maxfile, volume.pointer addrs first ≠ 0 →
    volume.pointer addrs first = volume.pointer addrs second → first = second

/-- A block in use is not the one `balloc` has found. -/
theorem Allocates.ne_of_used {before after : Volume} {b other : Nat}
    (alloc : Allocates before b after) (marked : before.used other = true) : other ≠ b := by
  rintro rfl
  rw [alloc.free] at marked
  cases marked

/-- What filling one vacant cell of an inode with a fresh block `b` does. -/
structure Attaches (before : Volume) (ip : Inode) (cell b : Nat) (after : Volume)
    (attached : Inode) : Prop where
  inside : cell ≤ maxfile
  vacant : before.pointer ip.addrs cell = 0
  nonzero : b ≠ 0
  bound : b < before.sb.size
  free : before.used b = false
  used : after.used = update before.used b true
  pointer : ∀ other ≤ maxfile, after.pointer attached.addrs other =
    if other = cell then b else before.pointer ip.addrs other
  zeroed : after.block b = fun _ => 0
  block : ∀ other, before.used other = true → other ≠ ip.addrs ndirect →
    after.block other = before.block other
  sb : after.sb = before.sb
  dinode : after.dinode = before.dinode
  outstanding : after.outstanding = before.outstanding
  inode : attached = { ip with addrs := attached.addrs }

section Attaching

variable {volume : Volume} {ip : Inode}

/-- Allocating the block of a direct pointer or the indirect block. -/
theorem Attaches.of_addrs (sane : volume.Sane) (tidy : volume.Tidy ip.addrs) {index b : Nat}
    (low : index ≤ ndirect) (vacant : ip.addrs index = 0) {after : Volume}
    (alloc : Allocates volume b after) :
    Attaches volume ip index b after { ip with addrs := update ip.addrs index b } := by
  have marked := alloc.ne_of_used sane.boot
  have limit := maxfile_eq
  have middle := ndirect_eq
  refine ⟨by omega, ?_, marked.symm, alloc.bound, alloc.free, alloc.used, ?_, ?_, ?_, alloc.sb,
    alloc.dinode, alloc.outstanding, rfl⟩
  · rw [Volume.pointer_addrs volume ip.addrs low, vacant]
  · intro other inside
    rcases Nat.lt_or_ge ndirect other with high | direct
    · rw [if_neg (by omega), Volume.pointer_high high, Volume.pointer_high high]
      by_cases same : index = ndirect
      · subst same
        simp [vacant, marked.symm, alloc.block]
      · simp only [update_of_ne (Ne.symm same)]
        by_cases absent : ip.addrs ndirect = 0
        · simp [absent]
        · have top : ndirect ≤ maxfile := by omega
          have taken := tidy.used ndirect top
          rw [Volume.pointer_addrs volume ip.addrs (Nat.le_refl ndirect)] at taken
          rw [if_neg absent, if_neg absent, alloc.block,
            update_of_ne (alloc.ne_of_used (taken absent))]
    · rw [Volume.pointer_addrs _ _ direct, Volume.pointer_addrs _ _ direct]
      exact update_apply _ _ _ _
  · simp [alloc.block]
  · intro other taken _
    rw [alloc.block, update_of_ne (alloc.ne_of_used taken)]

/-- Allocating the block of a slot of the indirect block. -/
theorem Attaches.of_slot (sane : volume.Sane) (tidy : volume.Tidy ip.addrs) {bn b : Nat}
    (inside : bn < nindirect) (present : ip.addrs ndirect ≠ 0)
    (vacant : entry (volume.block (ip.addrs ndirect)) bn = 0) {middle after : Volume}
    (alloc : Allocates volume b middle) (stored : SameBut
      { middle with
        block := update middle.block (ip.addrs ndirect)
          (setEntry (middle.block (ip.addrs ndirect)) bn b) } after) :
    Attaches volume ip (bn + (ndirect + 1)) b after ip := by
  have marked := alloc.ne_of_used sane.boot
  have limit := maxfile_eq
  have first := ndirect_eq
  have second := nindirect_eq
  have top : ndirect ≤ maxfile := by omega
  have taken := tidy.used ndirect top
  rw [Volume.pointer_addrs volume ip.addrs (Nat.le_refl ndirect)] at taken
  have other := alloc.ne_of_used (taken present)
  have small : b < 2 ^ 32 := Nat.lt_of_lt_of_le alloc.bound sane.small
  have indirect : after.block (ip.addrs ndirect) =
      setEntry (volume.block (ip.addrs ndirect)) bn b := by
    rw [stored]
    simp [alloc.block, update_of_ne other]
  have elsewhere : ∀ c, c ≠ ip.addrs ndirect → after.block c = middle.block c := by
    intro c different
    rw [stored]
    exact update_of_ne different _ _
  refine ⟨by omega, ?_, marked.symm, alloc.bound, alloc.free, ?_, ?_, ?_, ?_, ?_, ?_, ?_, rfl⟩
  · rw [Volume.pointer_slot present, vacant]
  · rw [stored]
    exact alloc.used
  · intro cell _
    rcases Nat.lt_or_ge ndirect cell with high | direct
    · obtain ⟨place, rfl⟩ : ∃ place, cell = place + (ndirect + 1) :=
        ⟨cell - (ndirect + 1), by omega⟩
      rw [Volume.pointer_slot present, Volume.pointer_slot present, indirect]
      by_cases same : place = bn
      · subst same
        rw [if_pos rfl, entry_setEntry_self _ _ small]
      · rw [if_neg (by omega), entry_setEntry_of_ne _ _ same]
    · rw [if_neg (by omega), Volume.pointer_addrs _ _ direct, Volume.pointer_addrs _ _ direct]
  · rw [elsewhere b other.symm, alloc.block, update_self]
  · intro c marked different
    rw [elsewhere c different, alloc.block, update_of_ne (alloc.ne_of_used marked)]
  · rw [stored]
    exact alloc.sb
  · rw [stored]
    exact alloc.dinode
  · rw [stored]
    exact alloc.outstanding

end Attaching

namespace Attaches

variable {before after : Volume} {ip attached : Inode} {cell b : Nat}

theorem sane (attaches : Attaches before ip cell b after attached) (held : before.Sane) :
    after.Sane := by
  refine ⟨?_, by rw [attaches.sb]; exact held.small⟩
  rw [attaches.used, update_apply]
  split_ifs
  · rfl
  · exact held.boot

/-- A filled cell is nobody else's, so the inode stays tidy. -/
theorem tidy (attaches : Attaches before ip cell b after attached)
    (held : before.Tidy ip.addrs) : after.Tidy attached.addrs := by
  have fresh : ∀ other ≤ maxfile, before.pointer ip.addrs other ≠ b := by
    rintro other inside rfl
    have marked := held.used other inside attaches.nonzero
    rw [attaches.free] at marked
    cases marked
  constructor
  · intro other inside present
    rw [attaches.pointer other inside] at present ⊢
    rw [attaches.used, update_apply]
    split_ifs at present ⊢ with same taken
    · rfl
    · exact absurd rfl taken
    · rfl
    · exact held.used other inside present
  · intro first inside second inside' present same
    rw [attaches.pointer first inside] at present same
    rw [attaches.pointer second inside'] at same
    split_ifs at present same with left right right
    · exact left.trans right.symm
    · exact absurd same.symm (fresh second inside')
    · exact absurd same (fresh first inside)
    · exact held.distinct first inside second inside' present same

end Attaches

/-- An inode whose block map grows by fresh blocks, one cell after the other. -/
inductive Extends (volume : Volume) (ip : Inode) : Volume → Inode → Prop where
  | refl : Extends volume ip volume ip
  | attach {middle after : Volume} {grown attached : Inode} {cell b : Nat}
      (prior : Extends volume ip middle grown)
      (step : Attaches middle grown cell b after attached) : Extends volume ip after attached

namespace Extends

variable {before middle after : Volume} {ip grown attached : Inode}

theorem trans (first : Extends before ip middle grown)
    (second : Extends middle grown after attached) : Extends before ip after attached := by
  induction second with
  | refl => exact first
  | attach _ step ih => exact .attach ih step

theorem sane (extends_ : Extends before ip after attached) (held : before.Sane) : after.Sane := by
  induction extends_ with
  | refl => exact held
  | attach _ step ih => exact step.sane ih

theorem tidy (extends_ : Extends before ip after attached) (held : before.Tidy ip.addrs) :
    after.Tidy attached.addrs := by
  induction extends_ with
  | refl => exact held
  | attach _ step ih => exact step.tidy ih

end Extends

/-! ## What `bmap` does -/

section Mapping

variable {volume : Volume} {ip : Inode}

theorem addrsOrAlloc_ensures (sane : volume.Sane) (tidy : volume.Tidy ip.addrs) {index : Nat}
    (low : index ≤ ndirect) :
    Ensures (addrsOrAlloc ip index) volume
      (fun result after => Extends volume ip after result.2 ∧
        result.1 = result.2.addrs index ∧ result.1 ≠ 0) Exhausted := by
  unfold addrsOrAlloc
  split
  next vacant =>
    refine .bind (balloc_ensures volume) ?_
    intro addr after alloc
    have attaches := Attaches.of_addrs sane tidy low vacant alloc
    exact .pure ⟨.attach .refl attaches, (update_self index addr ip.addrs).symm,
      attaches.nonzero⟩
  next present => exact .pure ⟨.refl, rfl, present⟩

theorem slotOrAlloc_ensures (sane : volume.Sane) (tidy : volume.Tidy ip.addrs) {bn : Nat}
    (inside : bn < nindirect) (present : ip.addrs ndirect ≠ 0) :
    Ensures (slotOrAlloc (ip.addrs ndirect) bn) volume
      (fun slot after => Extends volume ip after ip ∧
        slot = after.pointer ip.addrs (bn + (ndirect + 1)) ∧ slot ≠ 0) Exhausted := by
  have limit := maxfile_eq
  have first := ndirect_eq
  have second := nindirect_eq
  unfold slotOrAlloc
  refine .get ?_
  split
  next vacant =>
    refine .bind (balloc_ensures volume) ?_
    intro slot middle alloc
    refine .modify (.bind (logWrite_ensures _ _) ?_)
    rintro ⟨⟩ after stored
    have attaches := Attaches.of_slot sane tidy inside present vacant alloc stored
    refine .pure ⟨.attach .refl attaches, ?_, attaches.nonzero⟩
    rw [attaches.pointer _ attaches.inside, if_pos rfl]
  next taken =>
    refine .pure ⟨.refl, ?_, taken⟩
    rw [Volume.pointer_slot present]

/-- Inside the range of a file, `bmap` returns the block in the cell of `bn`, which
it has allocated if it had to; it stops only where blocks or log run out. -/
theorem bmap_ensures (sane : volume.Sane) (tidy : volume.Tidy ip.addrs) {bn : Nat}
    (inside : bn < maxfile) :
    Ensures (bmap ip bn) volume
      (fun result after => Extends volume ip after result.2 ∧
        result.1 = after.pointer result.2.addrs (cellOf bn) ∧ result.1 ≠ 0) Exhausted := by
  have limit := maxfile_eq
  have first := ndirect_eq
  have second := nindirect_eq
  unfold bmap
  split
  next direct =>
    refine (addrsOrAlloc_ensures sane tidy (Nat.le_of_lt direct)).mono ?_ fun _ _ => id
    rintro ⟨addr, grown⟩ after ⟨extension, same, present⟩
    have cell : cellOf bn = bn := if_pos direct
    rw [cell, Volume.pointer_addrs _ _ (Nat.le_of_lt direct)]
    exact ⟨extension, same, present⟩
  next indirect =>
    rw [if_pos (by omega)]
    refine .bind (addrsOrAlloc_ensures sane tidy (Nat.le_refl ndirect)) ?_
    rintro ⟨addr, grown⟩ middle ⟨extension, same, present⟩
    dsimp only at same present ⊢
    subst same
    have slots := slotOrAlloc_ensures (extension.sane sane) (extension.tidy tidy)
      (show bn - ndirect < nindirect by omega) present
    refine .bind slots ?_
    rintro slot after ⟨further, same, taken⟩
    have cell : cellOf bn = bn - ndirect + (ndirect + 1) := by
      unfold cellOf
      rw [if_neg indirect]
      omega
    rw [cell]
    exact .pure ⟨extension.trans further, same, taken⟩

end Mapping

end Ev6.FileSystem
