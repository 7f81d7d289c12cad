import Ev6.FileSystem.ReadWrite

/-!
# Block ownership

On a consistent volume a block is marked in the free map if and only if it is
metadata or held by exactly one cell of one allocated inode. The operations on
inodes keep this: `bmap` under `writei` hands fresh blocks to vacant cells, and
`itrunc` frees what the cells of an inode hold and vacates them.
-/

namespace Ev6.FileSystem

open List (mem_cons mem_range)
open Support

/-! ## Allocating and truncating inodes -/

/-- Free the blocks of a list of pointers, of which zeros are vacant. -/
def bfreeAll : List Nat → FsM Unit
  | [] => pure ()
  | b :: rest =>
    if b = 0 then bfreeAll rest
    else do
      bfree b
      bfreeAll rest

/-- The inode without contents. -/
def Inode.truncated (ip : Inode) : Inode :=
  { ip with size := 0, addrs := fun _ => 0 }

/-- `itrunc`. -/
def itrunc (ip : Inode) : FsM Inode := do
  bfreeAll ((List.range ndirect).map ip.addrs)
  let volume ← get
  if ip.addrs ndirect = 0 then do
    iupdate ip.truncated
    pure ip.truncated
  else do
    bfreeAll ((List.range nindirect).map (entry (volume.block (ip.addrs ndirect))))
    bfree (ip.addrs ndirect)
    iupdate ip.truncated
    pure ip.truncated

/-- What `memset` and the assignment of the type leave of a free disk inode. -/
def freshDinode (type : Nat) : Dinode :=
  { type := type, major := 0, minor := 0, nlink := 0, size := 0, addrs := fun _ => 0 }

/-- `ialloc`: the number of an inode that was free and is allocated now. -/
def ialloc (type : Nat) : FsM Nat := do
  let volume ← get
  match firstSlot (fun i => decide (i ≠ 0) && decide ((volume.dinode i).type = 0))
      volume.sb.ninodes with
  | none => throw .iallocNoInodes
  | some inum =>
    set { volume with dinode := Function.update volume.dinode inum (freshDinode type) }
    logWrite (volume.sb.iblock inum)
    pure inum

/-! ## Consistency -/

/-- The blocks up to the end of the free map. -/
def Superblock.Metadata (sb : Superblock) (b : Nat) : Prop :=
  b < sb.bmapstart + (sb.size / bpb + 1)

/-- Cell `cell` of the allocated inode `inum` holds block `b`. -/
structure Volume.Owns (volume : Volume) (inum cell b : Nat) : Prop where
  allocated : (volume.dinode inum).type ≠ 0
  inside : cell ≤ maxfile
  held : volume.pointer (volume.dinode inum).addrs cell = b
  present : b ≠ 0

/-- Every block has at most one owner, and the free map tells which have one or are
metadata. No block below the end of a file is missing. -/
structure Volume.Consistent (volume : Volume) : Prop where
  small : volume.sb.size ≤ 2 ^ 32
  marked : ∀ b, volume.used b = true ↔ volume.sb.Metadata b ∨ ∃ inum cell, volume.Owns inum cell b
  unique : ∀ {first second left right b}, volume.Owns first left b → volume.Owns second right b →
    first = second ∧ left = right
  apart : ∀ {inum cell b}, volume.Owns inum cell b → ¬volume.sb.Metadata b
  whole : ∀ inum, (volume.dinode inum).type ≠ 0 → ∀ bn < maxfile,
    bn * bsize < (volume.dinode inum).size →
    volume.pointer (volume.dinode inum).addrs (cellOf bn) ≠ 0

/-- The volume with the copy of an inode in memory in place of the one on disk. -/
def Volume.put (volume : Volume) (ip : Inode) : Volume :=
  { volume with dinode := Function.update volume.dinode ip.inum ip.toDinode }

section Put

variable {volume : Volume} {ip : Inode} {inum cell b : Nat}

@[simp] theorem Volume.put_used (volume : Volume) (ip : Inode) :
    (volume.put ip).used = volume.used := rfl

@[simp] theorem Volume.put_sb (volume : Volume) (ip : Inode) : (volume.put ip).sb = volume.sb := rfl

@[simp] theorem Volume.put_pointer (volume : Volume) (ip : Inode) (addrs : Nat → Nat) (cell : Nat) :
    (volume.put ip).pointer addrs cell = volume.pointer addrs cell := rfl

@[simp] theorem Volume.put_dinode_self (volume : Volume) (ip : Inode) :
    (volume.put ip).dinode ip.inum = ip.toDinode :=
  Function.update_self _ _ _

theorem Volume.put_dinode_of_ne (volume : Volume) (ip : Inode) (other : inum ≠ ip.inum) :
    (volume.put ip).dinode inum = volume.dinode inum :=
  Function.update_of_ne other _ _

theorem Volume.put_of_synced (same : volume.dinode ip.inum = ip.toDinode) :
    volume.put ip = volume := by
  unfold put
  rw [← same, Function.update_eq_self]

end Put

variable {b : Nat} {after before : Volume}

/-- Volumes that differ in the log only have the same owners. -/
theorem Volume.Owns.congr {inum cell : Nat}
    (block : after.block = before.block) (dinode : after.dinode = before.dinode) :
    after.Owns inum cell b ↔ before.Owns inum cell b := by
  have pointers : ∀ addrs cell, after.pointer addrs cell = before.pointer addrs cell :=
    fun addrs cell => Volume.pointer_congr fun _ => by rw [block]
  constructor
  · rintro ⟨allocated, inside, held, present⟩
    rw [dinode] at allocated held
    exact ⟨allocated, inside, by rw [← held, pointers], present⟩
  · rintro ⟨allocated, inside, held, present⟩
    refine ⟨by rw [dinode]; exact allocated, inside, ?_, present⟩
    rw [dinode, pointers]
    exact held

/-- A volume with the owners and the free map of a consistent one is consistent when
it has no holes. -/
theorem Volume.Consistent.of_owners (held : before.Consistent)
    (sb : after.sb = before.sb) (used : after.used = before.used)
    (owners : ∀ {inum cell b}, after.Owns inum cell b ↔ before.Owns inum cell b)
    (whole : ∀ inum, (after.dinode inum).type ≠ 0 → ∀ bn < maxfile,
      bn * bsize < (after.dinode inum).size →
      after.pointer (after.dinode inum).addrs (cellOf bn) ≠ 0) : after.Consistent := by
  refine ⟨by rw [sb]; exact held.small, ?_, ?_, ?_, whole⟩
  · intro b
    simp only [used, sb, owners]
    exact held.marked b
  · intro first second left right b one two
    exact held.unique (owners.mp one) (owners.mp two)
  · intro inum cell b owns
    rw [sb]
    exact held.apart (owners.mp owns)

theorem Volume.Consistent.congr (consistent : before.Consistent)
    (sb : after.sb = before.sb) (used : after.used = before.used)
    (block : after.block = before.block) (dinode : after.dinode = before.dinode) :
    after.Consistent := by
  refine consistent.of_owners sb used (Volume.Owns.congr block dinode) ?_
  intro inum allocated bn inside below
  have pointers : ∀ addrs cell, after.pointer addrs cell = before.pointer addrs cell :=
    fun addrs cell => Volume.pointer_congr fun _ => by rw [block]
  rw [dinode] at allocated below ⊢
  rw [pointers]
  exact consistent.whole inum allocated bn inside below

theorem Volume.Consistent.logged (consistent : before.Consistent)
    (same : SameBut before after) : after.Consistent := by
  rw [same]
  exact consistent.congr rfl rfl rfl rfl

namespace Volume.Consistent

variable {volume : Volume} {ip : Inode} {inum cell b : Nat}

theorem used (consistent : volume.Consistent) (owns : volume.Owns inum cell b) :
    volume.used b = true :=
  (consistent.marked b).mpr (.inr ⟨inum, cell, owns⟩)

theorem sane (consistent : volume.Consistent) : volume.Sane := by
  refine ⟨(consistent.marked 0).mpr (.inl ?_), consistent.small⟩
  exact Nat.lt_of_lt_of_le (Nat.succ_pos _) (Nat.le_add_left _ _)

/-- Each allocated inode of a consistent volume is tidy. -/
theorem tidy (consistent : volume.Consistent) (allocated : (volume.dinode inum).type ≠ 0) :
    volume.Tidy (volume.dinode inum).addrs := by
  constructor
  · intro cell inside present
    exact consistent.used ⟨allocated, inside, rfl, present⟩
  · intro first inside second inside' present same
    have one : volume.Owns inum first _ := ⟨allocated, inside, rfl, present⟩
    have two : volume.Owns inum second (volume.pointer (volume.dinode inum).addrs first) :=
      ⟨allocated, inside', same.symm, present⟩
    exact (consistent.unique one two).2

theorem tidy_put (consistent : (volume.put ip).Consistent) (allocated : ip.type ≠ 0) :
    volume.Tidy ip.addrs := by
  have present : ((volume.put ip).dinode ip.inum).type ≠ 0 := by
    rwa [Volume.put_dinode_self]
  have tidy := consistent.tidy present
  rw [Volume.put_dinode_self] at tidy
  exact ⟨tidy.used, tidy.distinct⟩

end Volume.Consistent

/-! ## Growing block maps -/

section Growing

variable {before after : Volume} {ip attached : Inode} {cell b : Nat}

/-- The block of another inode's cell is none that an attachment changes. -/
theorem Attaches.pointer_other (attaches : Attaches before ip cell b after attached)
    (consistent : (before.put ip).Consistent) (allocated : ip.type ≠ 0) {inum : Nat}
    (other : inum ≠ ip.inum) (taken : (before.dinode inum).type ≠ 0) (place : Nat) :
    after.pointer (before.dinode inum).addrs place =
      before.pointer (before.dinode inum).addrs place := by
  apply Volume.pointer_congr
  intro present
  have top : ndirect ≤ maxfile := by decide
  have low := Nat.le_refl ndirect
  have theirs : (before.put ip).Owns inum ndirect ((before.dinode inum).addrs ndirect) := by
    refine ⟨?_, top, ?_, present⟩ <;> rw [Volume.put_dinode_of_ne _ _ other]
    · exact taken
    · rw [Volume.put_pointer, Volume.pointer_addrs _ _ low]
  refine attaches.block _ (consistent.used theirs) fun same => ?_
  have ours : (before.put ip).Owns ip.inum ndirect ((before.dinode inum).addrs ndirect) := by
    refine ⟨?_, top, ?_, present⟩ <;> rw [Volume.put_dinode_self]
    · exact allocated
    · rw [Volume.put_pointer, Volume.pointer_addrs _ _ low]
      exact same.symm
  exact other (consistent.unique theirs ours).1

/-- An attachment makes the fresh block the property of the filled cell, and leaves
all others with their owners. -/
theorem Attaches.owns (attaches : Attaches before ip cell b after attached)
    (consistent : (before.put ip).Consistent) (allocated : ip.type ≠ 0) {inum place block : Nat} :
    (after.put attached).Owns inum place block ↔
      (before.put ip).Owns inum place block ∨ inum = ip.inum ∧ place = cell ∧ block = b := by
  have inode := attaches.inode
  have same : attached.inum = ip.inum := by rw [inode]
  have type : attached.type = ip.type := by rw [inode]
  by_cases own : inum = ip.inum
  · subst own
    have view : ∀ volume : Volume, ∀ copy : Inode, copy.inum = ip.inum →
        (volume.put copy).dinode ip.inum = copy.toDinode := by
      intro volume copy number
      rw [← number, Volume.put_dinode_self]
    constructor
    · rintro ⟨-, inside, held, present⟩
      rw [view after attached same, Volume.put_pointer, attaches.pointer place inside] at held
      split_ifs at held with filled
      · exact .inr ⟨rfl, filled, held.symm⟩
      · refine .inl ⟨?_, inside, ?_, present⟩ <;> rw [Volume.put_dinode_self]
        · exact allocated
        · exact held
    · rintro (⟨-, inside, held, present⟩ | ⟨-, rfl, rfl⟩)
      · rw [Volume.put_dinode_self, Volume.put_pointer] at held
        have different : place ≠ cell := by
          rintro rfl
          rw [attaches.vacant] at held
          exact present held.symm
        refine ⟨?_, inside, ?_, present⟩ <;> rw [view after attached same]
        · rw [type]
          exact allocated
        · rw [Volume.put_pointer, attaches.pointer place inside, if_neg different, held]
      · refine ⟨?_, attaches.inside, ?_, attaches.nonzero⟩ <;> rw [view after attached same]
        · rw [type]
          exact allocated
        · rw [Volume.put_pointer, attaches.pointer _ attaches.inside, if_pos rfl]
  · have kept : (after.put attached).dinode inum = (before.put ip).dinode inum := by
      rw [Volume.put_dinode_of_ne _ _ own, Volume.put_dinode_of_ne _ _ (by rwa [same]),
        attaches.dinode]
    have disk : (before.put ip).dinode inum = before.dinode inum :=
      Volume.put_dinode_of_ne _ _ own
    have pointers : ∀ taken : (before.dinode inum).type ≠ 0,
        (after.put attached).pointer ((after.put attached).dinode inum).addrs place =
          (before.put ip).pointer ((before.put ip).dinode inum).addrs place := by
      intro taken
      rw [kept, disk, Volume.put_pointer, Volume.put_pointer]
      exact attaches.pointer_other consistent allocated own taken place
    constructor
    · rintro ⟨taken, inside, held, present⟩
      rw [kept] at taken
      rw [pointers (by rwa [disk] at taken)] at held
      exact .inl ⟨taken, inside, held, present⟩
    · rintro (⟨taken, inside, held, present⟩ | ⟨rfl, -⟩)
      · refine ⟨by rwa [kept], inside, ?_, present⟩
        rw [pointers (by rwa [disk] at taken)]
        exact held
      · exact absurd rfl own

/-- Filling a vacant cell with a fresh block keeps the volume consistent. -/
theorem Attaches.consistent (attaches : Attaches before ip cell b after attached)
    (held : (before.put ip).Consistent) (allocated : ip.type ≠ 0) :
    (after.put attached).Consistent := by
  have inode := attaches.inode
  have same : attached.inum = ip.inum := by rw [inode]
  have owners : ∀ {inum place block}, (after.put attached).Owns inum place block ↔
      (before.put ip).Owns inum place block ∨ inum = ip.inum ∧ place = cell ∧ block = b :=
    attaches.owns held allocated
  have free : ∀ {inum place}, ¬(before.put ip).Owns inum place b := by
    intro inum place owns
    have marked := held.used owns
    rw [Volume.put_used, attaches.free] at marked
    cases marked
  have data : ¬before.sb.Metadata b := by
    intro metadata
    have marked := (held.marked b).mpr (.inl metadata)
    rw [Volume.put_used, attaches.free] at marked
    cases marked
  refine ⟨?_, ?_, ?_, ?_, ?_⟩
  · rw [Volume.put_sb, attaches.sb]
    exact held.small
  · intro block
    rw [Volume.put_used, Volume.put_sb, attaches.used, attaches.sb, Function.update_apply]
    split_ifs with fresh
    · subst fresh
      exact iff_of_true rfl (.inr ⟨ip.inum, cell, owners.mpr (.inr ⟨rfl, rfl, rfl⟩)⟩)
    · refine (held.marked block).trans (or_congr_right ?_)
      simp only [owners, fresh, and_false, or_false]
  · intro first second left right block one two
    rcases owners.mp one with one | ⟨rfl, rfl, rfl⟩
    · rcases owners.mp two with two | ⟨rfl, rfl, rfl⟩
      · exact held.unique one two
      · exact absurd one free
    · rcases owners.mp two with two | ⟨rfl, rfl, -⟩
      · exact absurd two free
      · exact ⟨rfl, rfl⟩
  · intro inum place block owns
    rw [Volume.put_sb, attaches.sb]
    rcases owners.mp owns with owns | ⟨-, -, rfl⟩
    · exact held.apart owns
    · exact data
  · intro inum taken bn inside below
    -- what was present stays present, so no hole appears
    have before_ : (before.put ip).Owns inum (cellOf bn)
        ((before.put ip).pointer ((before.put ip).dinode inum).addrs (cellOf bn)) := by
      have view : (before.put ip).dinode inum =
          { (after.put attached).dinode inum with addrs := ((before.put ip).dinode inum).addrs } := by
        by_cases own : inum = ip.inum
        · subst own
          rw [Volume.put_dinode_self]
          have now : (after.put attached).dinode ip.inum = attached.toDinode := by
            rw [← same, Volume.put_dinode_self]
          rw [now, inode]
        · rw [Volume.put_dinode_of_ne _ _ own, Volume.put_dinode_of_ne _ _ (by rwa [same]),
            attaches.dinode]
      have type : ((before.put ip).dinode inum).type ≠ 0 := by
        rw [view]
        exact taken
      have size : bn * bsize < ((before.put ip).dinode inum).size := by
        rw [view]
        exact below
      exact ⟨type, cellOf_le inside, rfl, held.whole inum type bn inside size⟩
    have now := owners.mpr (.inl before_)
    rw [now.held]
    exact now.present

theorem Extends.consistent (extends_ : Extends before ip after attached)
    (held : (before.put ip).Consistent) (allocated : ip.type ≠ 0) :
    (after.put attached).Consistent := by
  induction extends_ with
  | refl => exact held
  | attach prior step ih =>
    have type := prior.inode
    exact step.consistent ih (by rw [type]; exact allocated)

theorem Stores.pointer_put {off : Nat} {chunk : List UInt8} (stores : Stores before ip off chunk after)
    (held : (before.put ip).Consistent) (allocated : ip.type ≠ 0) (inum place : Nat)
    (taken : ((before.put ip).dinode inum).type ≠ 0) :
    after.pointer ((before.put ip).dinode inum).addrs place =
      before.pointer ((before.put ip).dinode inum).addrs place := by
  have top : ndirect ≤ maxfile := by decide
  have low := Nat.le_refl ndirect
  apply Volume.pointer_congr
  intro present
  rw [stores.block]
  refine Function.update_of_ne (fun same => ?_) _ _
  have theirs : (before.put ip).Owns inum ndirect
      (((before.put ip).dinode inum).addrs ndirect) :=
    ⟨taken, top, Volume.pointer_addrs _ _ low, present⟩
  have ours : (before.put ip).Owns ip.inum (cellOf (off / bsize))
      (((before.put ip).dinode inum).addrs ndirect) := by
    refine ⟨?_, cellOf_le stores.inside, ?_, present⟩ <;> rw [Volume.put_dinode_self]
    · exact allocated
    · exact same.symm
  exact cellOf_ne_ndirect _ (held.unique ours theirs).2

theorem Stores.consistent {off : Nat} {chunk : List UInt8}
    (stores : Stores before ip off chunk after) (held : (before.put ip).Consistent)
    (allocated : ip.type ≠ 0) : (after.put ip).Consistent := by
  have dinode : (after.put ip).dinode = (before.put ip).dinode := by
    simp only [Volume.put, stores.dinode]
  have pointers : ∀ inum place, ((before.put ip).dinode inum).type ≠ 0 →
      (after.put ip).pointer ((after.put ip).dinode inum).addrs place =
        (before.put ip).pointer ((before.put ip).dinode inum).addrs place := by
    intro inum place taken
    rw [dinode]
    exact stores.pointer_put held allocated inum place taken
  have owners : ∀ {inum place b}, (after.put ip).Owns inum place b ↔
      (before.put ip).Owns inum place b := by
    intro inum place b
    constructor
    · rintro ⟨taken, inside, same, present⟩
      rw [dinode] at taken
      exact ⟨taken, inside, by rw [← same, pointers inum place taken], present⟩
    · rintro ⟨taken, inside, same, present⟩
      exact ⟨by rwa [dinode], inside, by rw [pointers inum place taken, same], present⟩
  refine held.of_owners stores.sb stores.used owners ?_
  intro inum taken bn inside below
  rw [dinode] at taken below
  rw [pointers inum _ taken]
  exact held.whole inum taken bn inside below

/-- A write in progress keeps the volume consistent, up to the inode on disk. -/
theorem Writes.consistent {start : Nat} {bytes : List UInt8}
    (writes : Writes before ip start bytes after attached) (held : (before.put ip).Consistent)
    (allocated : ip.type ≠ 0) : (after.put attached).Consistent := by
  induction writes with
  | refl => exact held
  | extend prior further ih =>
    have type := prior.inode
    exact further.consistent ih (by rw [type]; exact allocated)
  | store prior stores ih =>
    have type := prior.inode
    exact stores.consistent ih (by rw [type]; exact allocated)

theorem Extends.present (extends_ : Extends before ip after attached) {place : Nat}
    (inside : place ≤ maxfile) (there : before.pointer ip.addrs place ≠ 0) :
    after.pointer attached.addrs place ≠ 0 := by
  induction extends_ with
  | refl => exact there
  | attach _ step ih =>
    rw [step.pointer place inside]
    split_ifs
    · exact step.nonzero
    · exact ih

/-- The blocks that a write has gone through are there. -/
theorem Writes.present {start : Nat} {bytes : List UInt8}
    (writes : Writes before ip start bytes after attached) (tidy : before.Tidy ip.addrs)
    {bn : Nat} (inside : bn < maxfile) (there : before.pointer ip.addrs (cellOf bn) ≠ 0 ∨
      start ≤ bn * bsize ∧ bn * bsize < start + bytes.length) :
    after.pointer attached.addrs (cellOf bn) ≠ 0 := by
  induction writes with
  | refl =>
    rcases there with there | ⟨low, high⟩
    · exact there
    · rw [List.length_nil] at high
      omega
  | extend prior further ih => exact further.present (cellOf_le inside) (ih there)
  | @store bytes chunk middle after grown prior stores ih =>
    rw [stores.pointer (prior.tidy tidy)]
    by_cases old : before.pointer ip.addrs (cellOf bn) ≠ 0 ∨
        start ≤ bn * bsize ∧ bn * bsize < start + bytes.length
    · exact ih old
    · -- the block is the one that the chunk goes to
      have fits := stores.fits
      have block : (start + bytes.length) / bsize = bn := by
        rw [List.length_append] at there
        rw [bsize_eq] at there old fits ⊢
        omega
      rw [← block]
      exact stores.present

end Growing

/-! ## Changing the fields of an inode -/

variable {volume : Volume}

/-- An inode may take on other fields, as long as it keeps its pointers and no block
is missing below its size. -/
theorem Volume.Consistent.update {ip changed : Inode}
    (held : (volume.put ip).Consistent) (number : changed.inum = ip.inum)
    (allocated : ip.type ≠ 0) (addrs : changed.addrs = ip.addrs)
    (whole : changed.type ≠ 0 → ∀ bn < maxfile, bn * bsize < changed.size →
      volume.pointer ip.addrs (cellOf bn) ≠ 0) (type : changed.type ≠ 0) :
    (volume.put changed).Consistent := by
  have other : ∀ inum, inum ≠ ip.inum →
      (volume.put changed).dinode inum = (volume.put ip).dinode inum := by
    intro inum different
    rw [Volume.put_dinode_of_ne _ _ different, Volume.put_dinode_of_ne _ _ (by rwa [number])]
  have own : (volume.put changed).dinode ip.inum = changed.toDinode := by
    rw [← number, Volume.put_dinode_self]
  have owners : ∀ {inum place b}, (volume.put changed).Owns inum place b ↔
      (volume.put ip).Owns inum place b := by
    intro inum place b
    by_cases same : inum = ip.inum
    · subst same
      constructor
      · rintro ⟨-, inside, held, present⟩
        rw [own, addrs] at held
        refine ⟨?_, inside, ?_, present⟩ <;> rw [Volume.put_dinode_self]
        · exact allocated
        · exact held
      · rintro ⟨-, inside, held, present⟩
        rw [Volume.put_dinode_self] at held
        refine ⟨by rw [own]; exact type, inside, ?_, present⟩
        rw [own, addrs]
        exact held
    · constructor
      · rintro ⟨taken, inside, held, present⟩
        rw [other inum same] at taken held
        exact ⟨taken, inside, held, present⟩
      · rintro ⟨taken, inside, held, present⟩
        rw [← other inum same] at taken held
        exact ⟨taken, inside, held, present⟩
  refine held.of_owners rfl rfl owners ?_
  intro inum taken bn inside below
  by_cases same : inum = ip.inum
  · subst same
    rw [own] at taken below ⊢
    rw [addrs]
    exact whole taken bn inside below
  · rw [other inum same] at taken below ⊢
    exact held.whole inum taken bn inside below

/-! ## Allocating an inode -/

theorem Volume.Consistent.allocate (held : volume.Consistent) {inum type : Nat}
    (free : (volume.dinode inum).type = 0) : Volume.Consistent
      { volume with dinode := Function.update volume.dinode inum (freshDinode type) } := by
  obtain ⟨after, same⟩ : ∃ after : Volume, after =
      { volume with dinode := Function.update volume.dinode inum (freshDinode type) } := ⟨_, rfl⟩
  have own : after.dinode inum = freshDinode type := by
    rw [same]
    exact Function.update_self _ _ _
  have other : ∀ number, number ≠ inum → after.dinode number = volume.dinode number := by
    intro number different
    rw [same]
    exact Function.update_of_ne different _ _
  have pointers : ∀ addrs place, after.pointer addrs place = volume.pointer addrs place :=
    fun addrs place => Volume.pointer_congr fun _ => by rw [same]
  have owners : ∀ {number place b}, after.Owns number place b ↔ volume.Owns number place b := by
    intro number place b
    by_cases equal : number = inum
    · subst equal
      constructor
      · rintro ⟨-, -, held, present⟩
        rw [own] at held
        refine absurd ?_ present
        simpa [freshDinode, Volume.pointer] using held.symm
      · exact fun owns => absurd free owns.allocated
    · constructor
      · rintro ⟨taken, inside, held, present⟩
        rw [other number equal] at taken held
        exact ⟨taken, inside, by rw [← held, pointers], present⟩
      · rintro ⟨taken, inside, held, present⟩
        refine ⟨by rwa [other number equal], inside, ?_, present⟩
        rw [other number equal, pointers, held]
  rw [← same]
  have sb : after.sb = volume.sb := by rw [same]
  have used : after.used = volume.used := by rw [same]
  refine held.of_owners sb used owners ?_
  intro number taken bn inside below
  by_cases equal : number = inum
  · subst equal
    rw [own] at below
    exact absurd below (Nat.not_lt_zero _)
  · rw [other number equal] at taken below ⊢
    rw [pointers]
    exact held.whole number taken bn inside below

/-! ## Freeing the blocks of an inode -/

/-- The panics other than 'freeing free block'. -/
def OtherPanic {State : Type} (panic : Panic) (_ : State) : Prop :=
  panic ≠ .freeingFreeBlock

theorem otherPanic {State : Type} {panic : Panic} {state : State}
    (other : panic ≠ .freeingFreeBlock) : OtherPanic panic state :=
  other

theorem Exhausted.other {panic : Panic} (exhausted : Exhausted panic volume) :
    OtherPanic panic volume := by
  unfold OtherPanic
  cases exhausted <;> decide

/-- Nothing but marks of blocks, all of them in use before, has gone. -/
structure Frees (before : Volume) (gone : Nat → Prop) (after : Volume) : Prop where
  used : ∀ b, after.used b = true ↔ before.used b = true ∧ ¬gone b
  sb : after.sb = before.sb
  block : after.block = before.block
  dinode : after.dinode = before.dinode

theorem Frees.none (volume : Volume) : Frees volume (fun _ => False) volume :=
  ⟨fun _ => by simp, rfl, rfl, rfl⟩

theorem Frees.trans {middle : Volume} {first second both : Nat → Prop}
    (one : Frees before first middle) (two : Frees middle second after)
    (same : ∀ b, both b ↔ first b ∨ second b) : Frees before both after := by
  refine ⟨fun b => ?_, two.sb.trans one.sb, two.block.trans one.block,
    two.dinode.trans one.dinode⟩
  rw [two.used, one.used, same]
  tauto

theorem bfree_ensures (marked : volume.used b = true) :
    Ensures (bfree b) volume (fun _ after => Frees volume (fun other => other = b) after)
      OtherPanic := by
  unfold bfree
  refine .get ?_
  rw [if_pos marked]
  refine .set ((logWrite_ensures _ _).mono ?_ fun _ _ => Exhausted.other)
  rintro ⟨⟩ after same
  rw [same]
  refine ⟨fun other => ?_, rfl, rfl, rfl⟩
  dsimp only
  rw [Function.update_apply]
  split_ifs with equal <;> simp [equal]

/-- Marked blocks that differ are freed one after the other. -/
theorem bfreeAll_ensures {bs : List Nat} (marked : ∀ b ∈ bs, b ≠ 0 → volume.used b = true)
    (distinct : bs.Pairwise fun first second => first ≠ 0 → first ≠ second) :
    Ensures (bfreeAll bs) volume (fun _ after => Frees volume (fun b => b ≠ 0 ∧ b ∈ bs) after)
      OtherPanic := by
  induction bs generalizing volume with
  | nil =>
    have none : (fun b => b ≠ 0 ∧ b ∈ ([] : List Nat)) = fun _ => False := by
      funext b
      simp
    rw [none]
    exact .pure (.none volume)
  | cons b rest ih =>
    obtain ⟨apart, distinct⟩ := List.pairwise_cons.mp distinct
    unfold bfreeAll
    split
    next vacant =>
      have behind := @ih volume
        (fun other member => marked other (List.mem_cons_of_mem _ member)) distinct
      refine behind.mono ?_ fun _ _ => id
      rintro ⟨⟩ after frees
      refine (Frees.none volume).trans frees fun other => ?_
      rw [mem_cons]
      have zero : ¬(other ≠ 0 ∧ other = b) := fun both => both.1 (both.2.trans vacant)
      tauto
    next present =>
      refine .bind (bfree_ensures (marked b List.mem_cons_self present)) ?_
      rintro ⟨⟩ middle freed
      have remaining : ∀ other ∈ rest, other ≠ 0 → middle.used other = true := by
        intro other member nonzero
        exact (freed.used other).mpr ⟨marked other (List.mem_cons_of_mem _ member) nonzero,
          (apart other member present).symm⟩
      refine (ih remaining distinct).mono ?_ fun _ _ => id
      rintro ⟨⟩ after frees
      refine freed.trans frees fun other => ?_
      rw [mem_cons]
      have nonzero : other = b → other ≠ 0 := fun equal => by rwa [equal]
      tauto

/-- An inode whose blocks have been unmarked owns nothing any more. -/
theorem Volume.Consistent.vacate (held : volume.Consistent)
    (ip emptied : Inode) (addrs : emptied.addrs = fun _ => 0) (size : emptied.size = 0)
    (sb : after.sb = volume.sb) (block : after.block = volume.block)
    (dinode : after.dinode = Function.update volume.dinode ip.inum emptied.toDinode)
    (used : ∀ b, after.used b = true ↔
      volume.used b = true ∧ ¬∃ cell, volume.Owns ip.inum cell b) : after.Consistent := by
  have own : after.dinode ip.inum = emptied.toDinode := by rw [dinode, Function.update_self]
  have other : ∀ inum, inum ≠ ip.inum → after.dinode inum = volume.dinode inum := by
    intro inum different
    rw [dinode, Function.update_of_ne different]
  have pointers : ∀ addrs place, after.pointer addrs place = volume.pointer addrs place :=
    fun addrs place => Volume.pointer_congr fun _ => by rw [block]
  have owners : ∀ {inum place b}, after.Owns inum place b ↔
      volume.Owns inum place b ∧ inum ≠ ip.inum := by
    intro inum place b
    by_cases same : inum = ip.inum
    · subst same
      refine iff_of_false ?_ fun owns => owns.2 rfl
      rintro ⟨-, -, held, present⟩
      rw [own, addrs] at held
      refine present ?_
      simpa [Volume.pointer] using held.symm
    · constructor
      · rintro ⟨taken, inside, held, present⟩
        rw [other inum same] at taken held
        exact ⟨⟨taken, inside, by rw [← held, pointers], present⟩, same⟩
      · rintro ⟨⟨taken, inside, held, present⟩, -⟩
        refine ⟨by rwa [other inum same], inside, ?_, present⟩
        rw [other inum same, pointers, held]
  refine ⟨by rw [sb]; exact held.small, ?_, ?_, ?_, ?_⟩
  · intro b
    rw [used, held.marked, sb]
    constructor
    · rintro ⟨metadata | ⟨inum, cell, owns⟩, kept⟩
      · exact .inl metadata
      · refine .inr ⟨inum, cell, owners.mpr ⟨owns, ?_⟩⟩
        rintro rfl
        exact kept ⟨cell, owns⟩
    · rintro (metadata | ⟨inum, cell, owns⟩)
      · refine ⟨.inl metadata, ?_⟩
        rintro ⟨cell, owns⟩
        exact held.apart owns metadata
      · obtain ⟨before, different⟩ := owners.mp owns
        refine ⟨.inr ⟨inum, cell, before⟩, ?_⟩
        rintro ⟨place, ours⟩
        exact different (held.unique before ours).1
  · intro first second left right b one two
    exact held.unique (owners.mp one).1 (owners.mp two).1
  · intro inum place b owns
    rw [sb]
    exact held.apart (owners.mp owns).1
  · intro inum taken bn inside below
    by_cases same : inum = ip.inum
    · subst same
      rw [own, size] at below
      exact absurd below (Nat.not_lt_zero _)
    · rw [other inum same] at taken below ⊢
      rw [pointers]
      exact held.whole inum taken bn inside below

/-- The pointers of a tidy inode in a stretch of cells differ. -/
theorem Volume.Tidy.pairwise {addrs : Nat → Nat} (tidy : volume.Tidy addrs)
    {start count : Nat} (inside : start + count ≤ maxfile + 1) :
    ((List.range count).map fun index => volume.pointer addrs (start + index)).Pairwise
      fun first second => first ≠ 0 → first ≠ second := by
  rw [List.pairwise_map]
  refine List.pairwise_lt_range.imp_of_mem ?_
  intro first second low high less present same
  have one := mem_range.mp low
  have two := mem_range.mp high
  have equal := tidy.distinct (start + first) (by omega) (start + second) (by omega) present same
  omega

theorem mem_pointers {addrs : Nat → Nat} {start count : Nat} :
    b ∈ (List.range count).map (fun index => volume.pointer addrs (start + index)) ↔
      ∃ cell, start ≤ cell ∧ cell < start + count ∧ volume.pointer addrs cell = b := by
  rw [List.mem_map]
  constructor
  · rintro ⟨index, low, rfl⟩
    have inside := mem_range.mp low
    exact ⟨start + index, by omega, by omega, rfl⟩
  · rintro ⟨cell, low, high, rfl⟩
    exact ⟨cell - start, mem_range.mpr (by omega), by rw [Nat.add_sub_cancel' low]⟩

/-- `itrunc` frees what the cells of its inode hold, and never a free block. -/
theorem itrunc_ensures {ip : Inode} (held : volume.Consistent)
    (synced : volume.dinode ip.inum = ip.toDinode) (allocated : ip.type ≠ 0) :
    Ensures (itrunc ip) volume (fun emptied after => emptied = ip.truncated ∧ after.Consistent ∧
        after.dinode = Function.update volume.dinode ip.inum ip.truncated.toDinode) OtherPanic := by
  have first := ndirect_eq
  have second := nindirect_eq
  have limit := maxfile_eq
  have low := Nat.le_refl ndirect
  have type : (volume.dinode ip.inum).type ≠ 0 := by rwa [synced]
  have tidy : volume.Tidy ip.addrs := by
    have own := held.tidy type
    rwa [synced] at own
  have owners : ∀ b, (∃ cell, volume.Owns ip.inum cell b) ↔
      b ≠ 0 ∧ ∃ cell ≤ maxfile, volume.pointer ip.addrs cell = b := by
    intro b
    constructor
    · rintro ⟨cell, -, inside, same, present⟩
      rw [synced] at same
      exact ⟨present, cell, inside, same⟩
    · rintro ⟨present, cell, inside, same⟩
      exact ⟨cell, type, inside, by rwa [synced], present⟩
  have finish : ∀ {middle : Volume}, Frees volume (fun b => ∃ cell, volume.Owns ip.inum cell b)
      middle → Ensures (do iupdate ip.truncated; pure ip.truncated) middle
      (fun emptied after => emptied = ip.truncated ∧ after.Consistent ∧
        after.dinode = Function.update volume.dinode ip.inum ip.truncated.toDinode)
      OtherPanic := by
    intro middle frees
    refine .bind ((iupdate_ensures _ _).mono (fun _ _ => id) fun _ _ => Exhausted.other) ?_
    rintro ⟨⟩ after same
    have dinode : after.dinode =
        Function.update volume.dinode ip.inum ip.truncated.toDinode := by
      rw [same, ← frees.dinode]
      rfl
    refine .pure ⟨rfl, held.vacate ip ip.truncated rfl rfl ?_ ?_ dinode ?_, dinode⟩
    · rw [same]
      exact frees.sb
    · rw [same]
      exact frees.block
    · intro b
      rw [same]
      exact frees.used b
  -- the direct pointers are the cells from 0 on, the slots those behind `NDIRECT`
  have direct : (List.range ndirect).map ip.addrs =
      (List.range ndirect).map fun index => volume.pointer ip.addrs (0 + index) := by
    apply List.map_congr_left
    intro index member
    rw [Nat.zero_add, Volume.pointer_addrs _ _ (Nat.le_of_lt (mem_range.mp member))]
  unfold itrunc
  rw [direct]
  refine .bind (bfreeAll_ensures ?_ (tidy.pairwise (by omega))) ?_
  · intro b member present
    obtain ⟨cell, -, inside, rfl⟩ := mem_pointers.mp member
    exact tidy.used cell (by omega) present
  rintro ⟨⟩ middle gone
  refine .get ?_
  split
  next absent =>
    refine finish ((Frees.none volume).trans gone fun b => ?_)
    rw [owners, mem_pointers]
    constructor
    · rintro ⟨present, cell, inside, same⟩
      refine .inr ⟨present, cell, Nat.zero_le _, ?_, same⟩
      by_contra high
      rcases Nat.lt_or_ge ndirect cell with behind | at_
      · rw [Volume.pointer_high behind, if_pos absent] at same
        exact present same.symm
      · have equal : cell = ndirect := by omega
        rw [equal, Volume.pointer_addrs _ _ low, absent] at same
        exact present same.symm
    · rintro (nothing | ⟨present, cell, -, inside, same⟩)
      · exact nothing.elim
      · exact ⟨present, cell, by omega, same⟩
  next present =>
    have slots : (List.range nindirect).map (entry (middle.block (ip.addrs ndirect))) =
        (List.range nindirect).map fun index =>
          volume.pointer ip.addrs (ndirect + 1 + index) := by
      apply List.map_congr_left
      intro index _
      rw [gone.block, Nat.add_comm, Volume.pointer_slot present]
    rw [slots]
    refine .bind (bfreeAll_ensures ?_ (tidy.pairwise (by omega))) ?_
    · intro b member nonzero
      obtain ⟨cell, above, inside, rfl⟩ := mem_pointers.mp member
      refine (gone.used _).mpr ⟨tidy.used cell (by omega) nonzero, ?_⟩
      rintro ⟨-, before⟩
      obtain ⟨other, -, below, same⟩ := mem_pointers.mp before
      have equal := tidy.distinct cell (by omega) other (by omega) nonzero same.symm
      omega
    rintro ⟨⟩ later freed
    have held_ : volume.pointer ip.addrs ndirect = ip.addrs ndirect :=
      Volume.pointer_addrs _ _ low
    have apart : ∀ cell ≤ maxfile, cell ≠ ndirect →
        volume.pointer ip.addrs cell ≠ ip.addrs ndirect := by
      intro cell inside different same
      have nonzero : volume.pointer ip.addrs ndirect ≠ 0 := by rwa [held_]
      have equal := tidy.distinct ndirect (by omega) cell inside nonzero (by rw [held_, same])
      exact different equal.symm
    have marked : later.used (ip.addrs ndirect) = true := by
      have taken := tidy.used ndirect (by omega) (by rwa [held_])
      rw [held_] at taken
      refine (freed.used _).mpr ⟨(gone.used _).mpr ⟨taken, ?_⟩, ?_⟩
      · rintro ⟨-, member⟩
        obtain ⟨cell, -, inside, same⟩ := mem_pointers.mp member
        exact apart cell (by omega) (by omega) same
      · rintro ⟨-, member⟩
        obtain ⟨cell, above, inside, same⟩ := mem_pointers.mp member
        exact apart cell (by omega) (by omega) same
    refine .bind (bfree_ensures marked) ?_
    rintro ⟨⟩ last indirect
    have both := (gone.trans freed fun _ => Iff.rfl).trans indirect fun _ => Iff.rfl
    refine finish ((Frees.none volume).trans both fun b => ?_)
    rw [owners, mem_pointers, mem_pointers]
    constructor
    · rintro ⟨nonzero, cell, inside, same⟩
      right
      rcases Nat.lt_trichotomy cell ndirect with below | equal | above
      · exact .inl (.inl ⟨nonzero, cell, Nat.zero_le _, by omega, same⟩)
      · rw [equal, held_] at same
        exact .inr same.symm
      · exact .inl (.inr ⟨nonzero, cell, by omega, by omega, same⟩)
    · rintro (nothing | (⟨nonzero, cell, -, inside, same⟩ | ⟨nonzero, cell, -, inside, same⟩) | rfl)
      · exact nothing.elim
      · exact ⟨nonzero, cell, by omega, same⟩
      · exact ⟨nonzero, cell, by omega, same⟩
      · exact ⟨present, ndirect, by omega, held_⟩

end Ev6.FileSystem
