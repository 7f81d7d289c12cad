import Ev6.FileSystem.DirectoryEntries

/-!
# Operations on a directory

`dirlookup`, `dirlink` and the part of `sys_unlink` behind the search for the parent, on a
locked directory whose bytes are known. Each of them is one operation on the table of slots:
`dirlookup_finds`, `dirlink_links` and `unlinkAt_unlinks`. What they do to other inodes
leaves the bytes of the directory alone.
-/

namespace Ev6.FileSystem

open List (mem_cons_of_mem mem_cons_self mem_singleton)
open Support

/-- `sys_unlink` behind `nameiparent` and `ilock`. -/
def unlinkAt (dp : Nat) (name : List UInt8) : SysM Int := do
  if cname name = [46] ∨ cname name = [46, 46] then do
    iput dp
    pure (-1)
  else do
    match ← dirlookup dp name with
    | none => do
        iput dp
        pure (-1)
    | some (ip, off) => do
        ilock ip
        let copy ← current ip
        if shortLt1 copy.nlink then
          throw .unlinkNlink
        else do
          let removable ← isRemovable copy.type ip
          if removable then
            removeEntry dp ip off
          else do
            iput ip
            iput dp
            pure (-1)

theorem sysUnlink_eq (path : Path) :
    sysUnlink path = (do
      match ← namex path true with
      | none => pure (-1)
      | some (dp, name) => do
          ilock dp
          unlinkAt dp name) := rfl

/-! ## What leaves a directory alone -/

/-- The bytes of the directory `dp` are as before: its copy differs at most in its link
count and device numbers, and no block has changed. -/
structure Untouched (dp : Nat) (before after : System) : Prop where
  type : (after.icache dp).copy.type = (before.icache dp).copy.type
  size : (after.icache dp).copy.size = (before.icache dp).copy.size
  addrs : (after.icache dp).copy.addrs = (before.icache dp).copy.addrs
  block : after.volume.block = before.volume.block

section Frames

variable {before middle after system : System} {dp inum : Nat} {file : List UInt8}
  {held locked : List Nat}

theorem Untouched.refl (dp : Nat) (system : System) : Untouched dp system system :=
  ⟨rfl, rfl, rfl, rfl⟩

theorem Untouched.trans (first : Untouched dp before middle) (second : Untouched dp middle after) :
    Untouched dp before after :=
  ⟨second.type.trans first.type, second.size.trans first.size, second.addrs.trans first.addrs,
    second.block.trans first.block⟩

theorem Untouched.of_copy (copy : (after.icache dp).copy = (before.icache dp).copy)
    (block : after.volume.block = before.volume.block) : Untouched dp before after :=
  ⟨by rw [copy], by rw [copy], by rw [copy], block⟩

/-- A directory that is left alone keeps its bytes. -/
theorem Listing.untouched (listing : Listing before dp file) (same : Untouched dp before after) :
    Listing after dp file := by
  have pointers : ∀ cell, after.volume.pointer (after.inode dp).addrs cell =
      before.volume.pointer (before.inode dp).addrs cell := by
    intro cell
    have addrs : (after.inode dp).addrs = (before.inode dp).addrs := same.addrs
    rw [addrs]
    exact Volume.pointer_congr fun _ => by rw [same.block]
  have content : ∀ index, after.volume.content (after.inode dp).addrs index =
      before.volume.content (before.inode dp).addrs index := by
    intro index
    simp only [Volume.content, pointers, same.block]
  have size : (after.inode dp).size = (before.inode dp).size := same.size
  refine ⟨same.type.trans listing.type, ?_, by rw [size]; exact listing.fits, listing.aligned⟩
  rw [← listing.bytes]
  unfold Volume.file
  rw [size]
  exact extract_congr fun index _ => content _

theorem System.setEntry_copy {entry : Cached} (same : entry.copy = (system.icache inum).copy)
    (other : Nat) :
    ((system.setEntry inum entry).icache other).copy = (system.icache other).copy := by
  by_cases here : other = inum
  · subst here
    rw [System.setEntry_icache_self, same]
  · rw [System.setEntry_icache_of_ne _ _ here]

/-- `iget` changes no copy, and an inode that it has found is not the last reference to a
valid copy. -/
theorem iget_untouched (dp inum : Nat) (system : System) :
    Ensures (iget inum) system
      (fun _ after => Untouched dp system after ∧ after.volume = system.volume ∧
        ¬((after.icache inum).ref = 1 ∧ (after.icache inum).valid = true)) (fun _ _ => False) := by
  refine .modify_last ?_
  dsimp only
  split
  next taken =>
    refine ⟨.of_copy (System.setEntry_copy (by rfl) dp) rfl, rfl, ?_⟩
    rw [System.setEntry_icache_self]
    rintro ⟨single, -⟩
    dsimp only at single
    omega
  next free =>
    refine ⟨.of_copy (System.setEntry_copy (by rfl) dp) rfl, rfl, ?_⟩
    rw [System.setEntry_icache_self]
    rintro ⟨-, valid⟩
    exact absurd valid Bool.false_ne_true

theorem dropRef_untouched (dp inum : Nat) (system : System) :
    Ensures (dropRef inum) system
      (fun _ after => Untouched dp system after ∧ after.volume = system.volume)
      (fun _ _ => False) :=
  .modify_last ⟨.of_copy (System.setEntry_copy (by rfl) dp) rfl, rfl⟩

/-- `iput` of a reference that is not the last one to a valid copy changes the count only. -/
theorem iput_counts (dp : Nat)
    (spare : ¬((system.icache inum).ref = 1 ∧ (system.icache inum).valid = true)) :
    Ensures (iput inum) system
      (fun _ after => Untouched dp system after ∧ after.volume = system.volume)
      (fun _ _ => False) := by
  unfold iput
  refine .get ?_
  dsimp only
  rw [if_neg fun all => spare ⟨all.1, all.2.1⟩]
  exact dropRef_untouched dp inum system

theorem bfree_block (b : Nat) (volume : Volume) :
    Ensures (bfree b) volume (fun _ after => after.block = volume.block) (fun _ _ => True) := by
  unfold bfree
  refine .get ?_
  split
  next =>
    refine .set ((logWrite_ensures _ _).mono ?_ fun _ _ _ => True.intro)
    rintro ⟨⟩ after same
    rw [same]
  next => exact .throw True.intro

theorem bfreeAll_block (bs : List Nat) (volume : Volume) :
    Ensures (bfreeAll bs) volume (fun _ after => after.block = volume.block)
      (fun _ _ => True) := by
  induction bs generalizing volume with
  | nil => exact .pure rfl
  | cons b rest ih =>
    unfold bfreeAll
    split
    next => exact ih volume
    next =>
      refine .bind (bfree_block b volume) ?_
      rintro ⟨⟩ middle first
      refine (ih middle).mono ?_ fun _ _ => id
      rintro ⟨⟩ after second
      rw [second, first]

theorem iupdate_block (ip : Inode) (volume : Volume) :
    Ensures (iupdate ip) volume (fun _ after => after.block = volume.block)
      (fun _ _ => True) := by
  refine (iupdate_ensures ip volume).mono ?_ fun _ _ _ => True.intro
  rintro ⟨⟩ after same
  rw [same]

theorem itrunc_block (ip : Inode) (volume : Volume) :
    Ensures (itrunc ip) volume
      (fun emptied after => emptied = ip.truncated ∧ after.block = volume.block)
      (fun _ _ => True) := by
  have update : ∀ middle : Volume, middle.block = volume.block →
      Ensures (do iupdate ip.truncated; pure ip.truncated : FsM Inode) middle
        (fun emptied after => emptied = ip.truncated ∧ after.block = volume.block)
        (fun _ _ => True) := by
    intro middle before
    refine .bind (iupdate_block _ _) ?_
    rintro ⟨⟩ after same
    exact .pure ⟨rfl, same.trans before⟩
  unfold itrunc
  refine .bind (bfreeAll_block _ volume) ?_
  rintro ⟨⟩ first one
  refine .get ?_
  split
  next => exact update first one
  next =>
    refine .bind (bfreeAll_block _ first) ?_
    rintro ⟨⟩ second two
    refine .bind (bfree_block _ second) ?_
    rintro ⟨⟩ third three
    exact update third (three.trans (two.trans one))

/-- Freeing another inode leaves the directory alone. -/
theorem freeInode_untouched (other : dp ≠ inum) (system : System) :
    Ensures (freeInode inum) system (fun _ after => Untouched dp system after)
      (fun _ _ => True) := by
  unfold freeInode
  refine current_bind (.bind ((onVolume_outcome (itrunc_block _ _)).mono (fun _ _ => id)
    fun _ _ _ => True.intro) ?_)
  rintro emptied middle ⟨volume, ⟨rfl, first⟩, rfl⟩
  refine .modify (.bind ((onVolume_outcome (iupdate_block _ _)).mono (fun _ _ => id)
    fun _ _ _ => True.intro) ?_)
  rintro ⟨⟩ last ⟨updated, second, rfl⟩
  refine .modify_last (.of_copy ?_ (second.trans first))
  rw [System.setEntry_icache_of_ne _ _ other]
  exact congrArg Cached.copy (System.setEntry_icache_of_ne _ _ other)

/-- `iput` leaves the directory alone, unless it frees the directory itself. -/
theorem iput_untouched (spare : inum = dp → (system.icache dp).ref ≠ 1) :
    Ensures (iput inum) system (fun _ after => Untouched dp system after) (fun _ _ => True) := by
  unfold iput
  refine .get ?_
  dsimp only
  split
  next last =>
    have other : dp ≠ inum := by
      rintro rfl
      exact spare rfl last.1
    refine .bind (freeInode_untouched other system) ?_
    rintro ⟨⟩ middle first
    refine (dropRef_untouched dp inum middle).mono ?_ fun _ _ _ => True.intro
    rintro ⟨⟩ after ⟨second, -⟩
    exact first.trans second
  next =>
    refine (dropRef_untouched dp inum system).mono ?_ fun _ _ _ => True.intro
    rintro ⟨⟩ after ⟨same, -⟩
    exact same

theorem ilock_untouched (valid : (system.icache dp).valid = true) :
    Ensures (ilock inum) system (fun _ after => Untouched dp system after) (fun _ _ => True) := by
  unfold ilock
  refine .get ?_
  dsimp only
  split
  next => exact .throw True.intro
  next =>
    split
    next => exact .pure (.refl dp system)
    next stale =>
      have other : dp ≠ inum := by
        rintro rfl
        exact stale valid
      refine .set ?_
      split
      next => exact .throw True.intro
      next =>
        refine .pure (.of_copy ?_ rfl)
        rw [System.setEntry_icache_of_ne _ _ other]

/-- Assignments to other fields leave the bytes of the directory alone. -/
theorem updateInode_untouched (dp inum : Nat) (system : System) {change : Dinode → Dinode}
    (keeps : ∀ copy, (change copy).type = copy.type ∧ (change copy).size = copy.size ∧
      (change copy).addrs = copy.addrs) :
    Ensures (updateInode inum change) system (fun _ after => Untouched dp system after)
      (fun _ _ => True) := by
  unfold updateInode
  refine current_bind (.modify ((onVolume_outcome (iupdate_block _ _)).mono ?_
    fun _ _ _ => True.intro))
  rintro ⟨⟩ last ⟨volume, same, rfl⟩
  obtain ⟨type, size, addrs⟩ := keeps (system.icache inum).copy
  by_cases here : dp = inum
  · subst here
    refine ⟨?_, ?_, ?_, same⟩
    · exact (congrArg (fun entry : Cached => entry.copy.type)
        (System.setEntry_icache_self _ _ _)).trans type
    · exact (congrArg (fun entry : Cached => entry.copy.size)
        (System.setEntry_icache_self _ _ _)).trans size
    · exact (congrArg (fun entry : Cached => entry.copy.addrs)
        (System.setEntry_icache_self _ _ _)).trans addrs
  · exact .of_copy (congrArg Cached.copy (System.setEntry_icache_of_ne _ _ here)) same

end Frames

/-! ## `dirlookup` -/

section Lookup

variable {system : System} {held locked : List Nat} {dp : Nat} {file : List UInt8}

/-- The table of a directory at the entry that the loop has stopped at. -/
theorem entries_holds {file : List UInt8} {k inum : Nat} {name : List UInt8} :
    (entries file).Holds k name inum ↔ k < file.length / direntSize ∧
      direntInum (direntAt file k) ≠ 0 ∧ direntName (direntAt file k) = name ∧
      direntInum (direntAt file k) = inum := by
  rw [SlotTable.Holds, entries_getElem?]
  by_cases inside : k < file.length / direntSize
  · rw [if_pos inside]
    by_cases free : direntInum (direntAt file k) = 0
    · simp [entryOf, free]
    · simp [entryOf, free, inside]
  · simp [inside]

/-- What `dirlookup` finds. -/
inductive Found (file : List UInt8) (name : List UInt8) : Option (Nat × Nat) → Prop where
  | entry {k inum : Nat} (holds : (entries file).Holds k (cname name) inum) :
      Found file name (some (inum, k * direntSize))
  | none (absent : ∀ k inum, ¬(entries file).Holds k (cname name) inum) : Found file name none

/-- The reference that a search has taken is not the last one to a valid copy. -/
def Spare (result : Option (Nat × Nat)) (system : System) : Prop :=
  ∀ inum off, result = some (inum, off) →
    ¬((system.icache inum).ref = 1 ∧ (system.icache inum).valid = true)

/-- `dirlookup` finds the slot that holds the name, and takes a reference to its inode. -/
theorem dirlookup_finds (working : system.Working held locked) (member : dp ∈ locked)
    (listing : Listing system dp file) (name : List UInt8) :
    Ensures (dirlookup dp name) system
      (fun result after => Found file name result ∧ System.Obtained held locked result after ∧
        Untouched dp system after ∧ after.volume = system.volume ∧ Spare result after)
      (fun _ _ => False) := by
  have size := listing.size
  unfold dirlookup
  refine current_bind ?_
  rw [if_neg (not_not.mpr listing.type), size]
  refine .bind (dirscan_finds working member listing .dirlookupRead _ (Nat.zero_le _)) ?_
  rintro r after ⟨rfl, ends⟩
  cases ends with
  | found start inside stops before =>
    rename_i k
    simp only [Bool.and_eq_true, decide_eq_true_eq] at stops
    have holds : (entries file).Holds k (cname name) (direntInum (direntAt file k)) :=
      entries_holds.mpr ⟨inside, stops.1, stops.2.symm, rfl⟩
    refine .bind (((iget_ensures working).and (iget_untouched dp _ after)).mono
      (fun _ _ => id) fun _ _ => And.right) ?_
    rintro ⟨⟩ last ⟨referred, same, volume, spare⟩
    refine .pure ⟨.entry holds, referred, same, volume, ?_⟩
    intro inum off equal
    obtain ⟨rfl, -⟩ := Prod.mk.inj (Option.some.inj equal)
    exact spare
  | none all =>
    refine .pure ⟨.none fun k inum holds => ?_, working, .refl dp after, rfl,
      fun _ _ impossible => by cases impossible⟩
    obtain ⟨inside, taken, same, -⟩ := entries_holds.mp holds
    have missed := all k (Nat.zero_le k) inside
    simp [taken, same] at missed

end Lookup

/-! ## Writing an entry -/

section Link

variable {system : System} {held locked : List Nat} {dp : Nat} {file : List UInt8}

/-- An entry is written, or `writei` stops for want of room on the disk or in the log. -/
theorem writeDirent_writes (working : system.Working held locked) (member : dp ∈ locked)
    (listing : Listing system dp file) {k : Nat} {bytes : List UInt8}
    (low : k ≤ file.length / direntSize) (length : bytes.length = direntSize)
    (inside : k * direntSize + direntSize ≤ maxfile * bsize) :
    Ensures (writeDirent dp (k * direntSize) bytes) system
      (fun r after => r.returned = direntSize ∧ after.Working held locked ∧
        Listing after dp (splice file (k * direntSize) bytes))
      (fun panic after => Exhausted panic after.volume) := by
  have size := listing.size
  have aligned := listing.aligned
  have bound := maxfile_bytes
  have start : k * direntSize ≤ file.length := by
    simp only [direntSize] at low ⊢
    omega
  have offset : (UInt32.ofNat (k * direntSize)).toNat = k * direntSize := by
    rw [UInt32.toNat_ofNat']
    omega
  have count : (UInt32.ofNat direntSize).toNat = direntSize := by decide
  obtain ⟨same, allocated⟩ := working.inode_of_locked member
  have source : extract (sourceByte (fun _ => none) (patch (fun _ => 0) 0 bytes) false) 0
      direntSize = bytes := by
    rw [← length]
    exact extract_patch (fun _ => 0) 0 bytes
  have writes : Ensures (writei (fun _ => none) (patch (fun _ => 0) 0 bytes) (system.inode dp) false 0
      (UInt32.ofNat (k * direntSize)) (UInt32.ofNat direntSize)) system.volume _ _ :=
    writei_splices (working.fileOk member listing.fits) (by rw [offset, size]; exact start)
      (by rw [offset, count]; exact inside) fun wrong => absurd wrong Bool.false_ne_true
  have keeps : Ensures (writei (fun _ => none) (patch (fun _ => 0) 0 bytes) (system.inode dp) false 0
      (UInt32.ofNat (k * direntSize)) (UInt32.ofNat direntSize)) system.volume _ _ :=
    writei_consistent working.consistent same allocated false 0 _ _
  rw [offset, count, source, listing.bytes] at writes
  have both := (writes.and keeps).mono (fun _ _ => id) fun _ _ => And.left
  unfold writeDirent writeInode
  refine current_bind (.bind ((onVolume_outcome both).mono (fun _ _ => id) ?_) ?_)
  · rintro panic after ⟨volume, exhausted, rfl⟩
    exact exhausted
  rintro r middle ⟨volume, ⟨⟨ok, returned, -, spliced⟩, consistent, number, type, dinode⟩, rfl⟩
  have number' : r.ip.inum = dp := number
  refine .modify (.pure ⟨returned, ?_, ?_⟩)
  · refine working.written consistent (by rwa [type]) ?_
    rw [dinode, number]
  · have copy : ({ system with volume := volume }.setEntry r.ip.inum
        { system.icache r.ip.inum with copy := r.ip.toDinode }).inode dp = r.ip := by
      unfold System.inode
      rw [number', System.setEntry_icache_self, ← number']
    have listed : Listing ({ system with volume := volume }.setEntry r.ip.inum
        { system.icache r.ip.inum with copy := r.ip.toDinode }) dp
        (splice file (k * direntSize) bytes) := by
      refine ⟨?_, ?_, ?_, ?_⟩
      · rw [copy, type]
        exact listing.type
      · rw [copy]
        exact spliced
      · rw [copy]
        exact ok.size
      · rw [length_splice start, length]
        simp only [direntSize] at aligned ⊢
        omega
    exact listed

/-- A directory at its largest size takes no further entry. -/
theorem writeDirent_full (listing : Listing system dp file) {k : Nat} {bytes : List UInt8}
    (low : k * direntSize ≤ file.length) (outside : maxfile * bsize < k * direntSize + direntSize) :
    Ensures (writeDirent dp (k * direntSize) bytes) system (fun r _ => r.returned = -1)
      (fun _ _ => False) := by
  have size := listing.size
  have fits := listing.fits
  have bound := maxfile_bytes
  have offset : (UInt32.ofNat (k * direntSize)).toNat = k * direntSize := by
    rw [UInt32.toNat_ofNat']
    omega
  have count : (UInt32.ofNat direntSize).toNat = direntSize := by decide
  have rejected : Ensures (writei (fun _ => none) (patch (fun _ => 0) 0 bytes) (system.inode dp) false 0
      (UInt32.ofNat (k * direntSize)) (UInt32.ofNat direntSize)) system.volume
      (fun r _ => r.returned = -1) (fun _ _ => False) := by
    unfold Ensures
    rw [writei_rejects _ _ _ _ _ _ (by rw [offset, count]; exact Or.inr (Or.inr outside))]
  unfold writeDirent writeInode
  refine current_bind (.bind ((onVolume_outcome rejected).mono (fun _ _ => id) ?_) ?_)
  · rintro panic after ⟨volume, impossible, -⟩
    exact impossible
  rintro r middle ⟨volume, returned, rfl⟩
  exact .modify (.pure returned)

/-! ## `dirlink` -/

/-- What `dirlink` leaves: the name is present and nothing has changed, or it was absent and
has been put into a vacant slot; the directory grows only when no slot is free. -/
inductive Linked (file : List UInt8) (name : List UInt8) (inum : Nat) (before : Volume) :
    Int → List UInt8 → Volume → Prop where
  | present {k found : Nat} (holds : (entries file).Holds k (cname name) found) :
      Linked file name inum before (-1) file before
  | added {k : Nat} {after : Volume} (absent : ∀ k found, ¬(entries file).Holds k (cname name) found)
      (vacant : (entries file).Vacant k)
      (full : k = (entries file).length → none ∉ entries file) :
      Linked file name inum before 0 (splice file (k * direntSize) (dirent inum name)) after

/-- Why `dirlink` stops: the disk or the log has no room, or the directory is at its largest
size and has no free slot. -/
def LinkStops (file : List UInt8) (panic : Panic) (after : System) : Prop :=
  Exhausted panic after.volume ∨
    panic = .dirlink ∧ maxfile * bsize < file.length + direntSize ∧ none ∉ entries file

theorem entries_free {k : Nat} (inside : k < file.length / direntSize) :
    (entries file)[k]? = some none ↔ direntInum (direntAt file k) = 0 := by
  rw [entries_getElem?, if_pos inside]
  by_cases free : direntInum (direntAt file k) = 0
  · simp [entryOf, free]
  · simp [entryOf, free]

/-- `dirlink` is an operation on the table of slots. -/
theorem dirlink_links (working : system.Working held locked) (member : dp ∈ locked)
    (listing : Listing system dp file) (name : List UInt8) (inum : Nat) :
    Ensures (dirlink dp name inum) system
      (fun result after => after.Working held locked ∧ ∃ file',
        Linked file name inum system.volume result file' after.volume ∧ Listing after dp file')
      (LinkStops file) := by
  have size := listing.size
  have aligned := listing.aligned
  unfold dirlink
  refine .bind ((dirlookup_finds working member listing name).mono (fun _ _ => id)
    fun _ _ => False.elim) ?_
  rintro result middle ⟨found, obtained, same, volume, spare⟩
  have listed := listing.untouched same
  cases found with
  | entry holds =>
    rename_i k found
    have referred : middle.Working (found :: held) locked := obtained
    have put := (iput_ensures referred fun other among => (working.locked other among).1).and
      (iput_counts dp (spare found _ rfl))
    refine .bind (put.mono (fun _ _ => id) fun _ _ both => both.2.elim) ?_
    rintro ⟨⟩ after ⟨kept, unchanged, still⟩
    refine .pure ⟨kept, file, ?_, listed.untouched unchanged⟩
    rw [still, volume]
    exact .present holds
  | none absent =>
    have working' : middle.Working held locked := obtained
    have size' := listed.size
    refine current_bind ?_
    dsimp only
    rw [size']
    refine .bind ((dirscan_finds working' member listed .dirlinkRead _ (Nat.zero_le _)).mono
      (fun _ _ => id) fun _ _ => False.elim) ?_
    rintro r scanned ⟨rfl, ends⟩
    cases ends with
    | found start inside stops before =>
      rename_i k
      have free : (entries file)[k]? = some none :=
        (entries_free inside).mpr (by simpa using stops)
      have fits := listed.fits
      have count := entries_length file
      refine .bind ((writeDirent_writes working' member listed (Nat.le_of_lt inside)
        (dirent_length inum name) ?_).mono (fun _ _ => id) fun _ _ => Or.inl) ?_
      · simp only [direntSize] at inside aligned ⊢
        omega
      rintro r after ⟨returned, kept, written⟩
      rw [if_neg (not_not.mpr returned)]
      exact .pure ⟨kept, _, .added absent (Or.inl free) fun last => by omega, written⟩
    | none all =>
      have full : none ∉ entries file := by
        intro free
        obtain ⟨k, here⟩ := List.getElem?_of_mem free
        have inside : k < file.length / direntSize := by
          rw [← entries_length]
          exact (List.getElem?_eq_some_iff.mp here).1
        have missed := all k (Nat.zero_le k) inside
        rw [(entries_free inside).mp here] at missed
        exact absurd missed (by decide)
      have last : file.length = (entries file).length * direntSize := by
        rw [entries_length]
        simp only [direntSize] at aligned ⊢
        omega
      dsimp only
      by_cases room : file.length + direntSize ≤ maxfile * bsize
      · rw [last]
        refine .bind ((writeDirent_writes working' member listed
          (Nat.le_of_eq (entries_length file)) (dirent_length inum name) ?_).mono
          (fun _ _ => id) fun _ _ => Or.inl) ?_
        · rw [← last]
          exact room
        rintro r after ⟨returned, kept, written⟩
        rw [if_neg (not_not.mpr returned)]
        exact .pure ⟨kept, _, .added absent (Or.inr rfl) fun _ => full, written⟩
      · rw [last]
        refine .bind ((writeDirent_full listed (Nat.le_of_eq last.symm) ?_).mono
          (fun _ _ => id) fun _ _ => False.elim) ?_
        · rw [← last]
          omega
        intro r after returned
        rw [if_pos (by rw [returned]; decide)]
        exact .throw (Or.inr ⟨rfl, by omega, full⟩)

end Link

/-! ## `sys_unlink` -/

section Unlink

variable {system : System} {held locked : List Nat} {dp ip inum : Nat} {file : List UInt8}

/-- A reference beside one that somebody else holds is not the last one. -/
theorem System.Working.not_last (working : system.Working (inum :: held) locked)
    (other : dp ∈ held) (same : inum = dp) : (system.icache dp).ref ≠ 1 := by
  subst same
  have bound := working.refs inum mem_cons_self
  have counted := List.count_pos_iff.mpr other
  rw [List.count_cons_self] at bound
  omega

/-- Letting go of a reference beside one that somebody else holds. -/
theorem iput_leaves (working : system.Working (inum :: held) locked) (other : dp ∈ held)
    (kept : ∀ other ∈ locked, other ∈ held) (listing : Listing system dp file) :
    Ensures (iput inum) system (fun _ after => after.Working held locked ∧ Listing after dp file)
      (fun _ _ => True) := by
  refine ((iput_ensures working kept).and (iput_untouched (working.not_last other))).mono ?_
    fun _ _ _ => True.intro
  rintro ⟨⟩ after ⟨still, same⟩
  exact ⟨still, listing.untouched same⟩

theorem updateInode_leaves (working : system.Working held locked) (member : inum ∈ locked)
    (listing : Listing system dp file) (change : Int) :
    Ensures (updateInode inum fun copy => { copy with nlink := shortAdd copy.nlink change }) system
      (fun _ after => after.Working held locked ∧ Listing after dp file) (fun _ _ => True) := by
  have keeps : ∀ copy : Dinode, ({ copy with nlink := shortAdd copy.nlink change } : Dinode).type =
      copy.type ∧ ({ copy with nlink := shortAdd copy.nlink change } : Dinode).size = copy.size ∧
      ({ copy with nlink := shortAdd copy.nlink change } : Dinode).addrs = copy.addrs :=
    fun _ => ⟨rfl, rfl, rfl⟩
  refine ((updateInode_ensures working member keeps).and
    (updateInode_untouched dp inum system keeps)).mono ?_ fun _ _ _ => True.intro
  rintro ⟨⟩ after ⟨still, same⟩
  exact ⟨still, listing.untouched same⟩

theorem removeEntry_removes (working : system.Working (ip :: dp :: held) [ip, dp])
    (other : dp ∈ held) (listing : Listing system dp file) {k : Nat}
    (inside : k < file.length / direntSize) :
    Ensures (removeEntry dp ip (k * direntSize)) system
      (fun result after => result = 0 ∧ after.Working held [dp] ∧
        Listing after dp (splice file (k * direntSize) (List.replicate direntSize 0)))
      (fun _ _ => True) := by
  have size := listing.size
  have fits := listing.fits
  have aligned := listing.aligned
  have inBoth : dp ∈ [ip, dp] := mem_cons_of_mem ip mem_cons_self
  unfold removeEntry
  refine current_bind ?_
  refine .bind ((writeDirent_writes working inBoth listing (Nat.le_of_lt inside)
    List.length_replicate ?_).mono (fun _ _ => id) fun _ _ _ => True.intro) ?_
  · simp only [direntSize] at inside aligned ⊢
    omega
  rintro r written ⟨returned, kept, cleared⟩
  rw [if_neg (not_not.mpr returned)]
  have counted : Ensures (whenDir (system.inode ip).type
      (updateInode dp fun copy => { copy with nlink := shortAdd copy.nlink (-1) })) written
      (fun _ after => after.Working (ip :: dp :: held) [ip, dp] ∧
        Listing after dp (splice file (k * direntSize) (List.replicate direntSize 0)))
      (fun _ _ => True) := by
    unfold whenDir
    split
    next => exact updateInode_leaves kept inBoth cleared (-1)
    next => exact .pure ⟨kept, cleared⟩
  refine .bind counted ?_
  rintro ⟨⟩ first ⟨one, listed⟩
  refine .bind (iput_leaves one.swap (mem_cons_of_mem ip other) ?_ listed) ?_
  · intro inum locked
    rcases List.mem_cons.mp locked with rfl | last
    · exact mem_cons_self
    · rw [mem_singleton.mp last]
      exact mem_cons_of_mem ip other
  rintro ⟨⟩ second ⟨two, listed⟩
  refine .bind (updateInode_leaves two mem_cons_self listed (-1)) ?_
  rintro ⟨⟩ third ⟨three, listed⟩
  have only : third.Working (ip :: held) [dp] := three.unlock fun inum member => by
    rw [mem_singleton.mp member]
    exact inBoth
  refine .bind (iput_leaves only other ?_ listed) ?_
  · intro inum member
    rw [mem_singleton.mp member]
    exact other
  rintro ⟨⟩ last ⟨four, listed⟩
  exact .pure ⟨rfl, four, listed⟩

/-- What `sys_unlink` leaves: it has refused and nothing has changed, or the slot that held
the name is free. -/
inductive Unlinked (file : List UInt8) (name : List UInt8) : Int → List UInt8 → Prop where
  | refused : Unlinked file name (-1) file
  | removed {k inum : Nat} (holds : (entries file).Holds k (cname name) inum) :
      Unlinked file name 0 (splice file (k * direntSize) (List.replicate direntSize 0))

/-- `sys_unlink` is an operation on the table of slots of the parent. -/
theorem unlinkAt_unlinks (working : system.Working (dp :: held) [dp]) (other : dp ∈ held)
    (listing : Listing system dp file) (name : List UInt8) :
    Ensures (unlinkAt dp name) system
      (fun result after => after.Working held [dp] ∧ ∃ file',
        Unlinked file name result file' ∧ Listing after dp file') (fun _ _ => True) := by
  have give_up : ∀ {system : System}, system.Working (dp :: held) [dp] →
      Listing system dp file → Ensures (do iput dp; pure (-1) : SysM Int) system
      (fun result after => after.Working held [dp] ∧ ∃ file',
        Unlinked file name result file' ∧ Listing after dp file') (fun _ _ => True) := by
    intro system working listing
    refine .bind (iput_leaves working other ?_ listing) ?_
    · intro inum member
      rw [mem_singleton.mp member]
      exact other
    rintro ⟨⟩ after ⟨kept, listed⟩
    exact .pure ⟨kept, file, .refused, listed⟩
  unfold unlinkAt
  split
  next => exact give_up working listing
  next =>
    refine .bind ((dirlookup_finds working mem_cons_self listing name).mono
      (fun _ _ => id) fun _ _ _ => True.intro) ?_
    rintro result middle ⟨found, obtained, same, -, -⟩
    have listed := listing.untouched same
    cases found with
    | none absent => exact give_up obtained listed
    | entry holds =>
      rename_i k ip
      have referred : middle.Working (ip :: dp :: held) [dp] := obtained
      have valid := (referred.locked dp mem_cons_self).2
      refine .bind (((ilock_held referred mem_cons_self).and (ilock_untouched valid)).mono
        (fun _ _ => id) fun _ _ _ => True.intro) ?_
      rintro ⟨⟩ entered ⟨both, unchanged⟩
      have listed := listed.untouched unchanged
      refine current_bind ?_
      split
      next => exact .throw True.intro
      next =>
        have removable : Ensures (isRemovable (entered.inode ip).type ip) entered
            (fun _ after => after = entered) (fun _ _ => True) := by
          unfold isRemovable
          split
          next =>
            exact (isdirempty_ensures both mem_cons_self).mono (fun _ _ => id)
              fun _ _ _ => True.intro
          next => exact .pure rfl
        refine .bind removable ?_
        rintro answer entered rfl
        split
        next =>
          have inside := (entries_holds.mp holds).1
          refine (removeEntry_removes both other listed inside).mono ?_ fun _ _ => id
          rintro result after ⟨rfl, kept, cleared⟩
          exact ⟨kept, _, .removed holds, cleared⟩
        next =>
          have only : entered.Working (ip :: dp :: held) [dp] :=
            both.unlock fun inum member => mem_cons_of_mem ip member
          refine .bind (iput_leaves only mem_cons_self ?_ listed) ?_
          · intro inum member
            rw [mem_singleton.mp member]
            exact mem_cons_self
          rintro ⟨⟩ after ⟨kept, listed⟩
          exact give_up kept listed

end Unlink

end Ev6.FileSystem
