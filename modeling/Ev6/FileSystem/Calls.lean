import Ev6.FileSystem.Operations

/-!
# References and copies inside a call

`System.Working` is what holds between the steps of a system call: the volume is
consistent, every valid copy of an inode agrees with the disk, and the call has the
references and the valid copies it counts on. Each function on inodes takes one such
state to another, and the functions on directories and paths are composed of them.
-/

namespace Ev6.FileSystem

open List (count_pos_iff mem_cons_self not_mem_nil)
open Function (update update_eq_self update_of_ne update_self)
open Support

/-- Every valid copy of an inode is that of an allocated inode and agrees with the
disk. -/
def System.Synced (system : System) : Prop :=
  ∀ inum, (system.icache inum).valid = true →
    (system.icache inum).copy = system.volume.dinode inum ∧ (system.volume.dinode inum).type ≠ 0

/-- The volume is consistent and valid copies of inodes agree with it; the references
in `held` are taken, and the copies of the inodes in `locked` are valid. -/
structure System.Working (system : System) (held locked : List Nat) : Prop where
  consistent : system.volume.Consistent
  synced : system.Synced
  refs : ∀ inum ∈ held, held.count inum ≤ (system.icache inum).ref
  locked : ∀ inum ∈ locked, inum ∈ held ∧ (system.icache inum).valid = true

namespace System.Working

variable {before after system : System} {held held' locked locked' : List Nat} {inum : Nat}

/-- A step that changes one inode, on disk and in memory. -/
theorem replace (working : before.Working held locked) (inum : Nat)
    (consistent : after.volume.Consistent)
    (disk : ∀ other, other ≠ inum → after.volume.dinode other = before.volume.dinode other)
    (cache : ∀ other, other ≠ inum → after.icache other = before.icache other)
    (synced : (after.icache inum).valid = true →
      (after.icache inum).copy = after.volume.dinode inum ∧ (after.volume.dinode inum).type ≠ 0)
    (refs : inum ∈ held' → held'.count inum ≤ (after.icache inum).ref)
    (others : ∀ other, other ≠ inum → held'.count other ≤ held.count other)
    (locks : ∀ other ∈ locked', other ∈ held' ∧ (after.icache other).valid = true) :
    after.Working held' locked' := by
  refine ⟨consistent, ?_, ?_, locks⟩
  · intro other valid
    by_cases same : other = inum
    · subst same
      exact synced valid
    · rw [cache other same] at valid ⊢
      rw [disk other same]
      exact working.synced other valid
  · intro other member
    by_cases same : other = inum
    · subst same
      exact refs member
    · have counted := others other same
      have some_ := count_pos_iff.mpr member
      have bound := working.refs other (count_pos_iff.mp (by omega))
      rw [cache other same]
      omega

theorem unlock (working : system.Working held locked) (fewer : ∀ inum ∈ locked', inum ∈ locked) :
    system.Working held locked' :=
  ⟨working.consistent, working.synced, working.refs,
    fun inum member => working.locked inum (fewer inum member)⟩

theorem unlockAll (working : system.Working held locked) : system.Working held [] :=
  working.unlock fun _ among => absurd among not_mem_nil

theorem lock (working : system.Working held locked) (member : inum ∈ held)
    (valid : (system.icache inum).valid = true) : system.Working held (inum :: locked) := by
  refine ⟨working.consistent, working.synced, working.refs, ?_⟩
  intro other among
  rcases List.mem_cons.mp among with rfl | among
  · exact ⟨member, valid⟩
  · exact working.locked other among

theorem perm (working : system.Working held locked) (same : held.Perm held') :
    system.Working held' locked := by
  refine ⟨working.consistent, working.synced, ?_, ?_⟩
  · intro inum member
    rw [← same.count_eq]
    exact working.refs inum (same.mem_iff.mpr member)
  · intro inum member
    obtain ⟨among, valid⟩ := working.locked inum member
    exact ⟨same.mem_iff.mp among, valid⟩

theorem swap {first second : Nat} (working : system.Working (first :: second :: held) locked) :
    system.Working (second :: first :: held) locked :=
  working.perm (.swap second first held)

theorem spare (working : system.Working (inum :: held) locked)
    (kept : ∀ other ∈ locked, other ∈ held) : system.Working held locked := by
  refine ⟨working.consistent, working.synced, ?_, ?_⟩
  · intro other member
    have bound := working.refs other (List.mem_cons_of_mem _ member)
    exact List.count_le_count_cons.trans bound
  · intro other member
    exact ⟨kept other member, (working.locked other member).2⟩

/-- A call may start with a reference that an open file has. -/
theorem borrow (working : system.Working [] []) (taken : 0 < (system.icache inum).ref) :
    system.Working [inum] [] := by
  refine ⟨working.consistent, working.synced, ?_, fun other among => absurd among not_mem_nil⟩
  intro other member
  obtain rfl := List.mem_singleton.mp member
  rw [List.count_singleton_self]
  exact taken

/-- A call may end with references that an open file keeps. -/
theorem finish (working : system.Working held locked) : system.Working [] [] :=
  ⟨working.consistent, working.synced, (fun _ among => absurd among not_mem_nil), fun _ among => absurd among not_mem_nil⟩

theorem inode (working : system.Working held locked) (valid : (system.icache inum).valid = true) :
    system.volume.dinode inum = (system.inode inum).toDinode ∧
      (system.inode inum).type ≠ 0 := by
  obtain ⟨same, allocated⟩ := working.synced inum valid
  refine ⟨same.symm, ?_⟩
  change (system.icache inum).copy.type ≠ 0
  rwa [same]

theorem inode_of_locked (working : system.Working held locked) (member : inum ∈ locked) :
    system.volume.dinode inum = (system.inode inum).toDinode ∧
      (system.inode inum).type ≠ 0 :=
  working.inode (working.locked inum member).2

end System.Working

/-! ## References -/

section References

variable {system : System} {held locked : List Nat} {inum : Nat}

theorem System.setEntry_icache_self (system : System) (inum : Nat) (entry : Cached) :
    (system.setEntry inum entry).icache inum = entry :=
  update_self _ _ _

theorem System.setEntry_icache_of_ne (system : System) {inum other : Nat} (entry : Cached)
    (different : other ≠ inum) : (system.setEntry inum entry).icache other = system.icache other :=
  update_of_ne different _ _

/-- A step that changes the entry of one inode in the cache. -/
theorem System.Working.setEntry {held' locked' : List Nat}
    (working : system.Working held locked) (inum : Nat) {entry : Cached}
    (synced : entry.valid = true → entry.copy = system.volume.dinode inum ∧
      (system.volume.dinode inum).type ≠ 0)
    (refs : inum ∈ held' → held'.count inum ≤ entry.ref)
    (others : ∀ other, other ≠ inum → held'.count other ≤ held.count other)
    (locks : ∀ other ∈ locked', other ∈ held' ∧
      if other = inum then entry.valid = true else other ∈ locked) :
    (system.setEntry inum entry).Working held' locked' := by
  refine working.replace inum working.consistent (fun _ _ => rfl)
    (fun other different => system.setEntry_icache_of_ne entry different) ?_ ?_ others ?_
  · rw [System.setEntry_icache_self]
    exact synced
  · rw [System.setEntry_icache_self]
    exact refs
  · intro other member
    obtain ⟨among, kept⟩ := locks other member
    refine ⟨among, ?_⟩
    by_cases same : other = inum
    · subst same
      rw [System.setEntry_icache_self]
      simpa using kept
    · rw [if_neg same] at kept
      rw [System.setEntry_icache_of_ne _ _ same]
      exact (working.locked other kept).2

theorem System.Working.refer (working : system.Working held locked) {entry : Cached}
    (synced : entry.valid = true → entry.copy = system.volume.dinode inum ∧
      (system.volume.dinode inum).type ≠ 0)
    (more : inum ∈ held → (system.icache inum).ref < entry.ref) (taken : 0 < entry.ref)
    (kept : inum ∈ locked → entry.valid = true) :
    (system.setEntry inum entry).Working (inum :: held) locked := by
  refine working.setEntry inum synced ?_ ?_ ?_
  · intro _
    rw [List.count_cons_self]
    by_cases member : inum ∈ held
    · have bound := working.refs inum member
      have higher := more member
      omega
    · rw [List.count_eq_zero.mpr member]
      omega
  · intro other different
    rw [List.count_cons_of_ne (Ne.symm different)]
  · intro other member
    refine ⟨List.mem_cons_of_mem _ (working.locked other member).1, ?_⟩
    split_ifs with same
    · subst same
      exact kept member
    · exact member

theorem iget_ensures (working : system.Working held locked) :
    Ensures (iget inum) system (fun _ after => after.Working (inum :: held) locked)
      OtherPanic := by
  refine .modify_last ?_
  dsimp only
  split
  next taken =>
    exact working.refer (working.synced inum) (fun _ => Nat.lt_succ_self _) (Nat.succ_pos _)
      fun member => (working.locked inum member).2
  next free =>
    -- a free slot is recycled, and nothing that is held can be in one
    have absent : inum ∉ held := by
      intro member
      have bound := working.refs inum member
      have counted := count_pos_iff.mpr member
      omega
    refine working.refer (fun impossible => absurd impossible Bool.false_ne_true)
      (fun member => absurd member absent) Nat.one_pos fun member => ?_
    exact absurd (working.locked inum member).1 absent

theorem idup_ensures (working : system.Working held locked) :
    Ensures (idup inum) system (fun _ after => after.Working (inum :: held) locked)
      OtherPanic := by
  refine .modify_last ?_
  exact working.refer (working.synced inum) (fun _ => Nat.lt_succ_self _) (Nat.succ_pos _)
    fun member => (working.locked inum member).2

/-- `ilock` makes the copy valid, or finds no reference or no inode. -/
theorem ilock_ensures (working : system.Working held locked) :
    Ensures (ilock inum) system
      (fun _ after => after.Working held locked ∧ 0 < (after.icache inum).ref ∧
        (after.icache inum).valid = true) OtherPanic := by
  unfold ilock
  refine .get ?_
  dsimp only
  split
  next => exact .throw (otherPanic (by decide))
  next taken =>
    split
    next valid => exact .pure ⟨working, by omega, valid⟩
    next stale =>
      refine .set ?_
      split
      next => exact .throw (otherPanic (by decide))
      next allocated =>
        refine .pure ⟨?_, ?_, ?_⟩
        · refine working.setEntry inum (fun _ => ⟨rfl, allocated⟩) (working.refs inum)
            (fun _ _ => le_rfl) ?_
          intro other member
          refine ⟨(working.locked other member).1, ?_⟩
          split_ifs
          · rfl
          · exact member
        · rw [System.setEntry_icache_self]
          dsimp only
          omega
        · rw [System.setEntry_icache_self]

theorem ilock_held (working : system.Working held locked) (member : inum ∈ held) :
    Ensures (ilock inum) system (fun _ after => after.Working held (inum :: locked))
      OtherPanic := by
  refine (ilock_ensures working).mono ?_ fun _ _ => id
  rintro ⟨⟩ after ⟨kept, -, valid⟩
  exact kept.lock member valid

theorem ilock_borrowed (working : system.Working [] []) :
    Ensures (ilock inum) system (fun _ after => after.Working [inum] [inum]) OtherPanic := by
  refine (ilock_ensures working).mono ?_ fun _ _ => id
  rintro ⟨⟩ after ⟨kept, taken, valid⟩
  exact (kept.borrow taken).lock mem_cons_self valid

/-- Dropping a reference that the call does not count on. -/
theorem dropRef_ensures (working : system.Working held locked)
    (spare : inum ∈ held → held.count inum < (system.icache inum).ref) :
    Ensures (dropRef inum) system (fun _ after => after.Working held locked) OtherPanic := by
  refine .modify_last ?_
  refine working.setEntry inum (working.synced inum) ?_ (fun _ _ => le_rfl) ?_
  · intro member
    have bound := spare member
    dsimp only
    omega
  · intro other member
    refine ⟨(working.locked other member).1, ?_⟩
    split_ifs with same
    · subst same
      exact (working.locked other member).2
    · exact member

end References

/-! ## Inodes -/

section Inodes

variable {system : System} {held locked : List Nat} {inum : Nat}

/-- Code on the volume ends or stops with what it does to the volume. -/
theorem onVolume_outcome {α : Type} {program : FsM α} {good : α → Volume → Prop}
    {bad : Panic → Volume → Prop} (ensures : Ensures program system.volume good bad) :
    Ensures (onVolume program) system
      (fun value after => ∃ volume, good value volume ∧ after = { system with volume := volume })
      (fun cause after => ∃ volume, bad cause volume ∧
        after = { system with volume := volume }) := by
  cases run : program.run system.volume with
  | ok value volume =>
    have ends : (onVolume program).run system =
        .ok value { system with volume := volume } := by
      simp only [onVolume, EStateM.run] at run ⊢
      rw [run]
    unfold Ensures
    rw [ends]
    exact ⟨volume, ensures.returned run, rfl⟩
  | error cause volume =>
    have ends : (onVolume program).run system =
        .error cause { system with volume := volume } := by
      simp only [onVolume, EStateM.run] at run ⊢
      rw [run]
    unfold Ensures
    rw [ends]
    exact ⟨volume, ensures.stopped run, rfl⟩

theorem onVolume_ensures {α : Type} {program : FsM α} {good : α → Volume → Prop}
    (ensures : Ensures program system.volume good OtherPanic) :
    Ensures (onVolume program) system
      (fun value after => ∃ volume, good value volume ∧
        after = { system with volume := volume }) OtherPanic := by
  refine (onVolume_outcome ensures).mono (fun _ _ => id) ?_
  rintro cause after ⟨volume, other, -⟩
  exact other

/-- Reading the copy of an inode and going on with it. -/
theorem current_bind {β : Type} {next : Inode → SysM β} {good : β → System → Prop}
    {bad : Panic → System → Prop} (behind : Ensures (next (system.inode inum)) system good bad) :
    Ensures (current inum >>= next) system good bad :=
  behind

/-- Storing a copy that has been written to disk as well. -/
theorem System.Working.written (working : system.Working held locked) {volume : Volume}
    {ip : Inode} (consistent : volume.Consistent) (allocated : ip.type ≠ 0)
    (dinode : volume.dinode = update system.volume.dinode ip.inum ip.toDinode) :
    ({ system with volume := volume }.setEntry ip.inum
      { system.icache ip.inum with copy := ip.toDinode }).Working held locked := by
  have own : volume.dinode ip.inum = ip.toDinode := by rw [dinode, update_self]
  refine working.replace ip.inum consistent ?_ ?_ ?_ ?_ (fun _ _ => le_rfl) ?_
  · intro other different
    change volume.dinode other = _
    rw [dinode, update_of_ne different]
  · intro other different
    exact System.setEntry_icache_of_ne _ _ different
  · intro _
    rw [System.setEntry_icache_self]
    refine ⟨own.symm, ?_⟩
    change (volume.dinode ip.inum).type ≠ 0
    rwa [own]
  · rw [System.setEntry_icache_self]
    exact working.refs ip.inum
  · intro other member
    obtain ⟨among, valid⟩ := working.locked other member
    refine ⟨among, ?_⟩
    by_cases same : other = ip.inum
    · subst same
      rwa [System.setEntry_icache_self]
    · rwa [System.setEntry_icache_of_ne _ _ same]

theorem readInode_ensures (working : system.Working held locked) (member : inum ∈ locked)
    (pagetable : UserPages) (memory : Nat → UInt8) (user : Bool) (dst : Nat) (off n : UInt32) :
    Ensures (readInode pagetable memory inum user dst off n) system
      (fun _ after => after = system) OtherPanic := by
  obtain ⟨same, allocated⟩ := working.inode_of_locked member
  have whole : system.volume.Whole (system.inode inum).toDinode := by
    rw [← same] at allocated ⊢
    exact working.consistent.whole inum allocated
  refine current_bind (.bind (onVolume_ensures (readi_keeps whole user dst off n)) ?_)
  rintro r middle ⟨volume, ⟨copy, rfl⟩, rfl⟩
  refine .modify (.pure ?_)
  rw [copy]
  change system.setEntry inum (system.icache inum) = system
  unfold System.setEntry
  rw [update_eq_self]

theorem writeInode_ensures (working : system.Working held locked) (member : inum ∈ locked)
    (pagetable : UserPages) (memory : Nat → UInt8) (user : Bool) (src : Nat) (off n : UInt32) :
    Ensures (writeInode pagetable memory inum user src off n) system
      (fun _ after => after.Working held locked) OtherPanic := by
  obtain ⟨same, allocated⟩ := working.inode_of_locked member
  refine current_bind (.bind (onVolume_ensures
    (writei_consistent working.consistent same allocated user src off n)) ?_)
  rintro r middle ⟨volume, ⟨consistent, number, kept, dinode⟩, rfl⟩
  refine .modify (.pure ?_)
  refine working.written consistent (by rwa [kept]) ?_
  rw [dinode, number]

theorem storeUpdate_ensures (working : system.Working held locked) {changed : Inode}
    (allocated : changed.type ≠ 0) (consistent : (system.volume.put changed).Consistent) :
    Ensures (do store changed; onVolume (iupdate changed)) system
      (fun _ after => after.Working held locked) OtherPanic := by
  refine .modify ((onVolume_ensures ((iupdate_ensures _ _).mono (fun _ _ => id)
    fun _ _ => Exhausted.other)).mono ?_ fun _ _ => id)
  rintro ⟨⟩ after ⟨volume, updated, rfl⟩
  refine working.written (consistent.logged updated) allocated ?_
  rw [updated]
  rfl

/-- Assignments to fields other than the type, the size and the pointers. -/
theorem updateInode_ensures (working : system.Working held locked) (member : inum ∈ locked)
    {change : Dinode → Dinode} (keeps : ∀ copy, (change copy).type = copy.type ∧
      (change copy).size = copy.size ∧ (change copy).addrs = copy.addrs) :
    Ensures (updateInode inum change) system (fun _ after => after.Working held locked)
      OtherPanic := by
  obtain ⟨same, allocated⟩ := working.inode_of_locked member
  obtain ⟨type, size, addrs⟩ := keeps (system.inode inum).toDinode
  have typed : (change (system.inode inum).toDinode).type ≠ 0 := by rwa [type]
  have before : (system.volume.put (system.inode inum)).Consistent := by
    rw [Volume.put_of_synced same]
    exact working.consistent
  refine current_bind (storeUpdate_ensures working typed
    (before.update rfl allocated addrs (fun _ bn inside below => ?_) typed))
  change bn * bsize < (change (system.inode inum).toDinode).size at below
  rw [size] at below
  rw [← same] at allocated below ⊢
  exact working.consistent.whole inum allocated bn inside below

/-- `iput` truncates and frees an inode that nobody else refers to. -/
theorem freeInode_ensures (working : system.Working held locked) (absent : inum ∉ held)
    (valid : (system.icache inum).valid = true) :
    Ensures (freeInode inum) system (fun _ after => after.Working held locked) OtherPanic := by
  obtain ⟨same, allocated⟩ := working.inode valid
  refine current_bind (.bind (onVolume_ensures
    (itrunc_ensures working.consistent same allocated)) ?_)
  rintro emptied middle ⟨volume, ⟨rfl, consistent, dinode⟩, rfl⟩
  refine .modify (.bind (onVolume_ensures ((iupdate_ensures _ _).mono (fun _ _ => id)
    fun _ _ => Exhausted.other)) ?_)
  rintro ⟨⟩ last ⟨freed, updated, rfl⟩
  have emptied : volume.dinode inum = (system.inode inum).truncated.toDinode := by
    rw [dinode]
    exact update_self _ _ _
  have released : freed.Consistent := (consistent.release emptied).logged updated
  have disk : freed.dinode = update volume.dinode inum
      { (system.inode inum).truncated.toDinode with type := 0 } := by
    rw [updated]
    rfl
  refine .modify_last ?_
  refine working.replace inum released ?_ ?_ ?_ (fun member => absurd member absent)
    (fun _ _ => le_rfl) ?_
  · intro other different
    change freed.dinode other = _
    rw [disk, update_of_ne different, dinode]
    exact update_of_ne different _ _
  · intro other different
    rw [System.setEntry_icache_of_ne _ _ different]
    exact System.setEntry_icache_of_ne _ _ different
  · rw [System.setEntry_icache_self]
    exact fun impossible => absurd impossible Bool.false_ne_true
  · intro other member
    obtain ⟨among, there⟩ := working.locked other member
    have different : other ≠ inum := by
      rintro rfl
      exact absent among
    refine ⟨among, ?_⟩
    rw [System.setEntry_icache_of_ne _ _ different]
    refine Eq.trans (congrArg Cached.valid ?_) there
    exact System.setEntry_icache_of_ne _ _ different

/-- `iput` of a reference that the call does not count on. -/
theorem iput_spare (working : system.Working held locked)
    (spare : inum ∈ held → held.count inum < (system.icache inum).ref) :
    Ensures (iput inum) system (fun _ after => after.Working held locked) OtherPanic := by
  unfold iput
  refine .get ?_
  dsimp only
  split
  next last =>
    obtain ⟨single, valid, -⟩ := last
    have absent : inum ∉ held := by
      intro member
      have bound := spare member
      have counted := count_pos_iff.mpr member
      omega
    refine .bind (freeInode_ensures working absent valid) ?_
    rintro ⟨⟩ after kept
    exact dropRef_ensures kept fun member => absurd member absent
  next => exact dropRef_ensures working spare

theorem iput_ensures (working : system.Working (inum :: held) locked)
    (kept : ∀ other ∈ locked, other ∈ held) :
    Ensures (iput inum) system (fun _ after => after.Working held locked) OtherPanic := by
  refine iput_spare (working.spare kept) fun member => ?_
  have bound := working.refs inum mem_cons_self
  rw [List.count_cons_self] at bound
  omega

theorem iput_only (working : system.Working (inum :: held) []) :
    Ensures (iput inum) system (fun _ after => after.Working held []) OtherPanic :=
  iput_ensures working fun _ among => absurd among not_mem_nil

end Inodes

/-! ## Directories and paths -/

section Directories

variable {system : System} {held locked : List Nat} {dp : Nat}

/-- What a search leaves: with the inode it has found comes a reference. -/
def System.Obtained {α : Type} (held locked : List Nat) : Option (Nat × α) → System → Prop
  | none, system => system.Working held locked
  | some (ip, _), system => system.Working (ip :: held) locked

theorem dirscan_ensures (working : system.Working held locked) (member : dp ∈ locked)
    (short : Panic) (other : short ≠ .freeingFreeBlock) (hit : (Nat → UInt8) → Bool)
    (size off : Nat) :
    Ensures (dirscan short hit dp size off) system (fun _ after => after = system)
      OtherPanic := by
  obtain ⟨left, rest⟩ : ∃ left, size - off = left := ⟨_, rfl⟩
  induction left using Nat.strong_induction_on generalizing off with
  | _ left ih =>
    rw [dirscan]
    split
    next more =>
      refine .bind (readInode_ensures working member _ _ _ _ _ _) ?_
      rintro r after rfl
      split
      next => exact .throw other
      next =>
        have positive : 0 < direntSize := by decide
        split
        · exact .pure rfl
        · exact ih (size - (off + direntSize)) (by omega) (off + direntSize) rfl
    next stop => exact .pure rfl

theorem dirlookup_ensures (working : system.Working held locked) (member : dp ∈ locked)
    (name : List UInt8) :
    Ensures (dirlookup dp name) system (System.Obtained held locked) OtherPanic := by
  refine current_bind ?_
  split
  next => exact .throw (otherPanic (by decide))
  next =>
    refine .bind (dirscan_ensures working member .dirlookupRead (by decide) _ _ _) ?_
    rintro ⟨off, _ | de⟩ after rfl
    · exact .pure working
    · refine .bind (iget_ensures working) ?_
      rintro ⟨⟩ last referred
      exact .pure referred

theorem writeDirent_ensures (working : system.Working held locked) (member : dp ∈ locked)
    (off : Nat) (bytes : List UInt8) :
    Ensures (writeDirent dp off bytes) system (fun _ after => after.Working held locked)
      OtherPanic :=
  writeInode_ensures working member _ _ _ _ _ _

theorem dirlink_ensures (working : system.Working held locked) (member : dp ∈ locked)
    (name : List UInt8) (inum : Nat) :
    Ensures (dirlink dp name inum) system (fun _ after => after.Working held locked)
      OtherPanic := by
  refine .bind (dirlookup_ensures working member name) ?_
  rintro (_ | ⟨found, off⟩) middle obtained
  · refine current_bind (.bind
      (dirscan_ensures obtained member .dirlinkRead (by decide) _ _ _) ?_)
    rintro ⟨off, free⟩ same rfl
    refine .bind (writeDirent_ensures obtained member _ _) ?_
    rintro r last written
    split
    · exact .throw (otherPanic (by decide))
    · exact .pure written
  · refine .bind (iput_ensures obtained fun other among => (working.locked other among).1) ?_
    rintro ⟨⟩ last kept
    exact .pure kept

theorem isdirempty_ensures (working : system.Working held locked) (member : dp ∈ locked) :
    Ensures (isdirempty dp) system (fun _ after => after = system) OtherPanic := by
  refine current_bind (.bind
    (dirscan_ensures working member .isdiremptyReadi (by decide) _ _ _) ?_)
  rintro ⟨off, found⟩ after same
  exact .pure same

/-- The walk along a path: the reference to the inode it is at is replaced by one to
the next. -/
theorem namexLoop_ensures {ip : Nat} (working : system.Working (ip :: held) [])
    (parent : Bool) (elements : List (List UInt8)) :
    Ensures (namexLoop parent ip elements) system (System.Obtained held []) OtherPanic := by
  have leave : ∀ {system : System} {ip : Nat}, system.Working (ip :: held) [] →
      Ensures (do iput ip; pure none : SysM (Option (Nat × List UInt8))) system
        (System.Obtained held []) OtherPanic := by
    intro system ip working
    refine .bind (iput_only working) ?_
    rintro ⟨⟩ last kept
    exact .pure kept
  induction elements generalizing system ip with
  | nil =>
    unfold namexLoop
    split
    · exact leave working
    · exact .pure working
  | cons name rest ih =>
    unfold namexLoop
    refine .bind (ilock_held working mem_cons_self) ?_
    rintro ⟨⟩ middle entered
    have outside := entered.unlockAll
    refine current_bind ?_
    split
    · exact leave outside
    · split
      · exact .pure outside
      · refine .bind (dirlookup_ensures entered mem_cons_self name) ?_
        rintro (_ | ⟨next, off⟩) after obtained
        · exact leave (System.Working.unlockAll obtained)
        · have both : after.Working (next :: ip :: held) [ip] := obtained
          refine .bind (iput_only both.swap.unlockAll) ?_
          rintro ⟨⟩ last kept
          exact ih kept

theorem namex_ensures (working : system.Working held []) (path : Path) (parent : Bool) :
    Ensures (namex path parent) system (System.Obtained held []) OtherPanic := by
  unfold namex
  split
  · refine .bind (iget_ensures working) ?_
    rintro ⟨⟩ middle referred
    exact namexLoop_ensures referred parent path.elements
  · refine .get (.bind (idup_ensures working) ?_)
    rintro ⟨⟩ middle referred
    exact namexLoop_ensures referred parent path.elements

end Directories

end Ev6.FileSystem
