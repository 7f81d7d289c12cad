import Ev6.FileSystem.Calls

/-!
# System calls keep the free map exact

Every system call takes a consistent volume to a consistent volume, and so does every
sequence of them: no block gets a second owner, none is left marked without one, and
no block is freed that is free.
-/

namespace Ev6.FileSystem

open List (mem_cons_self not_mem_nil)
open Support

section Calls

variable {system : System} {held locked : List Nat} {dp : Nat}

theorem ialloc_ensures (working : system.Working held locked) (type : Nat) :
    Ensures (onVolume (ialloc type)) system (fun _ after => after.Working held locked)
      OtherPanic := by
  refine (onVolume_ensures (ialloc_consistent working.consistent type)).mono ?_ fun _ _ => id
  rintro inum after ⟨volume, ⟨consistent, free, dinode⟩, rfl⟩
  refine working.replace inum consistent ?_ (fun _ _ => rfl) ?_ (working.refs inum)
    (fun _ _ => le_rfl) working.locked
  · intro other different
    change volume.dinode other = _
    rw [dinode, Function.update_of_ne different]
  · -- no valid copy is of a free inode
    intro valid
    exact absurd free (working.synced inum valid).2

theorem createDots_ensures {ip : Nat} (working : system.Working held locked)
    (parent : dp ∈ locked) (member : ip ∈ locked) :
    Ensures (createDots dp ip) system (fun _ after => after.Working held locked)
      OtherPanic := by
  refine .bind (updateInode_ensures working parent fun _ => ⟨rfl, rfl, rfl⟩) ?_
  rintro ⟨⟩ counted working
  refine .bind (dirlink_ensures working member _ _) ?_
  intro dot dotted working
  split
  · exact .throw (otherPanic (by decide))
  · refine .bind (dirlink_ensures working member _ _) ?_
    intro dotdot last working
    split
    · exact .throw (otherPanic (by decide))
    · exact .pure working

theorem whenDir_ensures (working : system.Working held locked) {body : SysM Unit}
    (inner : Ensures body system (fun _ after => after.Working held locked) OtherPanic)
    (type : Nat) :
    Ensures (whenDir type body) system (fun _ after => after.Working held locked)
      OtherPanic := by
  unfold whenDir
  split
  · exact inner
  · exact .pure working

theorem createNew_ensures (working : system.Working (dp :: held) [dp]) (name : List UInt8)
    (type major minor : Nat) :
    Ensures (createNew dp name type major minor) system
      (fun ip after => after.Working (ip :: held) []) OtherPanic := by
  refine .bind (ialloc_ensures working type) ?_
  intro ip allocated working
  refine .bind (iget_ensures working) ?_
  rintro ⟨⟩ referred working
  refine .bind (ilock_held working mem_cons_self) ?_
  rintro ⟨⟩ entered working
  refine .bind (updateInode_ensures working mem_cons_self fun _ => ⟨rfl, rfl, rfl⟩) ?_
  rintro ⟨⟩ counted working
  have parent : dp ∈ [ip, dp] := List.mem_cons_of_mem _ mem_cons_self
  refine .bind (whenDir_ensures working
    (createDots_ensures working parent mem_cons_self) type) ?_
  rintro ⟨⟩ dotted working
  refine .bind (dirlink_ensures working parent name ip) ?_
  intro linked entered working
  split
  · exact .throw (otherPanic (by decide))
  · refine .bind (iput_only working.swap.unlockAll) ?_
    rintro ⟨⟩ last working
    exact .pure working

/-- `create` leaves a reference to the inode it returns. -/
theorem create_ensures (working : system.Working held []) (path : Path) (type major minor : Nat) :
    Ensures (create path type major minor) system
      (fun found => System.Obtained held [] (found.map fun ip => (ip, ()))) OtherPanic := by
  refine .bind (namex_ensures working path true) ?_
  rintro (_ | ⟨dp, name⟩) middle obtained
  · exact .pure obtained
  · refine .bind (ilock_held obtained mem_cons_self) ?_
    rintro ⟨⟩ entered working
    refine .bind (dirlookup_ensures working mem_cons_self name) ?_
    rintro (_ | ⟨ip, off⟩) looked obtained
    · refine .bind (createNew_ensures obtained name type major minor) ?_
      intro ip last working
      exact .pure working
    · have both : looked.Working (ip :: dp :: held) [dp] := obtained
      refine .bind (iput_only both.swap.unlockAll) ?_
      rintro ⟨⟩ left working
      refine .bind (ilock_held working mem_cons_self) ?_
      rintro ⟨⟩ locked_ working
      refine current_bind ?_
      split
      · exact .pure working.unlockAll
      · refine .bind (iput_only working.unlockAll) ?_
        rintro ⟨⟩ last working
        exact .pure working

theorem openFile_ensures {ip : Nat} (working : system.Working (ip :: held) []) (available : Bool) :
    Ensures (openFile ip available) system (fun _ after => after.Working held [])
      OtherPanic := by
  have leave : Ensures (do iput ip; pure (-1) : SysM Int) system
      (fun _ after => after.Working held []) OtherPanic := by
    refine .bind (iput_only working) ?_
    rintro ⟨⟩ last working
    exact .pure working
  refine current_bind ?_
  split
  · exact leave
  · split
    · have kept := working.spare fun _ among => absurd among not_mem_nil
      exact .modify (.pure ⟨kept.consistent, kept.synced, kept.refs, kept.locked⟩)
    · exact leave

theorem sysOpen_ensures (working : system.Working held []) (path : Path)
    (o_create o_rdonly available : Bool) :
    Ensures (sysOpen path o_create o_rdonly available) system
      (fun _ after => after.Working held []) OtherPanic := by
  unfold sysOpen
  split
  · refine .bind (create_ensures working path tFile 0 0) ?_
    rintro (_ | ip) middle obtained
    · exact .pure obtained
    · exact openFile_ensures obtained available
  · refine .bind (namex_ensures working path false) ?_
    rintro (_ | ⟨ip, name⟩) middle obtained
    · exact .pure obtained
    · refine .bind (ilock_held obtained mem_cons_self) ?_
      rintro ⟨⟩ entered working
      refine current_bind ?_
      split
      · refine .bind (iput_only working.unlockAll) ?_
        rintro ⟨⟩ last working
        exact .pure working
      · exact openFile_ensures working.unlockAll available

theorem sysCreate_ensures (working : system.Working held []) (path : Path)
    (type major minor : Nat) :
    Ensures (sysCreate path type major minor) system (fun _ after => after.Working held [])
      OtherPanic := by
  refine .bind (create_ensures working path type major minor) ?_
  rintro (_ | ip) middle obtained
  · exact .pure obtained
  · refine .bind (iput_only obtained) ?_
    rintro ⟨⟩ last working
    exact .pure working

theorem removeEntry_ensures {ip : Nat} (working : system.Working (ip :: dp :: held) [ip, dp])
    (off : Nat) :
    Ensures (removeEntry dp ip off) system (fun _ after => after.Working held [])
      OtherPanic := by
  have parent : dp ∈ [ip, dp] := List.mem_cons_of_mem _ mem_cons_self
  refine current_bind (.bind (writeDirent_ensures working parent _ _) ?_)
  intro r erased working
  split
  · exact .throw (otherPanic (by decide))
  · refine .bind (whenDir_ensures working ?_ _) ?_
    · exact updateInode_ensures working parent fun _ => ⟨rfl, rfl, rfl⟩
    rintro ⟨⟩ fewer working
    have only : fewer.Working (dp :: ip :: held) [ip] := by
      refine working.swap.unlock fun other among => ?_
      obtain rfl := List.mem_singleton.mp among
      exact mem_cons_self
    refine .bind (iput_ensures only fun other among => ?_) ?_
    · obtain rfl := List.mem_singleton.mp among
      exact mem_cons_self
    rintro ⟨⟩ left working
    refine .bind (updateInode_ensures working mem_cons_self fun _ => ⟨rfl, rfl, rfl⟩) ?_
    rintro ⟨⟩ uncounted working
    refine .bind (iput_only working.unlockAll) ?_
    rintro ⟨⟩ last working
    exact .pure working

theorem isRemovable_ensures {ip : Nat} (working : system.Working held locked)
    (member : ip ∈ locked) (type : Nat) :
    Ensures (isRemovable type ip) system (fun _ after => after = system) OtherPanic := by
  unfold isRemovable
  split
  · exact isdirempty_ensures working member
  · exact .pure rfl

theorem sysUnlink_ensures (working : system.Working held []) (path : Path) :
    Ensures (sysUnlink path) system (fun _ after => after.Working held []) OtherPanic := by
  have leave : ∀ {system : System} {dp : Nat}, system.Working (dp :: held) [] →
      Ensures (do iput dp; pure (-1) : SysM Int) system
        (fun _ after => after.Working held []) OtherPanic := by
    intro system dp working
    refine .bind (iput_only working) ?_
    rintro ⟨⟩ last working
    exact .pure working
  refine .bind (namex_ensures working path true) ?_
  rintro (_ | ⟨dp, name⟩) middle obtained
  · exact .pure obtained
  · refine .bind (ilock_held obtained mem_cons_self) ?_
    rintro ⟨⟩ entered working
    split
    · exact leave working.unlockAll
    · refine .bind (dirlookup_ensures working mem_cons_self name) ?_
      rintro (_ | ⟨ip, off⟩) looked obtained
      · exact leave (System.Working.unlockAll obtained)
      · refine .bind (ilock_held obtained mem_cons_self) ?_
        rintro ⟨⟩ locked_ working
        refine current_bind ?_
        split
        · exact .throw (otherPanic (by decide))
        · refine .bind (isRemovable_ensures working mem_cons_self _) ?_
          rintro removable same rfl
          split
          · exact removeEntry_ensures working off
          · refine .bind (iput_only working.unlockAll) ?_
            rintro ⟨⟩ last working
            exact leave working

theorem onFile_ensures (working : system.Working [] []) (index : Nat) {body : Nat → SysM Int}
    (inner : ∀ inum, Ensures (body inum) system (fun _ after => after.Working [] [])
      OtherPanic) :
    Ensures (onFile index body) system (fun _ after => after.Working [] []) OtherPanic := by
  refine .get ?_
  split
  · exact .pure working
  · exact inner _

theorem sysClose_ensures (working : system.Working [] []) (index : Nat) :
    Ensures (sysClose index) system (fun _ after => after.Working [] []) OtherPanic := by
  refine .get ?_
  split
  · exact .pure working
  · have closed : { system with files := system.files.eraseIdx index }.Working [] [] :=
      ⟨working.consistent, working.synced, working.refs, working.locked⟩
    refine .set (.bind (iput_spare closed fun member => absurd member not_mem_nil) ?_)
    rintro ⟨⟩ last working
    exact .pure working

/-- Every call takes the file system from one settled state to another. -/
theorem FsCall.perform_ensures (working : system.Working [] []) (call : FsCall) :
    Ensures call.perform system (fun _ after => after.Working [] []) OtherPanic := by
  cases call with
  | «open» path o_create o_rdonly available =>
    exact sysOpen_ensures working path o_create o_rdonly available
  | mkdir path => exact sysCreate_ensures working path tDir 0 0
  | mknod path major minor => exact sysCreate_ensures working path tDevice major minor
  | unlink path => exact sysUnlink_ensures working path
  | write pagetable memory index src off n =>
    refine onFile_ensures working index fun inum => .bind (ilock_borrowed working) ?_
    rintro ⟨⟩ entered working
    refine .bind (writeInode_ensures working mem_cons_self _ _ _ _ _ _) ?_
    intro r last working
    exact .pure working.finish
  | read pagetable memory index dst off n =>
    refine onFile_ensures working index fun inum => .bind (ilock_borrowed working) ?_
    rintro ⟨⟩ entered working
    refine .bind (readInode_ensures working mem_cons_self _ _ _ _ _ _) ?_
    rintro r last rfl
    exact .pure working.finish
  | close index => exact sysClose_ensures working index

end Calls

/-! ## Runs -/

/-- A call and the transaction it finds itself in: the blocks that other calls have
logged, and how many calls are outstanding. -/
structure Request where
  lh : List Nat
  outstanding : Nat
  call : FsCall

/-- The state in which a call starts. -/
def System.begin (system : System) (request : Request) : System :=
  { system with
    volume := { system.volume with lh := request.lh, outstanding := request.outstanding } }

/-- The state a call leaves, unless it panics. -/
def System.answer (system : System) (request : Request) : Option System :=
  endsWith request.call.perform (system.begin request) fun _ after => after

/-- Sequences of calls that come to their ends. -/
def System.calls (initial : System) : LabelledSystem System Request :=
  .ofFunction (· = initial) System.answer

/-- The free map marks a block if and only if it is metadata or exactly one cell
points to it. -/
def Volume.Accounted (volume : Volume) : Prop :=
  ∀ b, volume.used b = true ↔ volume.sb.Metadata b ∨
    ∃! owner : Nat × Nat, volume.Owns owner.1 owner.2 b

/-- On a consistent volume the owner is the only one. -/
theorem Volume.Consistent.accounted {volume : Volume} (consistent : volume.Consistent) :
    volume.Accounted := by
  intro b
  rw [consistent.marked]
  refine or_congr_right ?_
  constructor
  · rintro ⟨inum, cell, owns⟩
    refine ⟨(inum, cell), owns, ?_⟩
    rintro ⟨other, place⟩ theirs
    obtain ⟨rfl, rfl⟩ := consistent.unique theirs owns
    rfl
  · rintro ⟨⟨inum, cell⟩, owns, -⟩
    exact ⟨inum, cell, owns⟩

theorem System.Working.begin {system : System} (working : system.Working [] [])
    (request : Request) : (system.begin request).Working [] [] :=
  ⟨working.consistent.congr rfl rfl rfl rfl, working.synced, working.refs, working.locked⟩

/-- From a file system in which every block has at most one owner, none of the metadata
has one, the free map marks just the metadata and the owned blocks, and no file has a
hole below its size, every sequence of calls leads to such a file system. On the way
no call frees a free block. -/
theorem blocks_stay_accounted {initial : System} (consistent : initial.volume.Consistent)
    (synced : initial.Synced) {requests : List Request} {reached : System}
    (runs : initial.calls.Runs requests reached) :
    reached.volume.Consistent ∧ reached.volume.Accounted ∧
      ∀ request : Request, stopsWith request.call.perform (reached.begin request) ≠
        some .freeingFreeBlock := by
  have working : reached.Working [] [] := by
    refine runs.invariant (fun system => system.Working [] []) ?_ ?_
    · rintro system rfl
      exact ⟨consistent, synced, (fun _ among => absurd among not_mem_nil), fun _ among => absurd among not_mem_nil⟩
    · intro system request next working ends
      have kept := request.call.perform_ensures (working.begin request)
      obtain ⟨value, after, good, rfl⟩ := endsWith_of_ensures kept ends
      exact good
  refine ⟨working.consistent, working.consistent.accounted, fun request stops => ?_⟩
  have kept := request.call.perform_ensures (working.begin request)
  unfold stopsWith at stops
  split at stops
  next => cases stops
  next cause after run => exact kept.stopped run (Option.some.inj stops)

/-! ## A small volume -/

/-- A volume with a root directory in block 47 and a file named "a" with the pointers
`addrs`. -/
def smallVolume (size : Nat) (addrs : Nat → Nat) : Volume :=
  { freshVolume with
    used := fun b => decide (b < 48) && decide (b ≠ 46)
    dinode := fun inum =>
      if inum = 1 then
        { freshDinode tDir with
          nlink := 1, size := direntSize, addrs := fun index => if index = 0 then 47 else 0 }
      else if inum = 2 then
        { freshDinode tFile with nlink := 1, size := size, addrs := addrs }
      else freshDinode 0
    block := fun b => if b = 47 then patch (fun _ => 0) 0 (dirent 2 [97]) else fun _ => 0 }

/-- The small volume after a restart, with the file open. -/
def smallSystem (size : Nat) (addrs : Nat → Nat) : System where
  volume := smallVolume size addrs
  icache inum := { ref := if inum = 2 then 1 else 0, valid := false, copy := freshDinode 0 }
  cwd := rootino
  files := [2]

/-- Unlink the file. -/
def unlinkSmall : Request where
  lh := []
  outstanding := 1
  call := .unlink ⟨true, [[97]]⟩

/-- Close the file. -/
def closeSmall : Request where
  lh := []
  outstanding := 1
  call := .close 0

/-- Read from the file. -/
def readSmall : Request where
  lh := []
  outstanding := 1
  call := .read (fun _ => none) (fun _ => 0) 0 0 0 1

theorem Volume.pointer_direct (volume : Volume) {addrs : Nat → Nat}
    (direct : ∀ index, ndirect ≤ index → addrs index = 0) (cell : Nat) :
    volume.pointer addrs cell = addrs cell := by
  rcases Nat.lt_or_ge ndirect cell with high | low
  · rw [Volume.pointer_high high, if_pos (direct ndirect le_rfl), direct cell high.le]
  · exact Volume.pointer_addrs _ _ low

section Small

variable {size : Nat} {addrs : Nat → Nat}

/-- Who owns what depends on the inodes on disk alone. -/
theorem owns_iff_small {volume : Volume} (same : volume.dinode = (smallVolume size addrs).dinode)
    (direct : ∀ index, ndirect ≤ index → addrs index = 0) {inum cell b : Nat} :
    volume.Owns inum cell b ↔ b ≠ 0 ∧ (inum = 1 ∧ cell = 0 ∧ b = 47 ∨ inum = 2 ∧ addrs cell = b) := by
  have root : ∀ index, ndirect ≤ index → (if index = 0 then 47 else 0) = 0 := by
    intro index high
    have first := ndirect_eq
    rw [if_neg (by omega)]
  constructor
  · rintro ⟨taken, inside, held, present⟩
    refine ⟨present, ?_⟩
    simp only [same, smallVolume] at taken held
    split_ifs at taken held with one two
    · left
      rw [Volume.pointer_direct _ root] at held
      refine ⟨one, ?_, ?_⟩ <;> split_ifs at held <;> omega
    · right
      rw [Volume.pointer_direct _ direct] at held
      exact ⟨two, held⟩
    · exact absurd rfl taken
  · rintro ⟨present, ⟨rfl, rfl, rfl⟩ | ⟨rfl, held⟩⟩
    · refine ⟨?_, by decide, ?_, by decide⟩ <;> rw [same]
      · exact show tDir ≠ 0 by decide
      · exact Volume.pointer_direct _ root 0
    · refine ⟨?_, ?_, ?_, present⟩
      · rw [same]
        exact show tFile ≠ 0 by decide
      · by_contra high
        have first := ndirect_eq
        have limit := maxfile_eq
        have vacant := direct cell (by omega)
        omega
      · rw [same]
        exact (Volume.pointer_direct _ direct cell).trans held

theorem smallVolume_owns (direct : ∀ index, ndirect ≤ index → addrs index = 0) {inum cell b : Nat} :
    (smallVolume size addrs).Owns inum cell b ↔
      b ≠ 0 ∧ (inum = 1 ∧ cell = 0 ∧ b = 47 ∨ inum = 2 ∧ addrs cell = b) :=
  owns_iff_small rfl direct

/-- The free map of the small volume is exact as long as it is for the file. -/
theorem smallVolume_accounted (direct : ∀ index, ndirect ≤ index → addrs index = 0)
    (apart : ∀ index, addrs index ≠ 47) (few : ∀ b, 46 ≤ b → ¬∃! index, addrs index = b) :
    (smallVolume size addrs).Accounted := by
  intro b
  have marked : (smallVolume size addrs).used b = true ↔ b < 48 ∧ b ≠ 46 := by
    simp [smallVolume]
  have metadata : (smallVolume size addrs).sb.Metadata b ↔ b < 46 := by
    have end_ : freshVolume.sb.bmapstart + (freshVolume.sb.size / bpb + 1) = 46 := by decide
    change b < freshVolume.sb.bmapstart + (freshVolume.sb.size / bpb + 1) ↔ _
    rw [end_]
  rw [marked, metadata]
  by_cases low : b < 46
  · exact iff_of_true (by omega) (.inl low)
  · by_cases root : b = 47
    · subst root
      refine iff_of_true (by omega) (.inr ⟨(1, 0), ?_, ?_⟩)
      · exact (smallVolume_owns direct).mpr ⟨by decide, .inl ⟨rfl, rfl, rfl⟩⟩
      · rintro ⟨inum, cell⟩ owns
        obtain ⟨-, ⟨rfl, rfl, -⟩ | ⟨-, held⟩⟩ := (smallVolume_owns direct).mp owns
        · rfl
        · exact absurd held (apart cell)
    · refine iff_of_false (by omega) ?_
      rintro (impossible | ⟨⟨inum, cell⟩, owns, only⟩)
      · exact low impossible
      · obtain ⟨present, ⟨-, -, equal⟩ | ⟨rfl, held⟩⟩ := (smallVolume_owns direct).mp owns
        · exact root equal
        · refine few b (by omega) ⟨cell, held, fun other same => ?_⟩
          have theirs := only (2, other)
            ((smallVolume_owns direct).mpr ⟨present, .inr ⟨rfl, same⟩⟩)
          exact congrArg Prod.snd theirs

theorem smallSystem_synced : (smallSystem size addrs).Synced :=
  fun _ valid => absurd valid Bool.false_ne_true

/-- With an empty file the small volume is consistent. -/
theorem smallVolume_consistent : (smallVolume 0 fun _ => 0).Consistent := by
  have owns : ∀ {inum cell b}, (smallVolume 0 fun _ => 0).Owns inum cell b ↔
      inum = 1 ∧ cell = 0 ∧ b = 47 := by
    intro inum cell b
    rw [smallVolume_owns fun _ _ => rfl]
    omega
  have accounted : (smallVolume 0 fun _ => 0).Accounted :=
    smallVolume_accounted (fun _ _ => rfl) (fun _ => by decide) fun b high => by
      rintro ⟨index, held, -⟩
      omega
  refine ⟨by decide, ?_, ?_, ?_, ?_⟩
  · intro b
    rw [accounted b]
    refine or_congr_right ?_
    constructor
    · rintro ⟨⟨inum, cell⟩, held, -⟩
      exact ⟨inum, cell, held⟩
    · rintro ⟨inum, cell, held⟩
      refine ⟨(inum, cell), held, ?_⟩
      rintro ⟨other, place⟩ theirs
      obtain ⟨rfl, rfl, -⟩ := owns.mp held
      obtain ⟨rfl, rfl, -⟩ := owns.mp theirs
      rfl
  · intro first second left right b one two
    obtain ⟨rfl, rfl, -⟩ := owns.mp one
    obtain ⟨rfl, rfl, -⟩ := owns.mp two
    exact ⟨rfl, rfl⟩
  · intro inum cell b held
    obtain ⟨-, -, rfl⟩ := owns.mp held
    exact fun metadata => absurd (show 47 < 46 from metadata) (by decide)
  · intro inum taken bn inside below
    by_cases one : inum = 1
    · subst one
      have block := bsize_eq
      change bn * bsize < direntSize at below
      have size : direntSize = 16 := rfl
      obtain rfl : bn = 0 := by
        rw [block, size] at below
        omega
      decide
    · by_cases two : inum = 2
      · subst two
        exact absurd below (Nat.not_lt_zero _)
      · simp only [smallVolume, if_neg one, if_neg two] at taken
        exact absurd rfl taken

end Small

/-- Reading a byte of a file does not write an inode to disk. -/
theorem readByte_dinode {pagetable : UserPages} {volume : Volume} {ip : Inode} {off dst : Nat}
    {memory : Nat → UInt8} (sane : volume.Sane) (tidy : volume.Tidy ip.addrs)
    (inside : off / bsize < maxfile) :
    Ensures (readLoop pagetable true 1 0 off dst memory ip) volume
      (fun _ after => after.dinode = volume.dinode) OtherPanic := by
  have positive := chunk_positive off Nat.one_pos
  rw [readLoop, if_pos Nat.one_pos]
  refine .bind ((bmap_ensures sane tidy inside).mono (fun _ _ => id)
    fun _ _ => Exhausted.other) ?_
  rintro ⟨addr, grown⟩ after ⟨extends_, -, -⟩
  refine .get ?_
  dsimp only
  split
  · rw [readLoop, if_neg (by omega)]
    exact .pure extends_.dinode
  · exact .pure extends_.dinode

/-- Unlinking and closing an empty file leaves the volume consistent. -/
theorem blocks_stay_accounted_unlinked :
    ∃ reached, (smallSystem 0 fun _ => 0).calls.Runs [unlinkSmall, closeSmall] reached ∧
      reached.volume.Consistent ∧ reached.volume.Accounted ∧
      stopsWith unlinkSmall.call.perform (reached.begin unlinkSmall) ≠
        some .freeingFreeBlock := by
  have found : (LabelledSystem.exec System.answer (smallSystem 0 fun _ => 0)
      [unlinkSmall, closeSmall]).isSome = true := by decide +kernel
  obtain ⟨reached, result⟩ := Option.isSome_iff_exists.mp found
  have runs : (smallSystem 0 fun _ => 0).calls.Runs [unlinkSmall, closeSmall] reached :=
    .of_exec rfl result
  obtain ⟨consistent, accounted, safe⟩ :=
    blocks_stay_accounted smallVolume_consistent smallSystem_synced runs
  exact ⟨reached, runs, consistent, accounted, safe unlinkSmall⟩

/-- The copy of the small file when it has a hole. -/
def hollow : Inode :=
  { freshDinode tFile with nlink := 1, size := 1024, inum := 2 }

theorem hollow_dinode :
    Ensures (readi (fun _ => none) (fun _ => 0) hollow true 0 0 1)
      ((smallSystem 1024 fun _ => 0).begin readSmall).volume
      (fun _ after => after.dinode = (smallVolume 1024 fun _ => 0).dinode) OtherPanic := by
  have vacant : ∀ cell, ((smallSystem 1024 fun _ => 0).begin readSmall).volume.pointer
      hollow.addrs cell = 0 :=
    fun cell => Volume.pointer_direct _ (fun _ _ => rfl) cell
  have tidy : ((smallSystem 1024 fun _ => 0).begin readSmall).volume.Tidy hollow.addrs :=
    ⟨fun cell _ present => absurd (vacant cell) present,
      fun first _ _ _ present => absurd (vacant first) present⟩
  change Ensures (do
    let done ← readLoop (fun _ => none) true 1 0 0 0 (fun _ => 0) hollow
    pure ⟨asInt 1, done.ip, done.memory, done.moved⟩ : FsM Transfer) _ _ _
  refine .bind (readByte_dinode ⟨rfl, by decide⟩ tidy (by decide)) ?_
  intro done after same
  exact .pure same

/-- The small file with a hole: reading it marks a block that no inode on disk
points to. -/
theorem hole_leaks {reached : System}
    (result : (smallSystem 1024 fun _ => 0).answer readSmall = some reached) :
    ¬reached.volume.Accounted := by
  have disk : reached.volume.dinode = (smallVolume 1024 fun _ => 0).dinode := by
    have kept : Ensures readSmall.call.perform ((smallSystem 1024 fun _ => 0).begin readSmall)
        (fun _ after => after.volume.dinode = (smallVolume 1024 fun _ => 0).dinode)
        OtherPanic := by
      change Ensures (do
        let r ← (do
          let r ← onVolume (readi (fun _ => none) (fun _ => 0) hollow true 0 0 1)
          store r.ip
          pure r)
        pure r.returned : SysM Int)
        (((smallSystem 1024 fun _ => 0).begin readSmall).setEntry 2
          ⟨1, true, hollow.toDinode⟩) _ _
      have stored : ∀ r middle, (∃ volume : Volume, volume.dinode =
          (smallVolume 1024 fun _ => 0).dinode ∧ middle = System.mk volume
            (((smallSystem 1024 fun _ => 0).begin readSmall).setEntry 2
              ⟨1, true, hollow.toDinode⟩).icache rootino [2]) →
          Ensures (do store r.ip; pure r : SysM Transfer) middle
            (fun _ after => after.volume.dinode = (smallVolume 1024 fun _ => 0).dinode)
            OtherPanic := by
        rintro r middle ⟨volume, same, rfl⟩
        exact .modify (.pure same)
      refine .bind (.bind (onVolume_ensures hollow_dinode) stored) ?_
      intro r after same
      exact .pure same
    obtain ⟨value, after, same, rfl⟩ := endsWith_of_ensures kept result
    exact same
  have found : ((smallSystem 1024 fun _ => 0).answer readSmall).all (fun reached =>
      reached.volume.used 46 && decide (reached.volume.sb.bmapstart +
        (reached.volume.sb.size / bpb + 1) ≤ 46)) = true := by
    decide +kernel
  rw [result, Option.all_some, Bool.and_eq_true, decide_eq_true_eq] at found
  intro accounted
  rcases (accounted 46).mp found.1 with metadata | ⟨⟨inum, cell⟩, owns, -⟩
  · exact absurd metadata (Nat.not_lt.mpr found.2)
  · have owner := (owns_iff_small disk fun _ _ => rfl).mp owns
    omega

/-- That the free map is exact to begin with is not enough. Two cells of a file may
share an unmarked block, which freeing the file frees although it is free; a cell may
point to the metadata, which freeing the file then frees; and reading a file with a
hole marks a block that is recorded nowhere. -/
theorem free_map_alone_is_not_enough :
    (∃ reached, (smallSystem 2048 fun index => if index < 2 then 46 else 0).volume.Accounted ∧
      (smallSystem 2048 fun index => if index < 2 then 46 else 0).calls.Runs
        [unlinkSmall] reached ∧
      stopsWith closeSmall.call.perform (reached.begin closeSmall) = some .freeingFreeBlock) ∧
    (∃ reached, (smallSystem 1024 fun index => if index < 1 then 5 else 0).volume.Accounted ∧
      (smallSystem 1024 fun index => if index < 1 then 5 else 0).calls.Runs
        [unlinkSmall, closeSmall] reached ∧ ¬reached.volume.Accounted) ∧
    ∃ reached, (smallSystem 1024 fun _ => 0).volume.Accounted ∧
      (smallSystem 1024 fun _ => 0).calls.Runs [readSmall] reached ∧
      ¬reached.volume.Accounted := by
  refine ⟨?_, ?_, ?_⟩
  · have found : (LabelledSystem.exec System.answer
        (smallSystem 2048 fun index => if index < 2 then 46 else 0) [unlinkSmall]).any
        (fun reached => decide (stopsWith closeSmall.call.perform (reached.begin closeSmall) =
          some .freeingFreeBlock)) = true := by decide +kernel
    obtain ⟨reached, result, stops⟩ := (Option.any_eq_true _ _).mp found
    refine ⟨reached, smallVolume_accounted ?_ ?_ ?_, .of_exec rfl result,
      of_decide_eq_true stops⟩
    · intro index high
      have first := ndirect_eq
      exact if_neg (by omega)
    · intro index same
      split_ifs at same
      omega
    · rintro b high ⟨index, held, only⟩
      have both : ∀ other < 2, (if other < 2 then 46 else 0) = b := by
        intro other low
        rw [if_pos low]
        split_ifs at held <;> omega
      have first := only 0 (both 0 (by omega))
      have second := only 1 (both 1 (by omega))
      omega
  · have found : (LabelledSystem.exec System.answer
        (smallSystem 1024 fun index => if index < 1 then 5 else 0)
        [unlinkSmall, closeSmall]).any
        (fun reached => decide (reached.volume.used 5 = false) &&
          decide (5 < reached.volume.sb.bmapstart)) = true := by decide +kernel
    obtain ⟨reached, result, lost⟩ := (Option.any_eq_true _ _).mp found
    rw [Bool.and_eq_true, decide_eq_true_eq, decide_eq_true_eq] at lost
    refine ⟨reached, smallVolume_accounted ?_ ?_ ?_, .of_exec rfl result,
      fun accounted => ?_⟩
    · intro index high
      have first := ndirect_eq
      exact if_neg (by omega)
    · intro index same
      split_ifs at same
      omega
    · rintro b high ⟨index, held, -⟩
      split_ifs at held <;> omega
    · have marked := (accounted 5).mpr (.inl (Nat.lt_of_lt_of_le lost.2 (Nat.le_add_right _ _)))
      rw [lost.1] at marked
      cases marked
  · have found : ((smallSystem 1024 fun _ => 0).answer readSmall).isSome = true := by
      decide +kernel
    obtain ⟨reached, result⟩ := Option.isSome_iff_exists.mp found
    refine ⟨reached, smallVolume_accounted (fun _ _ => rfl) (fun _ => by decide) ?_,
      .of_exec rfl ?_, hole_leaks result⟩
    · rintro b high ⟨index, held, -⟩
      omega
    · rw [LabelledSystem.exec, result]
      rfl

end Ev6.FileSystem
