import Ev6.FileSystem.Ownership

/-!
# Inodes in memory, directories and path names

`icache` keeps copies of inodes with their reference counts; the functions name an
inode by its number and read and change the copy. A directory is a file of
16-byte entries. On these are built the system calls that create, link and remove
names. Which slot of the cache a copy occupies is left out, and with it the panic
when none is left; so are the locks, since the calls run one after the other.
-/

namespace Ev6.FileSystem

open Support

/-- `T_DIR`. -/
def tDir : Nat := 1

/-- `T_FILE`. -/
def tFile : Nat := 2

/-- `T_DEVICE`. -/
def tDevice : Nat := 3

/-- `ROOTINO`. -/
def rootino : Nat := 1

/-- An entry of the inode cache. -/
structure Cached where
  ref : Nat
  valid : Bool
  copy : Dinode

/-- The file system with its inode cache, the current directory and the inodes of the
open files. -/
structure System where
  volume : Volume
  icache : Nat → Cached
  cwd : Nat
  files : List Nat

/-- Code that works on the file system and may panic. -/
abbrev SysM := EStateM Panic System

/-- Run code on the volume. -/
def onVolume {α : Type} (program : FsM α) : SysM α := fun system =>
  match program.run system.volume with
  | .ok value volume => .ok value { system with volume := volume }
  | .error panic volume => .error panic { system with volume := volume }

/-- Change the entry of an inode. -/
def System.setEntry (system : System) (inum : Nat) (entry : Cached) : System :=
  { system with icache := Function.update system.icache inum entry }

/-- The copy of an inode in memory. -/
def System.inode (system : System) (inum : Nat) : Inode :=
  { (system.icache inum).copy with inum := inum }

/-- Get the copy of an inode in memory. -/
def current (inum : Nat) : SysM Inode := do
  let system ← get
  pure (system.inode inum)

/-- Store to the copy of an inode in memory. -/
def store (ip : Inode) : SysM Unit :=
  modifyThe System fun system =>
    system.setEntry ip.inum { system.icache ip.inum with copy := ip.toDinode }

/-- `iget`. -/
def iget (inum : Nat) : SysM Unit :=
  modifyThe System fun system =>
    let entry := system.icache inum
    if 0 < entry.ref then system.setEntry inum { entry with ref := entry.ref + 1 }
    else system.setEntry inum { entry with ref := 1, valid := false }

/-- `idup`. -/
def idup (inum : Nat) : SysM Unit :=
  modifyThe System fun system =>
    let entry := system.icache inum
    system.setEntry inum { entry with ref := entry.ref + 1 }

/-- `ilock`: read the inode from disk if necessary. -/
def ilock (inum : Nat) : SysM Unit := do
  let system ← get
  let entry := system.icache inum
  if entry.ref < 1 then
    throw .ilock
  else if entry.valid then
    pure ()
  else do
    set (system.setEntry inum
      { entry with valid := true, copy := system.volume.dinode inum })
    if (system.volume.dinode inum).type = 0 then throw .ilockNoType else pure ()

/-- The end of `iput`: drop the reference. -/
def dropRef (inum : Nat) : SysM Unit :=
  modifyThe System fun system =>
    let entry := system.icache inum
    system.setEntry inum { entry with ref := entry.ref - 1 }

/-- The middle of `iput`: truncate the inode and free it. -/
def freeInode (inum : Nat) : SysM Unit := do
  let ip ← current inum
  let ip ← onVolume (itrunc ip)
  let ip := { ip with type := 0 }
  store ip
  onVolume (iupdate ip)
  modifyThe System fun system =>
    system.setEntry inum { system.icache inum with valid := false }

/-- `iput`. -/
def iput (inum : Nat) : SysM Unit := do
  let system ← get
  let entry := system.icache inum
  if entry.ref = 1 ∧ entry.valid = true ∧ entry.copy.nlink = 0 then do
    freeInode inum
    dropRef inum
  else
    dropRef inum

/-- `readi` on an inode in memory. -/
def readInode (pagetable : UserPages) (memory : Nat → UInt8) (inum : Nat) (user_dst : Bool)
    (dst : Nat) (off n : UInt32) : SysM Transfer := do
  let ip ← current inum
  let r ← onVolume (readi pagetable memory ip user_dst dst off n)
  store r.ip
  pure r

/-- `writei` on an inode in memory. -/
def writeInode (pagetable : UserPages) (memory : Nat → UInt8) (inum : Nat) (user_src : Bool)
    (src : Nat) (off n : UInt32) : SysM Transfer := do
  let ip ← current inum
  let r ← onVolume (writei pagetable memory ip user_src src off n)
  store r.ip
  pure r

/-- Assignments to fields of an inode, with the `iupdate` that follows them. -/
def updateInode (inum : Nat) (change : Dinode → Dinode) : SysM Unit := do
  let ip ← current inum
  let ip := { change ip.toDinode with inum := inum }
  store ip
  onVolume (iupdate ip)

/-! ## Directories -/

/-- `sizeof(struct dirent)`. -/
def direntSize : Nat := 16

/-- `DIRSIZ`. -/
def dirsiz : Nat := 14

/-- A name as `namecmp` sees it: at most `DIRSIZ` bytes, up to the first zero. -/
def cname (name : List UInt8) : List UInt8 :=
  (name.take dirsiz).takeWhile fun byte => byte != 0

/-- The bytes of a directory entry. -/
def dirent (inum : Nat) (name : List UInt8) : List UInt8 :=
  [UInt8.ofNat inum, UInt8.ofNat (inum / 0x100)] ++ cname name ++
    List.replicate (dirsiz - (cname name).length) 0

/-- `de.inum`. -/
def direntInum (de : Nat → UInt8) : Nat :=
  (de 0).toNat + 0x100 * (de 1).toNat

/-- `de.name`. -/
def direntName (de : Nat → UInt8) : List UInt8 :=
  cname (extract de 2 dirsiz)

/-- The loop over the entries of a directory from `off` on: the offset it ends at, and
the entry it has stopped at. -/
def dirscan (short : Panic) (hit : (Nat → UInt8) → Bool) (dp size off : Nat) :
    SysM (Nat × Option (Nat → UInt8)) :=
  if off < size then do
    let r ← readInode (fun _ => none) (fun _ => 0) dp false 0 (UInt32.ofNat off)
      (UInt32.ofNat direntSize)
    if r.returned ≠ direntSize then
      throw short
    else if hit r.memory then
      pure (off, some r.memory)
    else
      dirscan short hit dp size (off + direntSize)
  else
    pure (off, none)
termination_by size - off
decreasing_by
  have positive : 0 < direntSize := by decide
  omega

/-- `dirlookup`: the inode, which now has one more reference, and the offset of its
entry. -/
def dirlookup (dp : Nat) (name : List UInt8) : SysM (Option (Nat × Nat)) := do
  let ip ← current dp
  if ip.type ≠ tDir then
    throw .dirlookupNotDir
  else do
    let (off, found) ← dirscan .dirlookupRead
      (fun de => decide (direntInum de ≠ 0) && decide (cname name = direntName de)) dp ip.size 0
    match found with
    | none => pure none
    | some de => do
        iget (direntInum de)
        pure (some (direntInum de, off))

/-- Write a directory entry at an offset. -/
def writeDirent (dp off : Nat) (bytes : List UInt8) : SysM Transfer :=
  writeInode (fun _ => none) (patch (fun _ => 0) 0 bytes) dp false 0 (UInt32.ofNat off)
    (UInt32.ofNat direntSize)

/-- `dirlink`. -/
def dirlink (dp : Nat) (name : List UInt8) (inum : Nat) : SysM Int := do
  match ← dirlookup dp name with
  | some (found, _) => do
      iput found
      pure (-1)
  | none => do
      let ip ← current dp
      let (off, _) ← dirscan .dirlinkRead (fun de => decide (direntInum de = 0)) dp ip.size 0
      let r ← writeDirent dp off (dirent inum name)
      if r.returned ≠ direntSize then throw .dirlink else pure 0

/-- `isdirempty`. -/
def isdirempty (dp : Nat) : SysM Bool := do
  let ip ← current dp
  let (_, found) ← dirscan .isdiremptyReadi (fun de => decide (direntInum de ≠ 0)) dp ip.size
    (2 * direntSize)
  pure found.isNone

/-! ## Path names -/

/-- A path name: whether it starts at the root, and its elements. -/
structure Path where
  absolute : Bool
  elements : List (List UInt8)

/-- The loop of `namex` from inode `ip` on. -/
def namexLoop (parent : Bool) : Nat → List (List UInt8) → SysM (Option (Nat × List UInt8))
  | ip, [] =>
    if parent then do
      iput ip
      pure none
    else
      pure (some (ip, []))
  | ip, name :: rest => do
      ilock ip
      let copy ← current ip
      if copy.type ≠ tDir then do
        iput ip
        pure none
      else if parent && rest.isEmpty then
        pure (some (ip, name))
      else do
        match ← dirlookup ip name with
        | none => do
            iput ip
            pure none
        | some (next, _) => do
            iput ip
            namexLoop parent next rest

/-- `namex`: the inode of a path, or of its parent with the last element. -/
def namex (path : Path) (parent : Bool) : SysM (Option (Nat × List UInt8)) := do
  if path.absolute then do
    iget rootino
    namexLoop parent rootino path.elements
  else do
    let system ← get
    idup system.cwd
    namexLoop parent system.cwd path.elements

/-! ## System calls -/

/-- Addition on a `short`, kept as the 16 bits it has on disk. -/
def shortAdd (value : Nat) (change : Int) : Nat :=
  ((value + change) % 0x10000).toNat

/-- Whether a `short` is less than one. -/
def shortLt1 (value : Nat) : Bool :=
  value == 0 || decide (0x8000 ≤ value)

/-- Do something for directories only. -/
def whenDir (type : Nat) (body : SysM Unit) : SysM Unit :=
  if type = tDir then body else pure ()

/-- The part of `create` that makes a directory of the new inode. -/
def createDots (dp ip : Nat) : SysM Unit := do
  updateInode dp fun copy => { copy with nlink := shortAdd copy.nlink 1 }
  let dot ← dirlink ip [46] ip
  if dot < 0 then
    throw .createDots
  else do
    let dotdot ← dirlink ip [46, 46] dp
    if dotdot < 0 then throw .createDots else pure ()

/-- The part of `create` that makes a new inode under `dp`. -/
def createNew (dp : Nat) (name : List UInt8) (type major minor : Nat) : SysM Nat := do
  let ip ← onVolume (ialloc type)
  iget ip
  ilock ip
  updateInode ip fun copy => { copy with major := major, minor := minor, nlink := 1 }
  whenDir type (createDots dp ip)
  let linked ← dirlink dp name ip
  if linked < 0 then
    throw .createDirlink
  else do
    iput dp
    pure ip

/-- `create`: the inode, referenced and locked. -/
def create (path : Path) (type major minor : Nat) : SysM (Option Nat) := do
  match ← namex path true with
  | none => pure none
  | some (dp, name) => do
      ilock dp
      match ← dirlookup dp name with
      | some (ip, _) => do
          iput dp
          ilock ip
          let copy ← current ip
          if type = tFile ∧ (copy.type = tFile ∨ copy.type = tDevice) then
            pure (some ip)
          else do
            iput ip
            pure none
      | none => do
          let ip ← createNew dp name type major minor
          pure (some ip)

/-- The end of `sys_open`: put the inode into a file if there is one to be had. -/
def openFile (ip : Nat) (available : Bool) : SysM Int := do
  let copy ← current ip
  if copy.type = tDevice ∧ 10 ≤ copy.major then do
    iput ip
    pure (-1)
  else if available then do
    modifyThe System fun system => { system with files := ip :: system.files }
    pure 0
  else do
    iput ip
    pure (-1)

/-- `sys_open`; `available` says whether there is a free file and descriptor. -/
def sysOpen (path : Path) (o_create o_rdonly available : Bool) : SysM Int := do
  if o_create then do
    match ← create path tFile 0 0 with
    | none => pure (-1)
    | some ip => openFile ip available
  else do
    match ← namex path false with
    | none => pure (-1)
    | some (ip, _) => do
        ilock ip
        let copy ← current ip
        if copy.type = tDir ∧ o_rdonly = false then do
          iput ip
          pure (-1)
        else
          openFile ip available

/-- `sys_mkdir` and `sys_mknod`: create an inode and let go of it. -/
def sysCreate (path : Path) (type major minor : Nat) : SysM Int := do
  match ← create path type major minor with
  | none => pure (-1)
  | some ip => do
      iput ip
      pure 0

/-- The part of `sys_unlink` that removes the entry at `off` of `dp` for `ip`. -/
def removeEntry (dp ip off : Nat) : SysM Int := do
  let copy ← current ip
  let r ← writeDirent dp off (List.replicate direntSize 0)
  if r.returned ≠ direntSize then
    throw .unlinkWritei
  else do
    whenDir copy.type
      (updateInode dp fun copy => { copy with nlink := shortAdd copy.nlink (-1) })
    iput dp
    updateInode ip fun copy => { copy with nlink := shortAdd copy.nlink (-1) }
    iput ip
    pure 0

/-- Whether `sys_unlink` removes the inode: a directory has to be empty. -/
def isRemovable (type ip : Nat) : SysM Bool :=
  if type = tDir then isdirempty ip else pure true

/-- `sys_unlink`. -/
def sysUnlink (path : Path) : SysM Int := do
  match ← namex path true with
  | none => pure (-1)
  | some (dp, name) => do
      ilock dp
      if cname name = [46] ∨ cname name = [46, 46] then do
        iput dp
        pure (-1)
      else do
        match ← dirlookup dp name with
        | none => do
            iput dp
            pure (-1)
        | some (ip, off) => do
            ilock ip
            let copy ← current ip
            if shortLt1 copy.nlink then
              throw .unlinkNlink
            else do
              let removable ← isRemovable copy.type ip
              if removable then
                removeEntry dp ip off
              else do
                iput ip
                iput dp
                pure (-1)

/-- `sys_write` on an open file: one operation of `filewrite`. -/
def sysWrite (pagetable : UserPages) (memory : Nat → UInt8) (inum src : Nat) (off n : UInt32) :
    SysM Int := do
  ilock inum
  let r ← writeInode pagetable memory inum true src off n
  pure r.returned

/-- `sys_read` on an open file. -/
def sysRead (pagetable : UserPages) (memory : Nat → UInt8) (inum dst : Nat) (off n : UInt32) :
    SysM Int := do
  ilock inum
  let r ← readInode pagetable memory inum true dst off n
  pure r.returned

/-- `sys_close` of the last descriptor of an open file. -/
def sysClose (index : Nat) : SysM Int := do
  let system ← get
  match system.files[index]? with
  | none => pure (-1)
  | some inum => do
      set { system with files := system.files.eraseIdx index }
      iput inum
      pure 0

/-- A system call on files and directories. -/
inductive FsCall where
  | open (path : Path) (o_create o_rdonly available : Bool)
  | mkdir (path : Path)
  | mknod (path : Path) (major minor : Nat)
  | unlink (path : Path)
  | write (pagetable : UserPages) (memory : Nat → UInt8) (index src : Nat) (off n : UInt32)
  | read (pagetable : UserPages) (memory : Nat → UInt8) (index dst : Nat) (off n : UInt32)
  | close (index : Nat)

/-- The open file a descriptor stands for. -/
def onFile (index : Nat) (body : Nat → SysM Int) : SysM Int := do
  let system ← get
  match system.files[index]? with
  | none => pure (-1)
  | some inum => body inum

/-- Carry out a system call. -/
def FsCall.perform : FsCall → SysM Int
  | .open path o_create o_rdonly available => sysOpen path o_create o_rdonly available
  | .mkdir path => sysCreate path tDir 0 0
  | .mknod path major minor => sysCreate path tDevice major minor
  | .unlink path => sysUnlink path
  | .write pagetable memory index src off n =>
    onFile index fun inum => sysWrite pagetable memory inum src off n
  | .read pagetable memory index dst off n =>
    onFile index fun inum => sysRead pagetable memory inum dst off n
  | .close index => sysClose index

end Ev6.FileSystem
