import Ev6.FileSystem.ByteArray
import Ev6.FileSystem.Transfers
import Mathlib.Data.Finset.Card

/-!
# The blocks that one operation logs

`filewrite` splits a write into operations that are meant to fit into the part of the
log that `begin_op` reserves. `Traced` is the code that it runs, with a record of the
calls of `log_write` and of what each operation has found and left. Without the record
it is the code of the other modules. On a file system with one block of free map, no
operation logs more than `MAXOPBLOCKS` blocks, and the operations together write the
stretch of the file they are asked for.
-/

namespace Ev6.FileSystem

open Function (update)
open Support

/-- An operation: the file system and the inode that it has found and that it leaves,
and the blocks that it has called `log_write` on. -/
structure Operation where
  before : Volume
  ip : Inode
  after : Volume
  written : Inode
  calls : List Nat

/-- The file system with the calls of `log_write` since the last `begin_op`, and the
operations that have ended. -/
structure Traced where
  volume : Volume
  calls : List Nat
  ops : List Operation

/-- Code that keeps the record. -/
abbrev TracedM := EStateM Panic Traced

namespace Traced

/-- Run code that does not call `log_write`. -/
def lift {α : Type} (program : FsM α) : TracedM α := fun start =>
  match program start.volume with
  | .ok value volume => .ok value { start with volume := volume }
  | .error panic volume => .error panic { start with volume := volume }

/-! ## The code -/

/-- `log_write`, recorded. -/
def logWrite (blockno : Nat) : TracedM Unit := do
  modifyThe Traced fun traced => { traced with calls := traced.calls ++ [blockno] }
  lift (FileSystem.logWrite blockno)

/-- `bzero`. -/
def bzero (bno : Nat) : TracedM Unit := do
  lift (modify fun volume => { volume with block := update volume.block bno fun _ => 0 })
  logWrite bno

/-- `balloc`. -/
def balloc : TracedM Nat := do
  let volume ← lift get
  match firstSlot (fun b => !volume.used b) volume.sb.size with
  | none => lift (throw .outOfBlocks)
  | some b =>
    lift (set { volume with used := update volume.used b true })
    logWrite (volume.sb.bblock b)
    bzero b
    pure b

/-- The block `ip->addrs[index]` points to, allocated if there is none. -/
def addrsOrAlloc (ip : Inode) (index : Nat) : TracedM (Nat × Inode) :=
  if ip.addrs index = 0 then do
    let addr ← balloc
    pure (addr, { ip with addrs := update ip.addrs index addr })
  else
    pure (ip.addrs index, ip)

/-- The block that slot `bn` of the indirect block `addr` points to, allocated if
there is none. -/
def slotOrAlloc (addr bn : Nat) : TracedM Nat := do
  let volume ← lift get
  if entry (volume.block addr) bn = 0 then
    let slot ← balloc
    lift (modify fun volume =>
      { volume with
        block := update volume.block addr (setEntry (volume.block addr) bn slot) })
    logWrite addr
    pure slot
  else
    pure (entry (volume.block addr) bn)

/-- `bmap`. -/
def bmap (ip : Inode) (bn : Nat) : TracedM (Nat × Inode) :=
  if bn < ndirect then
    addrsOrAlloc ip bn
  else if bn - ndirect < nindirect then do
    let (addr, ip) ← addrsOrAlloc ip ndirect
    let slot ← slotOrAlloc addr (bn - ndirect)
    pure (slot, ip)
  else
    lift (throw .bmapOutOfRange)

/-- `iupdate`. -/
def iupdate (ip : Inode) : TracedM Unit := do
  let volume ← lift get
  lift (set { volume with dinode := update volume.dinode ip.inum ip.toDinode })
  logWrite (volume.sb.iblock ip.inum)

/-- The loop of `writei`, from `tot` on. -/
def writeLoop (pagetable : UserPages) (memory : Nat → UInt8) (user_src : Bool)
    (n tot off src : Nat) (ip : Inode) : TracedM WriteDone :=
  if tot < n then do
    let (addr, ip) ← bmap ip (off / bsize)
    let m := min (n - tot) (bsize - off % bsize)
    let copy := eitherCopyin pagetable memory user_src src m
    lift (modifyThe Volume fun volume =>
      { volume with
        block := update volume.block addr
          (patch (volume.block addr) (off % bsize) copy.bytes) })
    if copy.ok then do
      logWrite addr
      writeLoop pagetable memory user_src n (tot + m) (off + m) (src + m) ip
    else
      pure ⟨ip, off, tot + copy.bytes.length⟩
  else
    pure ⟨ip, off, tot⟩
termination_by n - tot
decreasing_by
  have inside := Nat.mod_lt off (show 0 < bsize by decide)
  omega

/-- `writei`. -/
def writei (pagetable : UserPages) (memory : Nat → UInt8) (ip : Inode) (user_src : Bool)
    (src : Nat) (off n : UInt32) : TracedM Transfer :=
  if ip.size < off.toNat ∨ off + n < off then
    pure ⟨-1, ip, memory, 0⟩
  else if maxfile * bsize < (off + n).toNat then
    pure ⟨-1, ip, memory, 0⟩
  else do
    let done ← writeLoop pagetable memory user_src n.toNat 0 off.toNat src ip
    if 0 < n then do
      iupdate (extendSize done.ip done.off)
      pure ⟨asInt n.toNat, extendSize done.ip done.off, memory, done.moved⟩
    else
      pure ⟨asInt n.toNat, done.ip, memory, done.moved⟩

/-- What is between `begin_op` and `end_op`, recorded. -/
def operation (begin_op : Volume → Volume) (ip : Inode) (body : TracedM Transfer) :
    TracedM Transfer := do
  modifyThe Traced fun traced => { traced with volume := begin_op traced.volume, calls := [] }
  let before ← lift get
  let r ← body
  modifyThe Traced fun traced =>
    { traced with ops := traced.ops ++ [⟨before, ip, traced.volume, r.ip, traced.calls⟩] }
  pure r

/-- The loop of `filewrite` from byte `i` on. -/
def filewriteLoop (pagetable : UserPages) (memory : Nat → UInt8) (addr n : Nat)
    (begin_op : Nat → Volume → Volume) (i : Nat) (off : UInt32) (ip : Inode) (moved : Nat) :
    TracedM (Nat × UInt32 × Inode × Nat) :=
  if i < n then do
    let n1 := min (n - i) filewriteMax
    let r ← operation (begin_op i) ip
      (writei pagetable memory ip true (addr + i) off (UInt32.ofNat n1))
    let off := if 0 < r.returned then off + UInt32.ofNat r.returned.toNat else off
    if r.returned < 0 then
      pure (i, off, r.ip, moved + r.moved)
    else if r.returned ≠ n1 then
      lift (throw .shortFilewrite)
    else
      filewriteLoop pagetable memory addr n begin_op (i + n1) off r.ip (moved + r.moved)
  else
    pure (i, off, ip, moved)
termination_by n - i
decreasing_by
  have positive := filewriteMax_eq
  omega

/-! ## Without the record -/

/-- An outcome without the record. -/
def forget {α : Type} : EStateM.Result Panic Traced α → EStateM.Result Panic Volume α
  | .ok value after => .ok value after.volume
  | .error panic after => .error panic after.volume

/-- Without the record, the first program is the second. -/
def Erases {α : Type} (traced : TracedM α) (plain : FsM α) : Prop :=
  ∀ start, forget (traced.run start) = plain.run start.volume

namespace Erases

variable {α β : Type}

theorem lift (program : FsM α) : Erases (Traced.lift program) program := by
  intro start
  simp only [EStateM.run, Traced.lift]
  cases program start.volume <;> rfl

theorem pure (value : α) : Erases (Pure.pure value) (Pure.pure value) := fun _ => rfl

variable {plain : FsM α} {traced : TracedM α}

theorem bind {next : α → TracedM β} {plainNext : α → FsM β}
    (first : Erases traced plain) (second : ∀ value, Erases (next value) (plainNext value)) :
    Erases (traced >>= next) (plain >>= plainNext) := by
  intro start
  have here := first start
  simp only [EStateM.run, Bind.bind, EStateM.bind] at here ⊢
  cases ran : traced start with
  | ok value after =>
    rw [ran] at here
    rw [← here]
    exact second value after
  | error panic after =>
    rw [ran] at here
    rw [← here]
    rfl

theorem record {change : Traced → Traced}
    (same : ∀ start, (change start).volume = start.volume) (behind : Erases traced plain) :
    Erases (modifyThe Traced change >>= fun _ => traced) plain := by
  intro start
  have here := behind (change start)
  rw [same] at here
  exact here

/-- What holds of the code holds of the recorded code. -/
theorem ensures {start : Traced}
    {good : α → Volume → Prop} {bad : Panic → Volume → Prop} (erases : Erases traced plain)
    (holds : Ensures plain start.volume good bad) :
    Ensures traced start (fun value after => good value after.volume)
      fun panic after => bad panic after.volume := by
  have here := erases start
  unfold Ensures at holds ⊢
  rw [← here] at holds
  cases ran : traced.run start <;> rw [ran] at holds <;> exact holds

end Erases

theorem erases_logWrite (blockno : Nat) : Erases (logWrite blockno) (FileSystem.logWrite blockno) :=
  .record (fun _ => rfl) (.lift _)

theorem erases_bzero (bno : Nat) : Erases (bzero bno) (FileSystem.bzero bno) :=
  .bind (.lift _) fun _ => erases_logWrite bno

theorem erases_balloc : Erases balloc FileSystem.balloc := by
  refine .bind (.lift _) fun volume => ?_
  cases firstSlot (fun b => !volume.used b) volume.sb.size with
  | none => exact .lift _
  | some b =>
    refine .bind (.lift _) fun _ => ?_
    refine .bind (erases_logWrite _) fun _ => ?_
    exact .bind (erases_bzero b) fun _ => .pure b

theorem erases_addrsOrAlloc (ip : Inode) (index : Nat) :
    Erases (addrsOrAlloc ip index) (FileSystem.addrsOrAlloc ip index) := by
  unfold addrsOrAlloc FileSystem.addrsOrAlloc
  split
  · exact .bind erases_balloc fun addr => .pure _
  · exact .pure _

theorem erases_slotOrAlloc (addr bn : Nat) :
    Erases (slotOrAlloc addr bn) (FileSystem.slotOrAlloc addr bn) := by
  refine .bind (.lift _) fun volume => ?_
  split
  · refine .bind erases_balloc fun slot => ?_
    refine .bind (.lift _) fun _ => ?_
    exact .bind (erases_logWrite addr) fun _ => .pure slot
  · exact .pure _

theorem erases_bmap (ip : Inode) (bn : Nat) : Erases (bmap ip bn) (FileSystem.bmap ip bn) := by
  unfold bmap FileSystem.bmap
  split
  · exact erases_addrsOrAlloc ip bn
  · split
    · refine .bind (erases_addrsOrAlloc ip ndirect) ?_
      rintro ⟨addr, grown⟩
      exact .bind (erases_slotOrAlloc addr _) fun slot => .pure _
    · exact .lift _

theorem erases_iupdate (ip : Inode) : Erases (iupdate ip) (FileSystem.iupdate ip) :=
  .bind (.lift _) fun _ => .bind (.lift _) fun _ => erases_logWrite _

theorem erases_writeLoop (pagetable : UserPages) (memory : Nat → UInt8) (user : Bool)
    (n tot off src : Nat) (ip : Inode) :
    Erases (writeLoop pagetable memory user n tot off src ip)
      (FileSystem.writeLoop pagetable memory user n tot off src ip) := by
  obtain ⟨left, rest⟩ : ∃ left, n - tot = left := ⟨_, rfl⟩
  induction left using Nat.strong_induction_on generalizing tot off src ip with
  | _ left ih =>
    rw [writeLoop, FileSystem.writeLoop]
    split
    next more =>
      have positive := chunk_positive off more
      refine .bind (erases_bmap ip _) ?_
      rintro ⟨addr, grown⟩
      refine .bind (.lift _) fun _ => ?_
      split
      · exact .bind (erases_logWrite addr) fun _ => ih _ (by omega) _ _ _ _ rfl
      · exact .pure _
    next => exact .pure _

theorem erases_writei (pagetable : UserPages) (memory : Nat → UInt8) (ip : Inode) (user : Bool)
    (src : Nat) (off n : UInt32) :
    Erases (writei pagetable memory ip user src off n)
      (FileSystem.writei pagetable memory ip user src off n) := by
  unfold writei FileSystem.writei
  split
  · exact .pure _
  · split
    · exact .pure _
    · refine .bind (erases_writeLoop pagetable memory user _ _ _ _ ip) fun done => ?_
      split
      · exact .bind (erases_iupdate _) fun _ => .pure _
      · exact .pure _

/-- The record of an operation leaves no trace in the file system. -/
theorem erases_operation {β : Type} {body : TracedM Transfer} {plain : FsM Transfer}
    {next : Transfer → TracedM β} {plainNext : Transfer → FsM β} (begin_op : Volume → Volume)
    (ip : Inode) (first : Erases body plain) (second : ∀ r, Erases (next r) (plainNext r)) :
    Erases (operation begin_op ip body >>= next)
      (modifyThe Volume begin_op >>= fun _ => plain >>= plainNext) := by
  have recorded : ∀ before, Erases
      (body >>= fun r => modifyThe Traced (fun traced => { traced with
        ops := traced.ops ++ [⟨before, ip, traced.volume, r.ip, traced.calls⟩] }) >>= fun _ =>
          Pure.pure r) (plain >>= Pure.pure) :=
    fun before => .bind first fun r => .record (fun _ => rfl) (.pure r)
  intro start
  have here := Erases.bind (recorded (begin_op start.volume)) second
    { start with volume := begin_op start.volume, calls := [] }
  rw [bind_pure] at here
  exact here

theorem erases_filewriteLoop (pagetable : UserPages) (memory : Nat → UInt8) (addr n : Nat)
    (begin_op : Nat → Volume → Volume) (i : Nat) (off : UInt32) (ip : Inode) (moved : Nat) :
    Erases (filewriteLoop pagetable memory addr n begin_op i off ip moved)
      (FileSystem.filewriteLoop pagetable memory addr n begin_op i off ip moved) := by
  have step := filewriteMax_eq
  obtain ⟨left, rest⟩ : ∃ left, n - i = left := ⟨_, rfl⟩
  induction left using Nat.strong_induction_on generalizing i off ip moved with
  | _ left ih =>
    rw [filewriteLoop, FileSystem.filewriteLoop]
    split
    next more =>
      refine erases_operation _ ip (erases_writei _ _ _ _ _ _ _) fun r => ?_
      split
      all_goals
        dsimp only
        split
        · exact .pure _
        · split
          · exact .lift _
          · exact ih (n - (i + min (n - i) filewriteMax)) (by omega) _ _ _ _ rfl
    next => exact .pure _

/-! ## The calls of `log_write` -/

/-- Between two points, `log_write` is called on blocks of a list only, and no operation
ends. -/
structure Logs (blocks : List Nat) (before after : Traced) : Prop where
  calls : ∀ b ∈ after.calls, b ∈ before.calls ∨ b ∈ blocks
  ops : after.ops = before.ops

/-- The same up to a point from which the code goes on. -/
structure Reaches (blocks : List Nat) (before after : Traced) : Prop extends
    Logs blocks before after where
  sb : after.volume.sb = before.volume.sb

namespace Logs

variable {blocks more : List Nat} {before middle after : Traced}

theorem refl (blocks : List Nat) (start : Traced) : Logs blocks start start :=
  ⟨fun _ mem => .inl mem, rfl⟩

theorem mono (logs : Logs blocks before after) (within : blocks ⊆ more) : Logs more before after :=
  ⟨fun b mem => (logs.calls b mem).imp_right fun listed => within listed, logs.ops⟩

theorem trans (first : Logs blocks before middle) (second : Logs blocks middle after) :
    Logs blocks before after := by
  refine ⟨fun b mem => ?_, second.ops.trans first.ops⟩
  rcases second.calls b mem with early | listed
  · exact first.calls b early
  · exact .inr listed

end Logs

namespace Reaches

variable {blocks more : List Nat} {before middle after : Traced}

theorem refl (blocks : List Nat) (start : Traced) : Reaches blocks start start :=
  ⟨.refl blocks start, rfl⟩

theorem mono (reaches : Reaches blocks before after) (within : blocks ⊆ more) :
    Reaches more before after :=
  ⟨reaches.toLogs.mono within, reaches.sb⟩

theorem trans (first : Reaches blocks before middle) (second : Reaches blocks middle after) :
    Reaches blocks before after :=
  ⟨first.toLogs.trans second.toLogs, second.sb.trans first.sb⟩

/-- What a part of the code logs from a point that has been reached. -/
theorem onward {α : Type} {program : TracedM α} (first : Reaches blocks before middle)
    (behind : Ensures program middle (fun _ after => Reaches blocks middle after)
      fun _ after => Logs blocks middle after) :
    Ensures program middle (fun _ after => Reaches blocks before after)
      fun _ after => Logs blocks before after :=
  behind.mono (fun _ _ second => first.trans second) fun _ _ second => first.toLogs.trans second

end Reaches

section Logging

variable {start : Traced}

theorem ensures_get {α : Type} {next : Volume → TracedM α} {good : α → Traced → Prop}
    {bad : Panic → Traced → Prop} (behind : Ensures (next start.volume) start good bad) :
    Ensures (lift get >>= next) start good bad := behind

/-- A change of the file system that calls no `log_write`. -/
theorem reaches_modify (blocks : List Nat) (start : Traced) {change : Volume → Volume}
    (same : (change start.volume).sb = start.volume.sb) :
    Ensures (lift (modifyThe Volume change)) start (fun _ after => Reaches blocks start after)
      fun _ after => Logs blocks start after :=
  show Reaches blocks start { start with volume := change start.volume } from
    ⟨⟨fun _ mem => .inl mem, rfl⟩, same⟩

theorem reaches_set (blocks : List Nat) (start : Traced) {volume : Volume}
    (same : volume.sb = start.volume.sb) :
    Ensures (lift (set volume)) start (fun _ after => Reaches blocks start after)
      fun _ after => Logs blocks start after :=
  show Reaches blocks start { start with volume := volume } from
    ⟨⟨fun _ mem => .inl mem, rfl⟩, same⟩

/-- Code without a call of `log_write` changes the file system only. -/
theorem ensures_lift {α : Type} {program : FsM α} {good : α → Volume → Prop}
    {bad : Panic → Volume → Prop} (holds : Ensures program start.volume good bad) :
    Ensures (lift program) start
      (fun value after => good value after.volume ∧ after = { start with volume := after.volume })
      fun panic after => bad panic after.volume ∧ after = { start with volume := after.volume } := by
  unfold Ensures at holds ⊢
  simp only [EStateM.run, lift] at holds ⊢
  cases ran : program start.volume <;> rw [ran] at holds <;> exact ⟨holds, rfl⟩

variable {blocks : List Nat}

theorem reaches_logWrite {blockno : Nat} (listed : blockno ∈ blocks) (start : Traced) :
    Ensures (logWrite blockno) start (fun _ after => Reaches blocks start after)
      fun _ after => Logs blocks start after := by
  have recorded : ∀ volume, Logs blocks start
      { start with volume := volume, calls := start.calls ++ [blockno] } := by
    intro volume
    refine ⟨fun b mem => ?_, rfl⟩
    rcases List.mem_append.mp mem with early | here
    · exact .inl early
    · rw [List.mem_singleton.mp here]
      exact .inr listed
  refine .modify ?_
  refine (ensures_lift (logWrite_ensures blockno _)).mono ?_ ?_
  · rintro ⟨⟩ after ⟨same, kept⟩
    rw [kept]
    refine ⟨recorded after.volume, ?_⟩
    rw [same]
  · rintro panic after ⟨-, kept⟩
    rw [kept]
    exact recorded after.volume

theorem reaches_bzero {bno : Nat} (listed : bno ∈ blocks) (start : Traced) :
    Ensures (bzero bno) start (fun _ after => Reaches blocks start after)
      fun _ after => Logs blocks start after := by
  refine .bind (reaches_modify blocks start rfl) ?_
  rintro ⟨⟩ middle first
  exact first.onward (reaches_logWrite listed middle)

/-- With one block of free map, `balloc` logs that block and the new one. -/
theorem reaches_balloc (small : start.volume.sb.size ≤ bpb) :
    Ensures balloc start (fun b after => Reaches [start.volume.sb.bmapstart, b] start after)
      fun _ after => ∃ b, Logs [start.volume.sb.bmapstart, b] start after := by
  refine ensures_get ?_
  cases scan : firstSlot (fun b => !start.volume.used b) start.volume.sb.size with
  | none => exact ⟨0, Logs.refl _ start⟩
  | some b =>
    obtain ⟨bound, -⟩ := firstSlot_eq_some.mp scan
    have only : start.volume.sb.bblock b = start.volume.sb.bmapstart := by
      have first : b / bpb = 0 := Nat.div_eq_of_lt (Nat.lt_of_lt_of_le bound small)
      rw [Superblock.bblock, first, Nat.zero_add]
    obtain ⟨blocks, named⟩ : ∃ blocks, [start.volume.sb.bmapstart, b] = blocks := ⟨_, rfl⟩
    have map : start.volume.sb.bblock b ∈ blocks := by
      rw [only, ← named]
      exact List.mem_cons_self
    have fresh : b ∈ blocks := by
      rw [← named]
      exact List.mem_cons_of_mem _ List.mem_cons_self
    have logged : Ensures (do
          lift (set { start.volume with used := update start.volume.used b true })
          logWrite (start.volume.sb.bblock b)
          bzero b
          Pure.pure b) start
        (fun value after => value = b ∧ Reaches blocks start after)
        fun _ after => Logs blocks start after := by
      refine .bind (reaches_set blocks start rfl) ?_
      rintro ⟨⟩ taken first
      refine .bind (first.onward (reaches_logWrite map taken)) ?_
      rintro ⟨⟩ marked second
      refine .bind (second.onward (reaches_bzero fresh marked)) ?_
      rintro ⟨⟩ zeroed third
      exact .pure ⟨rfl, third⟩
    refine logged.mono ?_ fun _ after logs => ⟨b, by rw [named]; exact logs⟩
    rintro value after ⟨rfl, reaches⟩
    rw [named]
    exact reaches

theorem reaches_addrsOrAlloc (small : start.volume.sb.size ≤ bpb) (ip : Inode) (index : Nat) :
    Ensures (addrsOrAlloc ip index) start
      (fun result after => Reaches [start.volume.sb.bmapstart, result.1] start after)
      fun _ after => ∃ b, Logs [start.volume.sb.bmapstart, b] start after := by
  unfold addrsOrAlloc
  split
  · refine .bind (reaches_balloc small) ?_
    rintro addr after reaches
    exact .pure reaches
  · exact .pure (.refl _ start)

theorem reaches_slotOrAlloc (small : start.volume.sb.size ≤ bpb) (addr bn : Nat) :
    Ensures (slotOrAlloc addr bn) start
      (fun slot after => Reaches [start.volume.sb.bmapstart, addr, slot] start after)
      fun _ after => ∃ b, Logs [start.volume.sb.bmapstart, addr, b] start after := by
  refine ensures_get ?_
  split
  · have wider : ∀ b, [start.volume.sb.bmapstart, b] ⊆ [start.volume.sb.bmapstart, addr, b] := by
      simp
    refine .bind ((reaches_balloc small).mono (fun _ _ => id)
      fun _ _ ⟨b, logs⟩ => ⟨b, logs.mono (wider b)⟩) ?_
    rintro slot allocated first
    have stored : Ensures (do
          lift (modify fun volume =>
            { volume with
              block := update volume.block addr (setEntry (volume.block addr) bn slot) })
          logWrite addr
          Pure.pure slot) allocated
        (fun value after => value = slot ∧
          Reaches [start.volume.sb.bmapstart, addr, slot] start after)
        fun _ after => Logs [start.volume.sb.bmapstart, addr, slot] start after := by
      refine .bind ((first.mono (wider slot)).onward (reaches_modify _ allocated rfl)) ?_
      rintro ⟨⟩ written second
      refine .bind (second.onward (reaches_logWrite (by simp) written)) ?_
      rintro ⟨⟩ logged third
      exact .pure ⟨rfl, third⟩
    refine stored.mono ?_ fun _ after logs => ⟨slot, logs⟩
    rintro value after ⟨rfl, reaches⟩
    exact reaches
  · exact .pure (.refl _ start)

/-- `bmap` logs the free map, the block that it returns and the indirect block. -/
theorem reaches_bmap (small : start.volume.sb.size ≤ bpb) (ip : Inode) (bn : Nat) :
    Ensures (bmap ip bn) start
      (fun result after => ∃ indirect,
        Reaches [start.volume.sb.bmapstart, indirect, result.1] start after)
      fun _ after => ∃ indirect b, Logs [start.volume.sb.bmapstart, indirect, b] start after := by
  unfold bmap
  split
  · refine (reaches_addrsOrAlloc small ip bn).mono ?_ ?_
    · exact fun result _ reaches => ⟨result.1, reaches.mono (by simp)⟩
    · exact fun _ _ ⟨b, logs⟩ => ⟨b, b, logs.mono (by simp)⟩
  · split
    · refine .bind ((reaches_addrsOrAlloc small ip ndirect).mono (fun _ _ => id)
        fun _ _ ⟨b, logs⟩ => ⟨b, b, logs.mono (by simp)⟩) ?_
      rintro ⟨addr, grown⟩ middle first
      have same := first.sb
      have within : middle.volume.sb.size ≤ bpb := by rwa [same]
      have further := reaches_slotOrAlloc within addr (bn - ndirect)
      rw [same] at further
      have whole : Ensures (slotOrAlloc addr (bn - ndirect)) middle
          (fun slot after => Reaches [start.volume.sb.bmapstart, addr, slot] start after)
          fun _ after => ∃ indirect b,
            Logs [start.volume.sb.bmapstart, indirect, b] start after := by
        refine further.mono ?_ ?_
        · exact fun slot _ second => (first.mono (by simp)).trans second
        · exact fun _ _ ⟨b, second⟩ => ⟨addr, b, (first.mono (by simp)).toLogs.trans second⟩
      refine .bind whole ?_
      rintro slot after reaches
      exact .pure ⟨addr, reaches⟩
    · exact ⟨0, 0, Logs.refl _ start⟩

/-- Between two points, `log_write` is called on the free map and on `k` other blocks at
most. -/
def LogsFew (k : Nat) (before after : Traced) : Prop :=
  ∃ blocks : List Nat, blocks.length ≤ k ∧
    Logs (before.volume.sb.bmapstart :: blocks) before after

/-- The same up to a point from which the code goes on. -/
def ReachesFew (k : Nat) (before after : Traced) : Prop :=
  LogsFew k before after ∧ after.volume.sb = before.volume.sb

theorem LogsFew.refl (k : Nat) (start : Traced) : LogsFew k start start :=
  ⟨[], Nat.zero_le k, .refl _ start⟩

variable {k : Nat} {after : Traced}

theorem LogsFew.of_list (few : blocks.length ≤ k)
    (logs : Logs (start.volume.sb.bmapstart :: blocks) start after) : LogsFew k start after :=
  ⟨blocks, few, logs⟩

variable {l : Nat}

theorem ReachesFew.trans {middle : Traced} (first : ReachesFew k start middle)
    (second : LogsFew l middle after) : LogsFew (k + l) start after := by
  obtain ⟨⟨blocks, few, logs⟩, sb⟩ := first
  obtain ⟨others, less, further⟩ := second
  rw [sb] at further
  refine ⟨blocks ++ others, by rw [List.length_append]; omega, ?_⟩
  exact (logs.mono (by simp)).trans (further.mono (by simp))

theorem LogsFew.ops (logs : LogsFew k start after) : after.ops = start.ops := by
  obtain ⟨blocks, -, logs⟩ := logs
  exact logs.ops

theorem LogsFew.mono (logs : LogsFew k start after) (fewer : k ≤ l) : LogsFew l start after := by
  obtain ⟨blocks, few, logs⟩ := logs
  exact ⟨blocks, few.trans fewer, logs⟩

theorem ReachesFew.onward {α : Type} {program : TracedM α} {middle : Traced}
    (first : ReachesFew k start middle)
    (behind : Ensures program middle (fun _ after => ReachesFew l middle after)
      fun _ after => LogsFew l middle after) :
    Ensures program middle (fun _ after => ReachesFew (k + l) start after)
      fun _ after => LogsFew (k + l) start after :=
  behind.mono (fun _ _ second => ⟨first.trans second.1, second.2.trans first.2⟩)
    fun _ _ second => first.trans second

/-- Each pass of the loop of `writei` logs two blocks besides the free map: its data and
the indirect block. -/
theorem reachesFew_writeLoop {pagetable : UserPages} {memory : Nat → UInt8} {user : Bool}
    {n tot off src k : Nat} {ip : Inode} (small : start.volume.sb.size ≤ bpb)
    (passes : n ≤ tot ∨ off % bsize + (n - tot) ≤ k * bsize) :
    Ensures (writeLoop pagetable memory user n tot off src ip) start
      (fun _ after => ReachesFew (2 * k) start after) fun _ after => LogsFew (2 * k) start after := by
  have block := bsize_eq
  obtain ⟨left, rest⟩ : ∃ left, n - tot = left := ⟨_, rfl⟩
  induction left using Nat.strong_induction_on generalizing tot off src ip k start with
  | _ left ih =>
    rw [writeLoop]
    split
    next more =>
      have positive := chunk_positive off more
      have room := Nat.mod_lt off (show 0 < bsize by decide)
      have some : 0 < k := by
        rcases Nat.eq_zero_or_pos k with rfl | found
        · omega
        · exact found
      obtain ⟨k, rfl⟩ := Nat.exists_eq_succ_of_ne_zero (Nat.ne_of_gt some)
      obtain ⟨m, chunk⟩ : ∃ m, min (n - tot) (bsize - off % bsize) = m := ⟨_, rfl⟩
      rw [chunk] at positive ⊢
      refine .bind ((reaches_bmap small ip (off / bsize)).mono (fun _ _ => id) ?_) ?_
      · rintro panic after ⟨indirect, b, logs⟩
        refine .of_list ?_ logs
        simp only [List.length_cons, List.length_nil]
        omega
      rintro ⟨addr, grown⟩ mapped ⟨indirect, first⟩
      have two : ∀ {after : Traced},
          Logs [start.volume.sb.bmapstart, indirect, addr] start after →
            LogsFew 2 start after :=
        fun logs => .of_list (by simp) logs
      dsimp only at first ⊢
      refine .bind ((first.onward (reaches_modify _ mapped rfl)).mono (fun _ _ => id)
        fun _ _ logs => (two logs).mono (by omega)) ?_
      rintro ⟨⟩ stored second
      split
      next ok =>
        refine .bind ((second.onward (reaches_logWrite (by simp) stored)).mono (fun _ _ => id)
          fun _ _ logs => (two logs).mono (by omega)) ?_
        rintro ⟨⟩ logged third
        have once : ReachesFew 2 start logged := ⟨two third.toLogs, third.sb⟩
        have fewer : n ≤ tot + m ∨ (off + m) % bsize + (n - (tot + m)) ≤ k * bsize := by
          rw [block] at room passes chunk ⊢
          omega
        have behind := @ih (n - (tot + m)) (by omega) logged (tot + m) (off + m) (src + m) k grown
          (by rw [third.sb]; exact small) fewer rfl
        refine (once.onward behind).mono ?_ ?_
        · exact fun _ _ reaches => ⟨reaches.1.mono (by omega), reaches.2⟩
        · exact fun _ _ logs => logs.mono (by omega)
      next => exact .pure ⟨(two second.toLogs).mono (by omega), second.sb⟩
    next => exact .pure ⟨.refl _ start, rfl⟩

theorem reaches_iupdate {ip : Inode} {start : Traced}
    (listed : start.volume.sb.iblock ip.inum ∈ blocks) :
    Ensures (iupdate ip) start (fun _ after => Reaches blocks start after)
      fun _ after => Logs blocks start after := by
  refine ensures_get ?_
  refine .bind (reaches_set blocks start (by rfl)) ?_
  rintro ⟨⟩ stored first
  exact first.onward (reaches_logWrite listed stored)

theorem reachesFew_iupdate (ip : Inode) (start : Traced) :
    Ensures (iupdate ip) start (fun _ after => ReachesFew 1 start after)
      fun _ after => LogsFew 1 start after := by
  have one : [start.volume.sb.iblock ip.inum].length ≤ 1 := Nat.le_refl 1
  have listed : start.volume.sb.iblock ip.inum ∈
      [start.volume.sb.bmapstart, start.volume.sb.iblock ip.inum] := by simp
  refine (reaches_iupdate listed).mono ?_ ?_
  · exact fun _ _ reaches => ⟨.of_list one reaches.toLogs, reaches.sb⟩
  · exact fun _ _ logs => .of_list one logs

/-- `writei` goes through at most four blocks of `filewriteMax` bytes. -/
theorem reachesFew_writei {pagetable : UserPages} {memory : Nat → UInt8} {ip : Inode}
    {user : Bool} {src : Nat} {off n : UInt32} (small : start.volume.sb.size ≤ bpb)
    (short : n.toNat ≤ filewriteMax) :
    Ensures (writei pagetable memory ip user src off n) start
      (fun _ after => ReachesFew 9 start after) fun _ after => LogsFew 9 start after := by
  have block := bsize_eq
  have most := filewriteMax_eq
  have room := Nat.mod_lt off.toNat (show 0 < bsize by decide)
  unfold writei
  split
  · exact .pure ⟨.refl _ start, rfl⟩
  · split
    · exact .pure ⟨.refl _ start, rfl⟩
    · have passes : n.toNat ≤ 0 ∨ off.toNat % bsize + (n.toNat - 0) ≤ 4 * bsize := by
        rw [block] at room ⊢
        omega
      refine .bind ((reachesFew_writeLoop small passes).mono (fun _ _ => id)
        fun _ _ logs => logs.mono (by omega)) ?_
      rintro done written first
      split
      · refine .bind (first.onward (reachesFew_iupdate _ written)) ?_
        rintro ⟨⟩ after reaches
        exact .pure reaches
      · exact .pure ⟨first.1.mono (by omega), first.2⟩

end Logging

/-! ## The operations of a write -/

/-- No operation, neither an ended one nor the running one, has logged more blocks than
`begin_op` reserves. -/
structure InBudget (traced : Traced) : Prop where
  ended : ∀ op ∈ traced.ops, op.calls.toFinset.card ≤ maxopblocks
  running : traced.calls.toFinset.card ≤ maxopblocks

/-- Operations that overwrite a file with some bytes, each from where the one before it
has ended. -/
def Tiles : Nat → List UInt8 → List Operation → Prop
  | _, bytes, [] => bytes = []
  | off, bytes, op :: rest => ∃ chunk left, bytes = chunk ++ left ∧
      op.after.file op.written = splice (op.before.file op.ip) off chunk ∧
      Tiles (off + chunk.length) left rest

theorem splice_nil (file : List UInt8) (off : Nat) : splice file off [] = file := by
  simp [splice]

section Operations

variable {start : Traced} {pagetable : UserPages} {memory : Nat → UInt8} {addr n size i moved : Nat}
  {begin_op : Nat → Volume → Volume} {off first : UInt32} {ip : Inode}

theorem LogsFew.budget {after : Traced} (logs : LogsFew 9 start after) (none : start.calls = []) :
    after.calls.toFinset.card ≤ maxopblocks := by
  obtain ⟨blocks, few, logs⟩ := logs
  have inside : after.calls.toFinset ⊆ (start.volume.sb.bmapstart :: blocks).toFinset := by
    intro b mem
    rw [List.mem_toFinset] at mem ⊢
    refine (logs.calls b mem).resolve_left ?_
    rw [none]
    exact List.not_mem_nil
  calc after.calls.toFinset.card
      ≤ (start.volume.sb.bmapstart :: blocks).toFinset.card := Finset.card_le_card inside
    _ ≤ (start.volume.sb.bmapstart :: blocks).length := List.toFinset_card_le _
    _ ≤ maxopblocks := Nat.succ_le_succ few

/-- An operation is recorded with what its code leaves. -/
theorem operation_ensures {body : TracedM Transfer} {good : Transfer → Traced → Prop}
    {bad : Panic → Traced → Prop} (change : Volume → Volume) (ip : Inode)
    (behind : Ensures body { start with volume := change start.volume, calls := [] } good bad) :
    Ensures (operation change ip body) start
      (fun r after => ∃ ended, good r ended ∧ after = { ended with
        ops := ended.ops ++ [⟨change start.volume, ip, ended.volume, r.ip, ended.calls⟩] }) bad := by
  unfold operation
  refine .modify (ensures_get (.bind behind ?_))
  rintro r ended holds
  exact .modify (.pure ⟨ended, holds, rfl⟩)

/-- The loop of `filewrite` stays within what each of its operations reserves. -/
theorem filewriteLoop_inBudget (fixed : ∀ i volume, (begin_op i volume).sb = volume.sb)
    (small : start.volume.sb.size ≤ bpb) (held : InBudget start) :
    Ensures (filewriteLoop pagetable memory addr n begin_op i off ip moved) start
      (fun _ after => InBudget after) fun _ after => InBudget after := by
  have step := filewriteMax_eq
  obtain ⟨left, rest⟩ : ∃ left, n - i = left := ⟨_, rfl⟩
  induction left using Nat.strong_induction_on generalizing i off ip moved start with
  | _ left ih =>
    rw [filewriteLoop]
    split
    next more =>
      obtain ⟨n1, chunk⟩ : ∃ n1, min (n - i) filewriteMax = n1 := ⟨_, rfl⟩
      have count := toNat_ofNat_small (show n1 < 2 ^ 32 by omega)
      have short : (UInt32.ofNat n1).toNat ≤ filewriteMax := by omega
      rw [chunk]
      have logs := @reachesFew_writei
        { start with volume := begin_op i start.volume, calls := [] } pagetable memory ip true
        (addr + i) off (UInt32.ofNat n1) (by rw [fixed]; exact small) short
      refine .bind ((operation_ensures (begin_op i) ip logs).mono (fun _ _ => id) ?_) ?_
      · rintro panic after few
        exact ⟨by rw [few.ops]; exact held.ended, few.budget rfl⟩
      rintro r after ⟨ended, ⟨few, sb⟩, rfl⟩
      have budget := few.budget rfl
      have stays : ended.volume.sb.size ≤ bpb := by
        rw [sb, fixed]
        exact small
      have inBudget : InBudget { ended with
          ops := ended.ops ++ [⟨begin_op i start.volume, ip, ended.volume, r.ip, ended.calls⟩] } := by
        refine ⟨fun op mem => ?_, budget⟩
        rcases List.mem_append.mp mem with early | last
        · rw [few.ops] at early
          exact held.ended op early
        · rw [List.mem_singleton.mp last]
          exact budget
      split
      all_goals
        dsimp only
        split
        · exact .pure inBudget
        · split
          · exact inBudget
          · exact ih (n - (i + n1)) (by omega) stays inBudget rfl
    next => exact .pure held

/-- An operation that `writei` lets through, from a mapped range: it overwrites its
stretch of the file. -/
theorem writei_stretch {n : UInt32} {src : Nat} (ok : FileOk start.volume ip)
    (low : off.toNat ≤ ip.size) (inside : off.toNat + n.toNat ≤ maxfile * bsize)
    (mapped : MappedRange pagetable src n.toNat) :
    Ensures (writei pagetable memory ip true src off n) start
      (fun r after => r.returned = n.toNat ∧ r.moved = n.toNat ∧
        r.ip.size = max ip.size (off.toNat + n.toNat) ∧ FileOk after.volume r.ip ∧
        after.volume.file r.ip = splice (start.volume.file ip) off.toNat
          (extract (userByte pagetable memory) src n.toNat)) fun _ _ => True := by
  have limit := maxfile_bytes
  have accepted : ¬(ip.size < off.toNat ∨ 2 ^ 32 ≤ off.toNat + n.toNat ∨
      maxfile * bsize < off.toNat + n.toNat) := by omega
  have reach : writeReach ip.size off n = n.toNat := if_neg accepted
  have splices := @writei_splices pagetable memory start.volume ip true src off n ok low inside
    fun _ => mapped
  have moves := @writei_moves pagetable memory start.volume ip true src off n
  refine ((erases_writei pagetable memory ip true src off n).ensures (splices.and moves)).mono ?_
    fun _ _ _ => trivial
  rintro r after ⟨⟨kept, returned, -, written⟩, -, whole, -, ⟨failed, -⟩ | ⟨-, -, -, -, grown⟩⟩
  · rw [returned] at failed
    omega
  · rw [reach] at whole
    have all := whole.mpr fun _ => mapped
    exact ⟨returned, all, grown all, kept, written⟩

theorem writei_refused {n : UInt32} {src : Nat} (refused : ip.size < off.toNat ∨
      2 ^ 32 ≤ off.toNat + n.toNat ∨ maxfile * bsize < off.toNat + n.toNat) :
    Ensures (writei pagetable memory ip true src off n) start
      (fun r after => r.returned = -1 ∧ r.ip = ip ∧ after.volume = start.volume) fun _ _ => True := by
  have rejects := writei_rejects pagetable start.volume ip memory true src refused
  have plain : Ensures (FileSystem.writei pagetable memory ip true src off n) start.volume
      (fun r after => r.returned = -1 ∧ r.ip = ip ∧ after = start.volume) fun _ _ => True := by
    rw [Ensures, rejects]
    exact ⟨rfl, rfl, rfl⟩
  exact (erases_writei pagetable memory ip true src off n).ensures plain

/-- A call reaches no byte beyond the ones it is asked for. -/
theorem filewriteReach_le (size off n : Nat) : filewriteReach size off n ≤ n := by
  have step := filewriteMax_eq
  unfold filewriteReach
  rw [step]
  split_ifs <;> omega

/-- From byte `i` on, the operations overwrite the rest of what the call can reach. -/
theorem filewriteLoop_tiles (fixed : ∀ i volume, (begin_op i volume).sb = volume.sb)
    (small : start.volume.sb.size ≤ bpb)
    (keeps : ∀ i volume ip, FileOk volume ip → FileOk (begin_op i volume) ip)
    (ok : FileOk start.volume ip) (standing : Filewriting pagetable addr n size first i off ip i)
    (mapped : MappedRange pagetable addr (filewriteReach size first.toNat n)) :
    Ensures (filewriteLoop pagetable memory addr n begin_op i off ip i) start
      (fun _ after => ∃ new, after.ops = start.ops ++ new ∧
        Tiles (first.toNat + i) (extract (userByte pagetable memory) (addr + i)
          (filewriteReach size first.toNat n - i)) new) fun _ _ => True := by
  have step := filewriteMax_eq
  have within := filewriteReach_le size first.toNat n
  obtain ⟨left, rest⟩ : ∃ left, n - i = left := ⟨_, rfl⟩
  induction left using Nat.strong_induction_on generalizing i off ip start with
  | _ left ih =>
    rw [filewriteLoop]
    split
    next more =>
      obtain ⟨n1, chunk⟩ : ∃ n1, min (n - i) filewriteMax = n1 := ⟨_, rfl⟩
      have count := toNat_ofNat_small (show n1 < 2 ^ 32 by omega)
      have begun := keeps i start.volume ip ok
      rw [chunk]
      have logs := @reachesFew_writei
        { start with volume := begin_op i start.volume, calls := [] } pagetable memory ip true
        (addr + i) off (UInt32.ofNat n1) (by rw [fixed]; exact small) (by omega)
      by_cases refused : ip.size < off.toNat ∨ 2 ^ 32 ≤ off.toNat + n1 ∨
          maxfile * bsize < off.toNat + n1
      · -- The call has come as far as it can, and this operation writes nothing.
        have reason := refused
        rw [← count] at refused
        have nothing := @writei_refused { start with volume := begin_op i start.volume, calls := [] }
          pagetable memory off ip (UInt32.ofNat n1) (addr + i) refused
        have idle := nothing.and (logs.mono (fun _ _ => id) fun _ _ _ => trivial)
        have arrived := standing.refused more chunk reason rfl
        refine .bind ((operation_ensures (begin_op i) ip idle).mono (fun _ _ => id)
          fun _ _ _ => trivial) ?_
        rintro r after ⟨ended, ⟨⟨returned, same, volume⟩, few, -⟩, rfl⟩
        simp only [returned]
        refine .pure ⟨[⟨begin_op i start.volume, ip, ended.volume, r.ip, ended.calls⟩], ?_, ?_⟩
        · rw [few.ops]
        · refine ⟨[], [], ?_, ?_, rfl⟩
          · rw [← arrived, Nat.sub_self]
            rfl
          · rw [splice_nil, volume, same]
      · -- The operation overwrites its stretch, and the rest is left to the others.
        have low : off.toNat ≤ ip.size := by omega
        have inside : off.toNat + n1 ≤ maxfile * bsize := by omega
        have place := standing.toNat_off rfl
        obtain ⟨start_, multiple⟩ := standing.aligned more chunk low rfl
        have reach : i + n1 ≤ filewriteReach size first.toNat n :=
          le_filewriteReach start_ (by omega) multiple (by omega)
        have here : MappedRange pagetable (addr + i) n1 :=
          (MappedRange.add.mp (mapped.mono reach)).2
        have stretch := @writei_stretch
          { start with volume := begin_op i start.volume, calls := [] } pagetable memory off ip
          (UInt32.ofNat n1) (addr + i) begun low (by rw [count]; exact inside)
          (by rw [count]; exact here)
        rw [count] at stretch
        refine .bind ((operation_ensures (begin_op i) ip (stretch.and (logs.mono (fun _ _ => id)
          fun _ _ _ => trivial))).mono (fun _ _ => id) fun _ _ _ => trivial) ?_
        rintro r after ⟨ended, ⟨⟨returned, moved, grown, kept, written⟩, few, sb⟩, rfl⟩
        have stays : ended.volume.sb.size ≤ bpb := by
          rw [sb, fixed]
          exact small
        have positive : (0 : Int) < n1 := by omega
        have further : ¬(n1 : Int) < 0 := by omega
        have next_ := standing.accepted more chunk (Nat.le_of_eq moved)
          (iff_of_true moved here) low inside fun _ => grown
        simp only [returned, positive, further, if_true, if_false, ne_eq, not_true_eq_false,
          Int.toNat_natCast, moved]
        refine (@ih (n - (i + n1)) (by omega) { ended with
          ops := ended.ops ++ [⟨begin_op i start.volume, ip, ended.volume, r.ip, ended.calls⟩] }
          (i + n1) (off + UInt32.ofNat n1) r.ip stays kept
          (by rw [moved] at next_; exact next_) rfl).mono ?_ fun _ _ _ => trivial
        rintro done final ⟨new, ops, tiles⟩
        refine ⟨⟨begin_op i start.volume, ip, ended.volume, r.ip, ended.calls⟩ :: new, ?_, ?_⟩
        · rw [ops]
          show ended.ops ++ [_] ++ new = _
          rw [few.ops, List.append_assoc]
          rfl
        · rw [← Nat.add_assoc, ← Nat.add_assoc] at tiles
          refine ⟨extract (userByte pagetable memory) (addr + i) n1, _, ?_, ?_,
            by rw [length_extract]; exact tiles⟩
          · rw [← extract_add]
            congr 1
            omega
          · rw [← place]
            exact written
    next stop =>
      have none : filewriteReach size first.toNat n - i = 0 := by omega
      rw [none]
      exact .pure ⟨[], by simp, rfl⟩

/-- On a file system with one block of free map, each operation of `filewrite` logs at
most `MAXOPBLOCKS` blocks, also when it panics. When the file is tidy, the other
processes leave it so and the source is mapped, the operations overwrite the bytes of
the file from the offset on with those of the source, one stretch after the other. -/
theorem operations_in_budget {volume : Volume}
    (fixed : ∀ i volume, (begin_op i volume).sb = volume.sb) (small : volume.sb.size ≤ bpb)
    (pagetable : UserPages) (memory : Nat → UInt8) (addr n : Nat) (off : UInt32) (ip : Inode) :
    Ensures (filewriteLoop pagetable memory addr n begin_op 0 off ip 0) ⟨volume, [], []⟩
      (fun _ after => InBudget after ∧
        (FileOk volume ip →
          (∀ i volume ip, FileOk volume ip → FileOk (begin_op i volume) ip) →
          MappedRange pagetable addr (filewriteReach ip.size off.toNat n) →
          Tiles off.toNat
            (extract (userByte pagetable memory) addr (filewriteReach ip.size off.toNat n))
            after.ops))
      fun _ after => InBudget after := by
  have fresh : InBudget ⟨volume, [], []⟩ :=
    ⟨fun op mem => absurd mem List.not_mem_nil, Nat.zero_le _⟩
  have budget := @filewriteLoop_inBudget ⟨volume, [], []⟩ pagetable memory addr n 0 0 begin_op off
    ip fixed small fresh
  refine .intro (fun done after ran => ⟨budget.returned ran, fun ok keeps mapped => ?_⟩)
    fun panic after ran => budget.stopped ran
  have standing : Filewriting pagetable addr n ip.size off 0 off ip 0 :=
    ⟨Nat.zero_le n, (UInt32.add_zero off).symm,
      .inl ⟨rfl, .zero _ _, Nat.le_max_left _ _, .inl ⟨rfl, rfl⟩⟩⟩
  obtain ⟨new, ops, tiles⟩ := (@filewriteLoop_tiles ⟨volume, [], []⟩ pagetable memory addr n
    ip.size 0 begin_op off off ip fixed small keeps ok standing mapped).returned ran
  rw [ops]
  exact tiles

/-- Five bytes written to an empty file. -/
theorem operations_in_budget_five :
    Ensures (filewriteLoop (fun _ => some 0) (fun _ => 7) 0 5 (fun _ volume => volume) 0 0
        (emptyFile 0) 0) ⟨freshVolume, [], []⟩
      (fun _ after => InBudget after ∧ Tiles 0 [7, 7, 7, 7, 7] after.ops)
      fun _ after => InBudget after := by
  have mapped : MappedRange (fun _ => some 0) 0 5 := by decide
  refine (operations_in_budget (fun _ _ => rfl) (by decide) _ _ _ _ _ _).mono ?_ fun _ _ => id
  rintro done after ⟨budget, tiles⟩
  exact ⟨budget, tiles (emptyFile_ok (Nat.zero_le _)) (fun _ _ _ => id) mapped⟩

/-- A file of the largest size: the operation is refused, and the bytes behind the end
are not written. -/
theorem full_file_not_extended : ¬∀ (volume : Volume) (pagetable : UserPages)
    (memory : Nat → UInt8) (addr n : Nat) (off : UInt32) (ip : Inode), volume.sb.size ≤ bpb →
    FileOk volume ip → MappedRange pagetable addr n →
    Ensures (filewriteLoop pagetable memory addr n (fun _ volume => volume) 0 off ip 0)
      ⟨volume, [], []⟩
      (fun _ after => Tiles off.toNat (extract (userByte pagetable memory) addr n) after.ops)
      fun _ _ => True := by
  intro always
  have run : (filewriteLoop (fun _ => some 0) (fun _ => 7) 0 1 (fun _ volume => volume) 0 274432
      (emptyFile 274432) 0).run ⟨freshVolume, [], []⟩ =
      .ok (0, 274432, emptyFile 274432, 0) ⟨freshVolume, [],
        [⟨freshVolume, emptyFile 274432, freshVolume, emptyFile 274432, []⟩]⟩ := by
    rw [filewriteLoop]
    rfl
  have mapped : MappedRange (fun _ => some 0) 0 1 := by decide
  obtain ⟨chunk, left, parts, same, rest⟩ := (always freshVolume (fun _ => some 0) (fun _ => 7) 0 1
    274432 (emptyFile 274432) (by decide) (emptyFile_ok (by decide)) mapped).returned run
  have none : left = [] := rest
  dsimp only at same
  have lengths := congrArg List.length same
  have count := congrArg List.length parts
  rw [Volume.length_file, splice, List.length_append, List.length_append, List.length_take,
    List.length_drop, Volume.length_file] at lengths
  rw [length_extract, none, List.length_append, List.length_nil] at count
  have size : (emptyFile 274432).size = 274432 := rfl
  have place : (274432 : UInt32).toNat = 274432 := rfl
  omega

end Operations

end Traced

end Ev6.FileSystem
