import Ev6.FileSystem.ReadWrite
import Ev6.FileSystem.Streams

/-!
# What reads and writes report

The value returned by a read or a write is meant to be the number of bytes moved.
`Call.outcome` puts it beside that number, the advance of the file offset or of
the pipe's counter, and the size of the file. `Call.intact` is the condition on
the call and the state before it under which they agree: every byte that the
call comes to is mapped.
-/

namespace Ev6.FileSystem

open Option (map_eq_some_iff)
open Support

/-! ## Files -/

/-- The `type` of a `struct file`. -/
inductive FileType where
  | none
  | pipe
  | inode
  | device
  deriving DecidableEq

/-- `struct file`; its pipe and its inode are kept in the `World`. -/
structure OpenFile where
  type : FileType
  readable : Bool
  writable : Bool
  off : UInt32
  major : Int

/-- What a call of one process works on. -/
structure World where
  pagetable : UserPages
  memory : Nat → UInt8
  volume : Volume
  ip : Inode
  pipe : Pipe
  cons : Cons

/-- `NDEV`. -/
def ndev : Int := 10

/-- `CONSOLE`: the only major number with functions in `devsw`. -/
def console : Int := 1

/-- What the other processes do for a call that sleeps. -/
structure Others where
  pipe : List (Turn Pipe)
  cons : List (Turn Cons)
  /-- The file system when the operation for the chunk at an offset has begun. -/
  volume : Nat → Volume → Volume

/-- What `fileread` and `filewrite` leave. -/
structure FileDone where
  returned : Int
  file : OpenFile
  ip : Inode
  moved : Nat
  /-- The advance of the pipe's counter. -/
  advanced : Nat

/-- What a stream leaves of a file. -/
def Stream.fileDone {State : Type} (stream : Stream State) (file : OpenFile) (ip : Inode) :
    FileDone :=
  ⟨stream.returned, file, ip, stream.moved, stream.advanced⟩

/-- `fileread`; `none` while it sleeps or once it has panicked. -/
def fileread (world : World) (f : OpenFile) (addr : Nat) (n : Int32) (others : Others) :
    Option FileDone :=
  if f.readable = false then
    some ⟨-1, f, world.ip, 0, 0⟩
  else
    match f.type with
    | .pipe =>
      (piperead world.pagetable world.memory world.pipe addr n others.pipe).map
        fun stream => stream.fileDone f world.ip
    | .device =>
      if f.major < 0 ∨ ndev ≤ f.major ∨ f.major ≠ console then
        some ⟨-1, f, world.ip, 0, 0⟩
      else
        (consoleread world.pagetable world.memory world.cons true addr n others.cons).map
          fun stream => stream.fileDone f world.ip
    | .inode =>
      endsWith (readi world.pagetable world.memory world.ip true addr f.off n.toUInt32)
        world.volume fun r _ =>
          let off := if 0 < r.returned then f.off + UInt32.ofNat r.returned.toNat else f.off
          ⟨r.returned, { f with off := off }, r.ip, r.moved, 0⟩
    | .none => none

/-- The bytes `filewrite` writes in one operation. -/
def filewriteMax : Nat := (maxopblocks - 1 - 1 - 2) / 2 * bsize

theorem filewriteMax_eq : filewriteMax = 3072 := rfl

/-- The loop of `filewrite` from byte `i` on. -/
def filewriteLoop (pagetable : UserPages) (memory : Nat → UInt8) (addr n : Nat)
    (begin_op : Nat → Volume → Volume) (i : Nat) (off : UInt32) (ip : Inode) (moved : Nat) :
    FsM (Nat × UInt32 × Inode × Nat) :=
  if i < n then do
    let n1 := min (n - i) filewriteMax
    modifyThe Volume (begin_op i)
    let r ← writei pagetable memory ip true (addr + i) off (UInt32.ofNat n1)
    let off := if 0 < r.returned then off + UInt32.ofNat r.returned.toNat else off
    if r.returned < 0 then
      pure (i, off, r.ip, moved + r.moved)
    else if r.returned ≠ n1 then
      throw .shortFilewrite
    else
      filewriteLoop pagetable memory addr n begin_op (i + n1) off r.ip (moved + r.moved)
  else
    pure (i, off, ip, moved)
termination_by n - i
decreasing_by
  have positive := filewriteMax_eq
  omega

/-- `filewrite`; `none` while it sleeps or once it has panicked. -/
def filewrite (world : World) (f : OpenFile) (addr : Nat) (n : Int32) (others : Others) :
    Option FileDone :=
  if f.writable = false then
    some ⟨-1, f, world.ip, 0, 0⟩
  else
    match f.type with
    | .pipe =>
      (pipewrite world.pagetable world.memory world.pipe addr n others.pipe).map
        fun stream => stream.fileDone f world.ip
    | .device =>
      if f.major < 0 ∨ ndev ≤ f.major ∨ f.major ≠ console then
        some ⟨-1, f, world.ip, 0, 0⟩
      else
        let (returned, sent) := consolewrite world.pagetable world.memory true addr n
        some ⟨returned, f, world.ip, sent.length, 0⟩
    | .inode =>
      endsWith (filewriteLoop world.pagetable world.memory addr n.toInt.toNat others.volume 0
        f.off world.ip 0) world.volume fun done _ =>
          let (i, off, ip, moved) := done
          ⟨if (i : Int) = n.toInt then n.toInt else -1, { f with off := off }, ip, moved, 0⟩
    | .none => none

/-! ## Calls and their outcomes -/

/-- A read or a write. -/
inductive Call where
  | readi (user_dst : Bool) (dst : Nat) (off n : UInt32)
  | writei (user_src : Bool) (src : Nat) (off n : UInt32)
  | pipewrite (addr : Nat) (n : Int32)
  | piperead (addr : Nat) (n : Int32)
  | consolewrite (user_src : Bool) (src : Nat) (n : Int32)
  | fileread (f : OpenFile) (addr : Nat) (n : Int32)
  | filewrite (f : OpenFile) (addr : Nat) (n : Int32)

/-- What a call reports and what it has done. -/
structure Outcome where
  returned : Int
  moved : Nat
  /-- The advance of the counter of the pipe, if the call has one. -/
  counter : Option Nat
  /-- The file offset before and after, if the call has one. -/
  offset : Option (UInt32 × UInt32)
  /-- The size of the file after a write, the size before, and where it started. -/
  size : Option (Nat × Nat × Nat)

/-- The value returned is the number of bytes moved or -1; counter and offset have
advanced by that number; and the file ends at most behind the bytes written. -/
structure Outcome.Accurate (outcome : Outcome) : Prop where
  returned : outcome.returned = -1 ∨ outcome.returned = outcome.moved
  counter : ∀ advanced, outcome.counter = some advanced → advanced = outcome.moved
  offset : ∀ before after, outcome.offset = some (before, after) →
    after = before + UInt32.ofNat outcome.moved
  size : ∀ after before start, outcome.size = some (after, before, start) →
    after ≤ max before (start + outcome.moved)

/-- The outcome of a call that returns. -/
def Call.outcome (world : World) (others : Others) : Call → Option Outcome
  | .readi user_dst dst off n =>
    endsWith (Ev6.FileSystem.readi world.pagetable world.memory world.ip user_dst dst off n)
      world.volume fun r _ => ⟨r.returned, r.moved, none, none, none⟩
  | .writei user_src src off n =>
    endsWith (Ev6.FileSystem.writei world.pagetable world.memory world.ip user_src src off n)
      world.volume fun r _ =>
        ⟨r.returned, r.moved, none, none, some (r.ip.size, world.ip.size, off.toNat)⟩
  | .pipewrite addr n =>
    (Ev6.FileSystem.pipewrite world.pagetable world.memory world.pipe addr n others.pipe).map
      fun s => ⟨s.returned, s.moved, some s.advanced, none, none⟩
  | .piperead addr n =>
    (Ev6.FileSystem.piperead world.pagetable world.memory world.pipe addr n others.pipe).map
      fun s => ⟨s.returned, s.moved, some s.advanced, none, none⟩
  | .consolewrite user_src src n =>
    let (returned, sent) :=
      Ev6.FileSystem.consolewrite world.pagetable world.memory user_src src n
    some ⟨returned, sent.length, none, none, none⟩
  | .fileread f addr n =>
    (Ev6.FileSystem.fileread world f addr n others).map fun done =>
      ⟨done.returned, done.moved, if f.type = .pipe then some done.advanced else none,
        if f.type = .inode then some (f.off, done.file.off) else none,
        none⟩
  | .filewrite f addr n =>
    (Ev6.FileSystem.filewrite world f addr n others).map fun done =>
      ⟨done.returned, done.moved, if f.type = .pipe then some done.advanced else none,
        if f.type = .inode then some (f.off, done.file.off) else none,
        if f.type = .inode then some (done.ip.size, world.ip.size, f.off.toNat) else none⟩

/-! ## How far a call comes -/

/-- The number of bytes that the bounds of `readi` let it copy. -/
def readReach (size : Nat) (off n : UInt32) : Nat :=
  if size < off.toNat ∨ 2 ^ 32 ≤ off.toNat + n.toNat then 0
  else min n.toNat (size - off.toNat)

/-- The number of bytes that the bounds of `writei` let it copy. -/
def writeReach (size : Nat) (off n : UInt32) : Nat :=
  if size < off.toNat ∨ 2 ^ 32 ≤ off.toNat + n.toNat ∨
      maxfile * bsize < off.toNat + n.toNat then 0
  else n.toNat

/-- The number of bytes in the operations of `filewrite` that `writei` lets through. -/
def filewriteReach (size off n : Nat) : Nat :=
  if size < off then 0
  else if off + n ≤ maxfile * bsize then n
  else (maxfile * bsize - off) / filewriteMax * filewriteMax

section Intact

variable (world : World) (others : Others)

/-- Every byte that the pipe takes is mapped, and `n` is not below -1: the loop does
not check its sign. -/
def PipewriteIntact (addr : Nat) (n : Int32) : Prop :=
  -1 ≤ n.toInt ∧ MappedRange world.pagetable addr (Pipe.takes n.toInt.toNat world.pipe others.pipe)

/-- Every byte that the reader finds in the pipe has a mapped place to go. -/
def PipereadIntact (addr : Nat) (n : Int32) : Prop :=
  MappedRange world.pagetable addr (min n.toInt.toNat (world.pipe.gives others.pipe))

/-- The whole range is within reach, and `n` is not below -1. -/
def ConsolewriteIntact (user_src : Bool) (src : Nat) (n : Int32) : Prop :=
  -1 ≤ n.toInt ∧ Reachable world.pagetable user_src src n.toInt.toNat

/-- Every byte between the offset and the end of the read has a place to go. -/
def ReadiIntact (user_dst : Bool) (dst : Nat) (off n : UInt32) : Prop :=
  Reachable world.pagetable user_dst dst (readReach world.ip.size off n)

/-- The condition on a call and the state before it: no byte that the call comes to
is unmapped. -/
def Call.Intact : Call → Prop
  | .readi user_dst dst off n => ReadiIntact world user_dst dst off n
  | .writei user_src src off n =>
    Reachable world.pagetable user_src src (writeReach world.ip.size off n)
  | .pipewrite addr n => PipewriteIntact world others addr n
  | .piperead addr n => PipereadIntact world others addr n
  | .consolewrite user_src src n => ConsolewriteIntact world user_src src n
  | .fileread f addr n =>
    f.readable = true →
      match f.type with
      | .pipe => PipereadIntact world others addr n
      | .inode => ReadiIntact world true addr f.off n.toUInt32
      | .device => True
      | .none => True
  | .filewrite f addr n =>
    f.writable = true →
      match f.type with
      | .pipe => PipewriteIntact world others addr n
      | .inode =>
        MappedRange world.pagetable addr
          (filewriteReach world.ip.size f.off.toNat n.toInt.toNat)
      | .device => f.major = console → ConsolewriteIntact world true addr n
      | .none => True

end Intact

/-! ## What the loops over the blocks move -/

section Blocks

variable {pagetable : UserPages} {volume : Volume} {ip : Inode} {n tot off : Nat}

theorem bmap_size (ip : Inode) (bn : Nat) (volume : Volume) :
    Ensures (bmap ip bn) volume (fun result _ => result.2.size = ip.size) fun _ _ => True := by
  have addrs : ∀ index volume, Ensures (addrsOrAlloc ip index) volume
      (fun result _ => result.2.size = ip.size) fun _ _ => True := by
    intro index volume
    unfold addrsOrAlloc
    split
    · exact .bind (.trivial _ _) fun _ _ _ => .pure rfl
    · exact .pure rfl
  unfold bmap
  split
  · exact addrs bn volume
  · split
    · refine .bind (addrs ndirect volume) ?_
      rintro ⟨addr, grown⟩ middle same
      exact .bind (.trivial _ _) fun _ _ _ => .pure same
    · exact .throw trivial

/-- The loop of `readi` moves all it was asked for exactly when the rest of the
destination is within reach. -/
theorem readLoop_moves (low : tot ≤ n) (user : Bool) (dst : Nat) (memory : Nat → UInt8) :
    Ensures (readLoop pagetable user n tot off dst memory ip) volume
      (fun done _ => done.ip.size = ip.size ∧ done.moved ≤ n ∧
        (done.moved = n ↔ Reachable pagetable user dst (n - tot))) fun _ _ => True := by
  obtain ⟨left, rest⟩ : ∃ left, n - tot = left := ⟨_, rfl⟩
  induction left using Nat.strong_induction_on generalizing tot off dst memory ip volume with
  | _ left ih =>
    rw [readLoop]
    split
    next more =>
      have positive := chunk_positive off more
      refine .bind (bmap_size _ _ _) ?_
      rintro ⟨addr, grown⟩ middle size
      dsimp only at size ⊢
      refine .get ?_
      obtain ⟨m, step⟩ : ∃ m, min (n - tot) (bsize - off % bsize) = m := ⟨_, rfl⟩
      rw [step] at positive ⊢
      have reached := eitherCopyout_ok pagetable memory user dst
        (extract (middle.block addr) (off % bsize) m)
      obtain ⟨most, whole⟩ := eitherCopyout_moved pagetable memory user dst
        (extract (middle.block addr) (off % bsize) m)
      rw [length_extract] at reached most whole
      have split_ : n - tot = m + (n - (tot + m)) := by omega
      rw [split_, Reachable.add]
      split
      next ok =>
        have behind := @ih (n - (tot + m)) (by omega) middle grown (tot + m) (off + m)
          (show tot + m ≤ n by omega) (dst + m)
          (eitherCopyout pagetable memory user dst
            (extract (middle.block addr) (off % bsize) m)).memory rfl
        refine behind.mono ?_ fun _ _ => id
        rintro done after ⟨kept, bound, all⟩
        exact ⟨kept.trans size, bound, all.trans (and_iff_right (reached.mp ok)).symm⟩
      next failed =>
        have short : (eitherCopyout pagetable memory user dst
            (extract (middle.block addr) (off % bsize) m)).moved ≠ m :=
          fun same => failed (whole.mp same)
        refine .pure ⟨size, by dsimp only; omega, iff_of_false (by dsimp only; omega) ?_⟩
        exact fun all => failed (reached.mpr all.1)
    next stop =>
      have none : n - tot = 0 := by omega
      rw [none]
      exact .pure ⟨rfl, low, iff_of_true (by dsimp only; omega) (.zero _ _ _)⟩

/-- The loop of `writei` moves all it was asked for exactly when the rest of the
source is within reach, and `off` never passes the bytes moved. -/
theorem writeLoop_moves (low : tot ≤ n) (user : Bool) (src : Nat) (memory : Nat → UInt8) :
    Ensures (writeLoop pagetable memory user n tot off src ip) volume
      (fun done _ => done.ip.size = ip.size ∧ done.moved ≤ n ∧
        (done.moved = n ↔ Reachable pagetable user src (n - tot)) ∧ off ≤ done.off ∧
        done.off + tot ≤ off + done.moved ∧ (done.moved = n → done.off + tot = off + n))
      fun _ _ => True := by
  obtain ⟨left, rest⟩ : ∃ left, n - tot = left := ⟨_, rfl⟩
  induction left using Nat.strong_induction_on generalizing tot off src ip volume with
  | _ left ih =>
    rw [writeLoop]
    split
    next more =>
      have positive := chunk_positive off more
      refine .bind (bmap_size _ _ _) ?_
      rintro ⟨addr, grown⟩ middle size
      dsimp only at size ⊢
      obtain ⟨m, step⟩ : ∃ m, min (n - tot) (bsize - off % bsize) = m := ⟨_, rfl⟩
      rw [step] at positive ⊢
      have reached := eitherCopyin_ok pagetable memory user src m
      obtain ⟨most, whole⟩ := eitherCopyin_length pagetable memory user src m
      have split_ : n - tot = m + (n - (tot + m)) := by omega
      rw [split_, Reachable.add]
      refine .modify ?_
      split
      next ok =>
        refine .bind (.trivial _ _) fun _ logged _ => ?_
        have behind := @ih (n - (tot + m)) (by omega) logged grown (tot + m) (off + m)
          (show tot + m ≤ n by omega) (src + m) rfl
        refine behind.mono ?_ fun _ _ => id
        rintro done after ⟨kept, bound, all, after_, early, late⟩
        exact ⟨kept.trans size, bound, all.trans (and_iff_right (reached.mp ok)).symm,
          by omega, by omega, fun same => by have := late same; omega⟩
      next failed =>
        have short : (eitherCopyin pagetable memory user src m).bytes.length ≠ m :=
          fun same => failed (whole.mp same)
        refine .pure ⟨size, by dsimp only; omega, iff_of_false (by dsimp only; omega) ?_,
          Nat.le_refl _, by dsimp only; omega, fun same => by dsimp only at same; omega⟩
        exact fun all => failed (reached.mpr all.1)
    next stop =>
      have none : n - tot = 0 := by omega
      rw [none]
      exact .pure ⟨rfl, low, iff_of_true (by dsimp only; omega) (.zero _ _ _), Nat.le_refl _,
        Nat.le_refl _, fun _ => by dsimp only; omega⟩

end Blocks

/-! ## What each call reports -/

section Reports

variable {pagetable : UserPages} {memory : Nat → UInt8} {volume : Volume} {ip : Inode}

theorem maxfile_bsize : maxfile * bsize = 274432 := rfl

/-- `readi` fails without a move, or returns how many bytes its bounds allow. -/
theorem readi_moves (small : ip.size ≤ maxfile * bsize) (user : Bool) (dst : Nat) (off n : UInt32) :
    Ensures (readi pagetable memory ip user dst off n) volume
      (fun r _ => r.moved ≤ readReach ip.size off n ∧
        (r.moved = readReach ip.size off n ↔
          Reachable pagetable user dst (readReach ip.size off n)) ∧
        (r.returned = -1 ∧ readReach ip.size off n = 0 ∨
          r.returned = readReach ip.size off n)) fun _ _ => True := by
  have limit := maxfile_bsize
  simp only [readi, readReach, add_lt_iff]
  by_cases rejected : ip.size < off.toNat ∨ 2 ^ 32 ≤ off.toNat + n.toNat
  · rw [if_pos rejected, if_pos rejected]
    exact .pure ⟨Nat.le_refl _, iff_of_true rfl (.zero _ _ _), .inl ⟨rfl, rfl⟩⟩
  · rw [if_neg rejected, if_neg rejected, toNat_add_of_fits (by tauto)]
    have count : (if ip.size < off.toNat + n.toNat then ip.size - off.toNat else n.toNat) =
        min n.toNat (ip.size - off.toNat) := by
      split_ifs <;> omega
    rw [count]
    refine .bind (readLoop_moves (Nat.zero_le _) user dst memory) ?_
    rintro done after ⟨-, most, whole⟩
    exact .pure ⟨most, whole, .inr (asInt_of_small (by omega))⟩

/-- `writei` fails without a move, or returns how many bytes it was asked for; the file
ends at most behind the bytes moved. -/
theorem writei_moves (user : Bool) (src : Nat) (off n : UInt32) :
    Ensures (writei pagetable memory ip user src off n) volume
      (fun r _ => r.moved ≤ writeReach ip.size off n ∧
        (r.moved = writeReach ip.size off n ↔
          Reachable pagetable user src (writeReach ip.size off n)) ∧
        r.ip.size ≤ max ip.size (off.toNat + r.moved) ∧
        (r.returned = -1 ∧ r.moved = 0 ∧ r.ip = ip ∧ (ip.size < off.toNat ∨
            2 ^ 32 ≤ off.toNat + n.toNat ∨ maxfile * bsize < off.toNat + n.toNat) ∨
          r.returned = n.toNat ∧ writeReach ip.size off n = n.toNat ∧ off.toNat ≤ ip.size ∧
            off.toNat + n.toNat ≤ maxfile * bsize ∧
            (r.moved = n.toNat → r.ip.size = max ip.size (off.toNat + n.toNat))))
      fun _ _ => True := by
  have limit := maxfile_bsize
  by_cases rejected : ip.size < off.toNat ∨ 2 ^ 32 ≤ off.toNat + n.toNat ∨
      maxfile * bsize < off.toNat + n.toNat
  · have reach : writeReach ip.size off n = 0 := if_pos rejected
    rw [reach]
    refine .intro (fun r after run => ?_) fun _ _ _ => trivial
    rw [writei_rejects pagetable volume ip memory user src rejected] at run
    cases run
    exact ⟨Nat.le_refl _, iff_of_true rfl (.zero _ _ _), Nat.le_max_left _ _,
      .inl ⟨rfl, rfl, rfl, rejected⟩⟩
  · have reach : writeReach ip.size off n = n.toNat := if_neg rejected
    have early : ¬(ip.size < off.toNat ∨ 2 ^ 32 ≤ off.toNat + n.toNat) := by tauto
    have inside : ¬maxfile * bsize < off.toNat + n.toNat := by tauto
    have value : asInt n.toNat = n.toNat := asInt_of_small (by omega)
    simp only [writei, add_lt_iff]
    rw [reach, if_neg early, toNat_add_of_fits (by tauto), if_neg inside]
    refine .bind (writeLoop_moves (Nat.zero_le _) user src memory) ?_
    rintro done after ⟨kept, most, whole, least, behind, exact_⟩
    rw [value]
    split
    next positive =>
      refine .bind (.trivial _ _) fun _ _ _ => .pure ⟨most, whole, ?_, .inr ⟨rfl, rfl, by omega,
        by omega, fun same => ?_⟩⟩
      · rw [extendSize_size, kept]
        dsimp only
        omega
      · have arrived := exact_ same
        rw [extendSize_size, kept]
        omega
    next none =>
      have nothing : n.toNat = 0 := by
        rw [UInt32.lt_iff_toNat_lt] at none
        simpa using none
      refine .pure ⟨most, whole, ?_, .inr ⟨rfl, rfl, by omega, by omega, fun _ => ?_⟩⟩
      · rw [kept]
        exact Nat.le_max_left _ _
      · rw [kept]
        omega

/-- Where the loop of `filewrite` stands: it has advanced the offset by `i`; either it
has moved as much, all of it mapped and within what `writei` lets through, or it
has moved less, and then it has come to a byte that is not mapped. -/
structure Filewriting (pagetable : UserPages) (addr n size : Nat) (start : UInt32) (i : Nat)
    (off : UInt32) (ip : Inode) (moved : Nat) : Prop where
  within : i ≤ n
  off : off = start + UInt32.ofNat i
  progress :
    moved = i ∧ MappedRange pagetable addr i ∧ ip.size ≤ max size (start.toNat + i) ∧
        (i = 0 ∧ ip.size = size ∨ start.toNat ≤ size ∧ start.toNat + i ≤ maxfile * bsize ∧
          start.toNat + i ≤ ip.size ∧ (i % filewriteMax = 0 ∨ i = n)) ∨
      moved < i ∧ ¬MappedRange pagetable addr (filewriteReach size start.toNat n)

theorem toNat_ofNat_small {value : Nat} (small : value < 2 ^ 32) :
    (UInt32.ofNat value).toNat = value := by
  rw [UInt32.toNat_ofNat']
  exact Nat.mod_eq_of_lt small

variable {i n size : Nat}

/-- The bytes of an operation that `writei` lets through are within reach. -/
theorem le_filewriteReach {off n1 : Nat} (start : off ≤ size) (within : i + n1 ≤ n)
    (whole : (i + n1) % filewriteMax = 0 ∨ i + n1 = n)
    (inside : off + (i + n1) ≤ maxfile * bsize) : i + n1 ≤ filewriteReach size off n := by
  have limit := maxfile_bsize
  have step := filewriteMax_eq
  unfold filewriteReach
  rw [if_neg (by omega)]
  split_ifs with fits
  · exact within
  · rcases whole with whole | whole
    · rw [step] at whole ⊢
      omega
    · omega

/-- Where `writei` refuses an operation, `filewrite` has come as far as it can. -/
theorem filewriteReach_eq {off : Nat} (more : i < n)
    (before : i = 0 ∨ off ≤ size ∧ off + i ≤ maxfile * bsize ∧ i % filewriteMax = 0)
    (refused : i = 0 ∧ size < off ∨ maxfile * bsize < off + i + min (n - i) filewriteMax) :
    filewriteReach size off n = i := by
  have limit := maxfile_bsize
  have step := filewriteMax_eq
  unfold filewriteReach
  rw [step] at before refused ⊢
  split_ifs with beyond fits <;> omega

namespace Filewriting

variable {addr n size i moved n1 : Nat} {start off : UInt32} {r : Transfer}

/-- The offset has not wrapped while everything has been moved. -/
theorem toNat_off (standing : Filewriting pagetable addr n size start i off ip moved)
    (clean : moved = i) : off.toNat = start.toNat + i := by
  have limit := maxfile_bsize
  have room : start.toNat + i < 2 ^ 32 := by
    have wide := start.toNat_lt
    rcases standing.progress with ⟨-, -, -, ⟨rfl, -⟩ | ⟨-, inside, -⟩⟩ | ⟨less, -⟩
    · omega
    · omega
    · omega
  rw [standing.off, UInt32.toNat_add, toNat_ofNat_small (by omega)]
  exact Nat.mod_eq_of_lt room

/-- An operation that `writei` refuses is where the reach of the call ends. -/
theorem refused (standing : Filewriting pagetable addr n size start i off ip moved)
    (more : i < n) (chunk : min (n - i) filewriteMax = n1)
    (reason : ip.size < off.toNat ∨ 2 ^ 32 ≤ off.toNat + n1 ∨
      maxfile * bsize < off.toNat + n1) (clean : moved = i) :
    i = filewriteReach size start.toNat n := by
  have limit := maxfile_bsize
  have step := filewriteMax_eq
  have place := standing.toNat_off clean
  refine (filewriteReach_eq more ?_ ?_).symm
  · rcases standing.progress with ⟨-, -, -, ⟨none, -⟩ | ⟨low, inside, -, whole | all⟩⟩ | ⟨less, -⟩
    · exact .inl none
    · exact .inr ⟨low, inside, whole⟩
    · omega
    · omega
  · rw [chunk]
    rcases standing.progress with ⟨-, -, -, ⟨none, same⟩ | ⟨low, inside, high, -⟩⟩ | ⟨less, -⟩
    · rw [same] at reason
      omega
    · omega
    · omega

/-- Before the last operation, all are of full length; and the write starts inside the
file. -/
theorem aligned (standing : Filewriting pagetable addr n size start i off ip moved)
    (more : i < n) (chunk : min (n - i) filewriteMax = n1) (low : off.toNat ≤ ip.size)
    (clean : moved = i) :
    start.toNat ≤ size ∧ ((i + n1) % filewriteMax = 0 ∨ i + n1 = n) := by
  have step := filewriteMax_eq
  have place := standing.toNat_off clean
  rw [step] at chunk ⊢
  rcases standing.progress with ⟨-, -, -, ⟨none, same⟩ | ⟨early, -, -, whole⟩⟩ | ⟨less, -⟩
  · omega
  · rw [step] at whole
    omega
  · omega

/-- An operation that `writei` lets through takes the call a step further. -/
theorem accepted (standing : Filewriting pagetable addr n size start i off ip moved)
    (more : i < n) (chunk : min (n - i) filewriteMax = n1) (most : r.moved ≤ n1)
    (whole : r.moved = n1 ↔ MappedRange pagetable (addr + i) n1) (low : off.toNat ≤ ip.size)
    (inside : off.toNat + n1 ≤ maxfile * bsize)
    (grown : r.moved = n1 → r.ip.size = max ip.size (off.toNat + n1)) :
    Filewriting pagetable addr n size start (i + n1) (off + UInt32.ofNat n1) r.ip
      (moved + r.moved) := by
  have step := filewriteMax_eq
  refine ⟨by omega, ?_, ?_⟩
  · rw [standing.off, UInt32.ofNat_add, UInt32.add_assoc]
  · rcases standing.progress with ⟨clean, mapped, bound, before⟩ | ⟨less, unmapped⟩
    · have place := standing.toNat_off clean
      obtain ⟨start_, multiple⟩ := standing.aligned more chunk low clean
      by_cases all : r.moved = n1
      · have size_ := grown all
        refine .inl ⟨by omega, MappedRange.add.mpr ⟨mapped, whole.mp all⟩, by omega,
          .inr ⟨start_, by omega, by omega, multiple⟩⟩
      · refine .inr ⟨by omega, fun reach => all (whole.mpr ?_)⟩
        have far := le_filewriteReach start_ (show i + n1 ≤ n by omega) multiple (by omega)
        exact (MappedRange.add.mp (reach.mono far)).2
    · exact .inr ⟨by omega, unmapped⟩

end Filewriting

/-- The loop of `filewrite` ends where it has advanced the offset to; it has moved as
much exactly when everything within its reach is mapped. -/
theorem filewriteLoop_moves {addr moved : Nat} {start off : UInt32}
    {begin_op : Nat → Volume → Volume} (small : size ≤ maxfile * bsize)
    (standing : Filewriting pagetable addr n size start i off ip moved) :
    Ensures (filewriteLoop pagetable memory addr n begin_op i off ip moved) volume
      (fun done _ => Filewriting pagetable addr n size start done.1 done.2.1 done.2.2.1 done.2.2.2 ∧
        (done.2.2.2 = done.1 → done.1 = filewriteReach size start.toNat n)) fun _ _ => True := by
  have limit := maxfile_bsize
  have step := filewriteMax_eq
  obtain ⟨left, rest⟩ : ∃ left, n - i = left := ⟨_, rfl⟩
  induction left using Nat.strong_induction_on generalizing i off ip moved volume with
  | _ left ih =>
    rw [filewriteLoop]
    split
    next more =>
      obtain ⟨n1, chunk⟩ : ∃ n1, min (n - i) filewriteMax = n1 := ⟨_, rfl⟩
      rw [chunk]
      have count := toNat_ofNat_small (show n1 < 2 ^ 32 by omega)
      refine .modify (.bind (writei_moves true (addr + i) off (UInt32.ofNat n1)) ?_)
      rw [count]
      rintro r after ⟨most, whole, -, ⟨returned, none, same, reason⟩ |
        ⟨returned, reach, low, inside, grown⟩⟩
      · simp only [returned, none, same]
        exact .pure ⟨standing, standing.refused more chunk reason⟩
      · rw [reach] at most whole
        have reachable : r.moved = n1 ↔ MappedRange pagetable (addr + i) n1 := by
          rw [whole]
          exact ⟨fun all => all rfl, fun all _ => all⟩
        have next_ := standing.accepted more chunk most reachable low inside grown
        have positive : (0 : Int) < n1 := by omega
        have further : ¬(n1 : Int) < 0 := by omega
        simp only [returned, positive, further, if_true, if_false, ne_eq, not_true_eq_false,
          Int.toNat_natCast]
        exact ih (n - (i + n1)) (by omega) next_ rfl
    next stop =>
      refine .pure ⟨standing, fun same => ?_⟩
      have all : i = n := by
        have within := standing.within
        omega
      dsimp only at same ⊢
      unfold filewriteReach
      rcases standing.progress with ⟨-, -, -, ⟨none, -⟩ | ⟨low, inside, -⟩⟩ | ⟨less, -⟩
      · split_ifs <;> omega
      · rw [if_neg (by omega), if_pos (by omega), all]
      · omega

end Reports

/-! ## When the reports are accurate -/

section Accuracy

variable {world : World} {others : Others}

variable {returned : Int} {moved : Nat}

/-- A call that fails with nothing to move, or returns how far it may come, reports
what it has moved exactly when it has come that far. -/
theorem report_iff {reach : Nat} {reached : Prop}
    (whole : moved = reach ↔ reached) (most : moved ≤ reach)
    (report : returned = -1 ∧ reach = 0 ∨ returned = reach) :
    (returned = -1 ∨ returned = moved) ↔ reached := by
  rw [← whole]
  omega

theorem toInt_bounds (n : Int32) : -2 ^ 31 ≤ n.toInt ∧ n.toInt < 2 ^ 31 :=
  ⟨Int32.le_toInt n, Int32.toInt_lt n⟩

variable {n : Int32} {addr : Nat}

theorem pipewrite_accurate {done : Stream Pipe}
    (run : pipewrite world.pagetable world.memory world.pipe addr n others.pipe = some done) :
    done.advanced = done.moved ∧
      ((done.returned = -1 ∨ done.returned = done.moved) ↔ PipewriteIntact world others addr n) := by
  unfold pipewrite at run
  unfold PipewriteIntact
  by_cases positive : 0 < n.toInt
  · obtain ⟨counted, whole, part⟩ := pipewriteLoop_moves run
    refine ⟨counted, ?_⟩
    rw [Nat.add_zero] at whole part
    constructor
    · intro reported
      refine ⟨by omega, by_contra fun unmapped => ?_⟩
      obtain ⟨returned, fewer⟩ := part unmapped
      omega
    · rintro ⟨-, mapped⟩
      rcases whole mapped with failed | ⟨returned, moved⟩
      · exact .inl failed
      · right
        omega
  · have none : n.toInt.toNat = 0 := by omega
    rw [none] at run ⊢
    cases run
    refine ⟨rfl, ?_⟩
    constructor
    · intro reported
      dsimp only at reported
      exact ⟨by omega, .zero _ _⟩
    · rintro ⟨low, -⟩
      dsimp only
      omega

theorem piperead_accurate {done : Stream Pipe}
    (run : piperead world.pagetable world.memory world.pipe addr n others.pipe = some done) :
    (done.returned = -1 ∨ done.returned = done.moved) ∧
      (done.advanced = done.moved ↔ PipereadIntact world others addr n) := by
  unfold piperead at run
  unfold PipereadIntact Pipe.gives
  cases wait : waitData world.pipe others.pipe with
  | asleep =>
    rw [wait] at run
    cases run
  | gaveUp pipe =>
    rw [wait] at run
    cases run
    dsimp only
    rw [Nat.min_zero]
    exact ⟨.inl rfl, iff_of_true rfl (.zero _ _)⟩
  | ready pipe turns =>
    rw [wait] at run
    cases run
    obtain ⟨returned, advanced⟩ := pipereadLoop_moves world.pagetable addr n.toInt.toNat 0 pipe
      world.memory
    exact ⟨.inr returned, advanced⟩

theorem consolewrite_accurate (user : Bool) (src : Nat) (n : Int32) :
    ((consolewrite world.pagetable world.memory user src n).1 = -1 ∨
        (consolewrite world.pagetable world.memory user src n).1 =
          (consolewrite world.pagetable world.memory user src n).2.length) ↔
      ConsolewriteIntact world user src n := by
  obtain ⟨most, whole⟩ := consolewriteLoop_moves world.pagetable world.memory user src
    n.toInt.toNat 0 []
  unfold ConsolewriteIntact
  rw [Nat.add_zero, List.length_nil, Nat.zero_add] at whole
  rw [← whole]
  simp only [consolewrite, List.length_nil, Nat.zero_add] at most ⊢
  omega

/-- The offset after an inode has been read or written. -/
theorem offset_advances (off : UInt32) {reach : Nat}
    (report : returned = -1 ∧ reach = 0 ∨ returned = reach) :
    (if 0 < returned then off + UInt32.ofNat returned.toNat else off) =
      off + UInt32.ofNat reach := by
  split_ifs with positive
  · rcases report with ⟨rfl, -⟩ | rfl
    · omega
    · rfl
  · obtain rfl : reach = 0 := by omega
    exact (UInt32.add_zero off).symm

variable {off : UInt32}

/-- An offset that has advanced by one number has not advanced by a smaller one. -/
theorem offset_injective {first second : Nat} (small : first < 2 ^ 32)
    (fewer : second < 2 ^ 32) (same : off + UInt32.ofNat first = off + UInt32.ofNat second) :
    first = second := by
  have equal : UInt32.ofNat first = UInt32.ofNat second := by simpa using same
  have values := congrArg UInt32.toNat equal
  rwa [toNat_ofNat_small small, toNat_ofNat_small fewer] at values

/-- An outcome without counter, offset and size is accurate when its value is. -/
theorem Outcome.accurate_plain :
    (Outcome.mk returned moved none none none).Accurate ↔ returned = -1 ∨ returned = moved :=
  ⟨fun accurate => accurate.returned, fun report => ⟨report, by simp, by simp, by simp⟩⟩

theorem Outcome.accurate_counter {advanced : Nat} :
    (Outcome.mk returned moved (some advanced) none none).Accurate ↔
      (returned = -1 ∨ returned = moved) ∧ advanced = moved :=
  ⟨fun accurate => ⟨accurate.returned, accurate.counter advanced rfl⟩,
    fun ⟨report, same⟩ => ⟨report, by simpa using same, by simp, by simp⟩⟩

/-- A call that fails and does nothing is accurate. -/
theorem Outcome.Accurate.idle {counter : Option Nat} {offset : Option (UInt32 × UInt32)}
    {size : Option (Nat × Nat × Nat)} (still : ∀ advanced, counter = some advanced → advanced = 0)
    (kept : ∀ before after, offset = some (before, after) → after = before)
    (same : ∀ after before start, size = some (after, before, start) → after = before) :
    (Outcome.mk (-1) 0 counter offset size).Accurate := by
  refine ⟨.inl rfl, still, ?_, ?_⟩
  · intro before after moved
    rw [kept before after moved]
    exact (UInt32.add_zero before).symm
  · intro after before start grown
    rw [same after before start grown]
    exact Nat.le_max_left _ _

variable {outcome : Outcome}

theorem readi_outcome {user : Bool} {dst : Nat} {n : UInt32}
    (small : world.ip.size ≤ maxfile * bsize)
    (run : (Call.readi user dst off n).outcome world others = some outcome) :
    outcome.Accurate ↔ ReadiIntact world user dst off n := by
  obtain ⟨r, after, ⟨most, whole, report⟩, rfl⟩ :=
    endsWith_of_ensures (readi_moves small user dst off n) run
  rw [Outcome.accurate_plain]
  exact report_iff whole most report

theorem writei_outcome {user : Bool} {src : Nat} {n : UInt32}
    (run : (Call.writei user src off n).outcome world others = some outcome) : outcome.Accurate ↔
      Reachable world.pagetable user src (writeReach world.ip.size off n) := by
  obtain ⟨r, after, ⟨most, whole, size, report⟩, rfl⟩ :=
    endsWith_of_ensures (writei_moves user src off n) run
  have reported : r.returned = -1 ∧ writeReach world.ip.size off n = 0 ∨
      r.returned = writeReach world.ip.size off n := by
    rcases report with ⟨failed, -, -, reason⟩ | ⟨returned, reach, -⟩
    · exact .inl ⟨failed, if_pos reason⟩
    · exact .inr (by rw [reach]; exact returned)
  rw [← report_iff whole most reported]
  constructor
  · exact fun accurate => accurate.returned
  · intro value
    refine ⟨value, by simp, by simp, ?_⟩
    intro final before start same
    obtain ⟨rfl, rfl, rfl⟩ := by simpa using same
    exact size

theorem fileread_inode_outcome {f : OpenFile}
    (small : world.ip.size ≤ maxfile * bsize) (readable : ¬f.readable = false)
    (inode : f.type = .inode) (run : (Call.fileread f addr n).outcome world others = some outcome) :
    outcome.Accurate ↔ ReadiIntact world true addr f.off n.toUInt32 := by
  have limit := maxfile_bsize
  simp only [Call.outcome, Ev6.FileSystem.fileread, readable, inode, if_false, if_true,
    reduceCtorEq] at run
  obtain ⟨done, ends, rfl⟩ := map_eq_some_iff.mp run
  obtain ⟨r, after, ⟨most, whole, report⟩, rfl⟩ :=
    endsWith_of_ensures (readi_moves small true addr f.off n.toUInt32) ends
  have fits : readReach world.ip.size f.off n.toUInt32 < 2 ^ 32 := by
    unfold readReach
    split_ifs <;> omega
  unfold ReadiIntact
  rw [← report_iff whole most report]
  constructor
  · exact fun accurate => accurate.returned
  · intro value
    have moved := whole.mpr ((report_iff whole most report).mp value)
    refine ⟨value, by simp, ?_, by simp⟩
    intro before final same
    obtain ⟨rfl, rfl⟩ := by simpa using same
    dsimp only
    rw [moved]
    exact offset_advances f.off report

theorem filewrite_inode_outcome {f : OpenFile}
    (small : world.ip.size ≤ maxfile * bsize) (writable : ¬f.writable = false)
    (inode : f.type = .inode)
    (run : (Call.filewrite f addr n).outcome world others = some outcome) :
    outcome.Accurate ↔ MappedRange world.pagetable addr
      (filewriteReach world.ip.size f.off.toNat n.toInt.toNat) := by
  have bounds := toInt_bounds n
  simp only [Call.outcome, Ev6.FileSystem.filewrite, writable, inode, if_false, if_true,
    reduceCtorEq] at run
  obtain ⟨done, ends, rfl⟩ := map_eq_some_iff.mp run
  have start : Filewriting world.pagetable addr n.toInt.toNat world.ip.size f.off 0 f.off world.ip
      0 :=
    ⟨Nat.zero_le _, (UInt32.add_zero f.off).symm,
      .inl ⟨rfl, .zero _ _, Nat.le_max_left _ _, .inl ⟨rfl, rfl⟩⟩⟩
  obtain ⟨⟨i, off, ip, moved⟩, after, ⟨standing, arrived⟩, rfl⟩ :=
    endsWith_of_ensures (filewriteLoop_moves small start) ends
  have within := standing.within
  have place := standing.off
  dsimp only at standing arrived within place ⊢
  rcases standing.progress with ⟨clean, mapped, size, -⟩ | ⟨less, unmapped⟩
  · rw [← arrived clean]
    refine iff_of_true ⟨?_, by simp, ?_, ?_⟩ mapped
    · dsimp only
      split_ifs with whole
      · right
        omega
      · exact .inl rfl
    · intro before final same
      obtain ⟨rfl, rfl⟩ := by simpa using same
      dsimp only
      rw [place, clean]
    · intro final before first same
      obtain ⟨rfl, rfl, rfl⟩ := by simpa using same
      dsimp only
      rw [clean]
      exact size
  · refine iff_of_false (fun accurate => ?_) unmapped
    have advanced := accurate.offset f.off off rfl
    rw [place] at advanced
    have same := offset_injective (by omega) (by dsimp only; omega) advanced
    dsimp only at same
    omega

/-- A call that returns reports what it has moved, and has advanced its counters by
that, exactly when every byte it comes to is mapped. -/
theorem accurate_iff_intact {call : Call} {outcome : Outcome}
    (small : world.ip.size ≤ maxfile * bsize) (run : call.outcome world others = some outcome) :
    outcome.Accurate ↔ call.Intact world others := by
  cases call with
  | readi user dst off n => exact readi_outcome small run
  | writei user src off n => exact writei_outcome run
  | pipewrite addr n =>
    obtain ⟨done, ends, rfl⟩ := map_eq_some_iff.mp run
    obtain ⟨counted, report⟩ := pipewrite_accurate ends
    rw [Outcome.accurate_counter, report]
    exact and_iff_left counted
  | piperead addr n =>
    obtain ⟨done, ends, rfl⟩ := map_eq_some_iff.mp run
    obtain ⟨report, counted⟩ := piperead_accurate ends
    rw [Outcome.accurate_counter, counted]
    exact and_iff_right report
  | consolewrite user src n =>
    cases run
    rw [Outcome.accurate_plain]
    exact consolewrite_accurate user src n
  | fileread f addr n =>
    by_cases readable : f.readable = false
    · simp only [Call.outcome, Ev6.FileSystem.fileread, readable, if_true, Option.map_some,
        Option.some.injEq] at run
      subst run
      refine iff_of_true (.idle (by split_ifs <;> simp) (by split_ifs <;> simp) (by simp)) ?_
      simp [Call.Intact, readable]
    · have allowed : f.readable = true := by simpa using readable
      simp only [Call.Intact, allowed, forall_const]
      cases type : f.type with
      | inode => exact fileread_inode_outcome small readable type run
      | pipe =>
        simp only [Call.outcome, Ev6.FileSystem.fileread, readable, type, if_false, if_true,
          Option.map_map, reduceCtorEq] at run
        obtain ⟨done, ends, rfl⟩ := map_eq_some_iff.mp run
        obtain ⟨report, counted⟩ := piperead_accurate ends
        rw [← counted]
        exact Outcome.accurate_counter.trans (and_iff_right report)
      | device =>
        simp only [Call.outcome, Ev6.FileSystem.fileread, readable, type, if_false,
          reduceCtorEq] at run
        split at run
        · simp only [Option.map_some, Option.some.injEq] at run
          subst run
          exact iff_of_true (.idle (by simp) (by simp) (by simp)) trivial
        · rw [Option.map_map] at run
          obtain ⟨done, ends, rfl⟩ := map_eq_some_iff.mp run
          exact iff_of_true (Outcome.accurate_plain.mpr
            (consolereadLoop_moves (Nat.le_refl _) ends)) trivial
      | none =>
        simp [Call.outcome, Ev6.FileSystem.fileread, readable, type] at run
  | filewrite f addr n =>
    by_cases writable : f.writable = false
    · simp only [Call.outcome, Ev6.FileSystem.filewrite, writable, if_true, Option.map_some,
        Option.some.injEq] at run
      subst run
      refine iff_of_true (.idle (by split_ifs <;> simp) (by split_ifs <;> simp)
        (by split_ifs <;> simp)) ?_
      simp [Call.Intact, writable]
    · have allowed : f.writable = true := by simpa using writable
      simp only [Call.Intact, allowed, forall_const]
      cases type : f.type with
      | inode => exact filewrite_inode_outcome small writable type run
      | pipe =>
        simp only [Call.outcome, Ev6.FileSystem.filewrite, writable, type, if_false, if_true,
          Option.map_map, reduceCtorEq] at run
        obtain ⟨done, ends, rfl⟩ := map_eq_some_iff.mp run
        obtain ⟨counted, report⟩ := pipewrite_accurate ends
        rw [← report]
        exact Outcome.accurate_counter.trans (and_iff_left counted)
      | device =>
        simp only [Call.outcome, Ev6.FileSystem.filewrite, writable, type, if_false,
          reduceCtorEq] at run
        split at run
        next other =>
          simp only [Option.map_some, Option.some.injEq] at run
          subst run
          refine iff_of_true (.idle (by simp) (by simp) (by simp)) fun same => ?_
          rw [same] at other
          exact absurd other (by decide)
        next same =>
          have major : f.major = console := by tauto
          simp only [Option.map_some, Option.some.injEq] at run
          subst run
          rw [Outcome.accurate_plain]
          exact (consolewrite_accurate true addr n).trans
            ⟨fun intact _ => intact, fun intact => intact major⟩
      | none =>
        simp [Call.outcome, Ev6.FileSystem.filewrite, writable, type] at run

end Accuracy

/-! ## A range that ends in an unmapped page -/

/-- A process with one mapped page, the first, and a file of two bytes in block 46. -/
def onePage : World where
  pagetable page := if page = 0 then some kernbase else none
  memory _ := 7
  volume :=
    { sb := { size := 1500, ninodes := 200, nlog := 30, inodestart := 32, bmapstart := 45 }
      used := fun b => decide (b < 47)
      dinode := fun _ =>
        { type := 0, major := 0, minor := 0, nlink := 0, size := 0, addrs := fun _ => 0 }
      block := fun _ _ => 0
      outstanding := 1
      lh := [] }
  ip :=
    { type := 2, major := 0, minor := 0, nlink := 1, size := 2, inum := 2
      addrs := fun index => if index = 0 then 46 else 0 }
  pipe := { data := fun _ => 0, nread := 0, nwrite := 2, readopen := true, writeopen := true }
  cons := { buf := fun _ => 0, r := 0, w := 0 }

/-- Nobody else does anything. -/
def idle : Others where
  pipe := []
  cons := []
  volume _ volume := volume

/-- The file of two bytes, opened for reading and writing. -/
def twoBytes : OpenFile :=
  { type := .inode, readable := true, writable := true, off := 0, major := 0 }

/-- The value returned, the bytes moved and the advances of an outcome. -/
def Outcome.report (outcome : Outcome) : Int × Nat × Option Nat × Option (UInt32 × UInt32) :=
  (outcome.returned, outcome.moved, outcome.counter, outcome.offset)

/-- Two bytes at the end of the page are moved and reported. -/
theorem accurate_within_page :
    ∃ outcome, (Call.pipewrite 4094 2).outcome onePage idle = some outcome ∧ outcome.Accurate := by
  have returns : ((Call.pipewrite 4094 2).outcome onePage idle).isSome = true := by
    decide +kernel
  obtain ⟨outcome, run⟩ := Option.isSome_iff_exists.mp returns
  have intact : (Call.pipewrite 4094 2).Intact onePage idle := ⟨by decide, by decide +kernel⟩
  exact ⟨outcome, run, (accurate_iff_intact (by decide) run).mpr intact⟩

/-- Of two bytes across the end of the page one is moved: every function but the
reader of the pipe reports two, and the reader takes two bytes out of the pipe. -/
theorem short_copies_misreported :
    ((Call.pipewrite 4095 2).outcome onePage idle).map Outcome.report =
        some (2, 1, some 1, none) ∧
      ((Call.piperead 4095 2).outcome onePage idle).map Outcome.report =
        some (1, 1, some 2, none) ∧
      ((Call.consolewrite true 4095 2).outcome onePage idle).map Outcome.report =
        some (2, 1, none, none) ∧
      ((Call.fileread twoBytes 4095 2).outcome onePage idle).map Outcome.report =
        some (2, 1, none, some (0, 2)) ∧
      ((Call.filewrite twoBytes 4095 2).outcome onePage idle).map Outcome.report =
        some (2, 1, none, some (0, 2)) ∧
      ¬∀ (world : World) (others : Others) (call : Call) (outcome : Outcome),
        call.outcome world others = some outcome → outcome.Accurate := by
  have written : ((Call.pipewrite 4095 2).outcome onePage idle).map Outcome.report =
      some (2, 1, some 1, none) := by decide +kernel
  refine ⟨written, by decide +kernel, by decide +kernel, by decide +kernel, by decide +kernel, ?_⟩
  intro accurate
  obtain ⟨outcome, run, report⟩ := map_eq_some_iff.mp written
  have returned : outcome.returned = 2 := congrArg Prod.fst report
  have moved : outcome.moved = 1 := congrArg (fun parts => parts.2.1) report
  have value := (accurate onePage idle _ outcome run).returned
  omega

end Ev6.FileSystem
