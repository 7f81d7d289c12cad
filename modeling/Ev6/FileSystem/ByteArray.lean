import Ev6.FileSystem.ReadWrite

/-!
# Files as byte arrays

Calls of `readi` and `writei` with kernel buffers act on a file like reads and
writes of a byte array as long as the file. The abstract calls are stated on
lists; `Volume.file` is the list that a tidy inode stands for.
-/

namespace Ev6.FileSystem

open Support

/-! ## The abstract file -/

/-- A byte array with the bytes from `off` on replaced, extended if they do not fit. -/
def splice (file : List UInt8) (off : Nat) (bytes : List UInt8) : List UInt8 :=
  file.take off ++ bytes ++ file.drop (off + bytes.length)

/-- A call of `readi` or `writei` with a kernel buffer. -/
inductive FileCall where
  | writei (src : Nat) (off n : UInt32)
  | readi (dst : Nat) (off n : UInt32)

/-- A byte array and the memory around it. -/
structure FileState where
  file : List UInt8
  memory : Nat → UInt8

/-- The call on a byte array, with the value it returns. -/
def FileCall.run (call : FileCall) (state : FileState) : Int × FileState :=
  match call with
  | .writei src off n =>
    if state.file.length < off.toNat ∨ 2 ^ 32 ≤ off.toNat + n.toNat ∨
        maxfile * bsize < off.toNat + n.toNat then
      (-1, state)
    else
      (n.toNat, { state with
        file := splice state.file off.toNat (extract state.memory src n.toNat) })
  | .readi dst off n =>
    if state.file.length < off.toNat ∨ 2 ^ 32 ≤ off.toNat + n.toNat then
      (-1, state)
    else
      let bytes := (state.file.drop off.toNat).take n.toNat
      (bytes.length, { state with memory := patch state.memory dst bytes })

/-- A sequence of calls on a byte array, with the values they return. -/
def FileCall.runAll : List FileCall → FileState → List Int × FileState
  | [], state => ([], state)
  | call :: rest, state =>
    let (value, state) := call.run state
    let (values, state) := runAll rest state
    (value :: values, state)

/-! ## The calls on the volume -/

/-- The call as the kernel makes it. -/
def FileCall.perform (pagetable : UserPages) (call : FileCall) (ip : Inode)
    (memory : Nat → UInt8) : FsM Transfer :=
  match call with
  | .writei src off n => Ev6.FileSystem.writei pagetable memory ip false src off n
  | .readi dst off n => Ev6.FileSystem.readi pagetable memory ip false dst off n

/-- What a sequence of calls leaves. -/
structure Calls where
  values : List Int
  ip : Inode
  memory : Nat → UInt8

/-- A sequence of calls, each with what the log holds when it starts: the blocks
logged before and the number of operations in progress. -/
def performAll (pagetable : UserPages) :
    List (List Nat × Nat × FileCall) → Inode → (Nat → UInt8) → FsM Calls
  | [], ip, memory => pure ⟨[], ip, memory⟩
  | (lh, outstanding, call) :: rest, ip, memory => do
      modifyThe Volume fun volume => { volume with lh := lh, outstanding := outstanding }
      let transfer ← call.perform pagetable ip memory
      let calls ← performAll pagetable rest transfer.ip transfer.memory
      pure { calls with values := transfer.returned :: calls.values }

/-- The byte array that an inode stands for. -/
def Volume.file (volume : Volume) (ip : Inode) : List UInt8 :=
  extract (volume.content ip.addrs) 0 ip.size

/-! ## Byte arrays as contents -/

section Arrays

variable {content : Nat → UInt8} {size off count : Nat} {bytes : List UInt8}

theorem take_drop_extract (content : Nat → UInt8) (inside : off + count ≤ size) :
    ((extract content 0 size).drop off).take count = extract content off count := by
  have split : size = off + (count + (size - (off + count))) := by omega
  rw [split, extract_add, Nat.zero_add, extract_add]
  rw [List.drop_append_of_le_length (by simp), List.drop_eq_nil_of_le (by simp), List.nil_append]
  rw [List.take_append_of_le_length (by simp), List.take_of_length_le (by simp)]

/-- A read that is clipped at the end of the array. -/
theorem take_drop_clipped (content : Nat → UInt8) (inside : off ≤ size) (n : Nat) :
    ((extract content 0 size).drop off).take n =
      extract content off (if size < off + n then size - off else n) := by
  split_ifs with beyond
  · rw [← take_drop_extract content (show off + (size - off) ≤ size by omega),
      List.take_of_length_le (by simp; omega), List.take_of_length_le (by simp)]
  · exact take_drop_extract content (by omega)

theorem splice_extract (content : Nat → UInt8) (inside : off ≤ size) :
    splice (extract content 0 size) off bytes =
      extract (patch content off bytes) 0 (max size (off + bytes.length)) := by
  have before : (extract content 0 size).take off = extract (patch content off bytes) 0 off := by
    rw [show size = off + (size - off) by omega, extract_add,
      List.take_append_of_le_length (by simp), List.take_of_length_le (by simp)]
    apply extract_congr
    intro index low
    rw [patch_before (by omega)]
  have within : extract (patch content off bytes) (0 + off) bytes.length = bytes := by
    rw [Nat.zero_add, extract_patch]
  obtain ⟨count, behind⟩ : ∃ count, max size (off + bytes.length) = off + bytes.length + count :=
    ⟨max size (off + bytes.length) - (off + bytes.length), by omega⟩
  have after : (extract content 0 size).drop (off + bytes.length) =
      extract (patch content off bytes) (0 + (off + bytes.length)) count := by
    rcases Nat.lt_or_ge size (off + bytes.length) with short | long
    · rw [List.drop_eq_nil_of_le (by simp; omega)]
      obtain rfl : count = 0 := by omega
      rfl
    · obtain rfl : size = off + bytes.length + count := by omega
      rw [extract_add, List.drop_append_of_le_length (by simp),
        List.drop_eq_nil_of_le (by simp), List.nil_append]
      apply extract_congr
      intro index _
      rw [patch_behind (by omega)]
  rw [splice, before, after, behind, extract_add, extract_add, within]

end Arrays

/-! ## The loops with kernel buffers -/

section Loops

variable {pagetable : UserPages} {volume : Volume} {ip : Inode} {n tot off : Nat}

/-- The loop of `readi` copies the rest of the stretch out of the file. -/
theorem readLoop_ensures (sane : volume.Sane) (tidy : volume.Tidy ip.addrs) (low : tot ≤ n)
    (inside : off + (n - tot) ≤ maxfile * bsize) (dst : Nat) (memory : Nat → UInt8) :
    Ensures (readLoop pagetable false n tot off dst memory ip) volume
      (fun done after => Extends volume ip after done.ip ∧ done.moved = n ∧
        done.memory = patch memory dst (extract (volume.content ip.addrs) off (n - tot)))
      Exhausted := by
  obtain ⟨left, rest⟩ : ∃ left, n - tot = left := ⟨_, rfl⟩
  induction left using Nat.strong_induction_on generalizing tot off dst memory ip volume with
  | _ left ih =>
    rw [readLoop]
    split
    next more =>
      have positive := chunk_positive off more
      have room := Nat.mod_lt off (show 0 < bsize by decide)
      have block : off / bsize < maxfile := block_inside (by omega)
      refine .bind (bmap_ensures sane tidy block) ?_
      rintro ⟨addr, grown⟩ middle ⟨extension, same, present⟩
      dsimp only at same present ⊢
      subst same
      refine .get ?_
      obtain ⟨m, chunk⟩ : ∃ m, min (n - tot) (bsize - off % bsize) = m := ⟨_, rfl⟩
      rw [chunk] at positive ⊢
      have bytes : extract (middle.block (middle.pointer grown.addrs (cellOf (off / bsize))))
          (off % bsize) m = extract (volume.content ip.addrs) off m := by
        apply extract_shift
        intro index early
        rw [← Volume.content_eq_block present (by omega), extension.content tidy (by omega)]
      rw [bytes]
      simp only [eitherCopyout, Bool.false_eq_true, if_false, if_true]
      have behind := ih (n - (tot + m)) (by omega) (extension.sane sane)
        (extension.tidy tidy) (show tot + m ≤ n by omega)
        (show off + m + (n - (tot + m)) ≤ maxfile * bsize by omega) (dst + m)
        (patch memory dst (extract (volume.content ip.addrs) off m)) rfl
      refine behind.mono ?_ fun _ _ => id
      rintro done after ⟨further, moved, copied⟩
      refine ⟨extension.trans further, moved, ?_⟩
      have kept : extract (middle.content grown.addrs) (off + m) (n - (tot + m)) =
          extract (volume.content ip.addrs) (off + m) (n - (tot + m)) := by
        apply extract_congr
        intro index early
        exact extension.content tidy (by omega)
      have joined := patch_append memory dst (extract (volume.content ip.addrs) off m)
        (extract (volume.content ip.addrs) (off + m) (n - (tot + m)))
      rw [length_extract] at joined
      rw [copied, kept, joined, ← extract_add]
      congr 2
      omega
    next stop =>
      have whole : n - tot = 0 := by omega
      rw [whole]
      exact .pure ⟨.refl, by dsimp only; omega, by simp⟩

/-- The loop of `writei` goes on overwriting the file behind what it has written.
When everything it copies is within reach, it comes to its end. -/
theorem writeLoop_ensures {base : Volume} {origin : Inode} {start src : Nat}
    {bytes : List UInt8} {user : Bool} {memory : Nat → UInt8}
    (prior : Writes base origin start bytes volume ip) (sane : base.Sane)
    (tidy : base.Tidy origin.addrs) (low : bytes.length ≤ n)
    (inside : start + n ≤ maxfile * bsize) :
    Ensures (writeLoop pagetable memory user n bytes.length (start + bytes.length) src ip) volume
      (fun done after => ∃ all, Writes base origin start all after done.ip ∧
        done.moved = all.length ∧ all.length ≤ n ∧ bytes.length ≤ all.length ∧
        start + bytes.length ≤ done.off ∧ done.off ≤ start + all.length ∧
        (Reachable pagetable user src (n - bytes.length) →
          all = bytes ++ extract (sourceByte pagetable memory user) src (n - bytes.length) ∧
            done.off = start + n)) Exhausted := by
  obtain ⟨left, rest⟩ : ∃ left, n - bytes.length = left := ⟨_, rfl⟩
  induction left using Nat.strong_induction_on generalizing bytes src ip volume with
  | _ left ih =>
    rw [writeLoop]
    split
    next more =>
      have positive := chunk_positive (start + bytes.length) more
      have room := Nat.mod_lt (start + bytes.length) (show 0 < bsize by decide)
      have block : (start + bytes.length) / bsize < maxfile := block_inside (by omega)
      refine .bind (bmap_ensures (prior.sane sane) (prior.tidy tidy) block) ?_
      rintro ⟨addr, grown⟩ middle ⟨extension, same, present⟩
      dsimp only at same present ⊢
      subst same
      obtain ⟨m, chunk⟩ : ∃ m,
          min (n - bytes.length) (bsize - (start + bytes.length) % bsize) = m := ⟨_, rfl⟩
      rw [chunk] at positive ⊢
      have short := (eitherCopyin_length pagetable memory user src m).1
      have whole := (eitherCopyin_length pagetable memory user src m).2
      have reached := eitherCopyin_ok pagetable memory user src m
      have read : Reachable pagetable user src m → _ :=
        @eitherCopyin_bytes pagetable memory user src m
      obtain ⟨copy, copied⟩ : ∃ copy, eitherCopyin pagetable memory user src m = copy :=
        ⟨_, rfl⟩
      rw [copied] at short whole reached read ⊢
      have parts : n - bytes.length = m + (n - bytes.length - m) := by omega
      refine .modify ?_
      split
      next ok =>
        refine .bind (logWrite_ensures _ _) ?_
        rintro ⟨⟩ logged same
        have stores : Stores middle grown (start + bytes.length) copy.bytes logged :=
          ⟨block, present, by omega, same⟩
        have total : (bytes ++ copy.bytes).length = bytes.length + m := by
          rw [List.length_append, whole.mpr ok]
        have behind := @ih (n - (bytes ++ copy.bytes).length) (by omega) _ _ (src + m) _
          (.store (.extend prior extension) stores) (by omega) rfl
        rw [total, ← Nat.add_assoc] at behind
        refine behind.mono ?_ fun _ _ => id
        rintro done after ⟨all, writes, moved, most, least, early, late, exact_⟩
        refine ⟨all, writes, moved, most, by omega, by omega, late, fun reach => ?_⟩
        rw [parts, Reachable.add] at reach
        obtain ⟨every, arrived⟩ := exact_ (by rw [Nat.sub_add_eq]; exact reach.2)
        refine ⟨?_, arrived⟩
        rw [every, read reach.1, List.append_assoc, ← extract_add]
        congr 2
        omega
      next failed =>
        have stores : Stores middle grown (start + bytes.length) copy.bytes _ :=
          ⟨block, present, by omega, SameBut.refl _⟩
        refine .pure ⟨bytes ++ copy.bytes, .store (.extend prior extension) stores, ?_, ?_, ?_,
          Nat.le_refl _, ?_, fun reach => ?_⟩
        · rw [List.length_append]
        · rw [List.length_append]
          omega
        · simp
        · rw [List.length_append]
          dsimp only
          omega
        · rw [parts, Reachable.add] at reach
          exact absurd (reached.mpr reach.1) failed
    next stop =>
      refine .pure ⟨bytes, prior, rfl, low, Nat.le_refl _, Nat.le_refl _, Nat.le_refl _,
        fun _ => ?_⟩
      have none : n - bytes.length = 0 := by omega
      rw [none]
      exact ⟨by simp, by dsimp only; omega⟩

section

variable (pagetable : UserPages) (memory : Nat → UInt8) (user : Bool) (src : Nat) {start : Nat}
  (sane : volume.Sane) (tidy : volume.Tidy ip.addrs) (inside : start + n ≤ maxfile * bsize)

include sane tidy inside

theorem writeLoop_reach :
    Ensures (writeLoop pagetable memory user n 0 start src ip) volume
      (fun done after => ∃ all, Writes volume ip start all after done.ip ∧
        done.moved = all.length ∧ all.length ≤ n ∧ start ≤ done.off ∧
        done.off ≤ start + all.length ∧
        (Reachable pagetable user src n →
          all = extract (sourceByte pagetable memory user) src n ∧ done.off = start + n))
      Exhausted := by
  have nothing : Writes volume ip start [] volume ip := .refl
  refine (writeLoop_ensures nothing sane tidy (Nat.zero_le n) inside).mono ?_ fun _ _ => id
  rintro done after ⟨all, writes, moved, most, -, early, late, whole⟩
  exact ⟨all, writes, moved, most, early, late, whole⟩

theorem writeLoop_whole :
    Ensures (writeLoop pagetable memory user n 0 start src ip) volume
      (fun done after => ∃ all, Writes volume ip start all after done.ip ∧
        done.moved = all.length ∧ all.length ≤ n ∧ start ≤ done.off ∧
        done.off ≤ start + all.length ∧
        (user = false → all = extract memory src n ∧ done.off = start + n)) Exhausted := by
  refine (writeLoop_reach pagetable memory user src sane tidy inside).mono ?_ fun _ _ => id
  rintro done after ⟨all, writes, moved, most, early, late, whole⟩
  refine ⟨all, writes, moved, most, early, late, fun kernel => ?_⟩
  subst kernel
  exact whole fun wrong => absurd wrong Bool.false_ne_true

end

end Loops

/-! ## The calls with kernel buffers -/

/-- A volume and a file whose size is in range. -/
structure FileOk (volume : Volume) (ip : Inode) : Prop where
  sane : volume.Sane
  tidy : volume.Tidy ip.addrs
  size : ip.size ≤ maxfile * bsize

theorem Volume.length_file (volume : Volume) (ip : Inode) : (volume.file ip).length = ip.size :=
  length_extract _ _ _

/-- The header of the log says nothing about a file. -/
theorem FileOk.of_eq {before after : Volume} {ip : Inode} (ok : FileOk before ip)
    (used : after.used = before.used) (sb : after.sb = before.sb)
    (block : after.block = before.block) : FileOk after ip := by
  have pointers : ∀ cell, after.pointer ip.addrs cell = before.pointer ip.addrs cell :=
    fun cell => Volume.pointer_congr fun _ => by rw [block]
  refine ⟨⟨by rw [used]; exact ok.sane.boot, by rw [sb]; exact ok.sane.small⟩, ⟨?_, ?_⟩, ok.size⟩
  · intro cell inside present
    rw [pointers] at present ⊢
    rw [used]
    exact ok.tidy.used cell inside present
  · intro first inside second inside' present same
    rw [pointers] at present same
    rw [pointers] at same
    exact ok.tidy.distinct first inside second inside' present same

theorem Volume.file_of_eq {before after : Volume} {ip : Inode}
    (block : after.block = before.block) : after.file ip = before.file ip := by
  apply extract_congr
  intro index _
  have pointers : ∀ cell, after.pointer ip.addrs cell = before.pointer ip.addrs cell :=
    fun cell => Volume.pointer_congr fun _ => by rw [block]
  simp only [content, pointers, block]

/-- A block map that has grown leaves the file as it is. -/
theorem FileOk.extend {before after : Volume} {ip attached : Inode} (ok : FileOk before ip)
    (extends_ : Extends before ip after attached) :
    FileOk after attached ∧ after.file attached = before.file ip := by
  have same := extends_.inode
  have size : attached.size = ip.size := by rw [same]
  have bound := ok.size
  refine ⟨⟨extends_.sane ok.sane, extends_.tidy ok.tidy, by omega⟩, ?_⟩
  unfold Volume.file
  rw [size]
  apply extract_congr
  intro index low
  exact extends_.content ok.tidy (by omega)

/-- A file after a write that has come to its end and has set the size. -/
theorem FileOk.write {before after : Volume} {ip written : Inode} {off : Nat}
    {bytes : List UInt8} (ok : FileOk before ip) (writes : Writes before ip off bytes after written)
    (start : off ≤ ip.size) (inside : off + bytes.length ≤ maxfile * bsize) :
    FileOk after (extendSize written (off + bytes.length)) ∧
      after.file (extendSize written (off + bytes.length)) =
        splice (before.file ip) off bytes := by
  have kept : written.size = ip.size := by rw [writes.inode]
  have bound := ok.size
  refine ⟨⟨writes.sane ok.sane, ?_, ?_⟩, ?_⟩
  · rw [extendSize_addrs]
    exact writes.tidy ok.tidy
  · rw [extendSize_size]
    omega
  · unfold Volume.file
    rw [splice_extract _ start, extendSize_addrs, extendSize_size, kept]
    apply extract_congr
    intro index low
    exact writes.content ok.tidy (by omega)

theorem maxfile_bytes : maxfile * bsize = 274432 := rfl

/-- A write within the bounds, from a source within reach, overwrites a stretch of the
byte array. -/
theorem writei_splices {pagetable : UserPages} {memory : Nat → UInt8} {volume : Volume}
    {ip : Inode} {user : Bool} {src : Nat} {off n : UInt32} (ok : FileOk volume ip)
    (start : off.toNat ≤ ip.size) (inside : off.toNat + n.toNat ≤ maxfile * bsize)
    (reach : Reachable pagetable user src n.toNat) :
    Ensures (writei pagetable memory ip user src off n) volume
      (fun transfer after => FileOk after transfer.ip ∧ transfer.returned = n.toNat ∧
        transfer.memory = memory ∧ after.file transfer.ip =
          splice (volume.file ip) off.toNat
            (extract (sourceByte pagetable memory user) src n.toNat)) Exhausted := by
  have bound := ok.size
  have bytes := maxfile_bytes
  have early : ¬(ip.size < off.toNat ∨ 2 ^ 32 ≤ off.toNat + n.toNat) := by omega
  have large : ¬maxfile * bsize < off.toNat + n.toNat := by omega
  have value : asInt n.toNat = n.toNat := asInt_of_small (by omega)
  simp only [writei, add_lt_iff]
  rw [if_neg early, toNat_add_of_fits (by omega), if_neg large]
  refine .bind (writeLoop_reach pagetable memory user src ok.sane ok.tidy inside) ?_
  rintro done after ⟨all, writes, -, -, -, -, whole⟩
  obtain ⟨rfl, arrived⟩ := whole reach
  have length : (extract (sourceByte pagetable memory user) src n.toNat).length = n.toNat :=
    length_extract _ _ _
  obtain ⟨kept, same⟩ := ok.write writes start (by omega)
  rw [length, ← arrived] at kept same
  rw [value]
  split
  next positive =>
    refine .bind (iupdate_ensures _ _) ?_
    rintro ⟨⟩ final updated
    refine .pure ⟨kept.of_eq ?_ ?_ ?_, rfl, rfl, ?_⟩
    · rw [updated]
    · rw [updated]
    · rw [updated]
    · have block : final.block = after.block := by rw [updated]
      rw [Volume.file_of_eq block, same]
  next none =>
    have nothing : n.toNat = 0 := by
      rw [UInt32.lt_iff_toNat_lt] at none
      simpa using none
    have unchanged : extendSize done.ip done.off = done.ip := by
      have size : done.ip.size = ip.size := by rw [writes.inode]
      exact if_neg (by omega)
    rw [unchanged] at kept same
    exact .pure ⟨kept, rfl, rfl, same⟩

/-- One call on the volume is the call on the byte array. -/
theorem FileCall.refines (pagetable : UserPages) (call : FileCall) {volume : Volume} {ip : Inode}
    (ok : FileOk volume ip) (memory : Nat → UInt8) :
    Ensures (call.perform pagetable ip memory) volume
      (fun transfer after => FileOk after transfer.ip ∧
        call.run ⟨volume.file ip, memory⟩ =
          (transfer.returned, ⟨after.file transfer.ip, transfer.memory⟩)) Exhausted := by
  have bound := ok.size
  have bytes := maxfile_bytes
  cases call with
  | writei src off n =>
    simp only [perform, run, Volume.length_file]
    by_cases rejected : ip.size < off.toNat ∨ 2 ^ 32 ≤ off.toNat + n.toNat ∨
        maxfile * bsize < off.toNat + n.toNat
    · rw [if_pos rejected]
      refine .intro (fun transfer after ran => ?_) fun panic after ran => ?_
      · rw [writei_rejects pagetable volume ip memory false src rejected] at ran
        cases ran
        exact ⟨ok, rfl⟩
      · rw [writei_rejects pagetable volume ip memory false src rejected] at ran
        cases ran
    · rw [if_neg rejected]
      have reach : Reachable pagetable false src n.toNat :=
        fun wrong => absurd wrong Bool.false_ne_true
      refine (@writei_splices pagetable memory _ _ _ _ _ _ ok (by omega) (by omega) reach).mono ?_
        fun _ _ => id
      rintro transfer after ⟨kept, returned, same, written⟩
      refine ⟨kept, ?_⟩
      rw [returned, same, written]
      rfl
  | readi dst off n =>
    simp only [perform, Ev6.FileSystem.readi, run, Volume.length_file, add_lt_iff]
    by_cases rejected : ip.size < off.toNat ∨ 2 ^ 32 ≤ off.toNat + n.toNat
    · rw [if_pos rejected, if_pos rejected]
      exact .pure ⟨ok, rfl⟩
    · rw [if_neg rejected, if_neg rejected, toNat_add_of_fits (by tauto)]
      have start : off.toNat ≤ ip.size := by omega
      have clipped := take_drop_clipped (volume.content ip.addrs) start n.toNat
      obtain ⟨count, length⟩ : ∃ count,
          (if ip.size < off.toNat + n.toNat then ip.size - off.toNat else n.toNat) = count :=
        ⟨_, rfl⟩
      have few : off.toNat + count ≤ ip.size := by
        split_ifs at length <;> omega
      rw [length] at clipped ⊢
      have value : asInt count = count := asInt_of_small (by omega)
      have loop := @readLoop_ensures pagetable _ _ _ _ _ ok.sane ok.tidy (Nat.zero_le count)
        (show off.toNat + (count - 0) ≤ maxfile * bsize by omega) dst memory
      refine .bind loop ?_
      rintro done after ⟨extension, -, copied⟩
      obtain ⟨kept, same⟩ := ok.extend extension
      refine .pure ⟨kept, ?_⟩
      rw [Volume.file, clipped, length_extract, value, copied, same]
      rfl

/-- Every sequence of calls with kernel buffers on a tidy file returns what the same
sequence on its byte array returns, and leaves the same bytes in file and memory.
It stops short only for want of free blocks or of an open transaction with room. -/
theorem calls_refine (pagetable : UserPages) (calls : List (List Nat × Nat × FileCall))
    {volume : Volume} {ip : Inode} (ok : FileOk volume ip) (memory : Nat → UInt8) :
    Ensures (performAll pagetable calls ip memory) volume
      (fun done after => FileOk after done.ip ∧
        FileCall.runAll (calls.map fun call => call.2.2) ⟨volume.file ip, memory⟩ =
          (done.values, ⟨after.file done.ip, done.memory⟩))
      (fun panic stopped => panic ≠ .bmapOutOfRange ∧ Exhausted panic stopped) := by
  induction calls generalizing volume ip memory with
  | nil => exact .pure ⟨ok, rfl⟩
  | cons call rest ih =>
    obtain ⟨lh, outstanding, call⟩ := call
    have opened : FileOk { volume with lh := lh, outstanding := outstanding } ip :=
      ok.of_eq rfl rfl rfl
    have file : Volume.file { volume with lh := lh, outstanding := outstanding } ip =
        volume.file ip := Volume.file_of_eq rfl
    refine .modify (.bind ((call.refines pagetable opened memory).mono (fun _ _ => id) ?_) ?_)
    · intro panic stopped exhausted
      exact ⟨exhausted.inRange, exhausted⟩
    rintro transfer middle ⟨kept, one⟩
    refine .bind (ih kept transfer.memory) ?_
    rintro done after ⟨keptAll, all⟩
    refine .pure ⟨keptAll, ?_⟩
    rw [file] at one
    simp only [List.map_cons, FileCall.runAll, one, all]

/-- Reads and writes of a tidy file refine those of a byte array: every sequence of
calls that comes to its end agrees with the sequence on the byte array, `bmap` is
never out of range, and a write out of range changes nothing at all. -/
theorem file_is_byte_array (pagetable : UserPages) {volume : Volume} {ip : Inode}
    (ok : FileOk volume ip) (memory : Nat → UInt8) : (∀ calls : List (List Nat × Nat × FileCall),
      Ensures (performAll pagetable calls ip memory) volume
        (fun done after => FileOk after done.ip ∧
          FileCall.runAll (calls.map fun call => call.2.2) ⟨volume.file ip, memory⟩ =
            (done.values, ⟨after.file done.ip, done.memory⟩))
        fun panic stopped => panic ≠ .bmapOutOfRange ∧ Exhausted panic stopped) ∧
    ∀ (src : Nat) (off n : UInt32), (ip.size < off.toNat ∨ 2 ^ 32 ≤ off.toNat + n.toNat ∨
        maxfile * bsize < off.toNat + n.toNat) →
      (writei pagetable memory ip false src off n).run volume = .ok ⟨-1, ip, memory, 0⟩ volume :=
  ⟨fun calls => calls_refine pagetable calls ok memory,
    fun src _ _ rejected => writei_rejects pagetable volume ip memory false src rejected⟩

/-! ## A file on a fresh volume -/

/-- The volume that `mkfs` lays out, with all data blocks free, inside an operation. -/
def freshVolume : Volume where
  sb := { size := 1500, ninodes := 200, nlog := 30, inodestart := 32, bmapstart := 45 }
  used b := decide (b < 46)
  dinode _ := { type := 0, major := 0, minor := 0, nlink := 0, size := 0, addrs := fun _ => 0 }
  block _ _ := 0
  outstanding := 1
  lh := []

/-- A file without blocks. -/
def emptyFile (size : Nat) : Inode where
  type := 2
  major := 0
  minor := 0
  nlink := 1
  size := size
  addrs _ := 0
  inum := 2

/-- A file all of whose cells hold the same block. -/
def sharedFile (b : Nat) : Inode :=
  { emptyFile 2048 with addrs := fun _ => b }

theorem emptyFile_pointer (volume : Volume) (size cell : Nat) :
    volume.pointer (emptyFile size).addrs cell = 0 := by
  simp [Volume.pointer, emptyFile]

theorem emptyFile_ok {size : Nat} (small : size ≤ maxfile * bsize) :
    FileOk freshVolume (emptyFile size) := by
  refine ⟨⟨rfl, by decide⟩, ⟨?_, ?_⟩, small⟩
  · intro cell _ present
    exact absurd (emptyFile_pointer freshVolume size cell) present
  · intro first _ second _ present
    exact absurd (emptyFile_pointer freshVolume size first) present

/-- Three bytes written to an empty file are read back from offset 1 on. -/
theorem file_is_byte_array_written :
    Ensures
      (performAll (fun _ => none) [([], 1, .writei 0 0 3), ([], 1, .readi 8 1 7)] (emptyFile 0)
        fun _ => 7) freshVolume
      (fun done after => done.values = [3, 2] ∧ after.file done.ip = [7, 7, 7])
      (fun panic _ => panic ≠ .bmapOutOfRange) := by
  have refined := (file_is_byte_array (fun _ => none) (emptyFile_ok (Nat.zero_le _))
    fun _ => 7).1 [([], 1, .writei 0 0 3), ([], 1, .readi 8 1 7)]
  refine refined.mono ?_ fun _ _ stops => stops.1
  rintro done after ⟨-, same⟩
  have values : [3, 2] = done.values := congrArg Prod.fst same
  have file : [7, 7, 7] = after.file done.ip := congrArg (fun run => run.2.file) same
  exact ⟨values.symm, file.symm⟩

/-- A read past the end of a file may ask for so much that it fails although there
are bytes to read. A write in range panics on a volume without free blocks, and
it changes a byte out of its range where two cells share a block. -/
theorem readi_fails_on_overflow :
    (readi (fun _ => none) (fun _ => 0) (emptyFile 2) false 0 1 0xFFFFFFFF).run freshVolume =
        .ok ⟨-1, emptyFile 2, fun _ => 0, 0⟩ freshVolume ∧
      min (1 + 0xFFFFFFFF) (emptyFile 2).size - 1 = 1 ∧
      stopsWith (writei (fun _ => none) (fun _ => 0) (emptyFile 0) false 0 0 1)
        { freshVolume with used := fun _ => true } = some .outOfBlocks ∧
      freshVolume.content (sharedFile 46).addrs 1024 = 0 ∧
      endsWith (writei (fun _ => none) (fun _ => 7) (sharedFile 46) false 0 0 1) freshVolume
        (fun transfer after => after.content transfer.ip.addrs 1024) = some 7 := by
  refine ⟨rfl, rfl, ?_, rfl, ?_⟩
  · decide +kernel
  · decide +kernel

end Ev6.FileSystem
