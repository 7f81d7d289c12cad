import Ev6.FileSystem.Calls
import Ev6.Support.CString
import Ev6.Support.SlotTable

/-!
# A directory as a table of slots

A directory is a byte array of entries of 16 bytes, each free or with a name and an inode
number. Its bytes stand for a table of slots (`entries`): writing an entry at a multiple of
16 puts it into its slot (`entries_link`, `entries_unlink`), and the loops over the entries
stop at the first slot that they look for (`dirscan_finds`).
-/

namespace Ev6.FileSystem

open List (length_append length_take)
open Support

/-! ## Names -/

/-- `namecmp`. -/
def namecmp (s t : List UInt8) : Int := strncmp s t dirsiz

/-- `namecmp` compares what a directory entry keeps of a name. -/
theorem namecmp_eq_zero (name : List UInt8) (de : Nat → UInt8) :
    namecmp name (extract de 2 dirsiz) = 0 ↔ cname name = direntName de :=
  strncmp_eq_zero name (extract de 2 dirsiz) dirsiz

/-- `strncpy` into an entry leaves the name with zeros behind it, whatever the entry has held. -/
theorem dirent_strncpy (inum : Nat) (name : List UInt8) {stale : List UInt8}
    (length : stale.length = dirsiz) :
    dirent inum name =
      [UInt8.ofNat inum, UInt8.ofNat (inum / 0x100)] ++ strncpy stale name dirsiz := by
  rw [strncpy_eq name (Nat.le_of_eq length.symm), List.drop_eq_nil_of_le (Nat.le_of_eq length),
    List.append_nil, ← List.append_assoc]
  rfl

theorem cname_length (name : List UInt8) : (cname name).length ≤ dirsiz := by
  refine (List.takeWhile_sublist _).length_le.trans ?_
  rw [length_take]
  exact Nat.min_le_left _ _

theorem dirent_length (inum : Nat) (name : List UInt8) : (dirent inum name).length = direntSize := by
  have bound := cname_length name
  simp only [dirent, length_append, List.length_cons, List.length_nil, List.length_replicate,
    dirsiz, direntSize] at bound ⊢
  omega

/-! ## Entries -/

/-- The entry at slot `k`, as the loops read it. -/
def direntAt (file : List UInt8) (k : Nat) : Nat → UInt8 :=
  patch (fun _ => 0) 0 ((file.drop (k * direntSize)).take direntSize)

/-- What an entry holds: nothing, or a name with an inode number. -/
def entryOf (de : Nat → UInt8) : Option (List UInt8 × Nat) :=
  if direntInum de = 0 then none else some (direntName de, direntInum de)

/-- The table of slots of a directory. -/
def entries (file : List UInt8) : SlotTable (List UInt8) Nat :=
  (List.range (file.length / direntSize)).map fun k => entryOf (direntAt file k)

theorem entries_length (file : List UInt8) : (entries file).length = file.length / direntSize := by
  simp [entries]

theorem entries_getElem? (file : List UInt8) (k : Nat) :
    (entries file)[k]? =
      if k < file.length / direntSize then some (entryOf (direntAt file k)) else none := by
  unfold entries
  split
  next inside => simp [inside]
  next outside => simp [Nat.not_lt.mp outside]

theorem entryOf_dirent {inum : Nat} (name : List UInt8) (positive : 0 < inum)
    (small : inum < 0x10000) :
    entryOf (patch (fun _ => 0) 0 (dirent inum name)) = some (cname name, inum) := by
  have length := dirent_length inum name
  have byte : ∀ index (inside : index < (dirent inum name).length),
      patch (fun _ => 0) 0 (dirent inum name) index = (dirent inum name)[index] := by
    intro index inside
    have read : patch (fun _ => 0) 0 (dirent inum name) (0 + index) = (dirent inum name)[index] :=
      patch_inside inside
    rwa [Nat.zero_add] at read
  have number : direntInum (patch (fun _ => 0) 0 (dirent inum name)) = inum := by
    rw [direntInum, byte 0 (by rw [length]; decide), byte 1 (by rw [length]; decide)]
    simp only [dirent, List.cons_append, List.getElem_cons_zero, List.getElem_cons_succ,
      UInt8.toNat_ofNat']
    omega
  have bytes : extract (patch (fun _ => 0) 0 (dirent inum name)) 2 dirsiz =
      cname name ++ List.replicate (dirsiz - (cname name).length) 0 := by
    have whole := extract_patch (fun _ => 0) 0 (dirent inum name)
    rw [length, show direntSize = 2 + dirsiz from rfl, extract_add, Nat.zero_add] at whole
    have tail := congrArg (List.drop 2) whole
    rw [List.drop_append_of_le_length (by simp), List.drop_eq_nil_of_le (by simp),
      List.nil_append] at tail
    rw [tail]
    rfl
  have named : direntName (patch (fun _ => 0) 0 (dirent inum name)) = cname name := by
    rw [direntName, bytes, cname, List.take_of_length_le]
    · exact cString_append_zeros (unterminated_cString _) _
    · have bound := cname_length name
      rw [length_append, List.length_replicate]
      omega
  rw [entryOf, number, if_neg (by omega), named]

theorem entryOf_zeros : entryOf (patch (fun _ => 0) 0 (List.replicate direntSize 0)) = none := by
  decide

/-! ## Writing an entry -/

variable {bytes file : List UInt8}

theorem getElem?_splice {off : Nat} (low : off ≤ file.length) (index : Nat) :
    (splice file off bytes)[index]? =
      if off ≤ index ∧ index < off + bytes.length then bytes[index - off]? else file[index]? := by
  unfold splice
  have front : (file.take off).length = off := by
    rw [length_take]
    omega
  by_cases early : index < off
  · rw [List.append_assoc, List.getElem?_append_left (by omega), List.getElem?_take_of_lt early,
      if_neg (by omega)]
  · by_cases within : index < off + bytes.length
    · rw [List.getElem?_append_left (by rw [length_append]; omega),
        List.getElem?_append_right (by omega), front, if_pos ⟨by omega, within⟩]
    · rw [List.getElem?_append_right (by rw [length_append]; omega), length_append,
        front, List.getElem?_drop, if_neg (by omega)]
      congr 1
      omega

theorem length_splice {off : Nat} (low : off ≤ file.length) :
    (splice file off bytes).length = max file.length (off + bytes.length) := by
  simp only [splice, length_append, length_take, List.length_drop]
  omega

variable {k : Nat}

/-- Writing an entry changes what is read at its slot and nowhere else. -/
theorem direntAt_splice (low : k * direntSize ≤ file.length)
    (length : bytes.length = direntSize) (j : Nat) :
    direntAt (splice file (k * direntSize) bytes) j =
      if j = k then patch (fun _ => 0) 0 bytes else direntAt file j := by
  have stretch : ((splice file (k * direntSize) bytes).drop (j * direntSize)).take direntSize =
      if j = k then bytes else (file.drop (j * direntSize)).take direntSize := by
    apply List.ext_getElem?
    intro index
    by_cases inside : index < direntSize
    · rw [List.getElem?_take_of_lt inside, List.getElem?_drop, getElem?_splice low, length]
      by_cases same : j = k
      · subst same
        rw [if_pos rfl, if_pos ⟨by omega, by omega⟩, Nat.add_sub_cancel_left]
      · rw [if_neg same, if_neg, List.getElem?_take_of_lt inside, List.getElem?_drop]
        simp only [direntSize] at inside ⊢
        omega
    · rw [List.getElem?_take_eq_none (by omega)]
      by_cases same : j = k
      · rw [if_pos same, List.getElem?_eq_none (by omega)]
      · rw [if_neg same, List.getElem?_take_eq_none (by omega)]
  unfold direntAt
  rw [stretch]
  by_cases same : j = k
  · rw [if_pos same, if_pos same]
  · rw [if_neg same, if_neg same]

theorem entries_splice (aligned : file.length % direntSize = 0)
    (low : k ≤ file.length / direntSize) (length : bytes.length = direntSize) (j : Nat) :
    (entries (splice file (k * direntSize) bytes))[j]? =
      if j = k then some (entryOf (patch (fun _ => 0) 0 bytes)) else (entries file)[j]? := by
  have start : k * direntSize ≤ file.length := by
    simp only [direntSize] at low ⊢
    omega
  have slots : (splice file (k * direntSize) bytes).length / direntSize =
      max (file.length / direntSize) (k + 1) := by
    rw [length_splice start, length]
    simp only [direntSize] at aligned ⊢
    omega
  rw [entries_getElem?, entries_getElem?, slots, direntAt_splice start length]
  by_cases same : j = k
  · rw [if_pos same, if_pos same, if_pos (by omega)]
  · rw [if_neg same, if_neg same]
    by_cases inside : j < file.length / direntSize
    · rw [if_pos inside, if_pos (by omega)]
    · rw [if_neg inside, if_neg (by omega)]

theorem entries_link {inum : Nat} (name : List UInt8)
    (aligned : file.length % direntSize = 0) (low : k ≤ file.length / direntSize)
    (positive : 0 < inum) (small : inum < 0x10000) :
    entries (splice file (k * direntSize) (dirent inum name)) =
      (entries file).put k (cname name, inum) := by
  have count := entries_length file
  apply List.ext_getElem?
  intro j
  rw [entries_splice aligned low (dirent_length inum name), entryOf_dirent name positive small]
  unfold SlotTable.put
  by_cases inside : k < (entries file).length
  · rw [if_pos inside, List.getElem?_set]
    by_cases same : j = k
    · rw [if_pos same, if_pos same.symm, if_pos inside]
    · rw [if_neg same, if_neg (Ne.symm same)]
  · have last : k = (entries file).length := by omega
    rw [if_neg inside]
    by_cases same : j = k
    · rw [if_pos same, same, last, List.getElem?_concat_length]
    · rw [if_neg same]
      by_cases before : j < (entries file).length
      · rw [List.getElem?_append_left before]
      · rw [List.getElem?_eq_none (by omega), List.getElem?_eq_none (by simp; omega)]

theorem entries_unlink (aligned : file.length % direntSize = 0)
    (inside : k < file.length / direntSize) :
    entries (splice file (k * direntSize) (List.replicate direntSize 0)) =
      (entries file).clear k := by
  have count := entries_length file
  apply List.ext_getElem?
  intro j
  rw [entries_splice aligned (by omega) List.length_replicate, entryOf_zeros, SlotTable.clear,
    List.getElem?_set]
  by_cases same : j = k
  · rw [if_pos same, if_pos same.symm, if_pos (by omega)]
  · rw [if_neg same, if_neg (Ne.symm same)]

/-! ## Reading entries -/

section Reading

variable {volume : Volume} {ip : Inode} {pagetable : UserPages}

/-- The loop of `readi` on an inode without holes copies the bytes out, and does not stop. -/
theorem readLoop_reads (whole : volume.Whole ip.toDinode) {n tot off : Nat} (dst : Nat)
    (memory : Nat → UInt8) (inside : off + (n - tot) ≤ ip.size)
    (bound : ip.size ≤ maxfile * bsize) (low : tot ≤ n) :
    Ensures (readLoop pagetable false n tot off dst memory ip) volume
      (fun done after => done.ip = ip ∧ after = volume ∧
        done.memory = patch memory dst (extract (volume.content ip.addrs) off (n - tot)))
      (fun _ _ => False) := by
  obtain ⟨left, rest⟩ : ∃ left, n - tot = left := ⟨_, rfl⟩
  induction left using Nat.strong_induction_on generalizing tot off dst memory with
  | _ left ih =>
    rw [readLoop]
    split
    next more =>
      have positive := chunk_positive off more
      have room := Nat.mod_lt off (show 0 < bsize by decide)
      have block : off / bsize < maxfile := block_inside (by omega)
      have start : off / bsize * bsize ≤ off := Nat.div_mul_le_self off bsize
      have present := whole (off / bsize) block (by omega)
      have found : Ensures (bmap ip (off / bsize)) volume
          (fun result after => result = (volume.pointer ip.addrs (cellOf (off / bsize)), ip) ∧
            after = volume) (fun _ _ => False) := by
        unfold Ensures
        rw [bmap_present block present]
        exact ⟨rfl, rfl⟩
      refine .bind found ?_
      rintro result after ⟨rfl, rfl⟩
      refine .get ?_
      obtain ⟨m, chunk⟩ : ∃ m, min (n - tot) (bsize - off % bsize) = m := ⟨_, rfl⟩
      dsimp only
      rw [chunk] at positive ⊢
      have bytes : extract (after.block (after.pointer ip.addrs (cellOf (off / bsize))))
          (off % bsize) m = extract (after.content ip.addrs) off m := by
        apply extract_shift
        intro index early
        rw [Volume.content_eq_block present (by omega)]
      rw [bytes]
      simp only [eitherCopyout, Bool.false_eq_true, if_false, if_true]
      have behind := ih (n - (tot + m)) (by omega) (dst + m)
        (patch memory dst (extract (after.content ip.addrs) off m))
        (show off + m + (n - (tot + m)) ≤ ip.size by omega) (show tot + m ≤ n by omega) rfl
      refine behind.mono ?_ fun _ _ => id
      rintro done last ⟨copy, same, read⟩
      refine ⟨copy, same, ?_⟩
      have joined := patch_append memory dst (extract (after.content ip.addrs) off m)
        (extract (after.content ip.addrs) (off + m) (n - (tot + m)))
      rw [length_extract] at joined
      rw [read, joined, ← extract_add]
      congr 2
      omega
    next stop =>
      have none : n - tot = 0 := by omega
      rw [none]
      exact .pure ⟨rfl, rfl, by simp⟩

/-- Reading inside an inode without holes gives the bytes of the file. -/
theorem readi_reads (whole : volume.Whole ip.toDinode) (bound : ip.size ≤ maxfile * bsize)
    (dst : Nat) (memory : Nat → UInt8) {off n : UInt32} (inside : off.toNat + n.toNat ≤ ip.size) :
    Ensures (readi pagetable memory ip false dst off n) volume
      (fun r after => after = volume ∧ r.ip = ip ∧ r.returned = n.toNat ∧
        r.memory = patch memory dst (((volume.file ip).drop off.toNat).take n.toNat))
      (fun _ _ => False) := by
  have bytes := maxfile_bytes
  have accepted : ¬(ip.size < off.toNat ∨ 2 ^ 32 ≤ off.toNat + n.toNat) := by omega
  have sum : (off + n).toNat = off.toNat + n.toNat := toNat_add_of_fits (by omega)
  simp only [readi, add_lt_iff]
  rw [if_neg accepted, sum, if_neg (by omega)]
  refine .bind (readLoop_reads whole dst memory (by omega) bound (Nat.zero_le _)) ?_
  rintro done after ⟨copy, same, read⟩
  refine .pure ⟨same, copy, asInt_of_small (by omega), ?_⟩
  rw [read, Nat.sub_zero, Volume.file, take_drop_extract _ inside]

end Reading

/-! ## Scanning a directory -/

/-- The inode `dp` in memory is a directory with the bytes `file`. -/
structure Listing (system : System) (dp : Nat) (file : List UInt8) : Prop where
  type : (system.inode dp).type = tDir
  bytes : system.volume.file (system.inode dp) = file
  fits : (system.inode dp).size ≤ maxfile * bsize
  aligned : file.length % direntSize = 0

section Scanning

variable {system : System} {held locked : List Nat} {dp : Nat} {file : List UInt8}

theorem Listing.size (listing : Listing system dp file) : (system.inode dp).size = file.length := by
  rw [← listing.bytes, Volume.length_file]

theorem System.Working.whole (working : system.Working held locked) (member : dp ∈ locked) :
    system.volume.Whole (system.inode dp).toDinode := by
  obtain ⟨same, allocated⟩ := working.inode_of_locked member
  rw [← same] at allocated ⊢
  exact working.consistent.whole dp allocated

theorem System.Working.fileOk (working : system.Working held locked) (member : dp ∈ locked)
    (fits : (system.inode dp).size ≤ maxfile * bsize) :
    FileOk system.volume (system.inode dp) := by
  obtain ⟨same, allocated⟩ := working.inode_of_locked member
  refine ⟨working.consistent.sane, ?_, fits⟩
  have own : (system.volume.dinode dp).type ≠ 0 := by rwa [same]
  have tidy := working.consistent.tidy own
  rwa [same] at tidy

theorem readInode_reads (working : system.Working held locked) (member : dp ∈ locked)
    (listing : Listing system dp file) {k : Nat} (inside : k < file.length / direntSize) :
    Ensures (readInode (fun _ => none) (fun _ => 0) dp false 0 (UInt32.ofNat (k * direntSize))
        (UInt32.ofNat direntSize)) system
      (fun r after => after = system ∧ r.returned = direntSize ∧ r.memory = direntAt file k)
      (fun _ _ => False) := by
  have size := listing.size
  have fits := listing.fits
  have bytes := maxfile_bytes
  have aligned := listing.aligned
  have offset : (UInt32.ofNat (k * direntSize)).toNat = k * direntSize := by
    rw [UInt32.toNat_ofNat']
    simp only [direntSize] at inside ⊢
    omega
  have count : (UInt32.ofNat direntSize).toNat = direntSize := by decide
  have reads : Ensures (readi (fun _ => none) (fun _ => 0) (system.inode dp) false 0
      (UInt32.ofNat (k * direntSize)) (UInt32.ofNat direntSize)) system.volume _ _ :=
    readi_reads (working.whole member) fits 0 (fun _ => 0) (by
      rw [offset, count]
      simp only [direntSize] at inside ⊢
      omega)
  rw [offset, count, listing.bytes] at reads
  refine current_bind (.bind ((onVolume_outcome reads).mono (fun _ _ => id) ?_) ?_)
  · rintro cause after ⟨volume, impossible, -⟩
    exact impossible
  rintro r middle ⟨volume, ⟨rfl, copy, returned, read⟩, rfl⟩
  refine .modify (.pure ⟨?_, returned, read⟩)
  rw [copy]
  change system.setEntry dp (system.icache dp) = system
  unfold System.setEntry
  rw [Function.update_eq_self]

/-- How a loop over the entries ends: at the first slot from `k` on that it looks for, or
behind the last one. -/
inductive ScanEnd (file : List UInt8) (hit : (Nat → UInt8) → Bool) (k : Nat) :
    Nat × Option (Nat → UInt8) → Prop where
  | found {j : Nat} (start : k ≤ j) (inside : j < file.length / direntSize)
      (stops : hit (direntAt file j) = true)
      (before : ∀ i, k ≤ i → i < j → hit (direntAt file i) = false) :
      ScanEnd file hit k (j * direntSize, some (direntAt file j))
  | none (all : ∀ i, k ≤ i → i < file.length / direntSize → hit (direntAt file i) = false) :
      ScanEnd file hit k (file.length, none)

/-- The loop over the entries finds the first slot that it looks for, and changes nothing. -/
theorem dirscan_finds (working : system.Working held locked) (member : dp ∈ locked)
    (listing : Listing system dp file) (short : Panic) (hit : (Nat → UInt8) → Bool) {k : Nat}
    (low : k ≤ file.length / direntSize) :
    Ensures (dirscan short hit dp file.length (k * direntSize)) system
      (fun r after => after = system ∧ ScanEnd file hit k r) (fun _ _ => False) := by
  have aligned := listing.aligned
  obtain ⟨left, rest⟩ : ∃ left, file.length / direntSize - k = left := ⟨_, rfl⟩
  induction left generalizing k with
  | zero =>
    have last : k * direntSize = file.length := by
      simp only [direntSize] at low rest aligned ⊢
      omega
    rw [dirscan, if_neg (by omega), last]
    exact .pure ⟨rfl, .none fun i high inside => by omega⟩
  | succ left ih =>
    have inside : k < file.length / direntSize := by omega
    have more : k * direntSize < file.length := by
      simp only [direntSize] at inside ⊢
      omega
    rw [dirscan, if_pos more]
    refine .bind (readInode_reads working member listing inside) ?_
    rintro r after ⟨rfl, whole, read⟩
    rw [if_neg (not_not.mpr whole), read]
    split
    next stops =>
      exact .pure ⟨rfl, .found (Nat.le_refl k) inside stops fun i high below => by omega⟩
    next passes =>
      have next : k * direntSize + direntSize = (k + 1) * direntSize := by
        rw [Nat.add_mul, Nat.one_mul]
      have here : hit (direntAt file k) = false := by simpa using passes
      rw [next]
      refine (ih (by omega) (by omega)).mono ?_ fun _ _ => id
      rintro r after ⟨same, ends⟩
      refine ⟨same, ?_⟩
      cases ends with
      | found start inside stops before =>
        refine .found (by omega) inside stops fun i high below => ?_
        by_cases first : i = k
        · rw [first]
          exact here
        · exact before i (by omega) below
      | none all =>
        refine .none fun i high below => ?_
        by_cases first : i = k
        · rw [first]
          exact here
        · exact all i (by omega) below

end Scanning

end Ev6.FileSystem
