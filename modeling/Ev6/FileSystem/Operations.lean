import Ev6.FileSystem.ByteArray
import Ev6.FileSystem.Names
import Ev6.Support.LabelledSystem

/-!
# System calls keep the volume consistent

Between the steps of a system call the volume is consistent and every valid copy of
an inode in memory agrees with the disk. The first part shows it of the functions
on inodes; the calls are composed of these, so that no reachable state has a block
with two owners or a mark without one.
-/

namespace Ev6.FileSystem

open Support

/-! ## On the volume -/

section OnVolume

variable {volume : Volume} {ip : Inode} {pagetable : UserPages} {memory : Nat → UInt8}

/-- Where the block is there, `bmap` only looks it up. -/
theorem bmap_present {bn : Nat} (inside : bn < maxfile)
    (present : volume.pointer ip.addrs (cellOf bn) ≠ 0) :
    (bmap ip bn).run volume = .ok (volume.pointer ip.addrs (cellOf bn), ip) volume := by
  have first := ndirect_eq
  have second := nindirect_eq
  have limit := maxfile_eq
  unfold bmap
  by_cases direct : bn < ndirect
  · have cell : cellOf bn = bn := if_pos direct
    rw [cell, Volume.pointer_addrs _ _ (Nat.le_of_lt direct)] at present ⊢
    rw [if_pos direct, addrsOrAlloc, if_neg present]
    rfl
  · have cell : cellOf bn = bn - ndirect + (ndirect + 1) := by
      unfold cellOf
      rw [if_neg direct]
      omega
    have indirect : ip.addrs ndirect ≠ 0 := by
      intro absent
      rw [cell, Volume.pointer_high (by omega), if_pos absent] at present
      exact present rfl
    rw [cell, Volume.pointer_slot indirect] at present ⊢
    rw [if_neg direct, if_pos (by omega), addrsOrAlloc, if_neg indirect]
    change (do
      let slot ← slotOrAlloc (ip.addrs ndirect) (bn - ndirect)
      pure (slot, ip) : FsM (Nat × Inode)).run volume = _
    have found : (slotOrAlloc (ip.addrs ndirect) (bn - ndirect)).run volume =
        .ok (entry (volume.block (ip.addrs ndirect)) (bn - ndirect)) volume := by
      change (if entry (volume.block (ip.addrs ndirect)) (bn - ndirect) = 0 then _ else _ :
        FsM Nat).run volume = _
      rw [if_neg present]
      rfl
    simp only [EStateM.run, Bind.bind, EStateM.bind] at found ⊢
    rw [found]
    rfl

/-- No block is missing below the size of an inode. -/
def Volume.Whole (volume : Volume) (ip : Dinode) : Prop :=
  ∀ bn < maxfile, bn * bsize < ip.size → volume.pointer ip.addrs (cellOf bn) ≠ 0

/-- Reading an inode without holes changes nothing. -/
theorem readLoop_keeps (whole : volume.Whole ip.toDinode) (user : Bool) {n tot off dst : Nat}
    {memory : Nat → UInt8} (inside : off + (n - tot) ≤ ip.size) :
    Ensures (readLoop pagetable user n tot off dst memory ip) volume
      (fun done after => done.ip = ip ∧ after = volume) OtherPanic := by
  obtain ⟨left, rest⟩ : ∃ left, n - tot = left := ⟨_, rfl⟩
  induction left using Nat.strong_induction_on generalizing tot off dst memory with
  | _ left ih =>
    rw [readLoop]
    split
    next more =>
      have positive := chunk_positive off more
      have block : off / bsize * bsize ≤ off := Nat.div_mul_le_self off bsize
      by_cases low : off / bsize < maxfile
      · have present := whole (off / bsize) low (by omega)
        have found : Ensures (bmap ip (off / bsize)) volume
            (fun result after => result.2 = ip ∧ after = volume) OtherPanic := by
          unfold Ensures
          rw [bmap_present low present]
          exact ⟨rfl, rfl⟩
        refine .bind found ?_
        rintro ⟨addr, same⟩ after ⟨rfl, rfl⟩
        refine .get ?_
        dsimp only
        split
        · exact ih (n - (tot + min (n - tot) (bsize - off % bsize))) (by omega) (by omega) rfl
        · exact .pure ⟨rfl, rfl⟩
      · have stops : Ensures (bmap ip (off / bsize)) volume (fun _ _ => False) OtherPanic := by
          have first := ndirect_eq
          have second := nindirect_eq
          have limit := maxfile_eq
          unfold bmap
          rw [if_neg (by omega), if_neg (by omega)]
          exact .throw (otherPanic (by decide))
        exact .bind stops fun _ _ impossible => impossible.elim
    next stop => exact .pure ⟨rfl, rfl⟩

theorem readi_keeps (whole : volume.Whole ip.toDinode) (user : Bool) (dst : Nat) (off n : UInt32) :
    Ensures (readi pagetable memory ip user dst off n) volume
      (fun r after => r.ip = ip ∧ after = volume) OtherPanic := by
  simp only [readi, add_lt_iff]
  split
  next => exact .pure ⟨rfl, rfl⟩
  next accepted =>
    rw [toNat_add_of_fits (by tauto)]
    refine .bind (readLoop_keeps whole user ?_) ?_
    · split_ifs <;> omega
    · rintro done after ⟨same, rfl⟩
      exact .pure ⟨same, rfl⟩

/-- A write keeps the volume consistent and leaves the disk inode as the copy in memory. -/
theorem writei_consistent (held : volume.Consistent)
    (synced : volume.dinode ip.inum = ip.toDinode) (allocated : ip.type ≠ 0) (user : Bool)
    (src : Nat) (off n : UInt32) :
    Ensures (writei pagetable memory ip user src off n) volume
      (fun r after => after.Consistent ∧ r.ip.inum = ip.inum ∧ r.ip.type = ip.type ∧
        after.dinode = Function.update volume.dinode ip.inum r.ip.toDinode) OtherPanic := by
  have same : volume.put ip = volume := Volume.put_of_synced synced
  have still : volume.dinode = Function.update volume.dinode ip.inum ip.toDinode := by
    rw [← synced, Function.update_eq_self]
  have tidy : volume.Tidy ip.addrs :=
    Volume.Consistent.tidy_put (by rwa [same]) allocated
  simp only [writei, add_lt_iff]
  split
  next => exact .pure ⟨held, rfl, rfl, still⟩
  next accepted =>
    rw [toNat_add_of_fits (by tauto)]
    split
    next => exact .pure ⟨held, rfl, rfl, still⟩
    next inside =>
      by_cases none : n.toNat = 0
      · have loop : writeLoop pagetable memory user n.toNat 0 off.toNat src ip =
            pure ⟨ip, off.toNat, 0⟩ := by
          rw [writeLoop, if_neg (by omega)]
        have zero : ¬0 < n := by
          rw [UInt32.lt_iff_toNat_lt]
          simp [none]
        rw [loop]
        change Ensures (if 0 < n then _ else _ : FsM Transfer) volume _ _
        rw [if_neg zero]
        exact .pure ⟨held, rfl, rfl, still⟩
      · have positive : 0 < n := by
          rw [UInt32.lt_iff_toNat_lt]
          exact Nat.pos_of_ne_zero none
        have loop := writeLoop_whole pagetable memory user src held.sane tidy
          (show off.toNat + n.toNat ≤ maxfile * bsize by omega)
        refine .bind (loop.mono (fun _ _ => id) fun _ _ => Exhausted.other) ?_
        rintro done after ⟨all, writes, -, -, -, behind, -⟩
        have inode := writes.inode
        have number : done.ip.inum = ip.inum := by rw [inode]
        have type : done.ip.type = ip.type := by rw [inode]
        have size : done.ip.size = ip.size := by rw [inode]
        have grown := writes.consistent (by rwa [same]) allocated
        have final : (after.put (extendSize done.ip done.off)).Consistent := by
          have keeps : (extendSize done.ip done.off).inum = done.ip.inum ∧
              (extendSize done.ip done.off).type = done.ip.type := by
            unfold extendSize
            split_ifs <;> exact ⟨rfl, rfl⟩
          refine grown.update keeps.1 (by rwa [type]) (extendSize_addrs _ _) ?_ ?_
          · intro _ bn low below
            rw [extendSize_size, size] at below
            refine writes.present tidy low ?_
            by_cases old : bn * bsize < ip.size
            · have there := held.whole ip.inum (by rwa [synced]) bn low
                (by rw [synced]; exact old)
              rw [synced] at there
              exact .inl there
            · right
              omega
          · rw [keeps.2, type]
            exact allocated
        rw [if_pos positive]
        refine .bind ((iupdate_ensures _ _).mono (fun _ _ => id) fun _ _ => Exhausted.other) ?_
        rintro ⟨⟩ last updated
        have keep : (extendSize done.ip done.off).inum = ip.inum ∧
            (extendSize done.ip done.off).type = ip.type := by
          unfold extendSize
          split_ifs <;> exact ⟨number, type⟩
        have dinode : after.dinode = volume.dinode := writes.dinode
        refine .pure ⟨final.logged updated, keep.1, keep.2, ?_⟩
        rw [updated]
        dsimp only
        rw [dinode, keep.1]

theorem ialloc_consistent (held : volume.Consistent) (type : Nat) :
    Ensures (ialloc type) volume
      (fun inum after => after.Consistent ∧ (volume.dinode inum).type = 0 ∧
        after.dinode = Function.update volume.dinode inum (freshDinode type)) OtherPanic := by
  unfold ialloc
  refine .get ?_
  split
  next => exact .throw (otherPanic (by decide))
  next inum scan =>
    obtain ⟨-, hit, -⟩ := firstSlot_eq_some.mp scan
    have free : (volume.dinode inum).type = 0 := by
      simp only [Bool.and_eq_true, decide_eq_true_eq] at hit
      exact hit.2
    refine .set (.bind ((logWrite_ensures _ _).mono (fun _ _ => id) fun _ _ => Exhausted.other) ?_)
    rintro ⟨⟩ after same
    refine .pure ⟨(held.allocate free).logged same, free, ?_⟩
    rw [same]

theorem Volume.Consistent.release (held : volume.Consistent)
    (emptied : volume.dinode ip.inum = ip.truncated.toDinode) :
    (volume.put { ip.truncated with type := 0 }).Consistent := by
  refine held.vacate ip { ip.truncated with type := 0 } rfl rfl rfl rfl rfl fun b => ?_
  refine (and_iff_left ?_).symm
  rintro ⟨cell, owns⟩
  have pointer := owns.held
  rw [emptied] at pointer
  have nothing : volume.pointer ip.truncated.addrs cell = 0 := by
    simp [Volume.pointer, Inode.truncated]
  exact owns.present (pointer.symm.trans nothing)

end OnVolume

end Ev6.FileSystem
