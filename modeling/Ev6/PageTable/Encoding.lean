import Ev6.PageTable.Walk

/-!
# Packed entries

What `uvmalloc`, `uvmcopy`, `uvminit` and `proc_pagetable` pack into a PTDS or a PTED is
what the macros of `ptdup.h` read, and no word that they record is taken for a free slot
or for the link to another page.
-/

namespace Ev6.PageTable

open List (mem_append mem_cons mem_singleton)
open Nat (lor_assoc shiftLeft_eq)
open Support

/-! ## The words -/

/-- The addresses of a record: `PPN2PTDS(PA2PTE(mem)) | VA2PTDS(a)`. -/
def packPage (va pa : Nat) : Nat := ppn2ptds (pa2pte pa) ||| va2ptds va

/-- A PTDS, from the addresses of its first page. -/
def packRun (entry order perm size : Nat) : Nat :=
  entry ||| order2ptds order ||| ub2ptds perm ||| size

/-- The variables of the loops of `uvmalloc` and `uvmcopy`, and the words that have been
given to `L0_ptes_add`. -/
structure Recorder where
  ptdsSize : Nat
  order : Nat
  bmem : Nat
  entry : Nat
  words : List Nat

/-- The variables before the loops. -/
def Recorder.start : Recorder := ⟨0, 0, 0, 0, []⟩

/-- One pass of the loops, once `mem` has been mapped at `a`. -/
def Recorder.record (here : Recorder) (oldsz a mem : Nat) : Recorder :=
  let entry := if here.ptdsSize = 0 then here.entry ||| packPage a mem else here.entry
  if subWord here.bmem mem = pgsize then
    { here with ptdsSize := here.ptdsSize + 1, order := 0, bmem := mem, entry := entry }
  else if subWord mem here.bmem = pgsize then
    { here with ptdsSize := here.ptdsSize + 1, order := 1, bmem := mem, entry := entry }
  else if here.bmem = 0 then
    { here with ptdsSize := here.ptdsSize + 1, bmem := mem, entry := entry }
  else
    let current :=
      if 1 < here.ptdsSize then packRun entry here.order pteU here.ptdsSize
      else packPage a mem ||| userPerm
    let first := if a = oldsz + pgsize then [packPage oldsz here.bmem ||| userPerm] else []
    { ptdsSize := 0, order := 0, bmem := mem, entry := 0, words := here.words ++ current :: first }

/-- The words when the loops have ended. -/
def Recorder.finish (here : Recorder) : List Nat :=
  if 1 < here.ptdsSize then
    here.words ++ [packRun here.entry here.order pteU here.ptdsSize]
  else if here.entry ≠ 0 then here.words ++ [here.entry ||| userPerm]
  else here.words

/-- The words of the loops from `a` on, with the pages that `kalloc` gives. The loops end
early when a page cannot be had or mapped. -/
def loopWords (oldsz newsz : Nat) : Nat → List Nat → Recorder → List Nat
  | a, [], here => if a < newsz then here.words else here.finish
  | a, mem :: mems, here =>
    if a < newsz then loopWords oldsz newsz (a + pgsize) mems (here.record oldsz a mem)
    else here.finish

/-- The words that `uvmalloc` records. -/
def uvmallocWords (oldsz newsz : Nat) (mems : List Nat) : List Nat :=
  if newsz < oldsz then []
  else loopWords (pgroundup oldsz) newsz (pgroundup oldsz) mems .start

/-- The words that `uvmcopy` records. -/
def uvmcopyWords (sz : Nat) (mems : List Nat) : List Nat := loopWords 0 sz 0 mems .start

/-- The word that `uvminit` records. -/
def uvminitWords (mem : Nat) : List Nat := [packPage 0 mem ||| userPerm]

/-- The words that `proc_pagetable` records. -/
def procPagetableWords (trampoline tf : Nat) : List Nat :=
  [packPage World.trampolineVa trampoline ||| (pteR ||| pteX),
    packPage World.trapframeVa tf ||| (pteR ||| pteW)]

/-- A word that some call records. -/
inductive Recorded : Nat → Prop where
  | uvmalloc {oldsz newsz : Nat} {mems : List Nat} {word : Nat}
      (member : word ∈ uvmallocWords oldsz newsz mems) : Recorded word
  | uvmcopy {sz : Nat} {mems : List Nat} {word : Nat} (member : word ∈ uvmcopyWords sz mems) :
      Recorded word
  | uvminit {mem word : Nat} (member : word ∈ uvminitWords mem) : Recorded word
  | procPagetable {trampoline tf word : Nat} (member : word ∈ procPagetableWords trampoline tf) :
      Recorded word

/-- A word that is neither free nor an address of a page. -/
def Live (word : Nat) : Prop := emptyRecord word = false ∧ word % pgsize ≠ 0

/-! ## Reading a word -/

section Reading

variable {va pa : Nat}

theorem ppn2ptds_pa2pte (aligned : pa % pgsize = 0) (low : pa < phystop) :
    ppn2ptds (pa2pte pa) = pa := by
  have bound : pa < 2 ^ 32 := Nat.lt_trans low (by decide)
  rw [pgsize_eq] at aligned
  have entry : pa2pte pa = pa / 4 := by
    rw [pa2pte, Nat.shiftRight_eq_div_pow, shiftLeft_eq]
    omega
  rw [ppn2ptds, entry, and_highMask (by omega) (by decide), shiftLeft_eq]
  omega

theorem va2ptds_eq (aligned : va % pgsize = 0) (low : va < maxva) :
    va2ptds va = 2 ^ 38 * (va / pgsize) := by
  rw [maxva] at low
  rw [pgsize_eq] at aligned ⊢
  rw [va2ptds, shiftLeft_eq]
  omega

theorem packPage_or {low : Nat} (vaAligned : va % pgsize = 0) (vaLow : va < maxva)
    (paAligned : pa % pgsize = 0) (paLow : pa < phystop) (small : low < pgsize) :
    packPage va pa ||| low = 2 ^ 38 * (va / pgsize) + (pa + low) := by
  have bound : pa < 2 ^ 32 := Nat.lt_trans paLow (by decide)
  rw [pgsize_eq] at paAligned small
  have multiple : 2 ^ 12 ∣ pa := Nat.dvd_of_mod_eq_zero paAligned
  have below : pa ||| low = pa + low := or_eq_add multiple small
  have room : pa + low < 2 ^ 38 := by omega
  rw [packPage, ppn2ptds_pa2pte (by rwa [pgsize_eq]) paLow, va2ptds_eq vaAligned vaLow,
    Nat.lor_comm pa, lor_assoc, below, or_eq_add (Nat.dvd_mul_right _ _) room]

theorem and_ppnMask (word : Nat) : word &&& 0x3FFFFFF800 = word % 2 ^ 38 / 2 ^ 11 * 2 ^ 11 := by
  have within : (2 ^ 38 - 1) &&& 0x3FFFFFF800 = 2 ^ 38 - 2 ^ 11 := by decide
  have mask : word &&& 0x3FFFFFF800 = word % 2 ^ 38 &&& (2 ^ 38 - 2 ^ 11) := by
    rw [← Nat.and_two_pow_sub_one_eq_mod, Nat.and_assoc, ← within, ← Nat.and_assoc (2 ^ 38 - 1),
      Nat.and_self, within]
    rfl
  rw [mask, and_highMask (Nat.mod_lt word (by decide)) (by decide)]

theorem fields_packPage {low : Nat} (vaAligned : va % pgsize = 0) (vaLow : va < maxva)
    (paAligned : pa % pgsize = 0) (paLow : pa < phystop) (small : low < 2 ^ 11) :
    ptds2va (packPage va pa ||| low) = va ∧ ptds2ppn (packPage va pa ||| low) = pa2pte pa ∧
      (packPage va pa ||| low) % 2 ^ 11 = low := by
  have bound : pa < 2 ^ 32 := Nat.lt_trans paLow (by decide)
  have high : va / pgsize < 2 ^ 26 := by
    rw [pgsize_eq]
    rw [maxva] at vaLow
    omega
  have word := packPage_or vaAligned vaLow paAligned paLow
    (Nat.lt_trans small (by decide : 2 ^ 11 < pgsize))
  rw [word]
  rw [pgsize_eq] at vaAligned paAligned high ⊢
  have width : 2 ^ 38 * (va / 4096) + (pa + low) < 2 ^ 64 := by omega
  refine ⟨?_, ?_, by omega⟩
  · rw [ptds2va_eq width]
    omega
  · have mask : (2 ^ 38 * (va / 4096) + (pa + low)) &&& 0x3FFFFFF800 =
        (pa + low) / 2 ^ 11 * 2 ^ 11 := by
      rw [and_ppnMask]
      omega
    rw [ptds2ppn, mask, pa2pte, Nat.shiftRight_eq_div_pow, Nat.shiftRight_eq_div_pow,
      shiftLeft_eq]
    omega

theorem fields_packRun {order perm size : Nat} (vaAligned : va % pgsize = 0) (vaLow : va < maxva)
    (paAligned : pa % pgsize = 0) (paLow : pa < phystop) (bit : order ≤ 1) (fits : size ≤ 511) :
    ptds2va (packRun (packPage va pa) order perm size) = va ∧
      ptds2ppn (packRun (packPage va pa) order perm size) = pa2pte pa ∧
      ptds2order (packRun (packPage va pa) order perm size) = order ∧
      ptds2ub (packRun (packPage va pa) order perm size) = perm &&& pteU ∧
      ptds2size (packRun (packPage va pa) order perm size) = size := by
  have user : ub2ptds perm = 512 * (perm / 16 % 2) ∧ perm &&& pteU = 16 * (perm / 16 % 2) := by
    have bit : perm &&& 0x10 = 16 * (perm / 16 % 2) := by
      rw [show (0x10 : Nat) = 2 ^ 4 from rfl, Nat.and_two_pow, Nat.toNat_testBit, Nat.mul_comm]
    refine ⟨?_, bit⟩
    rw [ub2ptds, bit, shiftLeft_eq]
    omega
  have low : order2ptds order ||| ub2ptds perm ||| size =
      1024 * order + 512 * (perm / 16 % 2) + size := by
    have shifted : order2ptds order = 2 ^ 10 * order := by
      rw [order2ptds, shiftLeft_eq, Nat.mul_comm]
    have above : 2 ^ 9 ∣ 2 ^ 10 * order + 512 * (perm / 16 % 2) := by omega
    have room : 512 * (perm / 16 % 2) < 2 ^ 10 := by omega
    rw [user.1, shifted, or_eq_add (Nat.dvd_mul_right _ _) room, or_eq_add above (by omega),
      show 2 ^ 10 = 1024 from rfl]
  have small : 1024 * order + 512 * (perm / 16 % 2) + size < 2 ^ 11 := by omega
  have word : packRun (packPage va pa) order perm size =
      packPage va pa ||| (1024 * order + 512 * (perm / 16 % 2) + size) := by
    rw [packRun, lor_assoc, lor_assoc, ← lor_assoc (order2ptds order), low]
  rw [word]
  obtain ⟨address, ppn, rest⟩ := fields_packPage vaAligned vaLow paAligned paLow small
  generalize packPage va pa ||| (1024 * order + 512 * (perm / 16 % 2) + size) = word at *
  refine ⟨address, ppn, ?_, ?_, ?_⟩
  · rw [ptds2order, Nat.shiftRight_eq_div_pow, Nat.and_one_is_mod]
    omega
  · rw [user.2, ptds2ub, show (0x10 : Nat) = 2 ^ 4 from rfl, Nat.and_two_pow, Nat.toNat_testBit,
      Nat.shiftRight_eq_div_pow]
    omega
  · rw [ptds2size_eq]
    omega

theorem fields_packPage_flags {flags : Nat} (vaAligned : va % pgsize = 0) (vaLow : va < maxva)
    (paAligned : pa % pgsize = 0) (paLow : pa < phystop) (known : flags &&& userPerm = flags) :
    ptds2va (packPage va pa ||| flags) = va ∧ ptds2ppn (packPage va pa ||| flags) = pa2pte pa ∧
      pted2flags (packPage va pa ||| flags) = flags := by
  have small : flags ≤ 30 := by
    rw [← known]
    exact Nat.and_le_right
  obtain ⟨address, ppn, rest⟩ :=
    fields_packPage vaAligned vaLow paAligned paLow (Nat.lt_of_le_of_lt small (by decide))
  refine ⟨address, ppn, ?_⟩
  rw [pted2flags, show (0x1FF : Nat) = 2 ^ 9 - 1 from rfl, Nat.and_two_pow_sub_one_eq_mod]
  omega

end Reading

/-! ## The recorded words -/

/-- The user bit tells a word from the free ones and from addresses. -/
theorem live_of_testBit {word : Nat} (user : word.testBit 9 = true) : Live word := by
  refine ⟨?_, fun aligned => ?_⟩
  · have nonzero : word ≠ 0 := by
      rintro rfl
      simp at user
    have used : word ≠ novalue := by
      rintro rfl
      exact absurd user (by decide)
    simp [emptyRecord, nonzero, used]
  · have bit := Nat.testBit_mod_two_pow word 12 9
    rw [show word % 2 ^ 12 = 0 from aligned, user] at bit
    simp at bit

theorem live_packRun (entry order size : Nat) : Live (packRun entry order pteU size) := by
  refine live_of_testBit ?_
  have user : (ub2ptds pteU).testBit 9 = true := by decide
  simp [packRun, Nat.testBit_or, user]

/-- The addresses leave the lower bits to the flags. -/
theorem live_flags {entry flags : Nat} (clear : entry % pgsize = 0) (small : flags < pgsize)
    (some : flags ≠ 0) (used : flags ≠ novalue % pgsize) : Live (entry ||| flags) := by
  rw [pgsize_eq] at clear small
  have multiple : 2 ^ 12 ∣ entry := Nat.dvd_of_mod_eq_zero clear
  have word : entry ||| flags = entry + flags := or_eq_add multiple small
  have low : (entry ||| flags) % pgsize = flags := by
    rw [word, pgsize_eq]
    omega
  refine ⟨?_, by rwa [low]⟩
  have nonzero : entry ||| flags ≠ 0 := by omega
  have other : entry ||| flags ≠ novalue := fun same => used (by rw [← low, same])
  simp [emptyRecord, nonzero, other]

/-- The lower bits of the addresses are clear, whatever they are. -/
theorem packPage_mod (va pa : Nat) : packPage va pa % pgsize = 0 := by
  have ppn : ppn2ptds (pa2pte pa) % 2 ^ 12 = 0 := by
    have low : (pa2pte pa &&& (2 ^ 64 - 2 ^ 10)) % 2 ^ 10 = 0 := by
      rw [Nat.and_mod_two_pow, show (2 ^ 64 - 2 ^ 10) % 2 ^ 10 = 0 from rfl, Nat.and_zero]
    rw [ppn2ptds, shiftLeft_eq]
    omega
  have page : va2ptds va % 2 ^ 12 = 0 := by
    rw [va2ptds, shiftLeft_eq]
    omega
  rw [packPage, pgsize_eq, show 4096 = 2 ^ 12 from rfl, Nat.or_mod_two_pow, ppn, page]
  rfl

theorem live_user {entry : Nat} (clear : entry % pgsize = 0) : Live (entry ||| userPerm) :=
  live_flags clear (by decide) (by decide) (by decide)

/-- In the loops `entry` holds addresses only, and the words are live. -/
structure Recorder.Sound (here : Recorder) : Prop where
  entry : here.entry % pgsize = 0
  words : ∀ word ∈ here.words, Live word

theorem Recorder.sound_start : Recorder.start.Sound := ⟨rfl, by simp [Recorder.start]⟩

theorem or_packPage_mod {entry : Nat} (clear : entry % pgsize = 0) (va pa : Nat) :
    (entry ||| packPage va pa) % pgsize = 0 := by
  have page := packPage_mod va pa
  rw [pgsize_eq, show 4096 = 2 ^ 12 from rfl] at clear page ⊢
  rw [Nat.or_mod_two_pow, clear, page]
  rfl

theorem Recorder.Sound.record {here : Recorder} (sound : here.Sound) (oldsz a mem : Nat) :
    (here.record oldsz a mem).Sound := by
  have entry : (if here.ptdsSize = 0 then here.entry ||| packPage a mem else here.entry) % pgsize =
      0 := by
    split
    · exact or_packPage_mod sound.entry a mem
    · exact sound.entry
  simp only [Recorder.record]
  generalize (if here.ptdsSize = 0 then here.entry ||| packPage a mem else here.entry) = next
    at entry ⊢
  by_cases descending : subWord here.bmem mem = pgsize
  · rw [if_pos descending]
    exact ⟨entry, sound.words⟩
  rw [if_neg descending]
  by_cases ascending : subWord mem here.bmem = pgsize
  · rw [if_pos ascending]
    exact ⟨entry, sound.words⟩
  rw [if_neg ascending]
  by_cases first : here.bmem = 0
  · rw [if_pos first]
    exact ⟨entry, sound.words⟩
  rw [if_neg first]
  refine ⟨rfl, fun word member => ?_⟩
  rcases mem_append.mp member with old | new
  · exact sound.words word old
  rcases mem_cons.mp new with rfl | second
  · split
    · exact live_packRun next here.order here.ptdsSize
    · exact live_user (packPage_mod a mem)
  · split at second
    · rw [mem_singleton.mp second]
      exact live_user (packPage_mod oldsz here.bmem)
    · cases second

theorem Recorder.Sound.finish {here : Recorder} (sound : here.Sound) :
    ∀ word ∈ here.finish, Live word := by
  intro word member
  rw [Recorder.finish] at member
  split at member
  · rcases mem_append.mp member with old | new
    · exact sound.words word old
    · rw [mem_singleton.mp new]
      exact live_packRun here.entry here.order here.ptdsSize
  · split at member
    · rcases mem_append.mp member with old | new
      · exact sound.words word old
      · rw [mem_singleton.mp new]
        exact live_user sound.entry
    · exact sound.words word member

theorem loopWords_live {oldsz newsz a : Nat} {mems : List Nat} {here : Recorder}
    (sound : here.Sound) : ∀ word ∈ loopWords oldsz newsz a mems here, Live word := by
  induction mems generalizing a here with
  | nil =>
    rw [loopWords]
    split
    · exact sound.words
    · exact sound.finish
  | cons mem mems ih =>
    rw [loopWords]
    split
    · exact ih (sound.record oldsz a mem)
    · exact sound.finish

/-- Every recorded word is live, whatever pages it names and however long its run is. -/
theorem Recorded.live {word : Nat} (recorded : Recorded word) : Live word := by
  cases recorded with
  | uvmalloc member =>
    rw [uvmallocWords] at member
    split at member
    · cases member
    · exact loopWords_live Recorder.sound_start word member
  | uvmcopy member => exact loopWords_live Recorder.sound_start word member
  | uvminit member =>
    rw [mem_singleton.mp member]
    exact live_user (packPage_mod _ _)
  | procPagetable member =>
    rcases mem_cons.mp member with rfl | second
    · exact live_flags (packPage_mod _ _) (by decide) (by decide) (by decide)
    · rw [mem_singleton.mp second]
      exact live_flags (packPage_mod _ _) (by decide) (by decide) (by decide)

/-- What is packed is read back, and no recorded word is a free slot or an address of a
page. -/
theorem packed_words (va pa : Nat) (vaAligned : va % pgsize = 0) (vaLow : va < maxva)
    (paAligned : pa % pgsize = 0) (paLow : pa < phystop) :
    (∀ order perm size, order ≤ 1 → 1 ≤ size → size ≤ 511 →
      ptds2va (packRun (packPage va pa) order perm size) = va ∧
      ptds2ppn (packRun (packPage va pa) order perm size) = pa2pte pa ∧
      ptds2order (packRun (packPage va pa) order perm size) = order ∧
      ptds2ub (packRun (packPage va pa) order perm size) = perm &&& pteU ∧
      ptds2size (packRun (packPage va pa) order perm size) = size) ∧
    (∀ flags, flags &&& userPerm = flags →
      ptds2va (packPage va pa ||| flags) = va ∧ ptds2ppn (packPage va pa ||| flags) = pa2pte pa ∧
      pted2flags (packPage va pa ||| flags) = flags) ∧
    ∀ word, Recorded word → word ≠ 0 ∧ word ≠ novalue ∧ word % pgsize ≠ 0 := by
  refine ⟨?_, ?_, ?_⟩
  · intro order perm size bit _ fits
    exact fields_packRun vaAligned vaLow paAligned paLow bit fits
  · intro flags known
    exact fields_packPage_flags vaAligned vaLow paAligned paLow known
  · intro word recorded
    obtain ⟨used, apart⟩ := recorded.live
    simp only [emptyRecord, Bool.or_eq_false_iff, decide_eq_false_iff_not] at used
    exact ⟨used.1, used.2, apart⟩

/-- A run of three pages, a single page, and the words of a process of two pages. -/
theorem packed_words_sample :
    ptds2va (packRun (packPage 0x1000 0x87f50000) 1 pteU 3) = 0x1000 ∧
      pted2flags (packPage 0x1000 0x87f50000 ||| userPerm) = userPerm ∧
      ∀ word ∈ uvmcopyWords 0x2000 [0x87f50000, 0x87f51000], word % pgsize ≠ 0 := by
  have packed := packed_words 0x1000 0x87f50000 rfl (by decide) rfl (by decide)
  exact ⟨(packed.1 1 pteU 3 (by decide) (by decide) (by decide)).1,
    (packed.2.1 userPerm (by decide)).2.2, fun word member => (packed.2.2 word (.uvmcopy member)).2.2⟩

end Ev6.PageTable
