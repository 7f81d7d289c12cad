import Mathlib.Algebra.Order.Group.Nat
import Mathlib.Data.List.Range
import Mathlib.Logic.Function.Basic
import Mathlib.Tactic.Common

/-!
# Byte contents

The contents of a block, of a file or of memory are a function from offsets to
bytes. `extract` reads a stretch of them, `patch` overwrites one; `entry` and
`setEntry` treat the contents as an array of 32-bit little-endian words.
-/

namespace Ev6.Support

/-- The `count` bytes from `start` on. -/
def extract (content : Nat → UInt8) (start count : Nat) : List UInt8 :=
  (List.range count).map fun index => content (start + index)

/-- The contents with the bytes from `start` on replaced by those of a list. -/
def patch (content : Nat → UInt8) (start : Nat) (bytes : List UInt8) : Nat → UInt8 :=
  fun index => if start ≤ index then (bytes[index - start]?).getD (content index) else content index

variable {content : Nat → UInt8} {start : Nat} {bytes : List UInt8}

@[simp] theorem length_extract (content : Nat → UInt8) (start count : Nat) :
    (extract content start count).length = count := by
  simp [extract]

@[simp] theorem extract_zero (content : Nat → UInt8) (start : Nat) :
    extract content start 0 = [] := rfl

theorem extract_succ (content : Nat → UInt8) (start count : Nat) :
    extract content start (count + 1) = content start :: extract content (start + 1) count := by
  simp [extract, List.range_succ_eq_map, List.map_map, Function.comp_def, Nat.add_assoc,
    Nat.add_comm 1]

/-- A stretch read in two parts. -/
theorem extract_add (content : Nat → UInt8) (start first second : Nat) :
    extract content start (first + second) =
      extract content start first ++ extract content (start + first) second := by
  simp [extract, List.range_add, List.map_map, Function.comp_def, Nat.add_assoc]

theorem extract_congr {other : Nat → UInt8} {count : Nat}
    (same : ∀ index < count, content (start + index) = other (start + index)) :
    extract content start count = extract other start count := by
  apply List.map_congr_left
  intro index member
  exact same index (List.mem_range.mp member)

/-- The bytes of a stretch that starts elsewhere in other contents. -/
theorem extract_shift {other : Nat → UInt8} {first second count : Nat}
    (same : ∀ index < count, content (first + index) = other (second + index)) :
    extract content first count = extract other second count := by
  apply List.map_congr_left
  intro index member
  exact same index (List.mem_range.mp member)

@[simp] theorem patch_nil (content : Nat → UInt8) (start : Nat) : patch content start [] = content := by
  funext index
  simp [patch]

theorem patch_before {index : Nat} (below : index < start) :
    patch content start bytes index = content index := by
  simp [patch, Nat.not_le.mpr below]

theorem patch_behind {index : Nat} (above : start + bytes.length ≤ index) :
    patch content start bytes index = content index := by
  have out : bytes.length ≤ index - start := by omega
  simp [patch, out]

theorem patch_inside {index : Nat} (inside : index < bytes.length) :
    patch content start bytes (start + index) = bytes[index] := by
  simp [patch, inside]

/-- Two adjacent stretches overwritten one after the other. -/
theorem patch_append (content : Nat → UInt8) (start : Nat) (first second : List UInt8) :
    patch (patch content start first) (start + first.length) second =
      patch content start (first ++ second) := by
  funext index
  by_cases low : index < start
  · rw [patch_before (by omega), patch_before low, patch_before low]
  · obtain ⟨place, rfl⟩ : ∃ place, index = start + place := ⟨index - start, by omega⟩
    by_cases early : place < first.length
    · rw [patch_before (by omega), patch_inside early, patch_inside (by simp; omega)]
      simp [early]
    · by_cases late : place < first.length + second.length
      · obtain ⟨rest, rfl⟩ : ∃ rest, place = first.length + rest := ⟨place - first.length, by omega⟩
        have short : rest < second.length := by omega
        rw [← Nat.add_assoc, patch_inside short, Nat.add_assoc, patch_inside (by simpa using short)]
        simp
      · rw [patch_behind (by omega), patch_behind (by omega),
          patch_behind (by simp only [List.length_append]; omega)]

/-- What a stretch of overwritten contents reads as. -/
theorem extract_patch (content : Nat → UInt8) (start : Nat) (bytes : List UInt8) :
    extract (patch content start bytes) start bytes.length = bytes := by
  apply List.ext_getElem
  · simp
  · intro index inside _
    rw [length_extract] at inside
    simp [extract, patch_inside inside]

/-! ## Words -/

/-- The four bytes of a 32-bit word, the least significant first. -/
def wordBytes (word : Nat) : List UInt8 :=
  [UInt8.ofNat word, UInt8.ofNat (word / 0x100), UInt8.ofNat (word / 0x10000),
    UInt8.ofNat (word / 0x1000000)]

/-- Word `index` of contents read as an array of words. -/
def entry (content : Nat → UInt8) (index : Nat) : Nat :=
  (content (4 * index)).toNat + 0x100 * (content (4 * index + 1)).toNat +
    0x10000 * (content (4 * index + 2)).toNat + 0x1000000 * (content (4 * index + 3)).toNat

/-- The contents after a store to word `index`. -/
def setEntry (content : Nat → UInt8) (index word : Nat) : Nat → UInt8 :=
  patch content (4 * index) (wordBytes word)

@[simp] theorem entry_zero (index : Nat) : entry (fun _ => 0) index = 0 := rfl

/-- A stored word is read back. -/
theorem entry_setEntry_self (content : Nat → UInt8) (index : Nat) {word : Nat}
    (bound : word < 2 ^ 32) : entry (setEntry content index word) index = word := by
  have byte : ∀ place (inside : place < 4),
      setEntry content index word (4 * index + place) = (wordBytes word)[place] :=
    fun place inside => patch_inside inside
  have first := byte 0 (by omega)
  have second := byte 1 (by omega)
  have third := byte 2 (by omega)
  have fourth := byte 3 (by omega)
  rw [Nat.add_zero] at first
  simp only [entry, first, second, third, fourth, wordBytes, List.getElem_cons_zero,
    List.getElem_cons_succ, UInt8.toNat_ofNat']
  omega

/-- A store to one word leaves the others. -/
theorem entry_setEntry_of_ne (content : Nat → UInt8) {index other : Nat} (word : Nat)
    (different : other ≠ index) : entry (setEntry content index word) other = entry content other := by
  have outside : ∀ place < 4, setEntry content index word (4 * other + place) =
      content (4 * other + place) := by
    intro place inside
    rcases Nat.lt_or_gt_of_ne different with below | above
    · exact patch_before (by omega)
    · exact patch_behind (by simp only [wordBytes, List.length_cons, List.length_nil]; omega)
  have first := outside 0 (by omega)
  rw [Nat.add_zero] at first
  rw [entry, first, outside 1 (by omega), outside 2 (by omega), outside 3 (by omega), entry]

end Ev6.Support
