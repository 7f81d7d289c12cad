import Mathlib.Data.List.Induction
import Mathlib.Data.List.Range
import Mathlib.Logic.Function.Basic
import Mathlib.Order.Defs.LinearOrder

/-!
# Fixed-size tables scanned from the front

A table is a function from indices, of which the first `size` are slots.
`firstSlot` is the loop that stops at the first slot meeting a condition,
`lastHit` the loop over a list of entries that remembers the last one.
-/

namespace Ev6.Support

open List (mem_append mem_range mem_singleton)

/-- The least index below `size` that meets `test`. -/
def firstSlot (test : Nat → Bool) (size : Nat) : Option Nat :=
  (List.range size).find? test

variable {size : Nat} {test : Nat → Bool}

/-- What a successful scan says about the slot it stopped at. -/
theorem firstSlot_eq_some {index : Nat} : firstSlot test size = some index ↔
      index < size ∧ test index = true ∧ ∀ earlier < index, test earlier = false := by
  unfold firstSlot
  rw [List.find?_range_eq_some]
  simp [mem_range]
  tauto

/-- A scan fails exactly when no slot meets the condition. -/
theorem firstSlot_eq_none : firstSlot test size = none ↔ ∀ index < size, test index = false := by
  simp [firstSlot, List.find?_eq_none]

/-- The last entry of a list that meets `test`, or what was found before. -/
def lastHit {ι : Type*} (test : ι → Bool) (entries : List ι) (found : Option ι) : Option ι :=
  entries.foldl (fun found i => if test i then some i else found) found

theorem lastHit_append {ι : Type*} (test : ι → Bool) (entries : List ι) (i : ι)
    (found : Option ι) :
    lastHit test (entries ++ [i]) found = if test i then some i else lastHit test entries found := by
  simp [lastHit]

/-- A scan that starts with nothing ends with nothing exactly when nothing hits. -/
theorem lastHit_eq_none {ι : Type*} {test : ι → Bool} {entries : List ι} :
    lastHit test entries none = none ↔ ∀ i ∈ entries, test i = false := by
  induction entries using List.reverseRecOn with
  | nil => simp [lastHit]
  | append_singleton front i ih =>
    rw [lastHit_append]
    cases hit : test i
    · simp [ih, or_imp, forall_and, hit]
    · simp [or_imp, forall_and, hit]

/-- In an ordered list the scan ends with the greatest entry that hits. -/
theorem lastHit_eq_some {ι : Type*} [Preorder ι] {test : ι → Bool} {entries : List ι}
    (ordered : entries.Pairwise (· < ·)) {i : ι} :
    lastHit test entries none = some i ↔
      i ∈ entries ∧ test i = true ∧ ∀ j ∈ entries, i < j → test j = false := by
  induction entries using List.reverseRecOn with
  | nil => simp [lastHit]
  | append_singleton front last ih =>
    obtain ⟨orderedFront, -, before⟩ := List.pairwise_append.mp ordered
    rw [lastHit_append]
    cases hit : test last
    · rw [if_neg Bool.false_ne_true, ih orderedFront]
      constructor
      · rintro ⟨member, holds, greatest⟩
        refine ⟨List.mem_append_left _ member, holds, ?_⟩
        intro j memberJ above
        rcases mem_append.mp memberJ with memberJ | memberJ
        · exact greatest j memberJ above
        · rwa [mem_singleton.mp memberJ]
      · rintro ⟨member, holds, greatest⟩
        refine ⟨?_, holds, fun j memberJ => greatest j (List.mem_append_left _ memberJ)⟩
        rcases mem_append.mp member with member | member
        · exact member
        · rw [mem_singleton.mp member, hit] at holds
          cases holds
    · rw [if_pos rfl, Option.some.injEq]
      constructor
      · rintro rfl
        refine ⟨by simp, hit, ?_⟩
        intro j memberJ above
        rcases mem_append.mp memberJ with memberJ | memberJ
        · exact absurd (before j memberJ last (List.mem_singleton_self last)) above.asymm
        · rw [mem_singleton.mp memberJ] at above
          exact absurd above (lt_irrefl last)
      · rintro ⟨member, holds, greatest⟩
        rcases mem_append.mp member with member | member
        · have above := before i member last (List.mem_singleton_self last)
          rw [greatest last (by simp) above] at hit
          cases hit
        · exact (mem_singleton.mp member).symm

/-- The number of slots that meet `test`. -/
def countSlots (test : Nat → Bool) (size : Nat) : Nat := (List.range size).countP test

theorem countSlots_succ (test : Nat → Bool) (size : Nat) :
    countSlots test (size + 1) = countSlots test size + if test size then 1 else 0 := by
  simp [countSlots, List.range_succ, List.countP_append, List.countP_singleton]

/-- A slot that is taken back counts once. -/
theorem countSlots_update {index : Nat} (low : index < size) (hit : test index = true) :
    countSlots (Function.update test index false) size + 1 = countSlots test size := by
  induction size with
  | zero => cases low
  | succ size ih =>
    rw [countSlots_succ, countSlots_succ]
    rcases Nat.lt_succ_iff_lt_or_eq.mp low with below | rfl
    · rw [Function.update_of_ne (Nat.ne_of_gt below), ← ih below]
      omega
    · have others : countSlots (Function.update test index false) index = countSlots test index :=
        List.countP_congr fun other member => by
          rw [Function.update_of_ne (Nat.ne_of_lt (mem_range.mp member))]
      rw [others, Function.update_self, hit]
      rfl

/-- Slots behind the others. -/
theorem countSlots_add (test : Nat → Bool) (size more : Nat) :
    countSlots test (size + more) =
      countSlots test size + countSlots (fun n => test (size + n)) more := by
  simp [countSlots, List.range_add, List.countP_append, List.countP_map, Function.comp_def]

theorem countSlots_eq_zero : countSlots test size = 0 ↔ ∀ index < size, test index = false := by
  simp [countSlots, List.countP_eq_zero]

theorem countSlots_all (all : ∀ index < size, test index = true) : countSlots test size = size := by
  have length : (List.range size).length = size := List.length_range
  rw [countSlots, List.countP_eq_length.mpr fun index member => all index (mem_range.mp member),
    length]

end Ev6.Support
