import Mathlib.Algebra.BigOperators.Fin
import Mathlib.Algebra.Order.BigOperators.Group.Finset
import Mathlib.Data.Fintype.Basic
import Mathlib.Tactic.Ring

/-!
# Tallies

The number of indices of a finite type at which a test holds, as an integer that a
counter of a program can be compared with.
-/

namespace Ev6.Support

open Finset (add_sum_erase mem_range mem_univ sdiff_singleton_eq_erase sum_add_distrib sum_congr
  sum_le_sum sum_update_of_mem)
open Function (update)

variable {ι : Type*} [Fintype ι]

/-- How often a test holds. -/
def tally (test : ι → Bool) : Int := ∑ i, if test i then 1 else 0

theorem tally_nonneg (test : ι → Bool) : 0 ≤ tally test :=
  Finset.sum_nonneg fun i _ => by split <;> decide

/-- A tally is 0 exactly when the test never holds. -/
theorem tally_eq_zero {test : ι → Bool} : tally test = 0 ↔ ∀ i, test i = false := by
  rw [tally, Finset.sum_eq_zero_iff_of_nonneg fun i _ => by split <;> decide]
  refine forall_congr' fun i => ?_
  cases test i <;> simp

/-- Tests that agree have the same tally. -/
theorem tally_congr {test other : ι → Bool} (same : ∀ i, test i = other i) :
    tally test = tally other := by
  rw [funext same]

/-- A test that holds wherever another does has a larger tally. -/
theorem tally_mono {test other : ι → Bool} (weaker : ∀ i, test i = true → other i = true) :
    tally test ≤ tally other := by
  refine sum_le_sum fun i _ => ?_
  cases holds : test i
  · simp only [Bool.false_eq_true, if_false]
    split <;> decide
  · simp [weaker i holds]

/-- A tally counts the indices where the test holds. -/
theorem tally_eq_card (test : ι → Bool) :
    tally test = (Finset.univ.filter fun i => test i = true).card := by
  rw [tally, Finset.card_filter]
  push_cast
  rfl

/-- A test holds or fails at each index. -/
theorem tally_add_not (test : ι → Bool) :
    tally test + tally (fun i => !test i) = Fintype.card ι := by
  rw [tally, tally, ← sum_add_distrib, ← Finset.card_univ, Finset.card_eq_sum_ones]
  push_cast
  refine sum_congr rfl fun i _ => ?_
  cases test i <;> simp

theorem tally_le_card (test : ι → Bool) : tally test ≤ Fintype.card ι := by
  have all := tally_add_not test
  have rest := tally_nonneg fun i => !test i
  omega

/-- Tests that never hold together have no more hits than a test that holds wherever
one of them does. -/
theorem tally_add_le {left right both : ι → Bool} (apart : ∀ i, left i = true → right i = false)
    (ofLeft : ∀ i, left i = true → both i = true) (ofRight : ∀ i, right i = true → both i = true) :
    tally left + tally right ≤ tally both := by
  rw [tally, tally, ← sum_add_distrib]
  refine sum_le_sum fun i _ => ?_
  cases onLeft : left i
  · cases onRight : right i
    · simp only [Bool.false_eq_true, if_false]
      split <;> decide
    · simp [ofRight i onRight]
  · simp [apart i onLeft, ofLeft i onLeft]

/-- Tests that never hold together have together the hits of both. -/
theorem tally_or {left right : ι → Bool} (apart : ∀ i, left i = true → right i = false) :
    tally (fun i => left i || right i) = tally left + tally right := by
  rw [tally, tally, tally, ← sum_add_distrib]
  refine sum_congr rfl fun i _ => ?_
  cases onLeft : left i
  · simp
  · simp [apart i onLeft]

/-- Changing the value at one index changes the tally by what the test says there. -/
theorem tally_update [DecidableEq ι] {α : Type*} (test : α → Bool) (values : ι → α) (index : ι)
    (value : α) :
    tally (fun i => test (update values index value i)) =
      tally (fun i => test (values i)) +
        ((if test value then 1 else 0) - (if test (values index) then 1 else 0)) := by
  have updated : (fun i => if test (update values index value i) then (1 : Int) else 0) =
      update (fun i => if test (values i) then (1 : Int) else 0) index
        (if test value then 1 else 0) := by
    funext i
    by_cases same : i = index
    · subst same
      simp
    · simp [same]
  rw [tally, updated, sum_update_of_mem (mem_univ index), tally,
    ← add_sum_erase _ (fun i => if test (values i) then (1 : Int) else 0)
      (mem_univ index), sdiff_singleton_eq_erase]
  ring

/-- The indices where a test holds are one of them and the others. -/
theorem tally_split [DecidableEq ι] (test : ι → Bool) (index : ι) :
    tally test = (if test index then 1 else 0) +
      tally (fun i => decide (i ≠ index) && test i) := by
  rw [tally, ← add_sum_erase _ _ (mem_univ index), tally,
    ← add_sum_erase Finset.univ
      (fun i => if (decide (i ≠ index) && test i) = true then (1 : Int) else 0)
      (mem_univ index)]
  have rest : ∀ i ∈ Finset.univ.erase index,
      (if (decide (i ≠ index) && test i) = true then (1 : Int) else 0) =
        if test i then 1 else 0 := by
    intro i member
    simp [Finset.ne_of_mem_erase member]
  rw [sum_congr rfl rest]
  simp

/-- A tally is at most 1 exactly when the test holds at one index at most. -/
theorem tally_others_eq_zero [DecidableEq ι] {test : ι → Bool} {index : ι} (holds : test index = true)
    (few : tally test ≤ 1) : ∀ i, i ≠ index → test i = false := by
  have split := tally_split test index
  rw [if_pos holds] at split
  have others := tally_nonneg fun i => decide (i ≠ index) && test i
  have none : tally (fun i => decide (i ≠ index) && test i) = 0 := by omega
  intro i different
  have absent := tally_eq_zero.mp none i
  simpa [different] using absent

/-- Sums of functions that differ at one index. -/
theorem sum_range_of_eq_off {M : Type*} [AddCommMonoid M] {first second : Nat → M}
    {size index : Nat} (low : index < size) (same : ∀ n < size, n ≠ index → first n = second n) :
    ∑ n ∈ Finset.range size, first n + second index =
      ∑ n ∈ Finset.range size, second n + first index := by
  have member := mem_range.mpr low
  have rest : ∑ n ∈ (Finset.range size).erase index, first n =
      ∑ n ∈ (Finset.range size).erase index, second n := by
    refine sum_congr rfl fun n inside => ?_
    exact same n (mem_range.mp (Finset.mem_of_mem_erase inside)) (Finset.ne_of_mem_erase inside)
  rw [← add_sum_erase _ first member, ← add_sum_erase _ second member, rest,
    add_right_comm, add_comm (first index), add_right_comm]

/-! ## Sums over all indices -/

section Sum

variable {M : Type*} [AddCommMonoid M] [DecidableEq ι]

/-- A sum is a summand and the rest. -/
theorem sum_rest (f : ι → M) (index : ι) :
    ∃ rest, ∀ value, ∑ i, update f index value i = value + rest := by
  refine ⟨∑ i ∈ Finset.univ.erase index, f i, fun value => ?_⟩
  rw [sum_update_of_mem (mem_univ index), sdiff_singleton_eq_erase]

/-- A sum is two summands and the rest. -/
theorem sum_rest_two (f : ι → M) {first second : ι} (apart : first ≠ second) :
    ∃ rest, ∀ one two,
      ∑ i, update (update f second two) first one i = one + (two + rest) := by
  have member : second ∈ Finset.univ.erase first := by simp [apart.symm]
  refine ⟨∑ i ∈ (Finset.univ.erase first).erase second, f i, fun one two => ?_⟩
  rw [sum_update_of_mem (mem_univ first), sdiff_singleton_eq_erase,
    sum_update_of_mem member, sdiff_singleton_eq_erase]

end Sum

end Ev6.Support
