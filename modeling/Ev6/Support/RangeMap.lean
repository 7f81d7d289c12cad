import Mathlib.Data.Nat.Notation
import Mathlib.Logic.Function.Basic
import Mathlib.Tactic.SplitIfs

/-!
# Maps changed on a range

A partial map on numbered places that gets, or loses, its values on a range of them. A
loop that goes over the places one after the other makes the same map.
-/

namespace Ev6.Support

open Function (update update_of_ne)

variable {Value : Type*} (before : ℕ → Option Value) (first : ℕ)

/-- `count` places from `first` on get values. -/
def setRange (count : ℕ) (value : ℕ → Value) (place : ℕ) : Option Value :=
  if first ≤ place ∧ place < first + count then some (value (place - first)) else before place

/-- `count` places from `first` on lose their values. -/
def clearRange (count : ℕ) (place : ℕ) : Option Value :=
  if first ≤ place ∧ place < first + count then none else before place

theorem setRange_zero (value : ℕ → Value) : setRange before first 0 value = before := by
  funext place
  have outside : ¬(first ≤ place ∧ place < first + 0) := by omega
  rw [setRange, if_neg outside]

theorem setRange_congr {count : ℕ} {value other : ℕ → Value}
    (same : ∀ k < count, value k = other k) :
    setRange before first count value = setRange before first count other := by
  funext place
  unfold setRange
  split_ifs with inside
  · rw [same (place - first) (by omega)]
  · rfl

theorem setRange_one (value : ℕ → Value) :
    setRange before first 1 value = update before first (some (value 0)) := by
  funext place
  by_cases here : place = first
  · simp [setRange, here]
  · have outside : ¬(first ≤ place ∧ place < first + 1) := by omega
    rw [setRange, if_neg outside, update_of_ne here]

theorem setRange_succ (count : ℕ) (value : ℕ → Value) :
    setRange (update before first (some (value 0))) (first + 1) count
      (fun k => value (k + 1)) = setRange before first (count + 1) value := by
  funext place
  unfold setRange
  by_cases here : place = first
  · subst here
    rw [if_neg (by omega), if_pos (by omega)]
    simp
  · rw [update_of_ne here]
    split_ifs with behind whole whole
    · have shifted : place - (first + 1) + 1 = place - first := by omega
      exact congrArg (fun k => some (value k)) shifted
    · omega
    · omega
    · rfl

theorem clearRange_one : clearRange before first 1 = update before first none := by
  funext place
  by_cases here : place = first
  · simp [clearRange, here]
  · have outside : ¬(first ≤ place ∧ place < first + 1) := by omega
    rw [clearRange, if_neg outside, update_of_ne here]

theorem clearRange_succ (count : ℕ) :
    clearRange (update before first none) (first + 1) count =
      clearRange before first (count + 1) := by
  funext place
  unfold clearRange
  by_cases here : place = first
  · subst here
    rw [if_neg (by omega), if_pos (by omega)]
    simp
  · rw [update_of_ne here]
    split_ifs with behind whole whole
    · rfl
    · omega
    · omega
    · rfl

end Ev6.Support
