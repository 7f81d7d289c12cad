import Mathlib.Algebra.Group.Nat.Defs
import Mathlib.Data.List.Basic
import Mathlib.Logic.Function.Basic

/-!
# Rings with counters that run freely

A ring of `size` cells holds the end of a stream. The stream is numbered from 0 on, and
entry `k` lies in cell `k % size`. `Window` says that the ring holds the entries from
`first` on. A machine keeps the two ends in counters that wrap; as the ring is smaller
than the range of the counters, they tell the ends apart.
-/

namespace Ev6.Support

variable {α : Type*} [Inhabited α]

/-- The ring holds the stream from the entry `first` on. -/
structure Window (size : Nat) (cells : Nat → α) (stream : List α) (first : Nat) : Prop where
  low : first ≤ stream.length
  high : stream.length ≤ first + size
  holds : ∀ k, first ≤ k → k < stream.length → stream[k]! = cells (k % size)

section Window

variable {size first : Nat} {cells : Nat → α} {stream : List α}

/-- Nothing has come yet. -/
theorem Window.empty (size : Nat) (cells : Nat → α) : Window size cells [] 0 where
  low := Nat.le_refl 0
  high := Nat.zero_le _
  holds := fun _ _ low => absurd low (Nat.not_lt_zero _)

/-- Two entries that are both in the ring lie in different cells. -/
theorem mod_ne_of_window {k l : Nat} (below : k < l) (near : l < k + size) :
    k % size ≠ l % size := by
  intro same
  have multiple : size ∣ l - k :=
    Nat.dvd_of_mod_eq_zero (Nat.sub_mod_eq_zero_of_mod_eq same.symm)
  have far : size ≤ l - k := Nat.le_of_dvd (Nat.sub_pos_of_lt below) multiple
  omega

/-- A new entry goes into a cell that holds none. -/
theorem Window.push (window : Window size cells stream first) (room : stream.length < first + size)
    (x : α) :
    Window size (Function.update cells (stream.length % size) x) (stream ++ [x]) first where
  low := by
    rw [List.length_append]
    exact Nat.le_trans window.low (Nat.le_add_right _ _)
  high := by
    rw [List.length_append]
    exact room
  holds := by
    intro k above below
    rw [List.length_append, List.length_singleton] at below
    rcases Nat.lt_succ_iff_lt_or_eq.mp below with earlier | rfl
    · have near : stream.length < k + size := by omega
      have apart := mod_ne_of_window earlier near
      rw [Function.update_of_ne apart, ← window.holds k above earlier,
        List.getElem!_eq_getElem?_getD, List.getElem!_eq_getElem?_getD,
        List.getElem?_append_left earlier]
    · rw [Function.update_self, List.getElem!_eq_getElem?_getD]
      simp

/-- The first entry is taken out. -/
theorem Window.pop (window : Window size cells stream first) (filled : first < stream.length) :
    Window size cells stream (first + 1) where
  low := filled
  high := Nat.le_trans window.high (by omega)
  holds := fun k above below => window.holds k (Nat.le_of_succ_le above) below

/-- The entry that is taken out is the next one of the stream. -/
theorem Window.next (window : Window size cells stream first) (filled : first < stream.length) :
    stream.drop first = cells (first % size) :: stream.drop (first + 1) := by
  rw [List.drop_eq_getElem_cons filled, ← window.holds first (Nat.le_refl _) filled,
    getElem!_pos stream first filled]

/-- The last entries are taken back. -/
theorem Window.truncate (window : Window size cells stream first) {kept : List α}
    (part : kept <+: stream) (low : first ≤ kept.length) : Window size cells kept first where
  low := low
  high := Nat.le_trans part.length_le window.high
  holds := by
    intro k above below
    have within : k < stream.length := Nat.lt_of_lt_of_le below part.length_le
    rw [← window.holds k above within, getElem!_pos kept k below, getElem!_pos stream k within]
    exact part.getElem below

end Window

/-! ## Counters -/

section Counters

/-- A counter as the machine has it. -/
theorem ofNat_mod {size : Nat} (divides : size ∣ 2 ^ 32) (k : Nat) :
    (UInt32.ofNat k).toNat % size = k % size := by
  rw [UInt32.toNat_ofNat']
  exact Nat.mod_mod_of_dvd k divides

theorem ofNat_succ (k : Nat) : UInt32.ofNat k + 1 = UInt32.ofNat (k + 1) := by
  rw [UInt32.ofNat_add]
  rfl

theorem ofNat_pred {k : Nat} (positive : 0 < k) : UInt32.ofNat k - 1 = UInt32.ofNat (k - 1) := by
  obtain ⟨j, rfl⟩ := Nat.exists_eq_add_of_le' positive
  rw [← ofNat_succ, Nat.add_sub_cancel, UInt32.add_sub_cancel]

/-- How far two counters are apart. -/
theorem toNat_ofNat_sub {low high : Nat} (ordered : low ≤ high) (near : high - low < 2 ^ 32) :
    (UInt32.ofNat high - UInt32.ofNat low).toNat = high - low := by
  rw [← UInt32.ofNat_sub ordered, UInt32.toNat_ofNat']
  exact Nat.mod_eq_of_lt near

/-- Counters that are not too far apart are equal exactly when they count the same. -/
theorem ofNat_inj_of_near {low high : Nat} (ordered : low ≤ high) (near : high - low < 2 ^ 32) :
    UInt32.ofNat low = UInt32.ofNat high ↔ low = high := by
  constructor
  · intro same
    have apart := toNat_ofNat_sub ordered near
    rw [same, UInt32.sub_self, UInt32.toNat_zero] at apart
    omega
  · rintro rfl
    rfl

/-- A counter of 16 bits as the machine has it. -/
theorem ofNat16_mod {size : Nat} (divides : size ∣ 2 ^ 16) (k : Nat) :
    (UInt16.ofNat k).toNat % size = k % size := by
  rw [UInt16.toNat_ofNat']
  exact Nat.mod_mod_of_dvd k divides

theorem ofNat16_succ (k : Nat) : UInt16.ofNat k + 1 = UInt16.ofNat (k + 1) := by
  rw [UInt16.ofNat_add]
  rfl

end Counters

end Ev6.Support
