import Ev6.Support.Bytes

/-!
# Stores one after the other

Bytes stored each at an address of its own, such as those of a range whose addresses are
translated. A stretch of memory is the case of consecutive addresses.
-/

namespace Ev6.Support

/-- Bytes stored one after the other, each at its own address. -/
def storeAll : (Nat → Nat) → List UInt8 → (Nat → UInt8) → Nat → UInt8
  | _, [], memory => memory
  | place, byte :: rest, memory =>
    storeAll (fun index => place (index + 1)) rest (Function.update memory (place 0) byte)

theorem storeAll_append (place : Nat → Nat) (first second : List UInt8) (memory : Nat → UInt8) :
    storeAll place (first ++ second) memory =
      storeAll (fun index => place (first.length + index)) second (storeAll place first memory) := by
  induction first generalizing place memory with
  | nil => simp [storeAll]
  | cons byte first ih =>
    have places : (fun index => place (first.length + index + 1)) =
        fun index => place (first.length + 1 + index) := by
      funext index
      congr 1
      omega
    simp only [List.cons_append, storeAll, ih, List.length_cons, places]

/-- A stretch of memory overwritten at once. -/
theorem storeAll_patch (start : Nat) (bytes : List UInt8) (memory : Nat → UInt8) :
    storeAll (fun index => start + index) bytes memory = patch memory start bytes := by
  induction bytes generalizing start memory with
  | nil => simp [storeAll]
  | cons byte rest ih =>
    have first : Function.update memory start byte = patch memory start [byte] := by
      funext address
      rcases Nat.lt_trichotomy address start with low | rfl | high
      · rw [patch_before low, Function.update_of_ne (Nat.ne_of_lt low)]
      · rw [Function.update_self]
        have inside : 0 < [byte].length := Nat.one_pos
        exact (patch_inside inside).symm
      · rw [patch_behind (Nat.succ_le_of_lt high), Function.update_of_ne (Nat.ne_of_gt high)]
    have places : (fun index => start + (index + 1)) = fun index => start + 1 + index := by
      funext index
      omega
    have split := patch_append memory start [byte] rest
    rw [List.length_singleton, List.singleton_append] at split
    rw [storeAll, places, Nat.add_zero start, first, ih, split]

theorem storeAll_congr {place other : Nat → Nat} {bytes : List UInt8}
    (same : ∀ index < bytes.length, place index = other index) (memory : Nat → UInt8) :
    storeAll place bytes memory = storeAll other bytes memory := by
  induction bytes generalizing place other memory with
  | nil => rfl
  | cons byte rest ih =>
    have first := same 0 (by simp)
    have behind : ∀ index < rest.length, place (index + 1) = other (index + 1) :=
      fun index low => same (index + 1) (by simpa using low)
    rw [storeAll, storeAll, first, ih behind]

end Ev6.Support
