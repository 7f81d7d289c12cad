import Ev6.RecoveryLocking.History

/-!
# The history array, slot by slot

`add_rcs_history` and `del_rcs_history` as loops over the indices of `history_idx`,
with every load and store checked against the bounds of the array: `none` is an access
outside it. They compute what `addHistory` and `delHistory` say for every content of
the array (`addSlots_eq`, `delSlots_eq`), so no index leaves it. `removes_last_iff`
gives the arrays on which `del_rcs_history` does what it is for: the store behind its
loops empties the last slot of a full array when the flag is not recorded.

A slot holds the bit pattern of an `int`; the loops only compare slots for equality.
-/

namespace Ev6.RecoveryLocking

/-- `history_idx[i]`. -/
def loadSlot (slots : List Nat) (i : Nat) : Option Nat := slots[i]?

/-- `history_idx[i] = value`. -/
def storeSlot (slots : List Nat) (i value : Nat) : Option (List Nat) :=
  if i < slots.length then some (slots.set i value) else none

/-- The second loop of `add_rcs_history` from index `i` on, with `left` indices to go. -/
def addScan (flag : Nat) : Nat → Nat → List Nat → Option (List Nat)
  | 0, _, slots => some slots
  | left + 1, i, slots => do
      let slot ← loadSlot slots i
      if slot = 0 then storeSlot slots i flag else addScan flag left (i + 1) slots

/-- `add_rcs_history` on the array of the process. -/
def addSlots (flag : Nat) (slots : List Nat) : Option (List Nat) :=
  addScan flag rcsInfoHistorySize 0 slots

/-- The second loop of `del_rcs_history`, from index `i - 1` down. -/
def clearScan (flag : Nat) : Nat → List Nat → Option (List Nat)
  | 0, slots => some slots
  | i + 1, slots => do
      let slot ← loadSlot slots i
      if slot = flag then storeSlot slots i 0 else clearScan flag i slots

/-- The third loop of `del_rcs_history` from index `i` on, with `left` indices to go,
and the value of `i` behind it. -/
def shiftScan : Nat → Nat → List Nat → Option (Nat × List Nat)
  | 0, i, slots => some (i, slots)
  | left + 1, i, slots => do
      let slot ← loadSlot slots i
      if slot = 0 then
        let next ← loadSlot slots (i + 1)
        if next = 0 then some (i, slots)
        else
          let moved ← storeSlot slots i next
          let cleared ← storeSlot moved (i + 1) 0
          shiftScan left (i + 1) cleared
      else shiftScan left (i + 1) slots

/-- The third loop of `del_rcs_history` and the store behind it. -/
def compactSlots (left i : Nat) (slots : List Nat) : Option (List Nat) := do
  let (last, shifted) ← shiftScan left i slots
  storeSlot shifted last 0

/-- `del_rcs_history` on the array of the process. -/
def delSlots (flag : Nat) (slots : List Nat) : Option (List Nat) := do
  let cleared ← clearScan flag rcsInfoHistorySize slots
  compactSlots (rcsInfoHistorySize - 1) 0 cleared

/-! ## The loops inside the array -/

@[simp] theorem loadSlot_append (front back : List Nat) (slot : Nat) :
    loadSlot (front ++ slot :: back) front.length = some slot := by
  simp [loadSlot]

@[simp] theorem storeSlot_append (front back : List Nat) (slot value : Nat) :
    storeSlot (front ++ slot :: back) front.length value = some (front ++ value :: back) := by
  simp [storeSlot]

/-- The scan of `add_rcs_history` over the slots behind the ones it has passed. -/
theorem addScan_append (flag : Nat) (front back : List Nat) :
    addScan flag back.length front.length (front ++ back) =
      some (front ++ addHistory flag back) := by
  induction back generalizing front with
  | nil => simp [addScan, addHistory]
  | cons slot back ih =>
    by_cases empty : slot = 0
    · simp [addScan, addHistory, empty]
    · have behind := ih (front ++ [slot])
      simp only [List.length_append, List.length_singleton, List.append_assoc,
        List.singleton_append] at behind
      simp [addScan, addHistory, empty, behind]

/-- `add_rcs_history` stays inside the array and does what `addHistory` says. -/
theorem addSlots_eq (flag : Nat) {slots : List Nat} (size : slots.length = rcsInfoHistorySize) :
    addSlots flag slots = some (addHistory flag slots) := by
  have scanned := addScan_append flag [] slots
  rwa [size] at scanned

theorem clearScan_append (flag : Nat) (front back : List Nat) :
    clearScan flag front.length (front ++ back) =
      some ((clearLast flag front).getD front ++ back) := by
  induction front using List.reverseRecOn generalizing back with
  | nil => simp [clearScan, clearLast]
  | append_singleton front slot ih =>
    have shape : front ++ [slot] ++ back = front ++ slot :: back := by simp
    rw [List.length_append, List.length_singleton, shape, clearLast_append]
    by_cases same : slot = flag
    · simp [clearScan, same, clearLast]
    · have before := ih (slot :: back)
      cases found : clearLast flag front with
      | none => simpa [clearScan, same, clearLast, found] using before
      | some cleared => simpa [clearScan, same, clearLast, found] using before

/-- The third loop from one slot on, with the store behind it. -/
theorem compactSlots_append (front back : List Nat) (slot : Nat) :
    compactSlots back.length front.length (front ++ slot :: back) =
      some (front ++ compactFrom slot back) := by
  induction back generalizing front slot with
  | nil => simp [compactSlots, shiftScan, compactFrom]
  | cons next back ih =>
    have behind : ∀ passed left : Nat,
        compactSlots back.length (front.length + 1) (front ++ passed :: left :: back) =
          some (front ++ passed :: compactFrom left back) := by
      intro passed left
      simpa using ih (front ++ [passed]) left
    have loadNext : loadSlot (front ++ slot :: next :: back) (front.length + 1) = some next := by
      simpa using loadSlot_append (front ++ [slot]) back next
    have storeNext : storeSlot (front ++ next :: next :: back) (front.length + 1) 0 =
        some (front ++ next :: 0 :: back) := by
      simpa using storeSlot_append (front ++ [next]) back next 0
    by_cases empty : slot = 0
    · subst empty
      by_cases last : next = 0
      · subst last
        simp [compactSlots, shiftScan, compactFrom, loadNext]
      · have moved := behind next 0
        simp only [compactSlots] at moved
        simp [compactSlots, shiftScan, compactFrom, loadNext, storeNext, last, moved]
    · have passed := behind slot next
      simp only [compactSlots] at passed
      simp [compactSlots, shiftScan, compactFrom, empty, passed]

/-- `del_rcs_history` stays inside the array and does what `delHistory` says. -/
theorem delSlots_eq (flag : Nat) {slots : List Nat} (size : slots.length = rcsInfoHistorySize) :
    delSlots flag slots = some (delHistory flag slots) := by
  have cleared := clearScan_append flag slots []
  rw [size, List.append_nil, List.append_nil] at cleared
  have kept : ((clearLast flag slots).getD slots).length = rcsInfoHistorySize := by
    cases found : clearLast flag slots with
    | none => exact size
    | some cleared => exact (length_clearLast found).trans size
  rw [delSlots, cleared, Option.bind_eq_bind, Option.bind_some, delHistory]
  cases shape : (clearLast flag slots).getD slots with
  | nil =>
    rw [shape] at kept
    cases kept
  | cons slot rest =>
    have left : rest.length = rcsInfoHistorySize - 1 := by
      rw [shape, List.length_cons] at kept
      omega
    have compacted := compactSlots_append [] rest slot
    rwa [left] at compacted

/-! ## Removing the last occurrence -/

/-- The live flags without the last occurrence of one of them. -/
def eraseLast (flag : Nat) (live : List Nat) : List Nat := (live.reverse.erase flag).reverse

variable {live : List Nat} {flag : Nat}

theorem eraseLast_absent (absent : flag ∉ live) : eraseLast flag live = live := by
  rw [eraseLast, List.erase_of_not_mem (by simpa using absent), List.reverse_reverse]

theorem eraseLast_last {before after : List Nat} (last : flag ∉ after) :
    eraseLast flag (before ++ flag :: after) = before ++ after := by
  have front : flag ∉ after.reverse := by simpa using last
  simp [eraseLast, List.erase_append_right, front]

/-- What the callers of `del_rcs_history` rely on: the last occurrence of the flag is
gone and nothing else has changed, the array has no holes, and `add_rcs_history` then
appends at the first free slot. -/
structure RemovesLast (flag : Nat) (live : List Nat) : Prop where
  removed : delSlots flag (pad live) = some (pad (eraseLast flag live))
  appends : ∀ other, addSlots other (pad (eraseLast flag live)) =
    some (pad (eraseLast flag live ++ [other]))

theorem length_pad (valid : Live live) : (pad live).length = rcsInfoHistorySize := by
  have fits := valid.fits
  simp only [pad, List.length_append, List.length_replicate]
  omega

theorem addSlots_pad (valid : Live live) (room : live.length < rcsInfoHistorySize) (flag : Nat) :
    addSlots flag (pad live) = some (pad (live ++ [flag])) := by
  rw [addSlots_eq flag (length_pad valid), addHistory_pad valid flag room]

theorem removesLast_of_mem (valid : Live live) (member : flag ∈ live) : RemovesLast flag live := by
  obtain ⟨before, after, rfl, last⟩ := exists_last member
  have shorter : (before ++ after).length < rcsInfoHistorySize := by
    have fits := valid.fits
    simp only [List.length_append, List.length_cons] at fits ⊢
    omega
  constructor
  · rw [delSlots_eq flag (length_pad valid), delHistory_pad valid last, eraseLast_last last]
  · intro other
    rw [eraseLast_last last]
    exact addSlots_pad valid.remove shorter other

/-- `del_rcs_history` changes nothing for a flag that is not recorded, zero included,
when an empty slot is left. -/
theorem delSlots_absent (valid : Live live)
    (absent : flag ∉ live) (room : live.length < rcsInfoHistorySize) :
    delSlots flag (pad live) = some (pad live) := by
  rw [delSlots_eq flag (length_pad valid)]
  by_cases zero : flag = 0
  · subst zero
    -- The scan stops at the last slot, which is empty, and empties it again.
    obtain ⟨spare, free⟩ : ∃ spare, rcsInfoHistorySize - live.length = spare + 1 :=
      ⟨rcsInfoHistorySize - live.length - 1, by omega⟩
    have split : pad live = live ++ List.replicate spare 0 ++ 0 :: [] := by
      rw [pad, free, List.replicate_succ', List.append_assoc]
    have found : clearLast 0 (pad live) = some (pad live) := by
      rw [split]
      exact clearLast_last (by simp)
    rw [delHistory, found, Option.getD_some, compact_pad valid room]
  · rw [delHistory_absent valid zero absent room]

/-- Without an empty slot the loop runs to its end, and the store behind it empties the
last slot. -/
theorem compact_full {front : List Nat} {last : Nat} (filled : ∀ slot ∈ front, slot ≠ 0) :
    compact (front ++ [last]) = front ++ [0] := by
  cases front with
  | nil => rfl
  | cons slot front =>
    have others : ∀ flag ∈ front, flag ≠ 0 := fun flag member =>
      filled flag (List.mem_cons_of_mem _ member)
    simpa [compact, compactFrom] using
      compactFrom_filled (filled slot List.mem_cons_self) others last []

/-- A full array without the flag loses its last entry. -/
theorem delSlots_full {front : List Nat} {last : Nat} (valid : Live (front ++ [last]))
    (full : (front ++ [last]).length = rcsInfoHistorySize) (absent : flag ∉ front ++ [last]) :
    delSlots flag (pad (front ++ [last])) = some (pad front) := by
  have whole : pad (front ++ [last]) = front ++ [last] := by simp [pad, full]
  have missing : clearLast flag (front ++ [last]) = none := clearLast_eq_none absent
  have shorter : rcsInfoHistorySize - front.length = 1 := by
    simp only [List.length_append, List.length_singleton] at full
    omega
  have scanned : compact (front ++ [last]) = front ++ [0] := compact_full fun slot member =>
    valid.flags slot (List.mem_append_left _ member)
  rw [delSlots_eq flag (length_pad valid), whole, delHistory, missing, Option.getD_none,
    scanned, pad, shorter]
  rfl

/-- `del_rcs_history` removes the last occurrence of a flag from a history without
holes exactly when the flag is recorded or a slot is free. -/
theorem removes_last_iff (live : List Nat) (valid : Live live) (flag : Nat) :
    RemovesLast flag live ↔ flag ∈ live ∨ live.length < rcsInfoHistorySize := by
  constructor
  · intro removes
    by_contra neither
    obtain ⟨absent, noRoom⟩ := not_or.mp neither
    have full : live.length = rcsInfoHistorySize :=
      Nat.le_antisymm valid.fits (Nat.le_of_not_lt noRoom)
    have inhabited : live ≠ [] := by
      rintro rfl
      cases full
    obtain ⟨front, last, rfl⟩ : ∃ front last, live = front ++ [last] :=
      ⟨live.dropLast, live.getLast inhabited, (List.dropLast_append_getLast inhabited).symm⟩
    have kept := removes.removed
    rw [eraseLast_absent absent, delSlots_full valid full absent] at kept
    have shorter : Live front := by simpa using valid.remove
    have same := congrArg (List.filter (· ≠ 0)) (Option.some.inj kept)
    rw [filter_pad shorter, filter_pad valid] at same
    simpa using congrArg List.length same
  · rintro (member | room)
    · exact removesLast_of_mem valid member
    · by_cases member : flag ∈ live
      · exact removesLast_of_mem valid member
      · constructor
        · rw [eraseLast_absent member, delSlots_absent valid member room]
        · intro other
          rw [eraseLast_absent member]
          exact addSlots_pad valid room other

/-- A flag recorded twice, its last occurrence removed. -/
theorem removes_last_iff_twice :
    RemovesLast 7 [7, 3, 7, 9] ↔ 7 ∈ [7, 3, 7, 9] ∨ [7, 3, 7, 9].length < rcsInfoHistorySize :=
  removes_last_iff [7, 3, 7, 9] ⟨by decide, by decide⟩ 7

/-- Five nested sections fill the array; the exit from a sixth one, which found no slot,
takes the record of the fifth. -/
theorem full_history_shortened :
    ¬ ∀ (live : List Nat) (flag : Nat), Live live → RemovesLast flag live := by
  intro claimed
  have removes := claimed [1, 2, 3, 4, 5] 6 ⟨by decide, by decide⟩
  have shortened : delSlots 6 (pad [1, 2, 3, 4, 5]) = some [1, 2, 3, 4, 0] := by decide
  exact absurd (shortened.symm.trans removes.removed) (by decide)

end Ev6.RecoveryLocking
