import Mathlib.Data.List.Basic

/-!
# Tables of slots as finite maps

Each slot of a table is free or holds a key and a value. A table in which no two slots
hold the same key is a finite map (`lookup`): a new entry may go to any free slot or to the
end (`lookup_put`), and freeing the slot of a key removes it (`lookup_clear`).
-/

namespace Ev6.Support

universe u v

/-- A table of slots. -/
abbrev SlotTable (K : Type u) (V : Type v) := List (Option (K × V))

namespace SlotTable

variable {K : Type u} {V : Type v} {table : SlotTable K V} {i j : Nat} {key other : K}
  {value found : V}

/-- Slot `i` holds `key` with `value`. -/
def Holds (table : SlotTable K V) (i : Nat) (key : K) (value : V) : Prop :=
  table[i]? = some (some (key, value))

/-- No two slots hold the same key. -/
def Distinct (table : SlotTable K V) : Prop :=
  ∀ ⦃i j key value found⦄, table.Holds i key value → table.Holds j key found → i = j

/-- Slot `i` is free, or is the first one behind the table. -/
def Vacant (table : SlotTable K V) (i : Nat) : Prop :=
  table[i]? = some none ∨ i = table.length

/-- Put an entry into a slot, or behind the table. -/
def put (table : SlotTable K V) (i : Nat) (entry : K × V) : SlotTable K V :=
  if i < table.length then table.set i (some entry) else table ++ [some entry]

/-- Free a slot. -/
def clear (table : SlotTable K V) (i : Nat) : SlotTable K V := table.set i none

theorem Holds.inside (holds : table.Holds i key value) : i < table.length := by
  obtain ⟨inside, -⟩ := List.getElem?_eq_some_iff.mp holds
  exact inside

theorem Holds.unique (holds : table.Holds i key value) (also_holds : table.Holds i other found) :
    key = other ∧ value = found := by
  have same := holds.symm.trans also_holds
  simpa using same

/-- What the slots hold behind a `put`. -/
theorem holds_put (vacant : table.Vacant i) : (table.put i (key, value)).Holds j other found ↔
      j = i ∧ other = key ∧ found = value ∨ j ≠ i ∧ table.Holds j other found := by
  unfold Holds put
  rcases vacant with free | rfl
  · obtain ⟨inside, -⟩ := List.getElem?_eq_some_iff.mp free
    rw [if_pos inside, List.getElem?_set]
    by_cases same : i = j
    · subst same
      rw [if_pos rfl, if_pos inside]
      simp only [Option.some.injEq, Prod.mk.injEq, true_and, ne_eq, not_true_eq_false, false_and,
        or_false]
      exact and_congr eq_comm eq_comm
    · rw [if_neg same]
      simp [Ne.symm same]
  · rw [if_neg (Nat.lt_irrefl _)]
    rcases Nat.lt_trichotomy j table.length with low | rfl | high
    · rw [List.getElem?_append_left low]
      simp [Nat.ne_of_lt low]
    · rw [List.getElem?_concat_length]
      simp only [Option.some.injEq, Prod.mk.injEq, true_and, ne_eq, not_true_eq_false, false_and,
        or_false]
      exact and_congr eq_comm eq_comm
    · rw [List.getElem?_eq_none (by simp; omega), List.getElem?_eq_none (by omega)]
      simp [Nat.ne_of_gt high]

/-- What the slots hold behind a `clear`. -/
theorem holds_clear : (table.clear i).Holds j other found ↔ j ≠ i ∧ table.Holds j other found := by
  unfold Holds clear
  rw [List.getElem?_set]
  by_cases same : i = j
  · subst same
    rw [if_pos rfl]
    split <;> simp
  · rw [if_neg same]
    simp [Ne.symm same]

theorem Distinct.put (distinct : table.Distinct) (vacant : table.Vacant i)
    (absent : ∀ j found, ¬table.Holds j key found) : (table.put i (key, value)).Distinct := by
  intro first second other left right holds also_holds
  rcases (holds_put vacant).mp holds with ⟨here, rfl, -⟩ | ⟨elsewhere, old⟩
  · rcases (holds_put vacant).mp also_holds with ⟨also_here, -, -⟩ | ⟨-, old⟩
    · rw [here, also_here]
    · exact absurd old (absent second right)
  · rcases (holds_put vacant).mp also_holds with ⟨-, rfl, -⟩ | ⟨-, also_old⟩
    · exact absurd old (absent first left)
    · exact distinct old also_old

theorem Distinct.clear (distinct : table.Distinct) (i : Nat) : (table.clear i).Distinct := by
  intro first second other left right holds also_holds
  exact distinct (holds_clear.mp holds).2 (holds_clear.mp also_holds).2

/-! ## The map -/

variable [DecidableEq K]

/-- The value that a slot holds for a key. -/
def valueAt (key : K) (slot : Option (K × V)) : Option V :=
  slot.bind fun entry => if entry.1 = key then some entry.2 else none

theorem valueAt_eq_some {slot : Option (K × V)} :
    valueAt key slot = some value ↔ slot = some (key, value) := by
  cases slot with
  | none => simp [valueAt]
  | some entry =>
    obtain ⟨here, there⟩ := entry
    by_cases same : here = key
    · simp [valueAt, same]
    · simp [valueAt, same]

/-- The value of the first slot that holds the key. -/
def lookup (table : SlotTable K V) (key : K) : Option V := table.findSome? (valueAt key)

theorem lookup_eq_none : table.lookup key = none ↔ ∀ i value, ¬table.Holds i key value := by
  rw [lookup, List.findSome?_eq_none_iff]
  constructor
  · intro nothing i value holds
    have member : some (key, value) ∈ table := List.mem_of_getElem? holds
    have clash := nothing _ member
    rw [valueAt_eq_some.mpr rfl] at clash
    cases clash
  · intro absent slot member
    cases found : valueAt key slot with
    | none => rfl
    | some value =>
      obtain ⟨i, inside⟩ := List.getElem?_of_mem member
      rw [valueAt_eq_some.mp found] at inside
      exact absurd inside (absent i value)

theorem lookup_eq_some (distinct : table.Distinct) :
    table.lookup key = some value ↔ ∃ i, table.Holds i key value := by
  constructor
  · intro found
    obtain ⟨slot, member, here⟩ := List.exists_of_findSome?_eq_some found
    obtain ⟨i, inside⟩ := List.getElem?_of_mem member
    rw [valueAt_eq_some.mp here] at inside
    exact ⟨i, inside⟩
  · rintro ⟨i, holds⟩
    cases search : table.lookup key with
    | none => exact absurd holds (lookup_eq_none.mp search i value)
    | some other =>
      obtain ⟨slot, member, here⟩ := List.exists_of_findSome?_eq_some search
      obtain ⟨j, inside⟩ := List.getElem?_of_mem member
      rw [valueAt_eq_some.mp here] at inside
      obtain rfl := distinct holds inside
      rw [(Holds.unique holds inside).2]

/-- Tables that hold the same entries, wherever they are, are the same map. -/
theorem lookup_congr {after : SlotTable K V} (distinct : table.Distinct)
    (also_distinct : after.Distinct)
    (same : ∀ value, (∃ i, after.Holds i key value) ↔ ∃ i, table.Holds i key value) :
    after.lookup key = table.lookup key := by
  ext value
  rw [lookup_eq_some distinct, lookup_eq_some also_distinct]
  exact same value

/-- A new entry shows up under its key, and nothing else changes. -/
theorem lookup_put (distinct : table.Distinct) (vacant : table.Vacant i)
    (absent : ∀ j found, ¬table.Holds j key found) :
    (table.put i (key, value)).lookup other =
      if other = key then some value else table.lookup other := by
  have after : (table.put i (key, value)).Distinct := distinct.put vacant absent
  by_cases same : other = key
  · rw [if_pos same]
    exact (lookup_eq_some after).mpr ⟨i, (holds_put vacant).mpr (Or.inl ⟨rfl, same, rfl⟩)⟩
  · rw [if_neg same]
    refine lookup_congr distinct after fun found => ?_
    constructor
    · rintro ⟨j, holds⟩
      rcases (holds_put vacant).mp holds with ⟨-, clash, -⟩ | ⟨-, old⟩
      · exact absurd clash same
      · exact ⟨j, old⟩
    · rintro ⟨j, holds⟩
      refine ⟨j, (holds_put vacant).mpr (Or.inr ⟨?_, holds⟩)⟩
      rintro rfl
      rcases vacant with free | past
      · have clash := holds.symm.trans free
        simp at clash
      · have inside := holds.inside
        omega

/-- Freeing the slot of a key removes the key, and nothing else changes. -/
theorem lookup_clear (distinct : table.Distinct) (holds : table.Holds i key value) :
    (table.clear i).lookup other = if other = key then none else table.lookup other := by
  by_cases same : other = key
  · subst same
    rw [if_pos rfl]
    refine lookup_eq_none.mpr fun j found holds' => ?_
    obtain ⟨elsewhere, old⟩ := holds_clear.mp holds'
    exact elsewhere (distinct old holds)
  · rw [if_neg same]
    refine lookup_congr distinct (distinct.clear i) fun found => ?_
    constructor
    · rintro ⟨j, after⟩
      exact ⟨j, (holds_clear.mp after).2⟩
    · rintro ⟨j, old⟩
      refine ⟨j, holds_clear.mpr ⟨?_, old⟩⟩
      rintro rfl
      exact same (Holds.unique old holds).1

end SlotTable

end Ev6.Support
