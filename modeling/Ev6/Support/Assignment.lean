import Ev6.Support.Tally
import Mathlib.Combinatorics.Enumerative.DoubleCounting
import Mathlib.Logic.Equiv.Basic

/-!
# Slots assigned to owners

Owners hold values, and each holder has a slot of its own with its value in it. Values
may coincide, so a scan for a value can find the slot of another holder: the two then
change places (`Assigned.find`), as long as the other has not been found itself.
-/

namespace Ev6.Support

open Function (update update_of_ne update_self)

variable {ι ω : Type*}

/-- `place` gives each holder a slot of its own, and the other slots are empty. `found`
is the slot that a scan of the holder has ended at. -/
structure Assigned (slots : ι → Nat) (value : ω → Option Nat) (found : ω → Option ι)
    (place : ω → ι) : Prop where
  held : ∀ owner v, value owner = some v → v ≠ 0 ∧ slots (place owner) = v
  apart : ∀ owner other, (value owner).isSome → (value other).isSome →
    place owner = place other → owner = other
  only : ∀ i, slots i ≠ 0 → ∃ owner, (value owner).isSome ∧ place owner = i
  atFound : ∀ owner i, found owner = some i → (value owner).isSome ∧ place owner = i

section

variable {slots : ι → Nat} {value : ω → Option Nat} {found : ω → Option ι} {place : ω → ι}

/-- As many slots are in use as there are holders. -/
theorem Assigned.count [Fintype ι] [Fintype ω] (assigned : Assigned slots value found place) :
    tally (fun i => decide (slots i ≠ 0)) = tally fun owner => (value owner).isSome := by
  rw [tally_eq_card, tally_eq_card]
  apply congrArg Nat.cast
  apply le_antisymm
  · apply Finset.card_le_card_of_forall_subsingleton fun i owner => place owner = i
    · intro i filled
      have used : slots i ≠ 0 := by simpa using filled
      obtain ⟨owner, holds, here⟩ := assigned.only i used
      exact ⟨owner, by simpa using holds, here⟩
    · intro owner _ i here j there
      exact here.2.symm.trans there.2
  · apply Finset.card_le_card_of_forall_subsingleton fun owner i => place owner = i
    · intro owner holder
      have holds : (value owner).isSome := by simpa using holder
      obtain ⟨v, held⟩ := Option.isSome_iff_exists.mp holds
      obtain ⟨used, here⟩ := assigned.held owner v held
      exact ⟨place owner, by simpa [here] using used, rfl⟩
    · intro i _ owner here other there
      have holds : (value owner).isSome := by simpa using here.1
      have holdsOther : (value other).isSome := by simpa using there.1
      exact assigned.apart owner other holds holdsOther (here.2.trans there.2.symm)

/-- A slot is free exactly when there are fewer holders than slots. -/
theorem Assigned.free_iff [Fintype ι] [Fintype ω] (assigned : Assigned slots value found place) :
    (∃ i, slots i = 0) ↔ tally (fun owner => (value owner).isSome) < Fintype.card ι := by
  rw [← assigned.count]
  have all := tally_add_not fun i => decide (slots i ≠ 0)
  have least := tally_nonneg fun i => !decide (slots i ≠ 0)
  constructor
  · rintro ⟨i, free⟩
    have some_free : tally (fun i => !decide (slots i ≠ 0)) ≠ 0 := by
      intro none
      have used := tally_eq_zero.mp none i
      simp [free] at used
    omega
  · intro few
    by_contra full
    have none : tally (fun i => !decide (slots i ≠ 0)) = 0 := by
      refine tally_eq_zero.mpr fun i => ?_
      have used : slots i ≠ 0 := fun free => full ⟨i, free⟩
      simp [used]
    omega

/-- The holders are renamed. -/
theorem Assigned.rename (assigned : Assigned slots value found place) (names : ω ≃ ω) :
    Assigned slots (value ∘ names) (found ∘ names) (place ∘ names) where
  held := fun owner => assigned.held (names owner)
  apart := fun owner other holds holdsOther same =>
    names.injective (assigned.apart _ _ holds holdsOther same)
  only := by
    intro i used
    obtain ⟨owner, holds, here⟩ := assigned.only i used
    refine ⟨names.symm owner, ?_, ?_⟩
    · simpa using holds
    · simpa using here
  atFound := fun owner => assigned.atFound (names owner)

variable [DecidableEq ω]

/-- A new holder takes a free slot. -/
theorem Assigned.claim [DecidableEq ι] (assigned : Assigned slots value found place) {owner : ω}
    {i : ι} {v : Nat} (used : v ≠ 0) (free : slots i = 0) (absent : value owner = none) :
    Assigned (update slots i v) (update value owner (some v)) found
      (update place owner i) := by
  have elsewhere : ∀ other, (value other).isSome → place other ≠ i := by
    intro other holds here
    obtain ⟨w, held⟩ := Option.isSome_iff_exists.mp holds
    obtain ⟨nonzero, at_place⟩ := assigned.held other w held
    rw [here, free] at at_place
    exact nonzero at_place.symm
  have different : ∀ other, (value other).isSome → other ≠ owner := by
    rintro other holds rfl
    rw [absent] at holds
    cases holds
  constructor
  · intro other w held
    by_cases same : other = owner
    · subst same
      rw [update_self] at held ⊢
      cases held
      exact ⟨used, update_self ..⟩
    · rw [update_of_ne same] at held ⊢
      have holds : (value other).isSome := by simp [held]
      rw [update_of_ne (elsewhere other holds)]
      exact assigned.held other w held
  · intro left right holdsLeft holdsRight here
    by_cases sameLeft : left = owner
    · by_cases sameRight : right = owner
      · exact sameLeft.trans sameRight.symm
      · rw [update_of_ne sameRight] at holdsRight
        rw [sameLeft, update_self, update_of_ne sameRight] at here
        exact absurd here.symm (elsewhere right holdsRight)
    · rw [update_of_ne sameLeft] at holdsLeft here
      by_cases sameRight : right = owner
      · rw [sameRight, update_self] at here
        exact absurd here (elsewhere left holdsLeft)
      · rw [update_of_ne sameRight] at holdsRight here
        exact assigned.apart left right holdsLeft holdsRight here
  · intro j filled
    by_cases same : j = i
    · exact ⟨owner, by simp, by simp [same]⟩
    · rw [update_of_ne same] at filled
      obtain ⟨other, holds, here⟩ := assigned.only j filled
      refine ⟨other, ?_, ?_⟩
      · rwa [update_of_ne (different other holds)]
      · rwa [update_of_ne (different other holds)]
  · intro other j at_slot
    obtain ⟨holds, here⟩ := assigned.atFound other j at_slot
    rw [update_of_ne (different other holds),
      update_of_ne (different other holds)]
    exact ⟨holds, here⟩

/-- A scan for the value of a holder finds a slot with that value, which no other scan
has found. -/
theorem Assigned.find (assigned : Assigned slots value found place) {owner : ω} {i : ι} {v : Nat}
    (held : value owner = some v) (here : slots i = v) (idle : found owner = none)
    (unfound : ∀ other, found other ≠ some i) :
    ∃ after, Assigned slots value (update found owner (some i)) after := by
  obtain ⟨nonzero, atPlace⟩ := assigned.held owner v held
  obtain ⟨other, holds, there⟩ := assigned.only i (here ▸ nonzero)
  obtain ⟨w, heldOther⟩ := Option.isSome_iff_exists.mp holds
  have sameValue : w = v := by
    have value := (assigned.held other w heldOther).2
    rw [there, here] at value
    exact value.symm
  subst sameValue
  have sameHolder : value ∘ Equiv.swap owner other = value := by
    funext third
    rcases eq_or_ne third owner with rfl | notOwner
    · simp [held, heldOther]
    · rcases eq_or_ne third other with rfl | notOther
      · simp [held, heldOther]
      · rw [Function.comp_apply, Equiv.swap_apply_of_ne_of_ne notOwner notOther]
  have idleOther : found other = none := by
    cases scan : found other with
    | none => rfl
    | some j =>
      obtain ⟨-, at_slot⟩ := assigned.atFound other j scan
      exact absurd (scan.trans (congrArg some (at_slot.symm.trans there))) (unfound other)
  -- the holder and the one whose slot was found change places
  have swapped := assigned.rename (Equiv.swap owner other)
  rw [sameHolder] at swapped
  refine ⟨place ∘ Equiv.swap owner other, swapped.held, swapped.apart, swapped.only, ?_⟩
  intro third j at_slot
  rcases eq_or_ne third owner with rfl | notOwner
  · rw [update_self] at at_slot
    cases at_slot
    exact ⟨by simp [held], by simpa using there⟩
  · rw [update_of_ne notOwner] at at_slot
    have notOther : third ≠ other := by
      rintro rfl
      rw [idleOther] at at_slot
      cases at_slot
    rw [Function.comp_apply, Equiv.swap_apply_of_ne_of_ne notOwner notOther]
    exact assigned.atFound third j at_slot

/-- A holder whose slot has been found gives it back. -/
theorem Assigned.release [DecidableEq ι] (assigned : Assigned slots value found place)
    {owner : ω} {i : ι} (here : found owner = some i) :
    Assigned (update slots i 0) (update value owner none)
      (update found owner none) place := by
  obtain ⟨holder, atSlot⟩ := assigned.atFound owner i here
  have elsewhere : ∀ other, other ≠ owner → (value other).isSome → place other ≠ i := by
    intro other different holds same
    exact different (assigned.apart other owner holds holder (same.trans atSlot.symm))
  have remains : ∀ other, (update value owner none other).isSome →
      other ≠ owner ∧ (value other).isSome := by
    intro other holds
    have different : other ≠ owner := by
      rintro rfl
      rw [update_self] at holds
      cases holds
    rw [update_of_ne different] at holds
    exact ⟨different, holds⟩
  constructor
  · intro other v held
    obtain ⟨different, holds⟩ := remains other (by simp [held])
    rw [update_of_ne different] at held
    rw [update_of_ne (elsewhere other different holds)]
    exact assigned.held other v held
  · intro left right holdsLeft holdsRight same
    exact assigned.apart left right (remains left holdsLeft).2 (remains right holdsRight).2 same
  · intro j filled
    have different : j ≠ i := by
      rintro rfl
      exact filled (update_self ..)
    rw [update_of_ne different] at filled
    obtain ⟨other, holds, there⟩ := assigned.only j filled
    have notOwner : other ≠ owner := by
      rintro rfl
      exact different (there.symm.trans atSlot)
    exact ⟨other, by rwa [update_of_ne notOwner], there⟩
  · intro other j at_slot
    have different : other ≠ owner := by
      rintro rfl
      rw [update_self] at at_slot
      cases at_slot
    rw [update_of_ne different] at at_slot
    rw [update_of_ne different]
    exact assigned.atFound other j at_slot

omit [DecidableEq ω] in
/-- Nobody holds anything. -/
theorem Assigned.nil (place : ω → ι) :
    Assigned (fun _ : ι => 0) (fun _ : ω => none) (fun _ => none) place where
  held := fun _ _ held => by cases held
  apart := fun _ _ holds => by cases holds
  only := fun _ filled => absurd rfl filled
  atFound := fun _ _ at_slot => by cases at_slot

end

end Ev6.Support
