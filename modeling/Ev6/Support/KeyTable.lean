import Ev6.Support.Tally
import Mathlib.Combinatorics.Enumerative.DoubleCounting

/-!
# Fixed tables of keys

A table has finitely many slots, each of which holds a key or 0. `Listed` says that
it holds the keys of a family of owners, each in one slot, and nothing else.

Several scans may look for a free slot of one table at the same time, each from the
front. `Roomy` says that from every slot on there are as many free slots as scans
that have come this far; it is why no scan runs past the end.
-/

namespace Ev6.Support

open Function (update update_of_ne update_self)

variable {ι ω : Type*}

/-- Owners have different keys, and no key is 0. -/
structure Proper (keys : ω → Option Nat) : Prop where
  distinct : ∀ owner other key, keys owner = some key → keys other = some key → owner = other
  nonzero : ∀ owner key, keys owner = some key → key ≠ 0

/-- The table holds the key of every owner in exactly one slot, and no other key. -/
structure Listed (slots : ι → Nat) (keys : ω → Option Nat) : Prop where
  once : ∀ owner key, keys owner = some key → ∃ i, slots i = key ∧ ∀ j, slots j = key → j = i
  only : ∀ i, slots i ≠ 0 → ∃ owner, keys owner = some (slots i)

section Keys

variable {slots : ι → Nat} {keys : ω → Option Nat}

/-- A part of a proper family is proper. -/
theorem Proper.mono {part : ω → Option Nat} (proper : Proper keys)
    (within : ∀ owner key, part owner = some key → keys owner = some key) : Proper part where
  distinct := fun owner other key held same =>
    proper.distinct owner other key (within owner key held) (within other key same)
  nonzero := fun owner key held => proper.nonzero owner key (within owner key held)

variable [DecidableEq ω]

variable {key : Nat} {owner : ω}

/-- An owner gets a key that no other has. -/
theorem Proper.give (proper : Proper keys) (used : key ≠ 0)
    (fresh : ∀ other, keys other ≠ some key) : Proper (update keys owner (some key)) := by
  have known : ∀ other found, update keys owner (some key) other = some found →
      (other = owner ∧ found = key) ∨ (other ≠ owner ∧ keys other = some found) := by
    intro other found held
    by_cases same : other = owner
    · subst same
      rw [update_self] at held
      exact .inl ⟨rfl, (Option.some.inj held).symm⟩
    · rw [update_of_ne same] at held
      exact .inr ⟨same, held⟩
  constructor
  · intro left right found heldLeft heldRight
    rcases known left found heldLeft with ⟨rfl, rfl⟩ | ⟨_, before⟩
    · rcases known right found heldRight with ⟨rfl, _⟩ | ⟨_, beforeRight⟩
      · rfl
      · exact absurd beforeRight (fresh right)
    · rcases known right found heldRight with ⟨rfl, rfl⟩ | ⟨_, beforeRight⟩
      · exact absurd before (fresh left)
      · exact proper.distinct left right found before beforeRight
  · intro other found held
    rcases known other found held with ⟨_, rfl⟩ | ⟨_, before⟩
    · exact used
    · exact proper.nonzero other found before

/-- An owner loses its key. -/
theorem Proper.drop (proper : Proper keys) (owner : ω) : Proper (update keys owner none) := by
  refine proper.mono ?_
  intro other key held
  by_cases same : other = owner
  · subst same
    rw [update_self] at held
    cases held
  · rwa [update_of_ne same] at held

/-- A new key goes into a free slot. -/
theorem Listed.add [DecidableEq ι] (listed : Listed slots keys) (proper : Proper keys) {i : ι}
    (free : slots i = 0) (used : key ≠ 0)
    (fresh : ∀ other, keys other ≠ some key) (absent : keys owner = none) :
    Listed (update slots i key) (update keys owner (some key)) := by
  have nowhere : ∀ j, slots j ≠ key := by
    intro j here
    obtain ⟨other, holds⟩ := listed.only j (here ▸ used)
    exact fresh other (here ▸ holds)
  constructor
  · intro other found holds
    by_cases same : other = owner
    · subst same
      rw [update_self] at holds
      cases holds
      refine ⟨i, update_self .., ?_⟩
      intro j here
      by_contra different
      rw [update_of_ne different] at here
      exact nowhere j here
    · rw [update_of_ne same] at holds
      obtain ⟨j, here, unique⟩ := listed.once other found holds
      have different : j ≠ i := by
        rintro rfl
        exact proper.nonzero other found holds (here.symm.trans free)
      refine ⟨j, by rw [update_of_ne different]; exact here, ?_⟩
      intro k there
      by_cases atNew : k = i
      · subst atNew
        rw [update_self] at there
        exact absurd (there ▸ holds) (fresh other)
      · rw [update_of_ne atNew] at there
        exact unique k there
  · intro j filled
    by_cases atNew : j = i
    · subst atNew
      rw [update_self]
      exact ⟨owner, update_self ..⟩
    · rw [update_of_ne atNew] at filled ⊢
      obtain ⟨other, holds⟩ := listed.only j filled
      refine ⟨other, ?_⟩
      rw [update_of_ne]
      · exact holds
      · rintro rfl
        rw [absent] at holds
        cases holds

/-- The slots that hold a key are emptied, and the owner of the key, if it has one,
loses it. -/
theorem Listed.remove (listed : Listed slots keys) (proper : Proper keys) {cleared : ι → Nat}
    (held : ∀ other found, keys other = some found → (found = key ↔ other = owner))
    (emptied : ∀ i, cleared i = if slots i = key then 0 else slots i) :
    Listed cleared (update keys owner none) := by
  constructor
  · intro other found holds
    have different : other ≠ owner := by
      rintro rfl
      rw [update_self] at holds
      cases holds
    rw [update_of_ne different] at holds
    have otherKey : found ≠ key := fun same => different ((held other found holds).mp same)
    obtain ⟨i, here, unique⟩ := listed.once other found holds
    refine ⟨i, by rw [emptied i, here, if_neg otherKey], ?_⟩
    intro j there
    apply unique
    rw [emptied j] at there
    split at there
    · exact absurd there.symm (proper.nonzero other found holds)
    · exact there
  · intro i filled
    rw [emptied i] at filled ⊢
    split at filled
    · exact absurd rfl filled
    · rename_i different
      rw [if_neg different]
      obtain ⟨other, holds⟩ := listed.only i filled
      refine ⟨other, ?_⟩
      rw [update_of_ne]
      · exact holds
      · rintro rfl
        exact different ((held _ _ holds).mpr rfl)

omit [DecidableEq ω] in
/-- There are no more keys in the table than owners with a key. -/
theorem Listed.count [Fintype ι] [Fintype ω] (listed : Listed slots keys) :
    tally (fun i => decide (slots i ≠ 0)) ≤ tally fun owner => (keys owner).isSome := by
  rw [tally_eq_card, tally_eq_card]
  apply Int.ofNat_le.mpr
  apply Finset.card_le_card_of_forall_subsingleton fun i owner => keys owner = some (slots i)
  · intro i filled
    have used : slots i ≠ 0 := by simpa using filled
    obtain ⟨owner, holds⟩ := listed.only i used
    exact ⟨owner, by simp [holds], holds⟩
  · intro owner _ i here j there
    obtain ⟨k, _, unique⟩ := listed.once owner (slots i) here.2
    have same : slots j = slots i := Option.some.inj (there.2.symm.trans here.2)
    exact (unique i rfl).trans (unique j same).symm

omit [DecidableEq ω] in
/-- A table with more slots than there are owners has a free one. -/
theorem Listed.free [Fintype ι] [Fintype ω] (listed : Listed slots keys)
    (large : Fintype.card ω < Fintype.card ι) : ∃ i, slots i = 0 := by
  by_contra filled
  have all : tally (fun i => decide (slots i ≠ 0)) = Fintype.card ι := by
    rw [← tally_add_not fun i => decide (slots i ≠ 0)]
    have none : tally (fun i => !decide (slots i ≠ 0)) = 0 := by
      refine tally_eq_zero.mpr fun i => ?_
      have used : slots i ≠ 0 := fun free => filled ⟨i, free⟩
      simp [used]
    rw [none, add_zero]
  have few := listed.count
  have owners := tally_le_card fun owner => (keys owner).isSome
  omega

omit [DecidableEq ω] in
/-- Nothing is listed in an empty table. -/
theorem Listed.nil : Listed (fun _ : ι => 0) (fun _ : ω => none) where
  once := fun _ _ held => by cases held
  only := fun _ filled => absurd rfl filled

omit [DecidableEq ω] in
theorem Proper.nil : Proper (fun _ : ω => none) where
  distinct := fun _ _ _ held => by cases held
  nonzero := fun _ _ held => by cases held

end Keys

/-! ## Scans of one table -/

/-- A scan at a slot has come as far as the slot `k`. -/
def reaches (k : Nat) : Option Nat → Bool
  | some i => decide (k ≤ i)
  | none => false

@[simp] theorem reaches_none (k : Nat) : reaches k none = false := rfl

@[simp] theorem reaches_some (k i : Nat) : reaches k (some i) = decide (k ≤ i) := rfl

/-- From every slot on there are as many free slots as scans that have come there. -/
def Roomy {size : Nat} (slots : Fin size → Nat) (places : ω → Option Nat) [Fintype ω] : Prop :=
  ∀ k, tally (fun owner => reaches k (places owner)) ≤
    tally fun i : Fin size => decide (k ≤ i.val ∧ slots i = 0)

section Scans

variable {size : Nat} {slots : Fin size → Nat} {places : ω → Option Nat} [Fintype ω]

variable {owner : ω}

/-- A scan has not run past the end. -/
theorem Roomy.inside (roomy : Roomy slots places) {i : Nat}
    (here : places owner = some i) : i < size := by
  by_contra beyond
  have few := roomy i
  have noSlot : tally (fun j : Fin size => decide (i ≤ j.val ∧ slots j = 0)) = 0 := by
    refine tally_eq_zero.mpr fun j => ?_
    have low := j.isLt
    exact decide_eq_false fun both => beyond (both.1.trans_lt low)
  have some_scan : tally (fun owner => reaches i (places owner)) ≠ 0 := by
    intro none_left
    have out := tally_eq_zero.mp none_left owner
    simp [here, reaches] at out
  have least := tally_nonneg fun owner => reaches i (places owner)
  omega

/-- Slots are emptied. -/
theorem Roomy.empty {cleared : Fin size → Nat} (roomy : Roomy slots places)
    (emptied : ∀ i, slots i = 0 → cleared i = 0) : Roomy cleared places := by
  intro k
  refine (roomy k).trans (tally_mono fun i free => ?_)
  have both := of_decide_eq_true free
  exact decide_eq_true ⟨both.1, emptied i both.2⟩

variable [DecidableEq ω]

/-- A scan starts, where the scans and the filled slots are fewer than the slots. -/
theorem Roomy.start (roomy : Roomy slots places) (idle : places owner = none)
    (few : tally (fun i => decide (slots i ≠ 0)) + tally (fun owner => (places owner).isSome) <
      size) : Roomy slots (update places owner (some 0)) := by
  intro k
  rw [tally_update (reaches k)]
  cases k with
  | succ k => simpa [idle] using roomy (k + 1)
  | zero =>
    have all := tally_add_not fun i : Fin size => decide (slots i ≠ 0)
    have free : tally (fun i : Fin size => !decide (slots i ≠ 0)) =
        tally fun i : Fin size => decide (0 ≤ i.val ∧ slots i = 0) := by
      refine tally_congr fun i => ?_
      simp
    have scans : tally (fun owner => reaches 0 (places owner)) =
        tally fun owner => (places owner).isSome := by
      refine tally_congr fun owner => ?_
      cases places owner <;> simp
    rw [free, Fintype.card_fin] at all
    rw [scans, idle, reaches_some, reaches_none, if_pos (decide_eq_true le_rfl),
      if_neg Bool.false_ne_true]
    omega

/-- A scan leaves a slot that is not free behind. -/
theorem Roomy.advance (roomy : Roomy slots places) {i : Fin size}
    (here : places owner = some i.val) (filled : slots i ≠ 0) :
    Roomy slots (update places owner (some (i.val + 1))) := by
  intro k
  rw [tally_update (reaches k)]
  by_cases next : k = i.val + 1
  · subst next
    -- the slot left behind is not free, so the bound there is the bound one slot before
    have before := roomy i
    have more : tally (fun owner => reaches (i.val + 1) (places owner)) + 1 ≤
        tally fun owner => reaches i (places owner) := by
      rw [tally_split (fun owner => reaches i (places owner)) owner]
      have behind : tally (fun owner => reaches (i.val + 1) (places owner)) ≤
          tally fun other => decide (other ≠ owner) && reaches i (places other) := by
        refine tally_mono fun other reached => ?_
        cases place : places other with
        | none => simp [place] at reached
        | some j =>
          have far : i.val + 1 ≤ j := by simpa [place] using reached
          have different : other ≠ owner := by
            rintro rfl
            rw [here] at place
            have := Option.some.inj place
            omega
          simp [different]
          omega
      rw [here, reaches_some, if_pos (decide_eq_true le_rfl)]
      omega
    have same : tally (fun j : Fin size => decide (i.val ≤ j.val ∧ slots j = 0)) =
        tally fun j : Fin size => decide (i.val + 1 ≤ j.val ∧ slots j = 0) := by
      refine tally_congr fun j => decide_eq_decide.mpr ?_
      constructor
      · rintro ⟨low, free⟩
        have different : j ≠ i := by
          rintro rfl
          exact filled free
        have := Fin.val_ne_of_ne different
        exact ⟨by omega, free⟩
      · rintro ⟨low, free⟩
        exact ⟨by omega, free⟩
    have self : reaches (i.val + 1) (some i.val) = false := by simp
    have reached : reaches (i.val + 1) (some (i.val + 1)) = true := by simp
    rw [here, self, reached, ← same]
    simp only [if_true, Bool.false_eq_true, if_false]
    omega
  · have unchanged : reaches k (some (i.val + 1)) = reaches k (some i.val) := by
      simp only [reaches_some]
      exact decide_eq_decide.mpr ⟨fun low => by omega, fun low => by omega⟩
    have kept := roomy k
    rw [here, unchanged]
    omega

/-- A scan takes the free slot it is at. -/
theorem Roomy.take (roomy : Roomy slots places) {i : Fin size}
    (here : places owner = some i.val) (free : slots i = 0) {key : Nat} (used : key ≠ 0) :
    Roomy (update slots i key) (update places owner none) := by
  intro k
  rw [tally_update (reaches k)]
  have kept := roomy k
  have slotsAfter : tally (fun j : Fin size =>
      decide (k ≤ j.val ∧ update slots i key j = 0)) =
      tally (fun j : Fin size => decide (k ≤ j.val ∧ slots j = 0)) -
        if k ≤ i.val then 1 else 0 := by
    rw [tally_split (fun j : Fin size => decide (k ≤ j.val ∧ slots j = 0)) i,
      tally_split (fun j : Fin size => decide (k ≤ j.val ∧ update slots i key j = 0)) i]
    have others : tally (fun j : Fin size => decide (j ≠ i) &&
          decide (k ≤ j.val ∧ update slots i key j = 0)) =
        tally fun j : Fin size => decide (j ≠ i) && decide (k ≤ j.val ∧ slots j = 0) := by
      refine tally_congr fun j => ?_
      by_cases same : j = i
      · simp [same]
      · simp [same]
    rw [others]
    simp only [update_self, used, and_false, decide_false, Bool.false_eq_true, if_false,
      free, and_true, decide_eq_true_eq]
    omega
  rw [here, slotsAfter]
  simp only [reaches_some, reaches_none, Bool.false_eq_true, if_false, decide_eq_true_eq]
  omega

end Scans

end Ev6.Support
