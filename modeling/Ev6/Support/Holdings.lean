import Mathlib.Logic.Function.Basic

/-!
# Who holds what

A family of optional places by key. The places are apart when no two keys hold the same
one; then what is written to the place of one key is not seen at the place of another.
-/

namespace Ev6.Support

open Function (update update_of_ne update_self)

variable {Key Place : Type*}

/-- No place is held under two keys. -/
def Separate (held : Key → Option Place) : Prop :=
  ∀ ⦃first second : Key⦄ ⦃place : Place⦄,
    held first = some place → held second = some place → first = second

/-- A place that is held under no key. -/
def Unheld (held : Key → Option Place) (place : Place) : Prop := ∀ key, held key ≠ some place

section Claim

variable {held : Key → Option Place} {key : Key} {place : Place}

theorem separate_none : Separate fun _ : Key => (none : Option Place) := by
  intro first second place holds
  cases holds

/-- Places that are given up leave the others apart. -/
theorem Separate.of_subset {fewer : Key → Option Place} (apart : Separate held)
    (subset : ∀ key place, fewer key = some place → held key = some place) : Separate fewer :=
  fun _ _ _ one two => apart (subset _ _ one) (subset _ _ two)

/-- The place of a key is not that of another one. -/
theorem Separate.ne (apart : Separate held) {first second : Key} {one two : Place}
    (holds : held first = some one) (other : held second = some two) (different : first ≠ second) :
    one ≠ two := by
  rintro rfl
  exact different (apart holds other)

/-- An unheld place is none of those that are held. -/
theorem Unheld.ne (unheld : Unheld held place) {other : Place} (holds : held key = some other) :
    other ≠ place := by
  rintro rfl
  exact unheld key holds

variable [DecidableEq Key]

/-- A key takes an unheld place. -/
theorem Separate.claim (apart : Separate held) (unheld : Unheld held place) :
    Separate (update held key (some place)) := by
  intro first second shared one two
  by_cases here : first = key
  · subst here
    rw [update_self] at one
    cases one
    by_cases there : second = first
    · exact there.symm
    · rw [update_of_ne there] at two
      exact absurd two (unheld second)
  · rw [update_of_ne here] at one
    by_cases there : second = key
    · subst there
      rw [update_self] at two
      cases two
      exact absurd one (unheld first)
    · rw [update_of_ne there] at two
      exact apart one two

/-- The other places stay unheld. -/
theorem Unheld.claim (unheld : Unheld held place) {other : Place} (different : other ≠ place) :
    Unheld (update held key (some other)) place := by
  intro held' holds
  by_cases here : held' = key
  · subst here
    rw [update_self] at holds
    exact different (Option.some.inj holds)
  · rw [update_of_ne here] at holds
    exact unheld held' holds

end Claim

end Ev6.Support
