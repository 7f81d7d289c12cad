import Ev6.Kernel.Param
import Ev6.Support.PageChain
import Mathlib.Algebra.Group.Nat.Defs

/-!
# Pages of physical memory

Addresses and words are natural numbers below `2 ^ 64`. Code that treats a page
as an array of words sees memory page by page.
-/

namespace Ev6

open Support

/-- A page that `kalloc` can return. -/
def IsPage (address : Nat) : Prop :=
  address % pgsize = 0 ∧ kernbase ≤ address ∧ address < phystop

instance (address : Nat) : Decidable (IsPage address) := by
  unfold IsPage
  infer_instance

theorem IsPage.bounds {address : Nat} (physical : IsPage address) :
    address % 4096 = 0 ∧ 0x80000000 ≤ address ∧ address < 0x88000000 :=
  physical

theorem IsPage.ne_zero {page : Nat} (physical : IsPage page) : page ≠ 0 := by
  have bounds := physical.bounds
  omega

/-- A page that `kalloc` can return. -/
abbrev Page := { address : Nat // IsPage address }

/-- A word of a page that `kalloc` has filled with junk, `memset(r, 5, PGSIZE)`. -/
def novalue : Nat := 0x0505050505050505

/-- The memory after `kalloc` has returned `page`. -/
def allocated (memory : PageMemory Nat) (page : Nat) : PageMemory Nat :=
  Function.update memory page fun _ => novalue

theorem allocated_of_ne (memory : PageMemory Nat) {page other : Nat} (different : other ≠ page) :
    allocated memory page other = memory other := by
  simp [allocated, different]

@[simp] theorem allocated_self (memory : PageMemory Nat) (page index : Nat) :
    allocated memory page page index = novalue := by
  simp [allocated]

end Ev6
