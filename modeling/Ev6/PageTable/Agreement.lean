import Mathlib.Data.List.Find
import Ev6.PageTable.Chains
import Ev6.PageTable.Layout

/-!
# Records beside the memory and in it

`World` has the lists of records of a duplicate beside the memory, `Stock` in their pages.
On the upper levels the functions of `ptdup.c` do the same in both: they return in both or
in none, and the pages of the upper levels have the same words behind them.
-/

namespace Ev6.PageTable

open Support

variable {upper : Nat → Prop} {world : World} {stock : Stock}

/-- The words of the `upper` pages are the same, and all else but the lists of records. -/
structure Alike (upper : Nat → Prop) (world : World) (stock : Stock) : Prop where
  words : ∀ page, upper page → ∀ i < entrySize, world.tables.memory page i = stock.memory page i
  l2 : ∀ idx, (world.tables.head idx).l2 = (stock.head idx).l2
  l1 : ∀ idx, (world.tables.head idx).l1 = (stock.head idx).l1
  idxPtdup : world.tables.idxPtdup = stock.idxPtdup
  free : world.free = stock.free
  kernelEnd : world.kernelEnd = stock.kernelEnd

/-- Both calls return, and what they leave is alike, or neither does. -/
inductive Agree (upper : Nat → Prop) : Except Panic World → Option Stock → Prop
  | done {world : World} {stock : Stock} (alike : Alike upper world stock) :
      Agree upper (.ok world) (some stock)
  | panic (panic : Panic) : Agree upper (.error panic) none

/-- Pages are added to the upper ones. -/
def withPages (upper : Nat → Prop) (pages : List Page) (page : Nat) : Prop :=
  upper page ∨ page ∈ pages.map Subtype.val

namespace Alike

variable (alike : Alike upper world stock) (page index value : Nat)

include alike

theorem write : Alike upper (world.write page index value) (stock.write page index value) :=
  { alike with
    words := fun other inside i low => by
      have same := alike.words other inside i low
      simp only [World.write, Stock.write, PageMemory.write_apply, same] }

theorem ptdupIndex : world.tables.ptdupIndex page = stock.ptdupIndex page := by
  rw [Tables.ptdupIndex, Stock.ptdupIndex, alike.idxPtdup]

variable {page} (l1 : Nat)

theorem l1Index (inside : upper page) :
    firstSlot (fun i => l1 = pte2pa (world.tables.memory page i)) entrySize =
      stock.l1Index page l1 := by
  unfold Stock.l1Index firstSlot
  refine List.find?_congr fun i member => ?_
  rw [alike.words page inside i (List.mem_range.mp member)]

theorem kzalloc {copy : Page} {rest : List Page}
    (free : stock.free = copy :: rest) :
    ∃ next after, world.kalloc = some (copy, next) ∧ stock.kzalloc = some (copy, after) ∧
      Alike (withPages upper [copy]) (next.memset copy 0) after := by
  have same := alike.free
  rw [free] at same
  refine ⟨_, _, by rw [World.kalloc, same], by rw [Stock.kzalloc, free], ?_⟩
  refine { alike with words := fun page inside i low => ?_, free := rfl }
  simp only [World.memset]
  by_cases here : page = copy
  · subst here
    rw [memsetPage_self _ _ _ low, memsetPage_self _ _ _ low]
  · rw [memsetPage_of_ne _ _ here, memsetPage_of_ne _ _ here, memsetPage_of_ne _ _ here,
      allocated_of_ne _ here]
    refine alike.words page (inside.resolve_right fun fresh => here ?_) i low
    simpa using fresh

variable {l2 l1} (content : Nat)

/-- `ptdup_update`, where the duplicates of the table lie on upper pages. -/
theorem ptdupUpdate (inside : ∀ idx, stock.ptdupIndex l2 = some idx →
      upper (stock.head idx).l2 ∧ upper (stock.head idx).l1) :
    Agree upper (world.ptdupUpdate l2 l1 content index)
      (stock.ptdupUpdate l2 l1 content index) := by
  rw [World.ptdupUpdate, Stock.ptdupUpdate, alike.ptdupIndex]
  cases found : stock.ptdupIndex l2 with
  | none => exact .panic _
  | some idx =>
    obtain ⟨topCopy, directory⟩ := inside idx found
    dsimp only
    split
    · exact .panic _
    rw [alike.l2, alike.l1, alike.l1Index l1 topCopy]
    have target : (stock.l1Index (stock.head idx).l2 l1).elim 0
        (world.tables.memory (stock.head idx).l1) =
          (stock.l1Index (stock.head idx).l2 l1).elim 0 (stock.memory (stock.head idx).l1) := by
      cases slot : stock.l1Index (stock.head idx).l2 l1 with
      | none => rfl
      | some i => exact alike.words _ directory i (firstSlot_eq_some.mp slot).1
    rw [target]
    split
    · exact .panic _
    · exact .done (alike.write _ _ _)

/-- `ptdup_create_l1` for an L1 table that the L2 table leads to. -/
theorem ptdupCreateL1 (inside : upper l2) (leads : stock.l1Index l2 l1 ≠ none) :
    Agree (withPages upper (stock.free.take 1)) (world.ptdupCreateL1 l2 l1 content)
      (stock.ptdupCreateL1 l2 l1 content) := by
  rw [World.ptdupCreateL1, Stock.ptdupCreateL1, alike.ptdupIndex]
  cases stock.ptdupIndex l2 with
  | none => exact .panic _
  | some idx =>
    dsimp only
    split
    · exact .panic _
    rw [alike.l1Index l1 inside]
    cases slot : stock.l1Index l2 l1 with
    | none => exact absurd slot leads
    | some i =>
      cases free : stock.free with
      | nil =>
        have empty : world.free = [] := alike.free.trans free
        rw [World.kalloc, empty, Stock.kzalloc, free]
        exact .panic _
      | cons copy rest =>
        obtain ⟨next, after, answer, taken, fresh⟩ := alike.kzalloc free
        rw [answer, taken]
        have l2 : (next.tables.head idx).l2 = (after.head idx).l2 := fresh.l2 idx
        have l1 : (next.tables.head idx).l1 = (after.head idx).l1 := fresh.l1 idx
        dsimp only [Option.map_some]
        rw [l2, l1]
        exact .done ((fresh.write _ _ _).write _ _ _)

end Alike

end Ev6.PageTable
