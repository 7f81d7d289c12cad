import Ev6.PageTable.Mirror
import Ev6.AddressSpace.Tables

/-!
# Page tables as trees and in memory

A `Table` is the tree that the words of its pages make, and has its duplicate with it. Where
the memory holds that tree, the functions of `ptdup.c` that search the words for an L1 table
do what those of the `Table` do at its index.
-/

namespace Ev6.AddressSpace

open Function (update update_of_ne)
open Support PageTable
open AssocList (find)

/-- The pages of the table with an index lie where the tree has them. -/
structure Depicts (place : Layout) (idx : Nat) (table : Table) : Prop where
  top : place (idx, .top) = some table.root
  topCopy : place (idx, .topCopy) = some table.duplicate.l2
  directory : place (idx, .directory) = some table.duplicate.l1
  l1 : ∀ i, place (idx, .l1 i) = find table.l1 i
  copies : ∀ i, place (idx, .copy i) = find table.duplicate.copies i
  l0 : ∀ i j, place (idx, .l0 i j) = find table.l0 (i, j)

/-- What `kalloc` and the search of `idx_ptdup` answer in a memory with page tables. -/
def answers (world : World) : (op : Op) → Answer op → Prop
  | .kalloc, answer => answer = world.free.head?
  | .findPtdup root, answer => answer = (world.tables.ptdupIndex root).isSome
  | _, _ => True

variable {world : World} {place : Layout} {idx : Nat} {table : Table}

/-- Where `kalloc` has no page, a caller that needs one panics. -/
theorem kallocOr_yields {allowed : Panic → Prop} {panic : Panic}
    (nothing : world.kalloc = none → allowed panic) :
    (kallocOr panic).Yields (answers world) allowed
      fun copy => ∃ after, world.kalloc = some (copy, after) := by
  refine Program.Yields.bind (Program.Yields.perform fun answer told => told) fun answer told => ?_
  rw [show answer = _ from told]
  cases free : world.free with
  | nil => exact .fault (nothing (by rw [World.kalloc, free]))
  | cons copy rest => exact .pure ⟨_, by rw [World.kalloc, free]⟩

theorem Depicts.withCopy (depicts : Depicts place idx table) (i : Nat) (copy : Page) :
    Depicts (update place (idx, .copy i) (some copy)) idx (table.withCopy i copy) := by
  have same {role : Role} {page : Option Page} (other : role ≠ .copy i)
      (there : place (idx, role) = page) :
      update place (idx, .copy i) (some copy) (idx, role) = page := by
    rw [update_of_ne (by simp [other]), there]
  refine ⟨same (by simp) depicts.top, same (by simp) depicts.topCopy,
    same (by simp) depicts.directory, fun k => same (by simp) (depicts.l1 k),
    fun k => ?_, fun k j => same (by simp) (depicts.l0 k j)⟩
  show _ = find ((i, copy) :: table.duplicate.copies) k
  rw [AssocList.find_cons]
  by_cases here : i = k
  · subst here
    simp
  · simp [here, Ne.symm here, depicts.copies]

theorem Depicts.used (depicts : Depicts place idx table) : Standing place idx :=
  ⟨table.root, depicts.top⟩

section

variable (depicts : Depicts place idx table) (laid : Laid world place) (low : idx < ptdupSize)

include depicts laid low

theorem Depicts.index : world.tables.idxPtdup idx = table.root := by
  obtain ⟨root, there, index⟩ := (laid.shows idx low depicts.used).top
  rw [depicts.top] at there
  exact index.trans (congrArg Subtype.val (Option.some.inj there).symm)

theorem Depicts.find_yields {allowed : Panic → Prop} (panic : Panic) :
    (findPtdupOr table.root panic).Yields (answers world) allowed fun _ => True := by
  have known := laid.ptdupIndex_eq low depicts.used
  rw [depicts.index laid low] at known
  refine Program.Yields.bind (Program.Yields.perform fun found told => told) fun found told => ?_
  rw [show found = _ from told, known]
  trivial

variable {i : Nat} {l1 : Page} (found : find table.l1 i = some l1)

include found

/-- `ptdup_update`, after the entry has been written to the L1 table. -/
theorem Depicts.ptdupUpdate (index value content : Nat) :
    (table.ptdupUpdate i).Yields (answers world)
      (fun panic => panic = .ptdupUpdateNoPagetable ∧
        (world.write l1 index value).ptdupUpdate table.root l1 content index =
          .error .ptdupUpdateNoPagetable)
      fun after => after = table ∧ ∃ copy, find table.duplicate.copies i = some copy ∧
        (world.write l1 index value).ptdupUpdate table.root l1 content index =
          .ok ((world.write l1 index value).write copy index content) := by
  have holds : place (idx, .l1 i) = some l1 := (depicts.l1 i).trans found
  have updated := laid.ptdupUpdate_eq low depicts.used holds index value content
  rw [depicts.index laid low, depicts.copies] at updated
  unfold Table.ptdupUpdate
  refine (depicts.find_yields laid low _).bind fun _ _ => ?_
  cases copied : find table.duplicate.copies i with
  | none =>
    rw [copied] at updated
    exact .fault ⟨rfl, updated⟩
  | some copy =>
    rw [copied] at updated
    exact .pure ⟨rfl, copy, rfl, updated⟩

/-- `ptdup_create_l1` for a new L1 table: the tree with the copy is the one in memory. -/
theorem Depicts.ptdupCreateL1 (uncopied : find table.duplicate.copies i = none)
    (empty : ∀ j, find table.l0 (i, j) = none) (late : 2 < world.nextpid) :
    (table.ptdupCreateL1 i).Yields (answers world)
      (fun panic => panic = .ptdupCreateL1Kalloc ∧
        world.ptdupCreateL1 table.root l1 (pde (some l1)) = .error .ptdupCreateL1Kalloc)
      fun grown => ∃ copy after, grown = table.withCopy i copy ∧
        world.ptdupCreateL1 table.root l1 (pde (some l1)) = .ok after ∧
        Laid after (update place (idx, .copy i) (some copy)) ∧
        Depicts (update place (idx, .copy i) (some copy)) idx grown := by
  have holds : place (idx, .l1 i) = some l1 := (depicts.l1 i).trans found
  have created := laid.ptdupCreateL1_eq low depicts.used holds (pde (some l1))
  rw [depicts.index laid low] at created
  unfold Table.ptdupCreateL1
  refine (depicts.find_yields laid low _).bind fun _ _ => ?_
  refine (kallocOr_yields fun nothing => ⟨rfl, ?_⟩).bind fun copy given => ?_
  · obtain ⟨after, answer⟩ := given
    obtain ⟨kept, spare, leaves⟩ := kalloc_spec laid answer
    rw [answer] at created
    refine .pure ⟨copy, _, rfl, created, ?_, depicts.withCopy i copy⟩
    exact (kept.memset spare.unheld 0).attach_copy low depicts.used holds
      ((depicts.copies i).trans uncopied) (fun j => (depicts.l0 i j).trans (empty j))
      ⟨spare.unheld, spare.taken⟩ (fun n inside => memsetPage_self _ _ _ inside)
      (by rw [← leaves.steady.nextpid] at late; exact late)
  · rw [created, nothing]

end

end Ev6.AddressSpace
