import Ev6.AddressSpace.Machine

/-!
# Isolation

The user memory of a process is the pages below its size, and no page of it is used for
anything else: not by another process, and not by the kernel. So what a process writes to
its memory is seen by no one else.
-/

namespace Ev6.AddressSpace

open Multiset (count_add mem_add mem_coe mem_map one_le_count_iff_mem)
open Support PageTable

/-- The process of a slot, except in the middle of `exec` and `sbrk`, which change its page
table. -/
def Slot.process : Slot → Option Proc
  | user p | zombie p | fork p _ _ | wait p _ _ => some p
  | _ => none

/-- The page of a process behind a virtual page below its size. -/
def Proc.pageAt (p : Proc) (n : Nat) : Option Page :=
  if n < pages p.sz then (p.table.leaf n).map Pte.page else none

/-- The trapframe, the page tables, and the duplicates of a process. -/
def Proc.kernelPages (p : Proc) : List Page :=
  p.tf :: (p.table.tablePages ++ Table.duplicatePages p.table.duplicate)

/-- The kernel uses a page: it is free or a node of an M-List, or the rest of the kernel or a
process has it for something else than user memory. -/
def Machine.KernelUses (machine : Machine) (page : Page) : Prop :=
  page.val < machine.memory.kernelEnd ∨ page ∈ machine.memory.free ∨
    page ∈ machine.memory.nodes ∨ page ∈ machine.kernel ∨
      ∃ i p, (machine.slots i).process = some p ∧ page ∈ p.kernelPages

/-- User memory is what lies below the sizes, every page of it is there, and each is used only
once. -/
structure Machine.Isolated (machine : Machine) : Prop where
  inside : ∀ i p va page, (machine.slots i).process = some p →
    p.table.walkaddr va = some page → va < pgroundup p.sz ∧ p.pageAt (va / pgsize) = some page
  mapped : ∀ i p, (machine.slots i).process = some p →
    ∀ n < pages p.sz, (p.pageAt n).isSome = true ∧ p.table.reaches n = true
  distinct : ∀ i j p q, (machine.slots i).process = some p → (machine.slots j).process = some q →
    ∀ m n page, p.pageAt m = some page → q.pageAt n = some page → i = j ∧ m = n
  unused : ∀ i p, (machine.slots i).process = some p →
    ∀ n page, p.pageAt n = some page → ¬ machine.KernelUses page

/-- What a process reads at a user address; none is a page fault. -/
def Proc.load (p : Proc) (bytes : Page → Nat → UInt8) (va : Nat) : Option UInt8 :=
  (p.table.walkaddr va).map fun page => bytes page (va % pgsize)

/-- The bytes of the memory when a process has written to a user address. -/
def Proc.store (p : Proc) (bytes : Page → Nat → UInt8) (va : Nat) (value : UInt8) :
    Page → Nat → UInt8 :=
  match p.table.walkaddr va with
  | none => bytes
  | some page => Function.update bytes page (Function.update (bytes page) (va % pgsize) value)

/-- No store of a process changes what another process or the kernel reads. -/
structure Machine.StoresApart (machine : Machine) : Prop where
  process : ∀ i j p q, (machine.slots i).process = some p → (machine.slots j).process = some q →
    i ≠ j → ∀ bytes va value other, q.load (p.store bytes va value) other = q.load bytes other
  kernel : ∀ i p, (machine.slots i).process = some p → ∀ page, machine.KernelUses page →
    ∀ bytes va value, p.store bytes va value page = bytes page

/-! ## Pages of one process -/

section Pages

variable {p : Proc} {m n : Nat} {page : Page}

theorem Proc.Sized.user (sized : p.Sized) (inside : n < pages p.sz) : n < trapframePage := by
  have few : pages p.sz ≤ memoryPages := sized.pages_le
  have memory : memoryPages = 32768 := memoryPages_eq
  have top : trapframePage = 67108862 := trapframePage_eq
  omega

theorem Proc.pageAt_eq_some (at_ : p.pageAt n = some page) :
    n < pages p.sz ∧ ∃ pte, p.table.leaf n = some pte ∧ pte.page = page := by
  unfold pageAt at at_
  split at at_
  · next inside => exact ⟨inside, Option.map_eq_some_iff.mp at_⟩
  · cases at_

theorem Proc.holding_eq (p : Proc) : ∃ rest, p.holding =
    items .page p.kernelPages + (items .page p.table.userPages + rest) := by
  refine ⟨.claim p.table.root ::ₘ items .entry p.table.tablePages, ?_⟩
  simp only [holding, kernelPages, Table.holding, Table.tableItems, Table.duplicateItems,
    items_cons, items_append, ← Multiset.singleton_add]
  abel

theorem Proc.mem_userPages (sized : p.Sized) (there : p.pageAt n = some page) :
    page ∈ p.table.userPages := by
  obtain ⟨inside, pte, found, rfl⟩ := pageAt_eq_some there
  have meets : Table.isUser n = true := decide_eq_true (sized.user inside)
  have member := AssocList.find_mem ((AssocList.find_only Table.isUser meets).trans found)
  have values : Item.page pte.page ∈ items .page p.table.userPages := by
    rw [Table.items_userPages]
    exact Multiset.mem_map_of_mem _ member
  obtain ⟨other, inside, equal⟩ := mem_map.mp values
  obtain rfl := Item.page.inj equal
  exact mem_coe.mp inside

/-- Two virtual pages of a process have different pages. -/
theorem Proc.pageAt_inj (sized : p.Sized) (single : Single p.holding)
    (one : p.pageAt m = some page) (two : p.pageAt n = some page) : m = n := by
  by_contra different
  obtain ⟨insideOne, first, foundOne, rfl⟩ := pageAt_eq_some one
  obtain ⟨insideTwo, second, foundTwo, same⟩ := pageAt_eq_some two
  have once : (AssocList.keys p.table.leaves).Nodup := sized.filled.once
  have left : (p.table.withoutLeaf m).leaf n = some second := by
    rw [Table.leaf_withoutLeaf once, if_neg (Ne.symm different)]
    exact foundTwo
  have count := single first.page
  rw [holding, Table.holding_withoutLeaf (sized.user insideOne) foundOne,
    Table.holding_withoutLeaf (sized.user insideTwo) left, same] at count
  simp only [Multiset.count_cons, if_true] at count
  omega

end Pages

/-! ## Pages of all processes -/

namespace Machine

variable {strict : Prop} {all : List Page} {machine : Machine} {own : Fin nproc → Holding}
variable {lost : Holding} {i j : Fin nproc} {p q : Proc} {page : Page}

/-- A process has a size, and what it holds is a part of what its slot has. -/
theorem Shares.process (shares : machine.Shares strict all own lost)
    (here : (machine.slots i).process = some p) : p.Sized ∧ ∃ rest, own i = p.holding + rest := by
  have meets := shares.meets i
  cases slot : machine.slots i with
  | user q =>
    rw [slot] at here meets
    cases here
    exact ⟨meets.2, 0, by rw [meets.1, add_zero]⟩
  | zombie q =>
    rw [slot] at here meets
    cases here
    exact ⟨meets.2, 0, by rw [meets.1, add_zero]⟩
  | fork q child rest =>
    rw [slot] at here meets
    cases here
    obtain ⟨sized, held, value, -⟩ := meets
    exact ⟨sized, held, value⟩
  | wait q child rest =>
    rw [slot] at here meets
    cases here
    obtain ⟨sized, held, value, -⟩ := meets
    exact ⟨sized, held, value⟩
  | unused =>
    rw [slot] at here
    cases here
  | reserved =>
    rw [slot] at here
    cases here
  | boot rest =>
    rw [slot] at here
    cases here
  | exec q rest =>
    rw [slot] at here
    cases here
  | sbrk q n rest =>
    rw [slot] at here
    cases here

theorem Shares.front (shares : machine.Shares strict all own lost)
    (here : (machine.slots i).process = some p) :
    ∃ rest, Kept strict all machine.memory (p.holding + (items .page machine.kernel + rest)) := by
  obtain ⟨-, more, value⟩ := shares.process here
  obtain ⟨rest, sum⟩ := sum_rest own i
  have whole := sum (own i)
  rw [Function.update_eq_self] at whole
  have kept := shares.kept
  refine ⟨more + (rest + lost), ?_⟩
  have split : p.holding + (items .page machine.kernel + (more + (rest + lost))) =
      ∑ k, own k + (items .page machine.kernel + lost) := by
    rw [whole, value]
    abel
  rwa [split]

theorem Shares.fronts (shares : machine.Shares strict all own lost) (apart : i ≠ j)
    (here : (machine.slots i).process = some p) (there : (machine.slots j).process = some q) :
    ∃ rest, Kept strict all machine.memory (p.holding + (q.holding + rest)) := by
  obtain ⟨-, one, first⟩ := shares.process here
  obtain ⟨-, two, second⟩ := shares.process there
  obtain ⟨rest, sum⟩ := sum_rest_two own apart
  have whole := sum (own i) (own j)
  rw [Function.update_eq_self, Function.update_eq_self] at whole
  have kept := shares.kept
  refine ⟨one + (two + (rest + (items .page machine.kernel + lost))), ?_⟩
  have split : p.holding + (q.holding +
      (one + (two + (rest + (items .page machine.kernel + lost))))) =
        ∑ k, own k + (items .page machine.kernel + lost) := by
    rw [whole, first, second]
    abel
  rwa [split]

/-- A page of user memory is held once by its process, beside what the kernel uses of it. -/
theorem count_user (sized : p.Sized) {n : Nat} (there : p.pageAt n = some page) :
    1 + (items .page p.kernelPages).count (.page page) ≤ p.holding.count (.page page) := by
  obtain ⟨rest, split⟩ := p.holding_eq
  have user : 1 ≤ (items .page p.table.userPages).count (.page page) := by
    rw [count_items_page]
    exact one_le_count_iff_mem.mpr (mem_coe.mpr (Proc.mem_userPages sized there))
  rw [split, count_add, count_add]
  omega

theorem count_kernelPages (used : page ∈ p.kernelPages) :
    1 ≤ (items .page p.kernelPages).count (.page page) := by
  rw [count_items_page]
  exact one_le_count_iff_mem.mpr (mem_coe.mpr used)

theorem count_holding (used : page ∈ p.kernelPages) : 1 ≤ p.holding.count (.page page) := by
  obtain ⟨rest, split⟩ := p.holding_eq
  have kernel := count_kernelPages used
  rw [split, count_add]
  omega

theorem walkaddr_inside (sized : p.Sized) {va : Nat} (found : p.table.walkaddr va = some page) :
    va < pgroundup p.sz ∧ p.pageAt (va / pgsize) = some page := by
  have small : p.sz ≤ 134217728 := sized.small
  unfold Table.walkaddr at found
  split at found
  · cases found
  split at found
  · cases found
  split at found
  · cases found
  · next pte leaf =>
     obtain ⟨user, same⟩ := Option.ite_none_left_eq_some.mp found
     cases same
     have low : va / pgsize < trapframePage := by
       by_contra high
       exact user (sized.filled.kernel _ pte (Nat.not_lt.mp high) leaf)
     have inside : va / pgsize < pages p.sz :=
       (sized.filled.user _ low).mp (Option.isSome_iff_exists.mpr ⟨pte, leaf⟩)
     constructor
     · rw [pages_eq (by omega), pgsize_eq] at inside
       rw [pgroundup_eq (by omega)]
       omega
     · rw [Proc.pageAt, if_pos inside, leaf]
       rfl

theorem Shares.not_kernelUses (shares : machine.Shares strict all own lost) {n : Nat}
    (here : (machine.slots i).process = some p) (there : p.pageAt n = some page) :
    ¬ machine.KernelUses page := by
  obtain ⟨sized, -⟩ := shares.process here
  obtain ⟨rest, kept⟩ := shares.front here
  have accounts := kept.accounts
  have user := count_user sized there
  have single := accounts.single page
  have known := accounts.pages page
  have once := Multiset.nodup_iff_count_le_one.mp accounts.once page
  simp only [count_add, count_items_page] at single known
  rintro (low | free | node | kernel | ⟨j, q, other, used⟩)
  · have member : .page page ∈ p.holding + (items .page machine.kernel + rest) :=
      mem_add.mpr (.inl (Multiset.count_pos.mp (by omega)))
    exact absurd low (Nat.not_lt.mpr (accounts.above page (accounts.mem member)))
  · have some := one_le_count_iff_mem.mpr (mem_coe.mpr free)
    rw [Memory.stock] at known
    omega
  · have some := one_le_count_iff_mem.mpr (mem_coe.mpr node)
    rw [Memory.stock] at known
    omega
  · have some := one_le_count_iff_mem.mpr (mem_coe.mpr kernel)
    omega
  · by_cases same : i = j
    · subst same
      obtain rfl : p = q := Option.some.inj (here.symm.trans other)
      have both := count_kernelPages used
      omega
    · obtain ⟨rest, kept⟩ := shares.fronts same here other
      have single := kept.accounts.single page
      have second := count_holding used
      simp only [count_add] at single
      omega

/-- A page is user memory of one process, at one place. -/
theorem Shares.distinct (shares : machine.Shares strict all own lost) {m n : Nat}
    (here : (machine.slots i).process = some p) (there : (machine.slots j).process = some q)
    (one : p.pageAt m = some page) (two : q.pageAt n = some page) : i = j ∧ m = n := by
  obtain ⟨sized, -⟩ := shares.process here
  obtain ⟨sizedOther, -⟩ := shares.process there
  by_cases same : i = j
  · subst same
    obtain rfl : p = q := Option.some.inj (here.symm.trans there)
    obtain ⟨rest, kept⟩ := shares.front here
    have single : Single p.holding := (custody strict).valid_left kept.accounts.single
    exact ⟨rfl, Proc.pageAt_inj sized single one two⟩
  · obtain ⟨rest, kept⟩ := shares.fronts same here there
    have single := kept.accounts.single page
    have first := count_user sized one
    have second := count_user sizedOther two
    simp only [count_add] at single
    omega

/-- Isolation in a state whose pages are accounted for. -/
theorem Shares.isolated (shares : machine.Shares strict all own lost) : machine.Isolated := by
  refine ⟨fun i p va page here found => ?_, fun i p here n inside => ?_,
    fun i j p q here there m n page one two => shares.distinct here there one two,
    fun i p here n page there => shares.not_kernelUses here there⟩
  · obtain ⟨sized, -⟩ := shares.process here
    exact walkaddr_inside sized found
  · obtain ⟨sized, -⟩ := shares.process here
    have mapped := (sized.filled.user n (sized.user inside)).mpr inside
    refine ⟨?_, sized.filled.reached n mapped⟩
    rw [Proc.pageAt, if_pos inside, Option.isSome_map]
    exact mapped

/-- A store changes no other page than the one behind its address. -/
theorem store_of_ne {bytes : Page → Nat → UInt8} {va : Nat} {value : UInt8}
    (apart : p.table.walkaddr va ≠ some page) : p.store bytes va value page = bytes page := by
  unfold Proc.store
  cases found : p.table.walkaddr va with
  | none => rfl
  | some target =>
    have different : page ≠ target := by
      rintro rfl
      exact apart found
    exact Function.update_of_ne different _ bytes

/-- Where the pages are used only once, a store is seen by its process alone. -/
theorem Isolated.storesApart (isolated : machine.Isolated) : machine.StoresApart := by
  refine ⟨fun i j p q here there apart bytes va value other => ?_,
    fun i p here page used bytes va value => ?_⟩
  · unfold Proc.load
    cases target : q.table.walkaddr other with
    | none => rfl
    | some page =>
      have untouched : p.table.walkaddr va ≠ some page := by
        intro same
        have first := (isolated.inside i p va page here same).2
        have second := (isolated.inside j q other page there target).2
        exact apart (isolated.distinct i j p q here there _ _ page first second).1
      rw [Option.map_some, Option.map_some, store_of_ne untouched]
  · refine store_of_ne fun same => ?_
    have inside := (isolated.inside i p va page here same).2
    exact isolated.unused i p here _ page inside used

end Machine

end Ev6.AddressSpace
