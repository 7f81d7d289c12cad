import Ev6.AddressSpace.Isolation
import Mathlib.Algebra.Order.BigOperators.Group.Multiset

/-!
# What is left of a process

When a process has been waited for, its pages are back on the free list and nothing names its
page table, unless a page table has been given up at size 0: then `proc_freepagetable` skips
`uvmfree`, and the tables are lost. `uvmfree` gives the root to `kfree` before
`ptdup_delete_all` searches for it, so this is about the runs in which no one has made another
page table of the root meanwhile.
-/

namespace Ev6.AddressSpace

open Multiset (coe_add count_add count_sum' filterMap_add filterMap_cons mem_add mem_filterMap
  mem_map mem_sum)
open Support

/-! ## Shares -/

/-- What a slot has: its pages, the roots that it has in `idx_ptdup`, and the tables that the
M-List may name. -/
structure Share where
  pages : Multiset Page
  roots : Multiset Page
  tables : Multiset Page

/-- The trapframe, the page tables, the duplicates and the user memory of a process. -/
def Proc.pages (p : Proc) : List Page :=
  p.tf :: (p.table.tablePages ++ Table.duplicatePages p.table.duplicate ++ p.table.userPages)

/-- What a process has. -/
def Proc.share (p : Proc) : Share := ⟨p.pages, {p.table.root}, p.table.tablePages⟩

/-- What a slot has between two calls. -/
def Slot.share : Slot → Option Share
  | unused | reserved => some ⟨0, 0, 0⟩
  | user p | zombie p => some p.share
  | _ => none

/-- Each page is in one place: it is free, or a node of an M-List, or the rest of the kernel or
one of the slots has it. A slot without a process has none, and a process between two calls
those of its address space. `idx_ptdup` holds the root of each page table once, and it and the
M-List name nothing else. -/
structure Machine.Accounted (all : List Page) (machine : Machine) (share : Fin nproc → Share) :
    Prop where
  settled : ∀ i s, (machine.slots i).share = some s → share i = s
  once : all.Nodup
  pages : (machine.memory.free : Multiset Page) + machine.memory.nodes + machine.kernel +
    ∑ i, (share i).pages = all
  roots : (machine.memory.idxPtdup : Multiset Page) = ∑ i, (share i).roots
  single : machine.memory.idxPtdup.Nodup
  listed : ∀ word ∈ machine.memory.ptbList, ∃ i, ∃ table ∈ (share i).tables,
    MList.PageTables.mlnode2pa word = table.val

/-- Nothing goes on in a slot. -/
def Slot.isUnused : Slot → Bool
  | unused => true
  | _ => false

/-! ## Items of one kind -/

/-- The page of an item. -/
def Item.asPage : Item → Option Page
  | .page value => some value
  | _ => none

def Item.asClaim : Item → Option Page
  | .claim value => some value
  | _ => none

def Item.asEntry : Item → Option Page
  | .entry value => some value
  | _ => none

/-- What a thread holds, by kinds. -/
def Holding.share (held : Holding) : Share :=
  ⟨held.filterMap Item.asPage, held.filterMap Item.asClaim, held.filterMap Item.asEntry⟩

variable {as : Item → Option Page} {kind : Page → Item}

theorem count_filterMap
    (exact_ : ∀ item page, as item = some page ↔ item = kind page) (held : Holding) (page : Page) :
    (held.filterMap as).count page = held.count (kind page) := by
  induction held using Multiset.induction with
  | empty => rfl
  | cons item held ih =>
    rw [filterMap_cons, count_add, ih, Multiset.count_cons]
    cases found : as item with
    | none =>
      have other : kind page ≠ item := by
        rintro rfl
        rw [(exact_ _ page).mpr rfl] at found
        cases found
      simp [other]
    | some value =>
      obtain rfl := (exact_ item value).mp found
      have same : kind page = kind value ↔ page = value := by
        refine ⟨fun equal => ?_, fun equal => by rw [equal]⟩
        have back := (exact_ (kind page) page).mpr rfl
        rw [equal, (exact_ (kind value) value).mpr rfl] at back
        exact (Option.some.inj back).symm
      simp [same, Multiset.count_singleton, add_comm]

theorem asPage_eq_some (item : Item) (page : Page) :
    item.asPage = some page ↔ item = .page page := by
  cases item <;> simp [Item.asPage]

theorem asClaim_eq_some (item : Item) (root : Page) :
    item.asClaim = some root ↔ item = .claim root := by
  cases item <;> simp [Item.asClaim]

/-- The items of one kind of pages, and of another kind. -/
theorem filterMap_items (all : ∀ page, as (kind page) = some page) (pages : List Page) :
    (items kind pages).filterMap as = pages := by
  rw [items, Multiset.filterMap_map]
  have same : (as ∘ kind) = some := funext all
  rw [same, Multiset.filterMap_some]

theorem filterMap_items_none (none : ∀ page, as (kind page) = none) (pages : List Page) :
    (items kind pages).filterMap as = 0 := by
  refine Multiset.eq_zero_of_forall_notMem fun page member => ?_
  obtain ⟨item, inside, same⟩ := (mem_filterMap _ _).mp member
  obtain ⟨other, -, rfl⟩ := mem_map.mp inside
  rw [none] at same
  cases same

theorem share_holding (p : Proc) : Holding.share p.holding = p.share := by
  have pages : p.holding.filterMap Item.asPage = p.pages := by
    have found (pages : List Page) : (items .page pages).filterMap Item.asPage = pages :=
      filterMap_items (fun _ => rfl) pages
    have none (tables : List Page) : (items .entry tables).filterMap Item.asPage = 0 :=
      filterMap_items_none (fun _ => rfl) tables
    simp only [Proc.holding, Table.holding, Table.tableItems, Table.duplicateItems,
      filterMap_cons, filterMap_add, found, none, Item.asPage, Option.map_some,
      Option.map_none, Option.getD_some, Option.getD_none]
    simp only [Proc.pages, ← Multiset.cons_coe, ← coe_add, ← Multiset.singleton_add]
    abel
  have roots : p.holding.filterMap Item.asClaim = {p.table.root} := by
    have none (pages : List Page) : (items .page pages).filterMap Item.asClaim = 0 :=
      filterMap_items_none (fun _ => rfl) pages
    have others (tables : List Page) : (items .entry tables).filterMap Item.asClaim = 0 :=
      filterMap_items_none (fun _ => rfl) tables
    simp [Proc.holding, Table.holding, Table.tableItems, Table.duplicateItems,
      filterMap_cons, filterMap_add, none, others, Item.asClaim]
  have tables : p.holding.filterMap Item.asEntry = p.table.tablePages := by
    have found (tables : List Page) : (items .entry tables).filterMap Item.asEntry = tables :=
      filterMap_items (fun _ => rfl) tables
    have none (pages : List Page) : (items .page pages).filterMap Item.asEntry = 0 :=
      filterMap_items_none (fun _ => rfl) pages
    simp [Proc.holding, Table.holding, Table.tableItems, Table.duplicateItems,
      filterMap_cons, filterMap_add, found, none, Item.asEntry]
  rw [Holding.share, pages, roots, tables]
  rfl

/-! ## Runs -/

namespace Machine

variable {all : List Page} {machine : Machine} {own : Fin nproc → Holding} {lost : Holding}

/-- Where nothing is lost, the accounts are those of the slots. -/
theorem Shares.accounted (shares : machine.Shares True all own lost)
    (single : machine.memory.idxPtdup.Nodup) :
    machine.Accounted all fun i => Holding.share (own i) := by
  have tight : lost = 0 := shares.tight trivial
  have accounts := shares.kept.accounts
  have listed := shares.kept.listed trivial
  rw [tight, add_zero] at accounts listed
  refine ⟨fun i s known => ?_, Multiset.coe_nodup.mp accounts.once, ?_, ?_, single,
    fun word member => ?_⟩
  · have meets := shares.meets i
    cases slot : machine.slots i with
    | unused =>
      rw [slot] at known meets
      cases known
      have none : own i = 0 := meets
      rw [none]
      rfl
    | reserved =>
      rw [slot] at known meets
      cases known
      have none : own i = 0 := meets
      rw [none]
      rfl
    | user p =>
      rw [slot] at known meets
      cases known
      rw [meets.1, share_holding]
    | zombie p =>
      rw [slot] at known meets
      cases known
      rw [meets.1, share_holding]
    | _ =>
      rw [slot] at known
      cases known
  · refine Multiset.ext.mpr fun page => ?_
    have known := accounts.pages page
    rw [count_add, count_items_page, Memory.stock, count_sum'] at known
    simp only [count_add, count_sum', Holding.share,
      count_filterMap asPage_eq_some]
    omega
  · refine Multiset.ext.mpr fun root => ?_
    have known := accounts.claims root
    have none : (items .page machine.kernel).count (.claim root) = 0 := by
      rw [← count_filterMap asClaim_eq_some, filterMap_items_none fun _ => rfl]
      rfl
    rw [count_add, none, add_zero, count_sum'] at known
    simp only [count_sum', Holding.share, count_filterMap asClaim_eq_some]
    exact known.symm
  · obtain ⟨table, names⟩ := listed.named word member
    have known := listed.entries table
    have named : 0 < machine.memory.naming table :=
      List.countP_pos_iff.mpr ⟨word, member, decide_eq_true names⟩
    have some : .entry table ∈ ∑ i, own i + items .page machine.kernel :=
      Multiset.count_pos.mp (named.trans_le known)
    rcases mem_add.mp some with held | kernel
    · obtain ⟨i, -, held⟩ := mem_sum.mp held
      exact ⟨i, table, (mem_filterMap _ _).mpr ⟨_, held, rfl⟩, names⟩
    · obtain ⟨_, _, same⟩ := mem_map.mp kernel
      cases same

/-- As long as no page table is given up at size 0, process identifiers fit a node of the
M-List, and no root is claimed that `idx_ptdup` holds, nothing is lost: what a process has had
is given back when it has been waited for. -/
theorem accounted_of_runs {trampoline : Page} {events : List Event}
    (runs : ((system trampoline all).guarded Tidy).Runs events machine) :
    ∃ share, machine.Accounted all share := by
  obtain ⟨own, lost, shares⟩ := strict_of_runs runs
  have claims : ((system trampoline all).guarded ClaimsNew).Runs events machine :=
    runs.weakenGuard fun _ _ tidy => tidy.2
  exact ⟨_, shares.accounted (idxPtdup_nodup_of_runs claims)⟩

instance (op : Op) : Decidable op.Fine := by
  cases op <;> unfold Op.Fine <;> infer_instance

instance (op : Op) (memory : Memory) : Decidable (op.ClaimsNew memory) := by
  cases op with
  | claimPtdup root =>
    exact decidable_of_bool (!(memory.perform (.findPtdup root)).1)
      (by simp [Memory.perform, Op.ClaimsNew])
  | _ => exact isTrue trivial

instance (machine : Machine) (event : Event) : Decidable (Fine machine event) := by
  cases event with
  | step i => exact inferInstanceAs (Decidable (∀ op ∈ (machine.slots i).nextOp, op.Fine))
  | _ => exact isTrue trivial

instance (machine : Machine) (event : Event) : Decidable (ClaimsNew machine event) := by
  cases event with
  | step i =>
    exact inferInstanceAs
      (Decidable (∀ op ∈ (machine.slots i).nextOp, op.ClaimsNew machine.memory))
  | _ => exact isTrue trivial

instance (machine : Machine) (event : Event) : Decidable (Tidy machine event) :=
  inferInstanceAs (Decidable (_ ∧ _))

/-- The process of a slot, if it is between two calls and alive. -/
def userProcess : Slot → Option Proc
  | .user p => some p
  | _ => none

theorem slot_of_userProcess {slot : Slot} {p : Proc} (user : userProcess slot = some p) :
    slot = .user p := by
  unfold userProcess at user
  split at user
  · rw [Option.some.inj user]
  · cases user

theorem slot_of_isUnused {slot : Slot} (unused : slot.isUnused = true) : slot = .unused := by
  unfold Slot.isUnused at unused
  split at unused
  · rfl
  · cases unused

/-- The first process grows and forks, and its child exits and is waited for. -/
theorem accounted_of_child : ∃ events machine share p,
    ((system (pageNo 7) (bootPages 40)).guarded Tidy).Runs events machine ∧
      machine.slots 0 = .user p ∧ p.sz = 12288 ∧ machine.slots 1 = .unused ∧
        machine.Accounted (bootPages 40) share := by
  let events := bootEvents ++ callEvents (.sbrk 0 8192) 0 4 ++ callEvents (.fork 0 1) 0 46 ++
    .exit 1 :: callEvents (.wait 0 1) 0 29
  have found : (LabelledSystem.exec (LabelledSystem.checked Tidy (step (pageNo 7)))
      (bootMachine 40) events).any (fun machine =>
        (userProcess (machine.slots 0)).any (fun p => decide (p.sz = 12288)) &&
          (machine.slots 1).isUnused) = true := by
    decide +kernel
  obtain ⟨machine, result, facts⟩ := (Option.any_eq_true _ _).mp found
  obtain ⟨first, second⟩ := Bool.and_eq_true_iff.mp facts
  obtain ⟨p, here, size⟩ := (Option.any_eq_true _ _).mp first
  have runs : ((system (pageNo 7) (bootPages 40)).guarded Tidy).Runs events machine :=
    .of_checked_exec (bootMachine_boots (by decide)) result
  obtain ⟨share, accounted⟩ := accounted_of_runs runs
  exact ⟨events, machine, share, p, runs, slot_of_userProcess here, of_decide_eq_true size,
    slot_of_isUnused second, accounted⟩

/-- With one process, all pages but its own are free, nodes, or of the rest of the kernel. -/
theorem Accounted.alone {share : Fin nproc → Share} {p : Proc}
    (accounted : machine.Accounted all share) (here : machine.slots 0 = .user p)
    (alone : ∀ i, i ≠ 0 → machine.slots i = .unused) :
    machine.memory.free.length + machine.memory.nodes.length + machine.kernel.length +
      p.pages.length = all.length := by
  have first : share 0 = p.share := accounted.settled 0 p.share (by rw [here]; rfl)
  have others (i : Fin nproc) (other : i ≠ 0) : (share i).pages = 0 := by
    have nothing : share i = ⟨0, 0, 0⟩ := accounted.settled i ⟨0, 0, 0⟩ (by rw [alone i other]; rfl)
    rw [nothing]
  have whole : ∑ i, (share i).pages = p.pages := by
    rw [Finset.sum_eq_single_of_mem 0 (Finset.mem_univ 0) fun i _ other => others i other, first]
    rfl
  have sizes := congrArg Multiset.card accounted.pages
  rw [whole] at sizes
  simpa only [Multiset.card_add, Multiset.coe_card] using sizes

/-- The first process gives up its memory and forks. Its child exits and is waited for, and
three pages are lost. -/
theorem child_not_accounted : ∃ events machine p,
    (system (pageNo 7) (bootPages 40)).Runs events machine ∧ machine.slots 0 = .user p ∧
      (∀ i, i ≠ 0 → machine.slots i = .unused) ∧
        ∀ share, ¬ machine.Accounted (bootPages 40) share := by
  let events := bootEvents ++ callEvents (.sbrk 0 (-4096)) 0 2 ++ callEvents (.fork 0 1) 0 26 ++
    .exit 1 :: callEvents (.wait 0 1) 0 14
  have found : (LabelledSystem.exec (step (pageNo 7)) (bootMachine 40) events).any (fun machine =>
      (userProcess (machine.slots 0)).any (fun p => decide (machine.memory.free.length +
        machine.memory.nodes.length + machine.kernel.length + p.pages.length = 37)) &&
          decide (∀ i, i ≠ 0 → (machine.slots i).isUnused = true)) = true := by
    decide +kernel
  obtain ⟨machine, result, facts⟩ := (Option.any_eq_true _ _).mp found
  obtain ⟨first, second⟩ := Bool.and_eq_true_iff.mp facts
  obtain ⟨p, here, size⟩ := (Option.any_eq_true _ _).mp first
  have slot := slot_of_userProcess here
  have alone (i : Fin nproc) (other : i ≠ 0) : machine.slots i = .unused :=
    slot_of_isUnused (of_decide_eq_true second i other)
  refine ⟨events, machine, p, .of_exec (bootMachine_boots (by decide)) result,
    slot, alone, fun share accounted => ?_⟩
  have sizes := accounted.alone slot alone
  rw [of_decide_eq_true size] at sizes
  exact absurd sizes (by decide)

end Machine

end Ev6.AddressSpace
