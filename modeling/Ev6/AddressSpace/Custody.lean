import Ev6.AddressSpace.Memory
import Ev6.MList.PageTableRegistry
import Mathlib.Algebra.Order.Group.Multiset

/-!
# Who holds a page

What a thread holds: pages, roots in `idx_ptdup`, and the right that the M-List names a
table. The contract of the operations says how they pass from the shared memory to a thread
and back, and `Accounts` that each page is in one place: on the free list, among the nodes
of the M-Lists, or held. `Listed` says that the M-List names tables that are held; it is
kept as long as process identifiers fit the field of a node.
-/

namespace Ev6.AddressSpace

open Multiset (coe_add cons_coe count_add count_cons count_eq_zero count_le_of_le count_pos mem_map
  singleton_add)
open Support

/-- What can be held. -/
inductive Item where
  | page (page : Page)
  | claim (root : Page)
  | entry (table : Page)
deriving DecidableEq

/-- What a thread holds. -/
abbrev Holding := Multiset Item

/-- The items of one kind for a list of pages. -/
def items (kind : Page → Item) (pages : List Page) : Holding := (pages : Multiset Page).map kind

@[simp] theorem items_nil (kind : Page → Item) : items kind [] = 0 := rfl

@[simp] theorem items_cons (kind : Page → Item) (page : Page) (pages : List Page) :
    items kind (page :: pages) = kind page ::ₘ items kind pages := rfl

@[simp] theorem items_append (kind : Page → Item) (pages more : List Page) :
    items kind (pages ++ more) = items kind pages + items kind more := by
  rw [items, ← coe_add, Multiset.map_add]
  rfl

@[simp] theorem count_items_page (pages : List Page) (page : Page) :
    (items .page pages).count (.page page) = (pages : Multiset Page).count page :=
  Multiset.count_map_eq_count' Item.page _ (fun _ _ equal => Item.page.inj equal) page

@[simp] theorem count_items_entry (pages : List Page) (page : Page) :
    (items .entry pages).count (.page page) = 0 := by
  refine count_eq_zero.mpr fun member => ?_
  obtain ⟨_, _, equal⟩ := mem_map.mp member
  cases equal

/-! ## The contract -/

/-- What an operation takes. -/
def takes : Op → Holding
  | .kfree page => {.page page}
  | .deletePtbMlist table => {.entry table}
  | .findPtdup root | .clearPtdup root => {.claim root}
  | _ => 0

/-- What an operation gives. -/
def gives : (op : Op) → Answer op → Holding
  | .kalloc, found => items .page found.toList
  | .registerPtbMlist _ table _, _ => {.entry table}
  | .claimPtdup root, claimed => if claimed then {.claim root} else 0
  | .findPtdup root, _ => {.claim root}
  | _, _ => 0

/-- What an answer tells. Where `strict` holds no page table is given up with size 0. -/
def learns (strict : Prop) : (op : Op) → Answer op → Prop
  | .kfree _, fine => fine = true
  | .findPtdup _, found => found = true
  | .giveUp sz, _ => strict → 0 < sz
  | _, _ => True

/-- No page is held twice. -/
def Single (held : Holding) : Prop := ∀ page, held.count (.page page) ≤ 1

/-- A thread may name more tables than the M-List does. -/
def Names (held kept : Holding) : Prop := ∃ tables, kept = held + items .entry tables

/-- The contract of the operations. -/
def custody (strict : Prop) : Contract Op Answer Holding where
  takes := takes
  gives := gives
  learns := learns strict
  Valid := Single
  Update := Names
  valid_left single page :=
    (count_le_of_le _ (Multiset.le_add_right _ _)).trans (single page)
  valid_update := by
    rintro held kept ⟨tables, rfl⟩ single page
    rw [count_add, count_items_entry, Nat.add_zero]
    exact single page
  update_refl held := ⟨[], by simp⟩
  update_trans := by
    rintro held next kept ⟨first, rfl⟩ ⟨second, rfl⟩
    exact ⟨first ++ second, by rw [items_append, add_assoc]⟩

/-! ## Accounts -/

/-- The pages that are free or taken for nodes. -/
def Memory.stock (memory : Memory) (page : Page) : Nat :=
  (memory.free : Multiset Page).count page + (memory.nodes : Multiset Page).count page

/-- Each of the pages in `all` is in one place, and `idx_ptdup` holds the roots that are
claimed. -/
structure Accounts (all : Multiset Page) (memory : Memory) (held : Holding) : Prop where
  once : all.Nodup
  pages : ∀ page, held.count (.page page) + memory.stock page = all.count page
  claims : ∀ root, held.count (.claim root) = (memory.idxPtdup : Multiset Page).count root
  above : ∀ page ∈ all, memory.kernelEnd ≤ page.val

/-- The words of the M-List that name a table. -/
def Memory.naming (memory : Memory) (table : Page) : Nat :=
  memory.ptbList.countP fun word => MList.PageTables.mlnode2pa word = table.val

/-- Each word of the M-List names a table that is held. -/
structure Listed (memory : Memory) (held : Holding) : Prop where
  named : ∀ word ∈ memory.ptbList, ∃ table : Page, MList.PageTables.mlnode2pa word = table.val
  entries : ∀ table, memory.naming table ≤ held.count (.entry table)

section Accounts

variable {all : Multiset Page} {memory : Memory} {held kept : Holding}

/-- A page that is held is one of those that there are. -/
theorem Accounts.mem (accounts : Accounts all memory held) {page : Page}
    (member : .page page ∈ held) : page ∈ all := by
  have known := accounts.pages page
  have some := count_pos.mpr member
  exact count_pos.mp (by omega)

theorem Accounts.single (accounts : Accounts all memory held) : Single held := by
  intro page
  have known := accounts.pages page
  have once := Multiset.nodup_iff_count_le_one.mp accounts.once page
  omega

theorem Accounts.names (accounts : Accounts all memory held) (change : Names held kept) :
    Accounts all memory kept := by
  obtain ⟨tables, rfl⟩ := change
  refine ⟨accounts.once, fun page => ?_, fun root => ?_, accounts.above⟩
  · rw [count_add, count_items_entry, Nat.add_zero]
    exact accounts.pages page
  · have none : (items .entry tables).count (.claim root) = 0 := by
      refine count_eq_zero.mpr fun member => ?_
      obtain ⟨_, _, equal⟩ := mem_map.mp member
      cases equal
    rw [count_add, none, Nat.add_zero]
    exact accounts.claims root

theorem Listed.names (listed : Listed memory held) (change : Names held kept) :
    Listed memory kept := by
  obtain ⟨tables, rfl⟩ := change
  exact ⟨listed.named, fun table =>
    (listed.entries table).trans (count_le_of_le _ (Multiset.le_add_right _ _))⟩

/-! ## The operations keep the accounts -/

variable {spare : Holding}

theorem Accounts.kalloc (accounts : Accounts all memory spare) :
    Accounts all memory.kalloc.2 (items .page memory.kalloc.1.toList + spare) := by
  unfold Memory.kalloc
  cases found : memory.free with
  | nil => simpa [found] using accounts
  | cons page rest =>
    refine ⟨accounts.once, fun other => ?_, fun root => ?_, accounts.above⟩
    · have known := accounts.pages other
      simp only [Memory.stock, found, ← cons_coe, count_cons] at known
      simp only [Memory.stock, Option.toList, items_cons, items_nil, Multiset.cons_add, zero_add,
        count_cons, Item.page.injEq]
      omega
    · simpa using accounts.claims root

theorem Accounts.kfree {page : Page} (accounts : Accounts all memory ({.page page} + spare)) :
    (memory.kfree page).1 = true ∧ Accounts all (memory.kfree page).2 spare := by
  have above := accounts.above page (accounts.mem (by simp))
  rw [Memory.kfree, if_pos above]
  refine ⟨rfl, accounts.once, fun other => ?_, fun root => ?_, accounts.above⟩
  · have known := accounts.pages other
    simp only [singleton_add, count_cons, Item.page.injEq, Memory.stock] at known
    simp only [Memory.stock, ← cons_coe, count_cons]
    omega
  · simpa [singleton_add] using accounts.claims root

variable {level : Level} {pid : Nat} {table : Page}

theorem Accounts.registerPtbMlist (accounts : Accounts all memory spare) :
    Accounts all (memory.registerPtbMlist pid table level) ({.entry table} + spare) := by
  have named : Accounts all memory ({.entry table} + spare) :=
    accounts.names ⟨[table], by rw [add_comm]; rfl⟩
  unfold Memory.registerPtbMlist
  cases full : memory.mlistFull.headD false with
  | false => exact ⟨named.once, named.pages, named.claims, named.above⟩
  | true =>
    cases found : memory.free with
    | nil => exact ⟨named.once, fun page => by simpa [Memory.stock, found] using named.pages page,
        named.claims, named.above⟩
    | cons node rest =>
      refine ⟨named.once, fun page => ?_, named.claims, named.above⟩
      have known := named.pages page
      simp only [Memory.stock, found, ← cons_coe, count_cons] at known
      simp only [Memory.stock, if_pos, ← cons_coe, count_cons]
      omega

variable {root : Page}

theorem Accounts.claimPtdup (accounts : Accounts all memory spare) :
    Accounts all (memory.claimPtdup root).2
      ((if (memory.claimPtdup root).1 then {.claim root} else 0) + spare) := by
  unfold Memory.claimPtdup
  split
  · refine ⟨accounts.once, fun page => ?_, fun other => ?_, accounts.above⟩
    · simpa [singleton_add, Memory.stock] using accounts.pages page
    · simp only [if_true, singleton_add, count_cons, Item.claim.injEq,
        ← cons_coe]
      rw [accounts.claims other]
  · simpa using accounts

theorem Accounts.findPtdup (accounts : Accounts all memory ({.claim root} + spare)) :
    root ∈ memory.idxPtdup := by
  have known := accounts.claims root
  rw [singleton_add, Multiset.count_cons_self] at known
  have some : 0 < (memory.idxPtdup : Multiset Page).count root := by omega
  exact count_pos.mp some

theorem Accounts.clearPtdup (accounts : Accounts all memory ({.claim root} + spare)) :
    Accounts all { memory with idxPtdup := memory.idxPtdup.erase root } spare := by
  have split : (memory.idxPtdup : Multiset Page) =
      root ::ₘ ((memory.idxPtdup.erase root : List Page) : Multiset Page) :=
    Multiset.coe_eq_coe.mpr (List.perm_cons_erase accounts.findPtdup)
  refine ⟨accounts.once, fun page => ?_, fun other => ?_, accounts.above⟩
  · simpa [singleton_add, Memory.stock] using accounts.pages page
  · have known := accounts.claims other
    rw [split, singleton_add] at known
    simp only [count_cons, Item.claim.injEq] at known
    exact Nat.add_right_cancel known

/-- The accounts are those of the free pages, the nodes and `idx_ptdup`. -/
theorem Accounts.congr {after : Memory} (accounts : Accounts all memory held)
    (stock : after.stock = memory.stock) (claims : after.idxPtdup = memory.idxPtdup)
    (above : after.kernelEnd = memory.kernelEnd) : Accounts all after held :=
  ⟨accounts.once, stock ▸ accounts.pages, claims ▸ accounts.claims, above ▸ accounts.above⟩

theorem Accounts.unnamed (accounts : Accounts all memory ({.entry table} + spare)) :
    Accounts all memory spare := by
  refine ⟨accounts.once, fun page => ?_, fun root => ?_, accounts.above⟩
  · simpa [singleton_add] using accounts.pages page
  · simpa [singleton_add] using accounts.claims root

/-- The condition on an operation: a page table is given up with a size, and process
identifiers fit the field of a node of the M-List. -/
def Op.Fine : Op → Prop
  | .giveUp sz => 0 < sz
  | .registerPtbMlist pid _ _ => pid < 2 ^ 10
  | _ => True

theorem Accounts.performs {strict : Prop} (op : Op) (fine : strict → op.Fine) :
    (custody strict).Performs (Accounts all) Memory.perform op := by
  intro memory spare accounts
  have idle (none : takes op = 0) : Accounts all memory (0 + spare) := by
    rw [← none]
    exact accounts
  have same (none : takes op = 0) : Accounts all memory spare := by
    rw [← zero_add spare]
    exact idle none
  cases op with
  | kalloc => exact ⟨trivial, (same rfl).kalloc⟩
  | kfree page =>
    obtain ⟨freed, after⟩ := accounts.kfree
    rw [← zero_add spare] at after
    exact ⟨freed, after⟩
  | registerPtbMlist pid table level => exact ⟨trivial, (same rfl).registerPtbMlist⟩
  | deletePtbMlist table =>
    refine ⟨trivial, ?_⟩
    show Accounts all (memory.deletePtbMlist table) (0 + spare)
    rw [zero_add]
    exact accounts.unnamed.congr rfl rfl rfl
  | claimPtdup root => exact ⟨trivial, (same rfl).claimPtdup⟩
  | findPtdup root => exact ⟨decide_eq_true accounts.findPtdup, accounts⟩
  | clearPtdup root =>
    have after := accounts.clearPtdup
    rw [← zero_add spare] at after
    exact ⟨trivial, after⟩
  | giveUp sz => exact ⟨fine, idle rfl⟩
  | initRcsInfos pid =>
    refine ⟨trivial, ?_⟩
    show Accounts all (memory.initRcsInfos pid) (0 + spare)
    unfold Memory.initRcsInfos
    split
    · exact (idle rfl).congr rfl rfl rfl
    · exact idle rfl
  | registerTransInfo pid =>
    refine ⟨trivial, ?_⟩
    show Accounts all (memory.registerTransInfo pid) (0 + spare)
    unfold Memory.registerTransInfo
    split
    · exact (idle rfl).congr rfl rfl rfl
    · exact idle rfl
  | deletePtbMlistAll pid => exact ⟨trivial, (idle rfl).congr rfl rfl rfl⟩
  | recordPages => exact ⟨trivial, (idle rfl).congr rfl rfl rfl⟩
  | nextpid => exact ⟨trivial, idle rfl⟩
  | allocpid => exact ⟨trivial, (idle rfl).congr rfl rfl rfl⟩
  | freeRcsHistory pid => exact ⟨trivial, (idle rfl).congr rfl rfl rfl⟩
  | deleteTransInfo pid => exact ⟨trivial, (idle rfl).congr rfl rfl rfl⟩

theorem Accounts.backed {strict : Prop} : (custody strict).Backed (Accounts all) where
  valid accounts := accounts.single
  update change accounts := accounts.names <| by
    obtain ⟨tables, rfl⟩ := change
    exact ⟨tables, add_right_comm _ _ _⟩

/-! ## The M-List -/

/-- The word of a table names it, where the process identifier fits. -/
theorem mlnode2pa_ptbWord (fits : pid < 2 ^ 10) :
    MList.PageTables.mlnode2pa (Memory.ptbWord pid table level) = table.val := by
  have small : level.number < 2 ^ 2 := by cases level <;> decide
  exact MList.PageTables.mlnode2pa_word ⟨table, ⟨pid, fits⟩, ⟨level.number, small⟩⟩

/-- The accounts of the M-List are those of its words. -/
theorem Listed.congr {after : Memory} (listed : Listed memory held)
    (words : after.ptbList = memory.ptbList)
    (entries : ∀ table, held.count (.entry table) ≤ kept.count (.entry table)) :
    Listed after kept := by
  refine ⟨words ▸ listed.named, fun table => ?_⟩
  have known := listed.entries table
  rw [Memory.naming, words]
  exact known.trans (entries table)

theorem Listed.registerPtbMlist (listed : Listed memory spare) (fits : pid < 2 ^ 10) :
    Listed (memory.registerPtbMlist pid table level) ({.entry table} + spare) := by
  have more (other : Page) : spare.count (.entry other) ≤
      (({.entry table} : Holding) + spare).count (.entry other) :=
    count_le_of_le _ (Multiset.le_add_left _ _)
  have added (after : Memory) (words : after.ptbList = Memory.ptbWord pid table level :: memory.ptbList) :
      Listed after ({.entry table} + spare) := by
    refine ⟨fun word member => ?_, fun other => ?_⟩
    · rw [words] at member
      rcases List.mem_cons.mp member with rfl | member
      · exact ⟨table, mlnode2pa_ptbWord fits⟩
      · exact listed.named word member
    · have known := listed.entries other
      rw [Memory.naming] at known
      rw [Memory.naming, words, List.countP_cons, mlnode2pa_ptbWord fits, singleton_add,
        count_cons]
      by_cases same : other = table
      · subst same
        simpa using known
      · have apart : table.val ≠ other.val := fun equal => same (Subtype.ext equal).symm
        simpa [same, apart] using known
  unfold Memory.registerPtbMlist
  cases memory.mlistFull.headD false with
  | false => exact added _ rfl
  | true =>
    cases found : memory.free with
    | nil => exact listed.congr rfl more
    | cons node rest => exact added _ rfl

theorem Listed.deletePtbMlist (listed : Listed memory ({.entry table} + spare)) :
    Listed (memory.deletePtbMlist table) spare := by
  have bound (other : Page) : memory.naming other ≤
      spare.count (.entry other) + if other = table then 1 else 0 := by
    have known := listed.entries other
    simpa [singleton_add, count_cons] using known
  refine ⟨fun word member => listed.named word (List.mem_of_mem_eraseP member), fun other => ?_⟩
  have known := bound other
  by_cases present : ∃ word ∈ memory.ptbList, MList.PageTables.mlnode2pa word = table.val
  · -- The first word that names the table goes.
    obtain ⟨word, member, names⟩ := present
    obtain ⟨gone, front, back, _, names, split, erased⟩ :=
      List.exists_of_eraseP (p := fun word => decide (MList.PageTables.mlnode2pa word = table.val))
        member (decide_eq_true names)
    rw [Memory.naming, split, List.countP_append, List.countP_cons] at known
    rw [Memory.naming, Memory.deletePtbMlist, erased, List.countP_append]
    by_cases same : other = table
    · subst same
      rw [if_pos names, if_pos rfl] at known
      omega
    · rw [if_neg same] at known
      omega
  · -- No word names it, and it stays so.
    have absent (word : Nat) (member : word ∈ memory.ptbList) :
        ¬ decide (MList.PageTables.mlnode2pa word = table.val) = true := fun names =>
      present ⟨word, member, of_decide_eq_true names⟩
    rw [Memory.naming, Memory.deletePtbMlist, List.eraseP_of_forall_not absent, ← Memory.naming]
    by_cases same : other = table
    · subst same
      rw [Memory.naming, List.countP_eq_zero.mpr absent]
      exact Nat.zero_le _
    · simpa [same] using known

theorem Listed.idle {op : Op} (listed : Listed memory (takes op + spare))
    (words : (memory.perform op).2.ptbList = memory.ptbList)
    (none : ∀ table, (takes op).count (.entry table) = 0) :
    Listed (memory.perform op).2 (gives op (memory.perform op).1 + spare) := by
  refine listed.congr words fun table => ?_
  rw [count_add, none, Nat.zero_add]
  exact count_le_of_le _ (Multiset.le_add_left _ _)

/-- The operations keep the accounts of the M-List. -/
theorem Listed.performs (op : Op) (fine : op.Fine) (listed : Listed memory (takes op + spare)) :
    Listed (memory.perform op).2 (gives op (memory.perform op).1 + spare) := by
  cases op with
  | registerPtbMlist pid table level =>
    have same : takes (.registerPtbMlist pid table level) + spare = spare := zero_add spare
    rw [same] at listed
    exact listed.registerPtbMlist fine
  | deletePtbMlist table =>
    show Listed (memory.deletePtbMlist table) (0 + spare)
    rw [zero_add]
    exact listed.deletePtbMlist
  | deletePtbMlistAll pid =>
    refine ⟨fun word member => listed.named word (List.mem_of_mem_filter member), fun table => ?_⟩
    exact (List.Sublist.countP_le List.filter_sublist).trans (listed.entries table)
  | kalloc =>
    refine listed.idle ?_ fun _ => rfl
    show memory.kalloc.2.ptbList = memory.ptbList
    unfold Memory.kalloc
    split <;> rfl
  | kfree page =>
    refine listed.idle ?_ fun table => by simp [takes]
    show (memory.kfree page).2.ptbList = memory.ptbList
    unfold Memory.kfree
    split <;> rfl
  | claimPtdup root =>
    refine listed.idle ?_ fun _ => rfl
    show (memory.claimPtdup root).2.ptbList = memory.ptbList
    unfold Memory.claimPtdup
    split <;> rfl
  | initRcsInfos pid =>
    refine listed.idle ?_ fun _ => rfl
    show (memory.initRcsInfos pid).ptbList = memory.ptbList
    unfold Memory.initRcsInfos
    split <;> rfl
  | registerTransInfo pid =>
    refine listed.idle ?_ fun _ => rfl
    show (memory.registerTransInfo pid).ptbList = memory.ptbList
    unfold Memory.registerTransInfo
    split <;> rfl
  | findPtdup root => exact listed.idle rfl fun table => by simp [takes]
  | clearPtdup root => exact listed.idle rfl fun table => by simp [takes]
  | recordPages => exact listed.idle rfl fun _ => rfl
  | nextpid => exact listed.idle rfl fun _ => rfl
  | allocpid => exact listed.idle rfl fun _ => rfl
  | giveUp sz => exact listed.idle rfl fun _ => rfl
  | freeRcsHistory pid => exact listed.idle rfl fun _ => rfl
  | deleteTransInfo pid => exact listed.idle rfl fun _ => rfl

end Accounts

/-- The accounts of the pages, and of the M-List where `strict` holds. -/
structure Kept (strict : Prop) (all : Multiset Page) (memory : Memory) (held : Holding) : Prop where
  accounts : Accounts all memory held
  listed : strict → Listed memory held

variable {strict : Prop} {all : Multiset Page}

theorem Kept.backed : (custody strict).Backed (Kept strict all) where
  valid kept := kept.accounts.single
  update change kept := by
    refine ⟨Accounts.backed.update change kept.accounts, fun holds => ?_⟩
    obtain ⟨tables, rfl⟩ := change
    exact (kept.listed holds).names ⟨tables, add_right_comm _ _ _⟩

theorem Kept.performs (op : Op) (fine : strict → op.Fine) :
    (custody strict).Performs (Kept strict all) Memory.perform op := by
  intro memory spare kept
  obtain ⟨told, accounts⟩ := Accounts.performs op fine memory spare kept.accounts
  exact ⟨told, accounts, fun holds => (kept.listed holds).performs op (fine holds)⟩

end Ev6.AddressSpace
