import Ev6.AddressSpace.Custody
import Ev6.AddressSpace.Tables
import Mathlib.Tactic.Abel

/-!
# The pages that a page table holds

A thread that works on a page table holds its tables and the right to have them in the
M-List, its duplicate, the place of its root in `idx_ptdup`, and the pages behind its leaves
below `TRAPFRAME`. The triples of the functions on one page say which leaf they add or
remove, and that everything else that they take goes into the table.
-/

namespace Ev6.AddressSpace

open Multiset (add_cons cons_add cons_swap singleton_add)
open Support PageTable
open AssocList (find find_cons only_cons values)

variable {strict : Prop} {held spare : Holding}

/-! ## Single operations -/

theorem call_holds (op : Op) :
    (custody strict).Holds (takes op + spare) (call op) fun answer kept =>
      learns strict op answer ∧ kept = gives op answer + spare :=
  Contract.Holds.perform op

theorem idle_holds (op : Op) (none : takes op = 0) (nothing : ∀ answer, gives op answer = 0) :
    (custody strict).Holds held (call op) fun answer kept =>
      learns strict op answer ∧ kept = held := by
  have holds : (custody strict).Holds (takes op + held) (call op) _ := call_holds op
  rw [none, zero_add] at holds
  refine holds.mono fun answer kept met => ⟨met.1, ?_⟩
  rw [met.2, nothing, zero_add]

theorem kalloc_holds : (custody strict).Holds held (call .kalloc) fun found kept =>
    kept = items .page found.toList + held := by
  have holds : (custody strict).Holds (takes .kalloc + held) (call .kalloc) _ :=
    call_holds .kalloc
  rw [show takes .kalloc = 0 from rfl, zero_add] at holds
  exact holds.mono fun found kept met => met.2

theorem kallocOr_holds (panic : Panic) : (custody strict).Holds held (kallocOr panic)
    fun page kept => kept = .page page ::ₘ held := by
  refine kalloc_holds.bind fun found kept met => ?_
  subst met
  cases found with
  | none => exact .fault
  | some page => exact .pure (by simp)

theorem kfree_holds (page : Page) : (custody strict).Holds (.page page ::ₘ spare) (kfree page)
    fun _ kept => kept = spare := by
  refine (call_holds (.kfree page)).bind fun fine kept met => ?_
  obtain ⟨told, rfl⟩ := met
  obtain rfl : fine = true := told
  exact .pure (zero_add spare)

theorem kfreeAll_holds (pages : List Page) :
    (custody strict).Holds (items .page pages + spare) (kfreeAll pages)
      fun _ kept => kept = spare := by
  induction pages with
  | nil => exact .pure (zero_add spare)
  | cons page pages ih =>
    rw [items_cons, cons_add]
    refine (kfree_holds page).bind fun _ kept met => ?_
    subst met
    exact ih

theorem entry_holds {α : Type} {program : Prog α} {post : α → Holding → Prop} (table : Page)
    (holds : (custody strict).Holds (.entry table ::ₘ held) program post) :
    (custody strict).Holds held program post :=
  Contract.Holds.of_update
    ⟨[table], by rw [items_cons, items_nil, add_cons, add_zero]⟩ holds

theorem registerPtbMlist_holds (pid : Nat) (table : Page) (level : Level) :
    (custody strict).Holds held (call (.registerPtbMlist pid table level))
      fun _ kept => kept = .entry table ::ₘ held := by
  have holds : (custody strict).Holds (takes (.registerPtbMlist pid table level) + held)
      (call (.registerPtbMlist pid table level)) _ := call_holds _
  rw [show takes (.registerPtbMlist pid table level) = 0 from rfl, zero_add] at holds
  exact holds.mono fun _ kept met => met.2

theorem findPtdupOr_holds {root : Page} (panic : Panic) (claimed : .claim root ∈ held) :
    (custody strict).Holds held (findPtdupOr root panic) fun _ kept => kept = held := by
  obtain ⟨rest, rfl⟩ := Multiset.exists_cons_of_mem claimed
  refine (call_holds (.findPtdup root)).bind fun found kept met => ?_
  obtain ⟨told, rfl⟩ := met
  obtain rfl : found = true := told
  exact .pure rfl

theorem takePages_holds (count : Nat) : (custody strict).Holds held (takePages count)
    fun pages kept => kept = items .page pages + held := by
  induction count generalizing held with
  | zero => exact .pure (by simp)
  | succ count ih =>
    refine (kallocOr_holds _).bind fun page kept met => ?_
    subst met
    refine ih.bind fun pages kept met => ?_
    subst met
    exact .pure (by rw [items_cons, add_cons, cons_add])

theorem recordPages_holds : (custody strict).Holds held recordPages
    fun pages kept => kept = items .page pages + held := by
  refine (idle_holds .recordPages rfl fun _ => rfl).bind fun count kept met => ?_
  obtain ⟨_, rfl⟩ := met
  exact takePages_holds count

/-! ## A page table -/

namespace Table

variable {table after : Table} {self i j n : Nat} {page : Page}

/-- A virtual page lies below `TRAPFRAME`. -/
def isUser (n : Nat) : Bool := n < trapframePage

/-- The pages behind the leaves below `TRAPFRAME`. -/
def userPages (table : Table) : List Page :=
  (AssocList.only isUser table.leaves).map fun entry => entry.2.page

/-- The tables, and the right to have them in the M-List. -/
def tableItems (table : Table) : Holding :=
  items .page table.tablePages + items .entry table.tablePages

/-- The duplicate, and the place of the root in `idx_ptdup`. -/
def duplicateItems (root : Page) (duplicate : Duplicate) : Holding :=
  .claim root ::ₘ items .page (duplicatePages duplicate)

/-- What a page table holds. -/
def holding (table : Table) : Holding :=
  table.tableItems + duplicateItems table.root table.duplicate + items .page table.userPages

theorem claim_mem_holding : .claim table.root ∈ table.holding + spare := by
  simp [holding, duplicateItems]

theorem holding_withL1 :
    (table.withL1 i page).holding = .page page ::ₘ .entry page ::ₘ table.holding := by
  simp only [holding, tableItems, tablePages, withL1, userPages, List.map_cons, items_append,
    List.cons_append, items_cons, ← singleton_add]
  abel

theorem holding_withL0 :
    (table.withL0 i j page).holding = .page page ::ₘ .entry page ::ₘ table.holding := by
  simp only [holding, tableItems, tablePages, withL0, userPages, List.map_cons, items_append,
    List.cons_append, items_cons, ← singleton_add]
  abel

theorem holding_withCopy : (table.withCopy i page).holding = .page page ::ₘ table.holding := by
  simp only [holding, tableItems, tablePages, withCopy, userPages, duplicateItems, duplicatePages,
    List.map_cons, List.cons_append, items_cons, ← singleton_add]
  abel

theorem holding_withRecords (pages : List Page) :
    (table.withRecords pages).holding = items .page pages + table.holding := by
  simp only [holding, tableItems, tablePages, withRecords, userPages, duplicateItems,
    duplicatePages, items_append, items_cons, ← singleton_add]
  abel

theorem holding_withLeaf {pte : Pte} (user : n < trapframePage) :
    (table.withLeaf n pte).holding = .page pte.page ::ₘ table.holding := by
  simp only [holding, tableItems, tablePages, withLeaf, userPages, only_cons, isUser, user,
    decide_true, if_true, List.map_cons, items_cons, add_cons]

theorem holding_withLeaf_kernel {pte : Pte} (kernel : trapframePage ≤ n) :
    (table.withLeaf n pte).holding = table.holding := by
  simp only [holding, tableItems, tablePages, withLeaf, userPages, only_cons, isUser,
    Nat.not_lt.mpr kernel, decide_false, Bool.false_eq_true, if_false]

theorem items_userPages : items .page table.userPages =
    (values (AssocList.only isUser table.leaves)).map
      fun pte => Item.page pte.page := by
  simp [items, userPages, values, Function.comp_def]

theorem holding_withoutLeaf {pte : Pte} (user : n < trapframePage) (found : table.leaf n = some pte) :
    table.holding = .page pte.page ::ₘ (table.withoutLeaf n).holding := by
  have split : items .page table.userPages =
      .page pte.page ::ₘ items .page (table.withoutLeaf n).userPages := by
    have meets : isUser n = true := decide_eq_true user
    have there : find (AssocList.only isUser table.leaves) n =
        some pte := (AssocList.find_only _ meets).trans found
    rw [items_userPages, items_userPages, withoutLeaf, AssocList.only_remove _ meets,
      AssocList.values_remove there, Multiset.map_cons]
  rw [holding, split, add_cons]
  rfl

theorem holding_withoutLeaf_kernel (kernel : trapframePage ≤ n) :
    (table.withoutLeaf n).holding = table.holding := by
  have same : (table.withoutLeaf n).userPages = table.userPages := by
    rw [userPages, withoutLeaf, AssocList.only_remove_of_not _ (by simpa [isUser] using kernel), userPages]
  rw [holding, same]
  rfl

/-! ## Records -/

/-- A table has grown below its leaves. -/
structure Steady (table after : Table) : Prop where
  root : after.root = table.root
  leaves : after.leaves = table.leaves
  reaches : ∀ n, table.reaches n = true → after.reaches n = true

theorem Steady.refl (table : Table) : Steady table table := ⟨rfl, rfl, fun _ there => there⟩

theorem Steady.trans {last : Table} (first : Steady table after) (second : Steady after last) :
    Steady table last :=
  ⟨second.root.trans first.root, second.leaves.trans first.leaves, fun n there =>
    second.reaches n (first.reaches n there)⟩

theorem withRecords_steady (pages : List Page) : Steady table (table.withRecords pages) :=
  ⟨rfl, rfl, fun _ there => there⟩

theorem l0PtesDelete_holds : (custody strict).Holds (table.holding + spare) table.l0PtesDelete
    fun after kept => kept = after.holding + spare ∧ Steady table after := by
  refine recordPages_holds.bind fun pages kept met => ?_
  subst met
  refine .pure ⟨?_, withRecords_steady pages⟩
  rw [holding_withRecords, add_assoc]

theorem l0PtesAdd_holds : (custody strict).Holds (table.holding + spare) table.l0PtesAdd
    fun after kept => kept = after.holding + spare ∧ Steady table after := by
  refine (findPtdupOr_holds _ claim_mem_holding).bind fun _ kept met => ?_
  subst met
  exact l0PtesDelete_holds

/-! ## Walking -/

theorem registerAdded_holds (self : Nat) (page : Page) (level : Level) :
    (custody strict).Holds held (registerAdded self page level)
      fun _ kept => kept = .entry page ::ₘ held := by
  refine (idle_holds .nextpid rfl fun _ => rfl).bind fun nextpid kept met => ?_
  obtain ⟨_, rfl⟩ := met
  split
  · exact registerPtbMlist_holds self page level
  · exact entry_holds page (.pure rfl)

theorem find_cons_isSome {Key Value : Type*} [DecidableEq Key] {entries : List (Key × Value)}
    {key : Key} (entry : Key × Value) (there : (find entries key).isSome = true) :
    (find (entry :: entries) key).isSome = true := by
  rw [find_cons]
  split
  · rfl
  · exact there

theorem reaches_iff : table.reaches n = true ↔ (find table.l1 (index2 n)).isSome = true ∧
    (find table.l0 (index2 n, index1 n)).isSome = true := by
  rw [reaches, Bool.and_eq_true]

theorem withL1_steady : Steady table (table.withL1 i page) := by
  refine ⟨rfl, rfl, fun n there => ?_⟩
  rw [reaches_iff] at there ⊢
  exact ⟨find_cons_isSome _ there.1, there.2⟩

theorem withL0_steady : Steady table (table.withL0 i j page) := by
  refine ⟨rfl, rfl, fun n there => ?_⟩
  rw [reaches_iff] at there ⊢
  exact ⟨there.1, find_cons_isSome _ there.2⟩

theorem ptdupCreateL1_holds : (custody strict).Holds (table.holding + spare) (table.ptdupCreateL1 i)
    fun after kept => kept = after.holding + spare ∧ ∃ copy, after = table.withCopy i copy := by
  refine (findPtdupOr_holds _ claim_mem_holding).bind fun _ kept met => ?_
  subst met
  refine (kallocOr_holds _).bind fun copy kept met => ?_
  subst met
  refine .pure ⟨?_, copy, rfl⟩
  rw [holding_withCopy, cons_add]

theorem ptdupUpdate_holds : (custody strict).Holds (table.holding + spare) (table.ptdupUpdate i)
    fun after kept => kept = table.holding + spare ∧ after = table := by
  refine (findPtdupOr_holds _ claim_mem_holding).bind fun _ kept met => ?_
  subst met
  cases find table.duplicate.copies i with
  | none => exact .fault
  | some copy => exact .pure ⟨rfl, rfl⟩

/-- The first round of `walk`: where it goes on, there is an L1 table. -/
theorem enterL1_holds : (custody strict).Holds (table.holding + spare) (table.enterL1 self i)
    fun answer kept => kept = answer.2.holding + spare ∧ Steady table answer.2 ∧
      (answer.1 = true → (find answer.2.l1 i).isSome = true) := by
  unfold enterL1
  cases found : find table.l1 i with
  | some old => exact .pure ⟨rfl, .refl table, fun _ => by rw [found]; rfl⟩
  | none =>
    refine kalloc_holds.bind fun answer kept met => ?_
    subst met
    cases answer with
    | none => exact .pure ⟨by simp, .refl table, by simp⟩
    | some page =>
      have here : (find (table.withL1 i page).l1 i).isSome = true := by
        simp [withL1, find_cons]
      refine (registerAdded_holds _ _ _).bind fun _ kept met => ?_
      have grown : kept = (table.withL1 i page).holding + spare := by
        rw [met, holding_withL1]
        simp [cons_swap]
      subst grown
      refine (idle_holds .nextpid rfl fun _ => rfl).bind fun nextpid kept met => ?_
      obtain ⟨_, rfl⟩ := met
      split
      · refine ptdupCreateL1_holds.bind fun copied kept met => ?_
        obtain ⟨rfl, copy, rfl⟩ := met
        have steady : Steady (table.withL1 i page) ((table.withL1 i page).withCopy i copy) :=
          ⟨rfl, rfl, fun _ there => there⟩
        exact .pure ⟨rfl, withL1_steady.trans steady, fun _ => here⟩
      · exact .pure ⟨rfl, withL1_steady, fun _ => here⟩

/-- The second round: where it goes on, there is an L0 table. -/
theorem enterL0_holds : (custody strict).Holds (table.holding + spare) (table.enterL0 self i j)
    fun answer kept => kept = answer.2.holding + spare ∧ Steady table answer.2 ∧
      answer.2.l1 = table.l1 ∧
        (answer.1 = true → (find answer.2.l0 (i, j)).isSome = true) := by
  unfold enterL0
  cases found : find table.l0 (i, j) with
  | some old => exact .pure ⟨rfl, .refl table, rfl, fun _ => by rw [found]; rfl⟩
  | none =>
    refine kalloc_holds.bind fun answer kept met => ?_
    subst met
    cases answer with
    | none => exact .pure ⟨by simp, .refl table, rfl, by simp⟩
    | some page =>
      have here : (find (table.withL0 i j page).l0 (i, j)).isSome = true := by
        simp [withL0, find_cons]
      refine (registerAdded_holds _ _ _).bind fun _ kept met => ?_
      have grown : kept = (table.withL0 i j page).holding + spare := by
        rw [met, holding_withL0]
        simp [cons_swap]
      subst grown
      refine (idle_holds .nextpid rfl fun _ => rfl).bind fun nextpid kept met => ?_
      obtain ⟨_, rfl⟩ := met
      split
      · refine ptdupUpdate_holds.bind fun after kept met => ?_
        obtain ⟨rfl, rfl⟩ := met
        exact .pure ⟨rfl, withL0_steady, rfl, fun _ => here⟩
      · exact .pure ⟨rfl, withL0_steady, rfl, fun _ => here⟩

theorem walk_holds : (custody strict).Holds (table.holding + spare) (table.walk self n)
    fun answer kept => kept = answer.2.holding + spare ∧ Steady table answer.2 ∧
      (answer.1 = true → answer.2.reaches n = true) := by
  unfold walk
  split
  · exact .fault
  · refine enterL1_holds.bind fun answer kept met => ?_
    obtain ⟨there, entered⟩ := answer
    obtain ⟨rfl, steady, first⟩ := met
    cases there with
    | false => exact .pure ⟨rfl, steady, by simp⟩
    | true =>
      refine enterL0_holds.mono fun answer kept met => ?_
      obtain ⟨rfl, further, same, second⟩ := met
      refine ⟨rfl, steady.trans further, fun there => ?_⟩
      rw [reaches_iff, same]
      exact ⟨first rfl, second there⟩

/-! ## Mapping and unmapping -/

theorem mappages_holds {perm : Nat} :
    (custody strict).Holds (table.holding + spare) (table.mappages self n page perm)
      fun answer kept => ∃ walked, Steady table walked ∧ kept = walked.holding + spare ∧
        ((answer.1 = 0 ∧ walked.leaf n = none ∧ walked.reaches n = true ∧
            answer.2 = walked.withLeaf n ⟨page, perm⟩) ∨
          answer.1 = -1 ∧ answer.2 = walked) := by
  refine walk_holds.bind fun answer kept met => ?_
  obtain ⟨there, walked⟩ := answer
  obtain ⟨rfl, steady, reached⟩ := met
  cases there with
  | false => exact .pure ⟨walked, steady, rfl, .inr ⟨rfl, rfl⟩⟩
  | true =>
    dsimp only
    rw [if_pos rfl]
    cases found : walked.leaf n with
    | some old => exact .fault
    | none => exact .pure ⟨walked, steady, rfl, .inl ⟨rfl, found, reached rfl, rfl⟩⟩

/-- `uvmunmap` of a page below `TRAPFRAME`, which is freed. -/
theorem unmapPage_free_holds (user : n < trapframePage) :
    (custody strict).Holds (table.holding + spare) (table.unmapPage n true)
      fun after kept => kept = after.holding + spare ∧ after = table.withoutLeaf n ∧
        (table.leaf n).isSome = true := by
  unfold unmapPage
  split
  · exact .fault
  split
  · exact .fault
  cases found : table.leaf n with
  | none => exact .fault
  | some pte =>
    dsimp only
    split
    · exact .fault
    · rw [holding_withoutLeaf user found, cons_add]
      refine (kfree_holds pte.page).bind fun _ kept met => ?_
      subst met
      exact .pure ⟨rfl, rfl, rfl⟩

/-- `uvmunmap` of a page from `TRAPFRAME` on, which is not freed. -/
theorem unmapPage_keep_holds (kernel : trapframePage ≤ n) :
    (custody strict).Holds (table.holding + spare) (table.unmapPage n false)
      fun after kept => kept = after.holding + spare ∧ after = table.withoutLeaf n := by
  unfold unmapPage
  split
  · exact .fault
  split
  · exact .fault
  cases found : table.leaf n with
  | none => exact .fault
  | some pte =>
    dsimp only
    split
    · exact .fault
    · refine .pure ⟨?_, rfl⟩
      rw [holding_withoutLeaf_kernel kernel]

end Table

end Ev6.AddressSpace
