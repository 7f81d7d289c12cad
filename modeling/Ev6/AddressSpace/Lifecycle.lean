import Ev6.AddressSpace.Calls
import Ev6.AddressSpace.Sizes

/-!
# Address spaces from their creation to their end

The triples of the calls that make an address space, change it and give it up. What is not
given back is the tables of an address space of size 0, which `proc_freepagetable` does not
free.
-/

namespace Ev6.AddressSpace

open Multiset (cons_add mem_add singleton_add)
open Support PageTable

variable {strict : Prop} {held spare : Holding} {trampoline : Page}

namespace Table

variable {table : Table} {self n sz : Nat} {page root : Page} {duplicate : Duplicate}

/-! ## Freeing -/

/-- `freewalk` over tables, which takes them from the M-List. -/
theorem freeTables_holds (pages : List Page) :
    (custody strict).Holds (items .page pages + items .entry pages + spare) (freeTables pages)
      fun _ kept => kept = spare := by
  induction pages with
  | nil => exact .pure (by simp)
  | cons page pages ih =>
    have split : items .page (page :: pages) + items .entry (page :: pages) + spare =
        .page page ::ₘ ({.entry page} + (items .page pages + items .entry pages + spare)) := by
      simp only [items_cons, ← singleton_add]
      abel
    rw [split]
    refine (kfree_holds page).bind fun _ kept met => ?_
    subst met
    refine (call_holds (.deletePtbMlist page)).bind fun _ kept met => ?_
    obtain ⟨_, rfl⟩ := met
    have rest : gives (.deletePtbMlist page) () +
        (items .page pages + items .entry pages + spare) =
          items .page pages + items .entry pages + spare := zero_add _
    rw [rest]
    exact ih

theorem freewalk_holds : (custody strict).Holds (table.holding + spare) table.freewalk
    fun _ kept => kept = duplicateItems table.root table.duplicate + spare := by
  unfold freewalk
  split
  · next empty =>
     have none : table.userPages = [] := by
       rw [userPages, empty]
       rfl
     have split : table.holding + spare = items .page table.tablePages +
         items .entry table.tablePages +
           (duplicateItems table.root table.duplicate + spare) := by
       rw [holding, none, items_nil, add_zero, tableItems, add_assoc]
     rw [split]
     exact freeTables_holds table.tablePages
  · exact .fault

theorem uvmfree_holds (fits : table.Fits sz) (positive : 0 < sz) :
    (custody strict).Holds (table.holding + spare) (table.uvmfree sz)
      fun duplicate kept => kept = duplicateItems table.root duplicate + spare := by
  have small := fits.small
  have last : pages sz = (0 * pgsize + sz + 4095) / 4096 := by
    rw [Nat.zero_mul, Nat.zero_add]
    exact pages_eq (by omega)
  have unmaps : (custody strict).Holds (table.holding + spare)
      (table.uvmunmap (0 * pgsize) sz true) _ :=
    uvmunmap_free_holds positive fits.filled last fits.pages_le (Nat.zero_le _)
  rw [Nat.zero_mul] at unmaps
  refine unmaps.bind fun after kept met => ?_
  obtain ⟨rfl, same, _⟩ := met
  refine freewalk_holds.bind fun _ kept met => ?_
  subst met
  exact .pure (by rw [same])

/-- `ptdup_delete_all` gives back the whole duplicate. -/
theorem ptdupDeleteAll_holds : (custody strict).Holds (duplicateItems root duplicate + spare)
    (ptdupDeleteAll root duplicate) fun _ kept => kept = spare := by
  have split : duplicateItems root duplicate + spare =
      takes (.findPtdup root) + (items .page (duplicatePages duplicate) + spare) := by
    rw [duplicateItems, cons_add]
    rfl
  rw [split]
  refine (call_holds (.findPtdup root)).bind fun found kept met => ?_
  obtain ⟨told, rfl⟩ := met
  obtain rfl : found = true := told
  have next : gives (.findPtdup root) true + (items .page (duplicatePages duplicate) + spare) =
      items .page (duplicatePages duplicate) + (takes (.clearPtdup root) + spare) :=
    add_left_comm _ _ _
  rw [next]
  refine (kfreeAll_holds (duplicatePages duplicate)).bind fun _ kept met => ?_
  subst met
  refine (call_holds (.clearPtdup root)).mono fun _ kept met => ?_
  rw [met.2]
  exact zero_add spare

theorem uvmunmap_keep_holds (kernel : trapframePage ≤ n) (low : n < maxPage)
    (filled : 0 < sz → table.Fits sz) :
    (custody strict).Holds (table.holding + spare) (table.uvmunmap (n * pgsize) pgsize false)
      fun after kept => kept = after.holding + spare ∧ after.root = table.root ∧
        (0 < sz → after.Fits sz) := by
  have numbers : trapframePage = 67108862 := trapframePage_eq
  have most : maxPage = 67108864 := maxPage_eq
  have sizes : pgsize = 4096 := pgsize_eq
  have small : n * pgsize + pgsize < 2 ^ 63 := by
    rw [sizes]
    omega
  obtain ⟨start, steps⟩ := unmap_range (show 0 < pgsize by decide) small
  have one : World.pageSteps (n * pgsize) pgsize = 0 := by
    rw [sizes] at steps ⊢
    omega
  unfold uvmunmap
  rw [start, one]
  refine (unmapPage_keep_holds kernel).bind fun after kept met => ?_
  obtain ⟨rfl, rfl⟩ := met
  refine l0PtesDelete_holds.mono fun after kept met => ?_
  obtain ⟨rfl, steady⟩ := met
  refine ⟨rfl, steady.root, fun positive => ⟨?_, (filled positive).low⟩⟩
  have few := (filled positive).pages_le
  have memory : memoryPages = 32768 := memoryPages_eq
  refine (((filled positive).filled.withoutLeaf n).congr fun k => ?_).steady steady
  constructor
  · exact And.left
  · intro inside
    exact ⟨inside, by omega⟩

/-- What `proc_freepagetable` does not give back. -/
structure Lost (root : Page) (sz : Nat) (lost : Holding) : Prop where
  none : 0 < sz → lost = 0
  root : sz = 0 → .page root ∈ lost

/-- `proc_freepagetable` gives back everything, unless the size is 0. -/
theorem procFreepagetable_holds (filled : 0 < sz → table.Fits sz) :
    (custody strict).Holds (table.holding + spare) (table.procFreepagetable sz)
      fun _ kept => ∃ lost, kept = lost + spare ∧ Lost table.root sz lost ∧ (strict → lost = 0) := by
  refine (idle_holds (.giveUp sz) rfl fun _ => rfl).bind fun _ kept met => ?_
  obtain ⟨told, rfl⟩ := met
  have sized : strict → 0 < sz := told
  have first : World.trampolineVa = trampolinePage * pgsize := by decide
  have second : World.trapframeVa = trapframePage * pgsize := by decide
  rw [first, second]
  refine (uvmunmap_keep_holds (by decide) (by decide) filled).bind fun middle kept met => ?_
  obtain ⟨rfl, rootMiddle, filledMiddle⟩ := met
  refine (uvmunmap_keep_holds (by decide) (by decide) filledMiddle).bind fun last kept met => ?_
  obtain ⟨rfl, rootLast, filledLast⟩ := met
  have same : last.root = table.root := rootLast.trans rootMiddle
  rw [← same]
  split
  · next positive =>
     refine (uvmfree_holds (filledLast positive) positive).bind fun duplicate kept met => ?_
     subst met
     refine ptdupDeleteAll_holds.mono fun _ kept met => ?_
     refine ⟨0, by rw [met, zero_add], ⟨fun _ => rfl, fun zero => ?_⟩, fun _ => rfl⟩
     exact absurd zero (Nat.ne_of_gt positive)
  · next zero =>
     have split : last.holding + spare = duplicateItems last.root last.duplicate +
         (last.tableItems + items .page last.userPages + spare) := by
       rw [holding]
       abel
     rw [split]
     refine ptdupDeleteAll_holds.mono fun _ kept met => ?_
     have tables : .page last.root ∈ last.tableItems := by
       simp [tableItems, tablePages]
     refine ⟨_, met, ⟨fun positive => absurd positive zero, fun _ => ?_⟩, fun holds => ?_⟩
     · exact mem_add.mpr (.inl tables)
     · exact absurd (sized holds) zero

/-! ## Creating -/

theorem ptdupInit_holds : (custody strict).Holds held (ptdupInit root)
    fun duplicate kept => kept = duplicateItems root duplicate + held := by
  have start : (custody strict).Holds (takes (.claimPtdup root) + held) (call (.claimPtdup root))
      _ := call_holds _
  rw [show takes (.claimPtdup root) = 0 from rfl, zero_add] at start
  refine start.bind fun claimed kept met => ?_
  obtain ⟨_, rfl⟩ := met
  cases claimed with
  | false => exact .fault
  | true =>
    refine (kallocOr_holds _).bind fun l2 kept met => ?_
    subst met
    refine (kallocOr_holds _).bind fun l1 kept met => ?_
    subst met
    refine (kallocOr_holds _).bind fun ptds kept met => ?_
    subst met
    refine (kallocOr_holds _).bind fun pted kept met => ?_
    subst met
    refine .pure ?_
    have claim : gives (.claimPtdup root) true = ({.claim root} : Holding) := rfl
    simp only [claim, duplicateItems, duplicatePages, List.map_nil, List.nil_append, items_cons,
      items_nil, ← singleton_add]
    abel

/-- A page of the kernel is mapped, or the table has only grown. -/
theorem mapRecorded_holds {perm : Nat} (filled : table.Filled 0) (kernel : trapframePage ≤ n)
    (read : perm &&& pteR ≠ 0) (fine : perm &&& pteU = 0) :
    (custody strict).Holds (table.holding + spare) (table.mapRecorded self n page perm)
      fun after kept => kept = after.holding + spare ∧ after.Filled 0 := by
  refine mappages_holds.bind fun answer kept met => ?_
  obtain ⟨res, mapped⟩ := answer
  obtain ⟨walked, steady, rfl, outcome⟩ := met
  have filledWalked : walked.Filled 0 := filled.steady steady
  have next : walked.holding = mapped.holding ∧ mapped.Filled 0 := by
    obtain ⟨-, absent, reached, equal⟩ | ⟨-, equal⟩ := outcome
    · have equal : mapped = walked.withLeaf n ⟨page, perm⟩ := equal
      rw [equal]
      refine ⟨(holding_withLeaf_kernel kernel).symm, ?_⟩
      have added : (walked.withLeaf n ⟨page, perm⟩).Spans fun k => k < 0 ∨ k = n :=
        filledWalked.withLeaf absent reached read fun _ => fine
      refine ⟨added.once, fun k user => ?_, added.reached, added.readable, added.kernel⟩
      rw [added.user k user]
      constructor
      · intro either
        exact either.resolve_right (by omega)
      · exact .inl
    · have equal : mapped = walked := equal
      rw [equal]
      exact ⟨rfl, filledWalked⟩
  rw [next.1]
  refine l0PtesAdd_holds.mono fun after kept met => ?_
  exact ⟨met.1, next.2.steady met.2⟩

/-- `proc_pagetable` makes an address space of size 0. -/
theorem procPagetable_holds {pid : Nat} {tf : Page} :
    (custody strict).Holds held (procPagetable trampoline self pid tf)
      fun table kept => kept = table.holding + held ∧ table.Filled 0 := by
  refine (kallocOr_holds _).bind fun root kept met => ?_
  subst met
  refine ptdupInit_holds.bind fun duplicate kept met => ?_
  subst met
  refine (registerPtbMlist_holds _ _ _).bind fun _ kept met => ?_
  subst met
  let bare : Table := ⟨root, [], [], [], duplicate⟩
  have start : .entry root ::ₘ (duplicateItems root duplicate + .page root ::ₘ held) =
      bare.holding + held := by
    have pages : bare.tablePages = [root] := rfl
    have none : bare.userPages = [] := rfl
    rw [holding, tableItems, pages, none]
    simp only [items_cons, items_nil, ← singleton_add]
    show _ = _ + _ + duplicateItems root duplicate + 0 + held
    abel
  have empty : bare.Filled 0 := by
    refine ⟨List.nodup_nil, fun k _ => ?_, fun k there => ?_, fun k pte found => ?_,
      fun k pte _ found => ?_⟩
    · simp [bare, leaf]
    · cases there
    · cases found
    · cases found
  rw [start]
  refine (mapRecorded_holds empty (by decide) (by decide) (by decide)).bind
    fun middle kept met => ?_
  obtain ⟨rfl, filled⟩ := met
  exact mapRecorded_holds filled (by decide) (by decide) (by decide)

end Table

/-! ## Processes -/

/-- What a process holds. -/
def Proc.holding (p : Proc) : Holding := .page p.tf ::ₘ p.table.holding

/-- The page table of a process is that of an address space of its size. -/
def Proc.Sized (p : Proc) : Prop := p.table.Fits p.sz

variable {p : Proc}

variable {self : Nat}

theorem allocproc_holds : (custody strict).Holds held (allocproc trampoline self) fun found kept =>
      (found = none ∧ kept = held) ∨
        ∃ np, found = some np ∧ kept = np.holding + held ∧ np.table.Filled 0 ∧ np.sz = 0 := by
  refine (idle_holds .allocpid rfl fun _ => rfl).bind fun pid kept met => ?_
  obtain ⟨_, rfl⟩ := met
  refine kalloc_holds.bind fun found kept met => ?_
  subst met
  cases found with
  | none => exact .pure (.inl ⟨rfl, by simp⟩)
  | some tf =>
    refine Table.procPagetable_holds.bind fun table kept met => ?_
    obtain ⟨rfl, filled⟩ := met
    refine (idle_holds (.initRcsInfos pid) rfl fun _ => rfl).bind fun _ kept met => ?_
    obtain ⟨_, rfl⟩ := met
    refine .pure (.inr ⟨_, rfl, ?_, filled, rfl⟩)
    simp only [Option.toList_some, items_cons, items_nil, Proc.holding, ← singleton_add]
    abel

/-- `freeproc` gives back everything, unless the size is 0. -/
theorem freeproc_holds (sized : 0 < p.sz → p.Sized) :
    (custody strict).Holds (p.holding + spare) (freeproc p)
      fun _ kept => ∃ lost, kept = lost + spare ∧ Table.Lost p.table.root p.sz lost ∧
        (strict → lost = 0) := by
  rw [Proc.holding, cons_add]
  refine (kfree_holds p.tf).bind fun _ kept met => ?_
  subst met
  refine (Table.procFreepagetable_holds sized).bind fun _ kept met => ?_
  refine (idle_holds (.deletePtbMlistAll p.pid) rfl fun _ => rfl).bind fun _ kept same => ?_
  obtain ⟨_, rfl⟩ := same
  refine (idle_holds (.deleteTransInfo p.pid) rfl fun _ => rfl).bind fun _ kept same => ?_
  obtain ⟨_, rfl⟩ := same
  refine (idle_holds (.freeRcsHistory p.pid) rfl fun _ => rfl).mono fun _ kept same => ?_
  obtain ⟨_, rfl⟩ := same
  exact met

/-- How `fork` of a process ends: without a child before it has made one, without one after
`uvmcopy` has failed, or with a child of the size of the parent. -/
inductive Forked (strict : Prop) (held : Holding) : Option Proc → Holding → Prop
  | early : Forked strict held none held
  | late (root : Page) (lost : Holding) (leaks : .page root ∈ lost) (loose : ¬strict) :
      Forked strict held none (lost + held)
  | child (np : Proc) (sized : np.Sized) : Forked strict held (some np) (np.holding + held)

theorem fork_holds (sized : p.Sized) :
    (custody strict).Holds held (fork trampoline p) fun found kept => Forked strict held found kept := by
  refine allocproc_holds.bind fun found kept met => ?_
  obtain ⟨rfl, rfl⟩ | ⟨np, rfl, rfl, filled, zero⟩ := met
  · exact .pure .early
  · dsimp only
    have split : np.holding + held = np.table.holding + (.page np.tf ::ₘ held) := by
      simp only [Proc.holding, ← singleton_add]
      abel
    rw [split]
    refine (Table.uvmcopy_holds sized.filled filled sized.low).bind fun answer kept met => ?_
    obtain ⟨res, copied⟩ := answer
    obtain ⟨rfl, ⟨failed, _⟩ | ⟨done, fits⟩⟩ := met
    · have failed : res = -1 := failed
      dsimp only
      rw [failed, if_pos (by decide)]
      have whole : copied.holding + (.page np.tf ::ₘ held) =
          ({ np with table := copied } : Proc).holding + held := by
        simp only [Proc.holding, ← singleton_add]
        abel
      rw [whole]
      let child : Proc := { np with table := copied }
      have unsized : 0 < child.sz → child.Sized := fun positive =>
        absurd zero (Nat.ne_of_gt positive)
      refine (freeproc_holds unsized).bind fun _ kept met => ?_
      obtain ⟨lost, rfl, left, tight⟩ := met
      have leaks : .page copied.root ∈ lost := left.root zero
      refine .pure (.late copied.root lost leaks fun holds => ?_)
      rw [tight holds] at leaks
      exact absurd leaks (Multiset.notMem_zero _)
    · have done : res = 0 := done
      dsimp only
      rw [done, if_neg (by decide)]
      refine (idle_holds (.registerTransInfo np.pid) rfl fun _ => rfl).bind fun _ kept met => ?_
      obtain ⟨_, rfl⟩ := met
      have whole : copied.holding + (.page np.tf ::ₘ held) =
          ({ np with table := copied, sz := p.sz } : Proc).holding + held := by
        simp only [Proc.holding, ← singleton_add]
        abel
      rw [whole]
      exact .pure (.child _ fits)

theorem uint_eq {n : Nat} (small : n < 2 ^ 32) : uint n = n := by
  unfold uint
  omega

theorem growproc_holds (sized : p.Sized) (n : Int) :
    (custody strict).Holds (p.holding + spare) (growproc p n)
      fun answer kept => kept = answer.2.holding + spare ∧ answer.2.Sized := by
  have small : p.sz ≤ 134217728 := sized.small
  have same : uint p.sz = p.sz := uint_eq (by omega)
  have split (table : Table) (sz : Nat) : ({ p with table := table, sz := sz } : Proc).holding + spare =
      table.holding + (.page p.tf ::ₘ spare) := by
    simp only [Proc.holding, ← singleton_add]
    abel
  have start : p.holding + spare = p.table.holding + (.page p.tf ::ₘ spare) := split p.table p.sz
  unfold growproc
  rw [same, start]
  dsimp only
  split
  · refine (Table.uvmalloc_holds sized).bind fun answer kept met => ?_
    obtain ⟨res, table⟩ := answer
    obtain ⟨rfl, failed, grown⟩ := met
    dsimp only at failed grown ⊢
    by_cases zero : res = 0
    · rw [zero, if_pos (by decide)]
      exact .pure ⟨(split table p.sz).symm, failed zero⟩
    · have bound := (grown zero).small
      have keeps : uint res = res := uint_eq (by omega)
      rw [keeps, if_neg zero]
      exact .pure ⟨(split table res).symm, grown zero⟩
  split
  · have low : uint (p.sz + n) < 2 ^ 32 := by
      unfold uint
      omega
    refine (Table.uvmdealloc_holds p.sz (uint (p.sz + n)) sized.filled (by omega) (by omega)
      sized.pages_le).bind fun answer kept met => ?_
    obtain ⟨res, table⟩ := answer
    obtain ⟨rfl, least, shrunk⟩ := met
    dsimp only at least shrunk ⊢
    have less : res ≤ p.sz := by
      rw [least]
      exact min_le_left _ _
    have keeps : uint res = res := uint_eq (by omega)
    rw [keeps]
    rw [← least] at shrunk
    exact .pure ⟨(split table res).symm, shrunk, less.trans sized.low⟩
  · exact .pure ⟨(split p.table p.sz).symm, sized⟩

/-! ## `exec` -/

namespace Table

variable {table : Table} {self sz : Nat}

theorem loadsegLoop_holds (va count i reads : Nat) :
    (custody strict).Holds held (table.loadsegLoop va count i reads) fun _ kept => kept = held := by
  induction count generalizing i reads with
  | zero => exact .pure rfl
  | succ count ih =>
    unfold loadsegLoop
    split
    · exact .fault
    · split
      · exact .pure rfl
      · exact ih _ _

theorem loadseg_holds (va size reads : Nat) :
    (custody strict).Holds held (table.loadseg va size reads) fun _ kept => kept = held := by
  unfold loadseg
  split
  · exact .fault
  · exact loadsegLoop_holds va _ 0 reads

/-- The leaves are those of the whole pages of the size. -/
theorem Fits.pgroundup (fits : table.Fits sz) : table.Fits (pgroundup sz) := by
  have small := fits.small
  have few := fits.pages_le
  have whole : PageTable.pgroundup sz = pages sz * pgsize := by
    rw [pgroundup_eq (by omega), pages_eq (by omega), pgsize_eq]
  rw [whole]
  refine ⟨?_, Nat.mul_le_mul_right _ few⟩
  rw [pages_mul few]
  exact fits.filled

end Table

/-- What the loops and the end of `exec` leave: a page table of the size, unless the size is
0 because `uvmalloc` has failed. -/
def Loaded (spare : Holding) (answer : Bool × Table × Nat) (kept : Holding) : Prop :=
  kept = answer.2.1.holding + spare ∧ (0 < answer.2.2 → answer.2.1.Fits answer.2.2) ∧
    (answer.1 = true → answer.2.1.Fits answer.2.2)

variable {table : Table}

theorem loadHeaders_holds (headers : List (Option Proghdr)) {sz : Nat} (fits : table.Fits sz) :
    (custody strict).Holds (table.holding + spare) (loadHeaders self headers table sz)
      (Loaded spare) := by
  have stop {table : Table} {sz : Nat} (fits : 0 < sz → table.Fits sz) :
      Loaded spare (false, table, sz) (table.holding + spare) :=
    ⟨rfl, fits, fun never => by cases never⟩
  induction headers generalizing table sz with
  | nil => exact .pure ⟨rfl, fun _ => fits, fun _ => fits⟩
  | cons header rest ih =>
    cases header with
    | none => exact .pure (stop fun _ => fits)
    | some ph =>
      unfold loadHeaders
      split
      · exact ih fits
      split
      · exact .pure (stop fun _ => fits)
      split
      · exact .pure (stop fun _ => fits)
      refine (Table.uvmalloc_holds fits).bind fun answer kept met => ?_
      obtain ⟨size, grown⟩ := answer
      obtain ⟨rfl, -, filled⟩ := met
      dsimp only at filled ⊢
      by_cases zero : size = 0
      · rw [if_pos zero]
        exact .pure (stop fun positive => absurd positive (Nat.lt_irrefl 0))
      · rw [if_neg zero]
        split
        · exact .pure (stop fun _ => filled zero)
        · refine (Table.loadseg_holds _ _ _).bind fun loaded kept met => ?_
          subst met
          split
          · exact ih (filled zero)
          · exact .pure (stop fun _ => filled zero)

theorem execStack_holds {image : Image} {sz : Nat} (fits : table.Fits sz) :
    (custody strict).Holds (table.holding + spare) (execStack self image table sz)
      (Loaded spare) := by
  refine (Table.uvmalloc_holds fits.pgroundup).bind fun answer kept met => ?_
  obtain ⟨size, grown⟩ := answer
  obtain ⟨rfl, -, filled⟩ := met
  dsimp only at filled ⊢
  by_cases zero : size = 0
  · rw [if_pos zero]
    refine .pure ⟨rfl, fun positive => ?_, fun never => by cases never⟩
    exact absurd positive (Nat.lt_irrefl 0)
  · rw [if_neg zero]
    refine (Table.uvmclear_holds (filled zero)).bind fun cleared kept met => ?_
    obtain ⟨rfl, fits⟩ := met
    exact .pure ⟨rfl, fun _ => fits, fun _ => fits⟩

theorem execImage_holds {image : Image} (fits : table.Fits 0) :
    (custody strict).Holds (table.holding + spare) (execImage self image table) (Loaded spare) := by
  refine (loadHeaders_holds image.headers fits).bind fun answer kept met => ?_
  obtain ⟨loaded, grown, sz⟩ := answer
  obtain ⟨rfl, left, ready⟩ := met
  cases loaded with
  | true => exact execStack_holds (ready rfl)
  | false => exact .pure ⟨rfl, left, fun never => by cases never⟩

/-- `exec`, with the new address space or the old one. -/
theorem exec_holds (sized : p.Sized) (image : Image) :
    (custody strict).Holds (p.holding + spare) (exec trampoline p image)
      fun answer kept => ∃ lost, kept = answer.2.holding + (lost + spare) ∧ answer.2.Sized ∧
        (strict → lost = 0) := by
  have split (table : Table) (sz : Nat) (rest : Holding) :
      ({ p with table := table, sz := sz } : Proc).holding + rest =
        table.holding + (.page p.tf ::ₘ rest) := by
    simp only [Proc.holding, ← singleton_add]
    abel
  unfold exec
  split
  · exact .pure ⟨0, by rw [zero_add], sized, fun _ => rfl⟩
  · refine Table.procPagetable_holds.bind fun fresh kept met => ?_
    obtain ⟨rfl, filled⟩ := met
    have start : fresh.Fits 0 := ⟨filled, Nat.zero_le _⟩
    refine (execImage_holds start).bind fun answer kept met => ?_
    obtain ⟨ready, table, sz⟩ := answer
    obtain ⟨rfl, left, done⟩ := met
    dsimp only at left done ⊢
    cases ready with
    | true =>
      rw [if_pos rfl]
      have old : table.holding + (p.holding + spare) =
          p.table.holding + (({ p with table := table, sz := sz } : Proc).holding + spare) := by
        simp only [Proc.holding, ← singleton_add]
        abel
      rw [old]
      refine (Table.procFreepagetable_holds fun _ => sized).bind fun _ kept met => ?_
      obtain ⟨lost, rfl, -, tight⟩ := met
      exact .pure ⟨lost, add_left_comm _ _ _, done rfl, tight⟩
    | false =>
      rw [if_neg (by decide)]
      refine (Table.procFreepagetable_holds left).bind fun _ kept met => ?_
      obtain ⟨lost, rfl, -, tight⟩ := met
      exact .pure ⟨lost, add_left_comm _ _ _, sized, tight⟩

end Ev6.AddressSpace
