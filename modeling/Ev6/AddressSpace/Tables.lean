import Ev6.AddressSpace.Memory
import Ev6.Support.AssocList

/-!
# The pages of an address space

The functions of `vm.c` that grow, copy, shrink and free the address space of a process,
and those of `ptdup.c` that they call, with every page that they take from `kalloc` or give
to `kfree`. A page table is the tree that its words make: the tables of the lower levels by
their indices, and the leaves by the numbers of their virtual pages. Of the records of a
duplicate only the pages are kept.

A page table comes with its duplicate. The functions of `ptdup.c` find it by the first index
of `idx_ptdup` that holds the root, which is its own as long as no other index holds that
root (`Op.ClaimsNew`).
-/

namespace Ev6.AddressSpace

open Support PageTable

/-- A valid entry of an L0 table: the page, and the flags without `PTE_V`. -/
structure Pte where
  page : Page
  perm : Nat
deriving DecidableEq

/-- `struct ptdup_head`: the copy of the L2 table, the array of the copies of the L1 tables,
these copies by their indices, and the pages of the two lists of records. -/
structure Duplicate where
  l2 : Page
  l1 : Page
  copies : List (Nat × Page)
  records : List Page

/-- A page table: its root, the L1 tables by their index in the root, the L0 tables by that
index and their own, the leaves, and the duplicate. -/
structure Table where
  root : Page
  l1 : List (Nat × Page)
  l0 : List ((Nat × Nat) × Page)
  leaves : List (Nat × Pte)
  duplicate : Duplicate

/-- The number of virtual pages below `MAXVA`. -/
def maxPage : Nat := maxva / pgsize

/-- The numbers of the pages at `TRAMPOLINE` and `TRAPFRAME`. -/
def trampolinePage : Nat := maxPage - 1

def trapframePage : Nat := maxPage - 2

/-- The index of a page in the L2 table. -/
def index2 (n : Nat) : Nat := n / 2 ^ 18

/-- The index of a page in its L1 table. -/
def index1 (n : Nat) : Nat := n / 2 ^ 9 % 2 ^ 9

namespace Table

/-- A leaf is added. -/
def withLeaf (table : Table) (n : Nat) (pte : Pte) : Table :=
  { table with leaves := (n, pte) :: table.leaves }

/-- A leaf is removed. -/
def withoutLeaf (table : Table) (n : Nat) : Table :=
  { table with leaves := AssocList.remove table.leaves n }

/-- An L1 table is added. -/
def withL1 (table : Table) (i : Nat) (page : Page) : Table :=
  { table with l1 := (i, page) :: table.l1 }

/-- An L0 table is added. -/
def withL0 (table : Table) (i j : Nat) (page : Page) : Table :=
  { table with l0 := ((i, j), page) :: table.l0 }

/-- The copy of an L1 table is added. -/
def withCopy (table : Table) (i : Nat) (page : Page) : Table :=
  { table with
    duplicate := { table.duplicate with copies := (i, page) :: table.duplicate.copies } }

/-- Pages are added to the lists of records. -/
def withRecords (table : Table) (pages : List Page) : Table :=
  { table with
    duplicate := { table.duplicate with records := pages ++ table.duplicate.records } }

/-! ## Records -/

/-- `L0_ptes_add`. -/
def l0PtesAdd (table : Table) : Prog Table := do
  findPtdupOr table.root .l0PtesAddNoIndex
  let pages ← recordPages
  pure (table.withRecords pages)

/-- `L0_ptes_delete`, which may split records. -/
def l0PtesDelete (table : Table) : Prog Table := do
  let pages ← recordPages
  pure (table.withRecords pages)

/-- `L0_ptes_clear_user`, which may split records. -/
def l0PtesClearUser (table : Table) : Prog Table := table.l0PtesDelete

/-! ## Walking -/

/-- `register_ptb_mlist` for a table that `walk` has added. -/
def registerAdded (self : Nat) (page : Page) (level : Level) : Prog Unit := do
  let nextpid ← call .nextpid
  if 2 < nextpid then call (.registerPtbMlist self page level) else pure ()

/-- `ptdup_create_l1`. -/
def ptdupCreateL1 (table : Table) (i : Nat) : Prog Table := do
  findPtdupOr table.root .ptdupCreateL1NoIndex
  let copy ← kallocOr .ptdupCreateL1Kalloc
  pure (table.withCopy i copy)

/-- `ptdup_update`. -/
def ptdupUpdate (table : Table) (i : Nat) : Prog Table := do
  findPtdupOr table.root .ptdupUpdateNoIndex
  match AssocList.find table.duplicate.copies i with
  | none => .fault .ptdupUpdateNoPagetable
  | some _ => pure table

/-- The first round of `walk` with `alloc`: false where it returns 0. -/
def enterL1 (table : Table) (self i : Nat) : Prog (Bool × Table) :=
  match AssocList.find table.l1 i with
  | some _ => pure (true, table)
  | none =>
    call .kalloc >>= fun found =>
      match found with
      | none => pure (false, table)
      | some page => do
          registerAdded self page .l1
          let nextpid ← call .nextpid
          if 2 < nextpid then do
            let table ← (table.withL1 i page).ptdupCreateL1 i
            pure (true, table)
          else pure (true, table.withL1 i page)

/-- The second round. -/
def enterL0 (table : Table) (self i j : Nat) : Prog (Bool × Table) :=
  match AssocList.find table.l0 (i, j) with
  | some _ => pure (true, table)
  | none =>
    call .kalloc >>= fun found =>
      match found with
      | none => pure (false, table)
      | some page => do
          registerAdded self page .l0
          let nextpid ← call .nextpid
          if 2 < nextpid then do
            let table ← (table.withL0 i j page).ptdupUpdate i
            pure (true, table)
          else pure (true, table.withL0 i j page)

/-- `walk` with `alloc`, of the process `self`. -/
def walk (table : Table) (self n : Nat) : Prog (Bool × Table) :=
  if maxPage ≤ n then .fault .walk
  else
    table.enterL1 self (index2 n) >>= fun (there, table) =>
      if there then table.enterL0 self (index2 n) (index1 n) else pure (false, table)

/-- `walk` without `alloc` finds an L0 table. -/
def reaches (table : Table) (n : Nat) : Bool :=
  (AssocList.find table.l1 (index2 n)).isSome &&
    (AssocList.find table.l0 (index2 n, index1 n)).isSome

/-- The valid entry of a page. -/
def leaf (table : Table) (n : Nat) : Option Pte := AssocList.find table.leaves n

/-- `walkaddr`. -/
def walkaddr (table : Table) (va : Nat) : Option Page :=
  if maxva ≤ va then none
  else if table.reaches (va / pgsize) = false then none
  else
    match table.leaf (va / pgsize) with
    | none => none
    | some pte => if pte.perm &&& pteU = 0 then none else some pte.page

/-! ## Mapping and unmapping -/

/-- `mappages` for one page. -/
def mappages (table : Table) (self n : Nat) (page : Page) (perm : Nat) : Prog (Int × Table) :=
  table.walk self n >>= fun (there, table) =>
    if there then
      match table.leaf n with
      | some _ => .fault .remap
      | none => pure (0, table.withLeaf n ⟨page, perm⟩)
    else pure (-1, table)

/-- One round of the loop of `uvmunmap`. -/
def unmapPage (table : Table) (n : Nat) (doFree : Bool) : Prog Table :=
  if maxPage ≤ n then .fault .walk
  else if table.reaches n = false then .fault .uvmunmapWalk
  else
    match table.leaf n with
    | none => .fault .uvmunmapNotMapped
    | some pte =>
      if pte.perm = 0 then .fault .uvmunmapNotALeaf
      else (if doFree then kfree pte.page else pure ()) >>= fun _ => pure (table.withoutLeaf n)

/-- The loop of `uvmunmap`, with the number of steps to its last page. -/
def unmapPages (doFree : Bool) : Nat → Nat → Table → Prog Table
  | 0, n, table => table.unmapPage n doFree
  | steps + 1, n, table =>
    table.unmapPage n doFree >>= fun table => unmapPages doFree steps (n + 1) table

/-- `uvmunmap`. -/
def uvmunmap (table : Table) (va size : Nat) (doFree : Bool) : Prog Table := do
  let table ← unmapPages doFree (World.pageSteps va size) (pgrounddown va / pgsize) table
  table.l0PtesDelete

/-- `uvmdealloc`. -/
def uvmdealloc (table : Table) (oldsz newsz : Nat) : Prog (Nat × Table) :=
  if oldsz ≤ newsz then pure (oldsz, table)
  else if pgroundup newsz < pgroundup oldsz then do
    let table ← table.uvmunmap (pgroundup newsz) (oldsz - pgroundup newsz) true
    pure (newsz, table)
  else pure (newsz, table)

/-! ## Growing -/

/-- `ptds_size` and `bmem` in the loops of `uvmalloc` and `uvmcopy`, and whether `entry` is
not 0. -/
structure Run where
  size : Nat
  bmem : Nat
  entry : Bool

/-- The run before the loop. -/
def Run.start : Run := ⟨0, 0, false⟩

/-- The records of a page that has just been mapped. A page that does not continue the run
ends it; `second` is the number of the second page of the loop. -/
def recordPage (table : Table) (run : Run) (n second : Nat) (mem : Page) : Prog (Run × Table) :=
  if subWord run.bmem mem = pgsize ∨ subWord mem run.bmem = pgsize ∨ run.bmem = 0 then
    pure (⟨run.size + 1, mem, true⟩, table)
  else do
    let table ← table.l0PtesAdd
    let table ← (if n = second then table.l0PtesAdd else pure table)
    pure (⟨0, mem, false⟩, table)

/-- The records of the last run. -/
def recordLast (table : Table) (run : Run) : Prog Table :=
  if 1 < run.size ∨ run.entry = true then table.l0PtesAdd else pure table

/-- The end of `uvmalloc` without memory, at the page numbered `n`. -/
def uvmallocErr (table : Table) (oldsz n : Nat) : Prog (Option Run × Table) := do
  let (_, table) ← table.uvmdealloc (n * pgsize) oldsz
  pure (none, table)

/-- The loop of `uvmalloc` over the pages from the one numbered `n` on. It gives no run
where it has run out of memory and has taken back the pages behind `oldsz`. -/
def uvmallocLoop (self oldsz : Nat) : Nat → Nat → Run → Table → Prog (Option Run × Table)
  | 0, _, run, table => pure (some run, table)
  | count + 1, n, run, table =>
    call .kalloc >>= fun found =>
      match found with
      | none => table.uvmallocErr oldsz n
      | some mem =>
        table.mappages self n mem userPerm >>= fun (res, table) =>
          if res ≠ 0 then do
            kfree mem
            table.uvmallocErr oldsz n
          else
            table.recordPage run n (oldsz / pgsize + 1) mem >>= fun (run, table) =>
              uvmallocLoop self oldsz count (n + 1) run table

/-- `uvmalloc`. -/
def uvmalloc (table : Table) (self oldsz newsz : Nat) : Prog (Nat × Table) :=
  if newsz < oldsz then pure (oldsz, table)
  else
    let oldsz := pgroundup oldsz
    let count := (newsz - oldsz + (pgsize - 1)) / pgsize
    uvmallocLoop self oldsz count (oldsz / pgsize) .start table >>= fun (run, table) =>
      match run with
      | none => pure (0, table)
      | some run => do
          let table ← table.recordLast run
          pure (newsz, table)

/-! ## Copying -/

/-- The end of `uvmcopy` without memory, at the page numbered `n`. -/
def uvmcopyErr (table : Table) (n : Nat) : Prog (Option Run × Table) := do
  let table ← table.uvmunmap 0 (n * pgsize) true
  pure (none, table)

/-- The loop of `uvmcopy` over the pages from the one numbered `n` on. -/
def uvmcopyLoop (self : Nat) (old : Table) : Nat → Nat → Run → Table → Prog (Option Run × Table)
  | 0, _, run, table => pure (some run, table)
  | count + 1, n, run, table =>
    if maxPage ≤ n then .fault .walk
    else if old.reaches n = false then .fault .uvmcopyExist
    else
      match old.leaf n with
      | none => .fault .uvmcopyPresent
      | some pte =>
        call .kalloc >>= fun found =>
          match found with
          | none => table.uvmcopyErr n
          | some mem =>
            table.mappages self n mem pte.perm >>= fun (res, table) =>
              if res ≠ 0 then do
                kfree mem
                table.uvmcopyErr n
              else
                table.recordPage run n 1 mem >>= fun (run, table) =>
                  uvmcopyLoop self old count (n + 1) run table

/-- `uvmcopy`. -/
def uvmcopy (table : Table) (self : Nat) (old : Table) (sz : Nat) : Prog (Int × Table) :=
  uvmcopyLoop self old ((sz + (pgsize - 1)) / pgsize) 0 .start table >>= fun (run, table) =>
    match run with
    | none => pure (-1, table)
    | some run => do
        let table ← table.recordLast run
        pure (0, table)

/-- `PTE_U` is cleared in the entry of a page. -/
def clearUser (n key : Nat) (pte : Pte) : Pte :=
  if key = n then { pte with perm := pte.perm &&& (2 ^ 64 - 1 - pteU) } else pte

/-- `uvmclear`. -/
def uvmclear (table : Table) (n : Nat) : Prog Table :=
  if maxPage ≤ n then .fault .walk
  else if table.reaches n = false then .fault .uvmclear
  else l0PtesClearUser { table with leaves := AssocList.mapValues (clearUser n) table.leaves }

/-! ## Freeing -/

/-- The pages of the tables themselves, those of the lower levels first. -/
def tablePages (table : Table) : List Page :=
  table.l0.map Prod.snd ++ (table.l1.map Prod.snd ++ [table.root])

/-- Tables are freed, and deleted from the M-List. -/
def freeTables : List Page → Prog Unit
  | [] => pure ()
  | page :: pages => do
      kfree page
      call (.deletePtbMlist page)
      freeTables pages

/-- `freewalk`. -/
def freewalk (table : Table) : Prog Unit :=
  if table.leaves = [] then freeTables table.tablePages else .fault .freewalkLeaf

/-- `uvmfree`, with what is left in the duplicate. -/
def uvmfree (table : Table) (sz : Nat) : Prog Duplicate := do
  let table ← table.uvmunmap 0 sz true
  table.freewalk
  pure table.duplicate

/-- The pages of a duplicate. -/
def duplicatePages (duplicate : Duplicate) : List Page :=
  duplicate.copies.map Prod.snd ++ (duplicate.l1 :: duplicate.l2 :: duplicate.records)

/-- `ptdup_delete_all`. -/
def ptdupDeleteAll (root : Page) (duplicate : Duplicate) : Prog Unit :=
  call (.findPtdup root) >>= fun found =>
    if found then do
      kfreeAll (duplicatePages duplicate)
      call (.clearPtdup root)
    else pure ()

/-- `proc_freepagetable`. -/
def procFreepagetable (table : Table) (sz : Nat) : Prog Unit := do
  call (.giveUp sz)
  let table ← table.uvmunmap World.trampolineVa pgsize false
  let table ← table.uvmunmap World.trapframeVa pgsize false
  let duplicate ← (if 0 < sz then table.uvmfree sz else pure table.duplicate)
  ptdupDeleteAll table.root duplicate

/-! ## Creating -/

/-- `ptdup_init`. -/
def ptdupInit (root : Page) : Prog Duplicate :=
  call (.claimPtdup root) >>= fun claimed =>
    if claimed then do
      let l2 ← kallocOr .fault
      let l1 ← kallocOr .fault
      let ptds ← kallocOr .fault
      let pted ← kallocOr .fault
      pure ⟨l2, l1, [], [ptds, pted]⟩
    else .fault .ptdupInitNoIndex

/-- A page that `proc_pagetable` maps and records, whatever `mappages` returns. -/
def mapRecorded (table : Table) (self n : Nat) (page : Page) (perm : Nat) : Prog Table :=
  table.mappages self n page perm >>= fun (_, table) => table.l0PtesAdd

/-- `proc_pagetable` for the process `pid`, called by the process `self`. -/
def procPagetable (trampoline : Page) (self pid : Nat) (tf : Page) : Prog Table := do
  let root ← kallocOr .uvmcreate
  let duplicate ← ptdupInit root
  call (.registerPtbMlist pid root .l2)
  let table ← mapRecorded ⟨root, [], [], [], duplicate⟩ self trampolinePage trampoline
    (pteR ||| pteX)
  table.mapRecorded self trapframePage tf (pteR ||| pteW)

end Table

end Ev6.AddressSpace
