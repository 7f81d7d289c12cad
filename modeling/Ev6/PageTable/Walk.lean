import Ev6.PageTable.Records
import Ev6.MList.Nodes

/-!
# Page tables in use

`walk`, `mappages`, `uvmunmap` and `uvmclear` of `vm.c` and `proc_pagetable` of `proc.c`,
with the functions of `ptdup.c` that they call. A page table page that `walk` adds is
copied into the duplicate of the table, unless the first process is still alone.
-/

namespace Ev6.PageTable

open Function (update)
open Support

/-- The panics, and the fault of a store to address 0. -/
inductive Panic where
  | fault
  | kfree
  | walk
  | remap
  | uvmcreate
  | uvmunmapWalk
  | uvmunmapNotMapped
  | uvmunmapNotALeaf
  | uvmclear
  | ptdupInitNoIndex
  | ptdupInitNull
  | ptdupCreateL1NoIndex
  | ptdupCreateL1Null
  | ptdupCreateL1Kalloc
  | ptdupUpdateNoIndex
  | ptdupUpdateNull
  | ptdupUpdateNoPagetable
  | l0PtesAddNoIndex
  | ptdsPtedAddKalloc
deriving DecidableEq

/-- The page tables, `nextpid`, and the pages on `kmem->freelist`. `kernelEnd` is the first
address behind the kernel. `mlistFull` tells for each call of `register_ptb_mlist` to come
whether it finds the M-List full. -/
structure World where
  tables : Tables
  nextpid : Nat
  free : List Page
  kernelEnd : Nat
  mlistFull : List Bool

/-- The scan of `idx_ptdup` for a page table. -/
def Tables.ptdupIndex (tables : Tables) (pagetable : Nat) : Option Nat :=
  firstSlot (fun i => tables.idxPtdup i = pagetable) ptdupSize

namespace World

/-- `page[index] = value`. -/
def write (world : World) (page index value : Nat) : World :=
  { world with
    tables := { world.tables with memory := world.tables.memory.write page index value } }

/-- `memset(page, value, PGSIZE)`. -/
def memset (world : World) (page value : Nat) : World :=
  { world with tables := { world.tables with memory := memsetPage world.tables.memory page value } }

/-- Store to `ptdup_head[idx]`. -/
def setHead (world : World) (idx : Nat) (head : PtdupHead) : World :=
  { world with
    tables := { world.tables with head := update world.tables.head idx head } }

/-! ## The allocator -/

/-- `kalloc`. -/
def kalloc (world : World) : Option (Page × World) :=
  match world.free with
  | [] => none
  | page :: rest => some (page, { world with free := rest }.memset page novalue)

/-- `kalloc`, where the page is written to at once. -/
def kallocOrFault (world : World) : Except Panic (Page × World) :=
  match world.kalloc with
  | none => .error .fault
  | some answer => .ok answer

/-- `kfree`. -/
def kfree (world : World) (pa : Nat) : Except Panic World :=
  if physical : IsPage pa ∧ world.kernelEnd ≤ pa then
    let next := (world.free.head?.map Subtype.val).getD 0
    let filled := (world.memset pa MList.emptyMark).write pa 0 next
    .ok { filled with free := ⟨pa, physical.1⟩ :: world.free }
  else .error .kfree

/-- `register_ptb_mlist`, of which only the page is seen here that it takes when the list
is full. Without a page it gives up. -/
def registerPtbMlist (world : World) : World :=
  let called := { world with mlistFull := world.mlistFull.tail }
  if world.mlistFull.headD false then (called.kalloc.map Prod.snd).getD called else called

/-! ## The duplicates of the upper levels -/

/-- `ptdup_init`. -/
def ptdupInit (world : World) (l2 : Nat) : Except Panic World :=
  match world.tables.ptdupIndex 0 with
  | none => .error .ptdupInitNoIndex
  | some idx =>
    if l2 = 0 then .error .ptdupInitNull
    else
      world.kallocOrFault.bind fun (copy, world) =>
        (world.memset copy 0).kallocOrFault.bind fun (directory, world) =>
          (world.memset directory 0).kallocOrFault.bind fun (ptds, world) =>
            world.kallocOrFault.bind fun (pted, world) =>
              let head : PtdupHead :=
                { l2 := copy
                  l1 := directory
                  l0Ptds := some ⟨ptds, 0, fun _ => novalue⟩
                  l0Pted := some ⟨pted, 0, fun _ => novalue⟩ }
              .ok { world with
                tables := { world.tables with
                  head := update world.tables.head idx head
                  idxPtdup := update world.tables.idxPtdup idx l2 } }

/-- `ptdup_create_l1`. -/
def ptdupCreateL1 (world : World) (l2 l1 content : Nat) : Except Panic World :=
  match world.tables.ptdupIndex l2 with
  | none => .error .ptdupCreateL1NoIndex
  | some idx =>
    if l1 = 0 then .error .ptdupCreateL1Null
    else
      match firstSlot (fun i => l1 = pte2pa (world.tables.memory l2 i)) entrySize with
      | none => .ok world
      | some i =>
        match world.kalloc with
        | none => .error .ptdupCreateL1Kalloc
        | some (copy, world) =>
          let head := world.tables.head idx
          .ok (((world.memset copy 0).write head.l1 i copy).write head.l2 i content)

/-- `ptdup_update`. -/
def ptdupUpdate (world : World) (l2 l1 content index : Nat) : Except Panic World :=
  match world.tables.ptdupIndex l2 with
  | none => .error .ptdupUpdateNoIndex
  | some idx =>
    if l1 = 0 then .error .ptdupUpdateNull
    else
      let head := world.tables.head idx
      let found := firstSlot (fun i => l1 = pte2pa (world.tables.memory head.l2 i)) entrySize
      let target := found.elim 0 (world.tables.memory head.l1)
      if target = 0 then .error .ptdupUpdateNoPagetable
      else .ok (world.write target index content)

/-! ## The records of the L0 tables -/

/-- `PTDS_PTED_add` on one of the two lists of a table: the PTDS list if `flag`. -/
def addRecord (world : World) (idx : Nat) (flag : Bool) (records : Records) (content : Nat) :
    Except Panic World :=
  match ptdsPtedAdd records content world.free with
  | none => .error .ptdsPtedAddKalloc
  | some (records, free) =>
    let head := world.tables.head idx
    let head :=
      if flag then { head with l0Ptds := some records }
      else { head with l0Pted := some records }
    .ok ({ world with free := free }.setHead idx head)

/-- `L0_ptes_add`. -/
def l0PtesAdd (world : World) (l2 content : Nat) (flag : Bool) : Except Panic World :=
  match world.tables.ptdupIndex l2 with
  | none => .error .l0PtesAddNoIndex
  | some idx =>
    let head := world.tables.head idx
    match (if flag then head.l0Ptds else head.l0Pted) with
    | none => .ok world
    | some records => world.addRecord idx flag records content

/-- `PTDS_PTED_add` on the list of PTEDs. -/
def addPted (world : World) (idx content : Nat) : Except Panic World :=
  match (world.tables.head idx).l0Pted with
  | none => .error .fault
  | some records => world.addRecord idx false records content

/-- The two entries that `PTDS_decompose_clear` makes of the pages from `startVa` on, the
first one without the user bit. -/
def addPair (world : World) (idx entry startVa startPpn startPa : Nat) : Except Panic World :=
  let bits := pteW ||| pteX ||| pteR
  let nextPa :=
    if ptds2order entry ≠ 0 then (startPa + pgsize) % 2 ^ 64 else subWord startPa pgsize
  let first := va2ptds startVa ||| ppn2ptds startPpn ||| bits
  let second :=
    va2ptds (startVa + pgsize) ||| ppn2ptds (pa2pte nextPa) ||| bits ||| ptds2ub entry
  (world.addPted idx first).bind fun world => world.addPted idx second

/-- `PTDS_decompose_clear` on a word of the PTDS list. The size that it computes for a
longer run is not stored. -/
def ptdsDecomposeClear (world : World) (idx entry : Nat) : Except Panic World :=
  let startVa := ptds2va entry
  let startPpn := ptds2ppn entry
  let size := ptds2size entry
  if size = 2 then
    (world.addPair idx entry startVa startPpn (pte2pa startPpn)).bind fun world =>
      match (world.tables.head idx).l0Ptds with
      | none => .error .fault
      | some records =>
        match ptdsDelete records startVa (startVa + 2 * pgsize) world.free with
        | none => .error .ptdsPtedAddKalloc
        | some (records, free) =>
          let head := { world.tables.head idx with l0Ptds := some records }
          .ok ({ world with free := free }.setHead idx head)
  else if size > 2 then
    let startVa := startVa + (size - 2) * pgsize
    let startPa := (pte2pa startPpn + (size - 2) * pgsize) % 2 ^ 64
    world.addPair idx entry startVa (pa2pte startPa) startPa
  else .ok world

/-- The first word of the PTDS list on which `L0_ptes_clear_user` stops. -/
def searchPtds (records : Option Records) (targetVa : Nat) : Option Nat :=
  records.bind fun records =>
    (firstSlot (fun n => ptds2va (records.word n) ≤ targetVa ∧
      targetVa ≤ (targetVa + pgsize - 1) % 2 ^ 64) records.size).map records.word

/-- `L0_ptes_clear_user`. -/
def l0PtesClearUser (world : World) (l2 targetVa : Nat) : Except Panic World :=
  match world.tables.ptdupIndex l2 with
  | none => .ok world
  | some idx =>
    let head := world.tables.head idx
    match searchPtds head.l0Ptds targetVa with
    | some entry => world.ptdsDecomposeClear idx entry
    | none =>
      match head.l0Pted with
      | none => .ok world
      | some records =>
        let targetEndVa := (targetVa + pgsize) % 2 ^ 64
        let test := fun n =>
          decide (targetVa ≤ ptds2va (records.word n) ∧
            ptds2va (records.word n) ≤ targetEndVa)
        match firstSlot test records.size with
        | none => .ok world
        | some n =>
          let cleared := records.set n (records.word n &&& (2 ^ 64 - 1 - pteU))
          .ok (world.setHead idx { head with l0Pted := some cleared })

/-! ## The page tables -/

/-- One round of the loop of `walk`: the table of the next level, or none where `walk`
returns 0. -/
def walkLevel (world : World) (l2 pagetable level va : Nat) (alloc : Bool) :
    Except Panic (Option Nat × World) :=
  let pte := world.tables.memory pagetable (px level va)
  if isValid pte then .ok (some (pte2pa pte), world)
  else if alloc = false then .ok (none, world)
  else
    match world.kalloc with
    | none => .ok (none, world)
    | some (page, world) =>
      let pde := pa2pte page ||| pteV
      let world := (world.memset page 0).write pagetable (px level va) pde
      if world.nextpid ≤ 2 then .ok (some page.val, world)
      else
        let world := world.registerPtbMlist
        let duplicated :=
          if level = 2 then world.ptdupCreateL1 l2 page pde
          else world.ptdupUpdate l2 pagetable pde (px 1 va)
        duplicated.map fun world => (some page.val, world)

/-- `walk`: the page and the index of the entry in the L0 table. -/
def walk (world : World) (pagetable va : Nat) (alloc : Bool) :
    Except Panic (Option (Nat × Nat) × World) :=
  if maxva ≤ va then .error .walk
  else
    (world.walkLevel pagetable pagetable 2 va alloc).bind fun (l1, world) =>
      match l1 with
      | none => .ok (none, world)
      | some l1 =>
        (world.walkLevel pagetable l1 1 va alloc).map fun (l0, world) =>
          (l0.map fun l0 => (l0, px 0 va), world)

/-- One round of the loop of `mappages`. -/
def mapPage (world : World) (pagetable a pa perm : Nat) : Except Panic (Int × World) :=
  (world.walk pagetable a true).bind fun (pte, world) =>
    match pte with
    | none => .ok (-1, world)
    | some (page, index) =>
      if isValid (world.tables.memory page index) then .error .remap
      else .ok (0, world.write page index (pa2pte pa ||| perm ||| pteV))

/-- The loop of `mappages`, with the number of steps that are left to its last page. -/
def mapPages (pagetable perm : Nat) : Nat → Nat → Nat → World → Except Panic (Int × World)
  | 0, a, pa, world => world.mapPage pagetable a pa perm
  | steps + 1, a, pa, world =>
    (world.mapPage pagetable a pa perm).bind fun (res, world) =>
      if res ≠ 0 then .ok (res, world)
      else mapPages pagetable perm steps ((a + pgsize) % 2 ^ 64) ((pa + pgsize) % 2 ^ 64) world

/-- The number of steps of a loop from the first to the last page of a range. -/
def pageSteps (va size : Nat) : Nat :=
  subWord (pgrounddown (subWord (va + size) 1)) (pgrounddown va) / pgsize

/-- `mappages`. -/
def mappages (world : World) (pagetable va size pa perm : Nat) : Except Panic (Int × World) :=
  mapPages pagetable perm (pageSteps va size) (pgrounddown va) pa world

/-- One round of the loop of `uvmunmap`. -/
def unmapPage (world : World) (pagetable a : Nat) (doFree : Bool) : Except Panic World :=
  (world.walk pagetable a false).bind fun (pte, world) =>
    match pte with
    | none => .error .uvmunmapWalk
    | some (page, index) =>
      let entry := world.tables.memory page index
      if isValid entry = false then .error .uvmunmapNotMapped
      else if pteFlags entry = pteV then .error .uvmunmapNotALeaf
      else
        (if doFree then world.kfree (pte2pa entry) else .ok world).map fun world =>
          world.write page index 0

/-- The loop of `uvmunmap`. -/
def unmapPages (pagetable : Nat) (doFree : Bool) : Nat → Nat → World → Except Panic World
  | 0, a, world => world.unmapPage pagetable a doFree
  | steps + 1, a, world =>
    (world.unmapPage pagetable a doFree).bind fun world =>
      unmapPages pagetable doFree steps ((a + pgsize) % 2 ^ 64) world

/-- `uvmunmap`. -/
def uvmunmap (world : World) (pagetable va size : Nat) (doFree : Bool) : Except Panic World :=
  (unmapPages pagetable doFree (pageSteps va size) (pgrounddown va) world).bind fun world =>
    match l0PtesDelete world.tables pagetable va (pageSteps va size) world.free with
    | none => .error .ptdsPtedAddKalloc
    | some (tables, free) => .ok { world with tables := tables, free := free }

/-- The page behind the entry of an address. -/
def leafPage (world : World) (pagetable a : Nat) : List Nat :=
  match world.walk pagetable a false with
  | .ok (some (page, index), world) => [pte2pa (world.tables.memory page index)]
  | _ => []

/-- The pages that the loop of `uvmunmap` frees. -/
def freedPages (pagetable : Nat) : Nat → Nat → World → List Nat
  | 0, a, world => world.leafPage pagetable a
  | steps + 1, a, world =>
    world.leafPage pagetable a ++
      match world.unmapPage pagetable a true with
      | .ok world => freedPages pagetable steps ((a + pgsize) % 2 ^ 64) world
      | .error _ => []

/-- `uvmclear`. -/
def uvmclear (world : World) (pagetable va : Nat) : Except Panic World :=
  (world.walk pagetable va false).bind fun (pte, world) =>
    match pte with
    | none => .error .uvmclear
    | some (page, index) =>
      let entry := world.tables.memory page index &&& (2 ^ 64 - 1 - pteU)
      (world.write page index entry).l0PtesClearUser pagetable va

/-- `TRAMPOLINE`. -/
def trampolineVa : Nat := maxva - pgsize

/-- `TRAPFRAME`. -/
def trapframeVa : Nat := trampolineVa - pgsize

/-- A page that `proc_pagetable` maps and records. -/
def mapRecorded (world : World) (pagetable va pa perm : Nat) : Except Panic World :=
  (world.mappages pagetable va pgsize pa perm).bind fun (_, world) =>
    world.l0PtesAdd pagetable (va2ptds va ||| ppn2ptds (pa2pte pa) ||| perm) false

/-- `proc_pagetable`, with the addresses of the trampoline and of `p->tf`. -/
def procPagetable (world : World) (trampoline tf : Nat) : Except Panic (Page × World) :=
  match world.kalloc with
  | none => .error .uvmcreate
  | some (pagetable, world) =>
    ((world.memset pagetable 0).ptdupInit pagetable).bind fun world =>
      (world.registerPtbMlist.mapRecorded pagetable trampolineVa trampoline
        (pteR ||| pteX)).bind fun world =>
        (world.mapRecorded pagetable trapframeVa tf (pteR ||| pteW)).map fun world =>
          (pagetable, world)

/-- What `ptdup_delete_all` leaves of a duplicate. The pages of the table and of the
duplicate then belong to no table any more. -/
def retire (world : World) (pagetable : Nat) : World :=
  match world.tables.ptdupIndex pagetable with
  | none => world
  | some idx =>
    { world with
      tables := { world.tables with
        head := update world.tables.head idx ⟨0, 0, none, none⟩
        idxPtdup := update world.tables.idxPtdup idx 0 } }

end World

end Ev6.PageTable
