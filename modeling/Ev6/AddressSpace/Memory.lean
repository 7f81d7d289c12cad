import Ev6.MList.PageTables
import Ev6.PageTable.Walk
import Ev6.Support.Custody

/-!
# What the processes share

The allocator, the M-List of page tables, `idx_ptdup`, `nextpid` and the arrays of `trans.c`
and `recovery_locking.c` that have a slot for each process. An operation is what one of
their functions does under its lock. The functions that call them are programs of these
operations.
-/

namespace Ev6.AddressSpace

open Support PageTable

/-- The panics, and the fault of a store to address 0. -/
inductive Panic where
  | fault
  | kfree
  | uvmcreate
  | ptdupInitNoIndex
  | ptdupCreateL1NoIndex
  | ptdupCreateL1Kalloc
  | ptdupUpdateNoIndex
  | ptdupUpdateNoPagetable
  | l0PtesAddNoIndex
  | ptdsPtedAddKalloc
  | walk
  | remap
  | uvmunmapWalk
  | uvmunmapNotMapped
  | uvmunmapNotALeaf
  | uvmclear
  | uvmcopyExist
  | uvmcopyPresent
  | freewalkLeaf
  | loadsegAligned
  | loadsegExist
deriving DecidableEq

/-- The levels of a page table. -/
inductive Level where
  | l0
  | l1
  | l2
deriving DecidableEq

/-- A level as a number. -/
def Level.number : Level → Nat
  | .l0 => 0
  | .l1 => 1
  | .l2 => 2

/-- The operations. `claimPtdup`, `findPtdup` and `clearPtdup` are the accesses to
`idx_ptdup`: a free index is taken, an index is searched, and one is given back.
`recordPages` asks how many pages the functions of `ptdup.c` need for the records they are
about to write, and `giveUp` marks a call of `proc_freepagetable`. -/
inductive Op where
  | kalloc
  | kfree (page : Page)
  | registerPtbMlist (pid : Nat) (table : Page) (level : Level)
  | deletePtbMlist (table : Page)
  | deletePtbMlistAll (pid : Nat)
  | claimPtdup (root : Page)
  | findPtdup (root : Page)
  | clearPtdup (root : Page)
  | recordPages
  | nextpid
  | allocpid
  | giveUp (sz : Nat)
  | initRcsInfos (pid : Nat)
  | freeRcsHistory (pid : Nat)
  | registerTransInfo (pid : Nat)
  | deleteTransInfo (pid : Nat)
deriving DecidableEq

/-- The types of the answers. -/
abbrev Answer : Op → Type
  | .kalloc => Option Page
  | .kfree _ | .claimPtdup _ | .findPtdup _ => Bool
  | .recordPages | .nextpid | .allocpid => Nat
  | _ => Unit

/-- `kmem->freelist`, the pages that the M-Lists have taken for nodes, the words of
`mlist.ptb_list`, the roots in `idx_ptdup`, `nextpid`, the process identifiers in
`rcs_infos` and `trans_info_array`, and the first address behind the kernel. `mlistFull` and
`recordPages` tell for the calls of `register_ptb_mlist` and of the functions on records to
come whether the M-List is full and how many pages the records take. -/
structure Memory where
  free : List Page
  nodes : List Page
  ptbList : List Nat
  idxPtdup : List Page
  nextpid : Nat
  rcsInfos : List Nat
  transInfos : List Nat
  kernelEnd : Nat
  mlistFull : List Bool
  recordPages : List Nat

namespace Memory

/-- `kalloc`. -/
def kalloc (memory : Memory) : Option Page × Memory :=
  match memory.free with
  | [] => (none, memory)
  | page :: rest => (some page, { memory with free := rest })

/-- `kfree`, false where it panics. -/
def kfree (memory : Memory) (page : Page) : Bool × Memory :=
  if memory.kernelEnd ≤ page.val then (true, { memory with free := page :: memory.free })
  else (false, memory)

/-- The word that `register_ptb_mlist` stores. -/
def ptbWord (pid : Nat) (table : Page) (level : Level) : Nat :=
  table.val ||| MList.PageTables.pid2mlnode pid ||| level.number

/-- `register_ptb_mlist`. When the list is full it takes a page for more nodes, and without
one it gives up. -/
def registerPtbMlist (memory : Memory) (pid : Nat) (table : Page) (level : Level) : Memory :=
  let called := { memory with mlistFull := memory.mlistFull.tail }
  let listed := { called with ptbList := ptbWord pid table level :: called.ptbList }
  if memory.mlistFull.headD false then
    match memory.free with
    | [] => called
    | node :: rest => { listed with free := rest, nodes := node :: listed.nodes }
  else listed

/-- `delete_ptb_mlist`. -/
def deletePtbMlist (memory : Memory) (table : Page) : Memory :=
  { memory with
    ptbList := memory.ptbList.eraseP fun word => MList.PageTables.mlnode2pa word = table.val }

/-- `delete_ptb_mlist_all`. -/
def deletePtbMlistAll (memory : Memory) (pid : Nat) : Memory :=
  { memory with
    ptbList := memory.ptbList.filter fun word => MList.PageTables.mlnode2pid word ≠ pid }

/-- The first locked section of `ptdup_init`: false where it finds no empty index. -/
def claimPtdup (memory : Memory) (root : Page) : Bool × Memory :=
  if memory.idxPtdup.length < ptdupSize then
    (true, { memory with idxPtdup := root :: memory.idxPtdup })
  else (false, memory)

/-- `init_rcs_infos`. -/
def initRcsInfos (memory : Memory) (pid : Nat) : Memory :=
  if memory.rcsInfos.length < nproc then { memory with rcsInfos := pid :: memory.rcsInfos }
  else memory

/-- `register_trans_info`. -/
def registerTransInfo (memory : Memory) (pid : Nat) : Memory :=
  if memory.transInfos.length < nproc + 1 then
    { memory with transInfos := pid :: memory.transInfos }
  else memory

/-- An operation and its answer. -/
def perform (memory : Memory) : (op : Op) → Answer op × Memory
  | .kalloc => memory.kalloc
  | .kfree page => memory.kfree page
  | .registerPtbMlist pid table level => ((), memory.registerPtbMlist pid table level)
  | .deletePtbMlist table => ((), memory.deletePtbMlist table)
  | .deletePtbMlistAll pid => ((), memory.deletePtbMlistAll pid)
  | .claimPtdup root => memory.claimPtdup root
  | .findPtdup root => (decide (root ∈ memory.idxPtdup), memory)
  | .clearPtdup root => ((), { memory with idxPtdup := memory.idxPtdup.erase root })
  | .recordPages =>
    (memory.recordPages.headD 0, { memory with recordPages := memory.recordPages.tail })
  | .nextpid => (memory.nextpid, memory)
  | .allocpid => (memory.nextpid, { memory with nextpid := memory.nextpid + 1 })
  | .giveUp _ => ((), memory)
  | .initRcsInfos pid => ((), memory.initRcsInfos pid)
  | .freeRcsHistory pid => ((), { memory with rcsInfos := memory.rcsInfos.erase pid })
  | .registerTransInfo pid => ((), memory.registerTransInfo pid)
  | .deleteTransInfo pid =>
    ((), { memory with transInfos := memory.transInfos.filter fun other => other ≠ pid })

end Memory

/-- An index is claimed only for a root that `idx_ptdup` does not hold: no table is used again
as a root between `freewalk` and `ptdup_delete_all` of the page table that it was of. -/
def Op.ClaimsNew (memory : Memory) : Op → Prop
  | .claimPtdup root => root ∉ memory.idxPtdup
  | _ => True

/-- Then `idx_ptdup` holds a root once, and the first index with it is the one claimed for
it. -/
theorem Memory.perform_idxPtdup {memory : Memory} {op : Op} (once : memory.idxPtdup.Nodup)
    (new : op.ClaimsNew memory) : (memory.perform op).2.idxPtdup.Nodup := by
  cases op with
  | claimPtdup root =>
    simp only [perform, claimPtdup]
    split
    · exact List.nodup_cons.mpr ⟨new, once⟩
    · exact once
  | clearPtdup root => exact once.erase root
  | kalloc =>
    simp only [perform, kalloc]
    split <;> exact once
  | kfree page =>
    simp only [perform, kfree]
    split <;> exact once
  | registerPtbMlist pid table level =>
    simp only [perform, registerPtbMlist]
    split
    · split <;> exact once
    · exact once
  | initRcsInfos pid =>
    simp only [perform, initRcsInfos]
    split <;> exact once
  | registerTransInfo pid =>
    simp only [perform, registerTransInfo]
    split <;> exact once
  | _ => exact once

/-! ## Programs -/

/-- What a thread does in the kernel. -/
abbrev Prog (α : Type) := Program Op Answer Panic α

/-- One operation as a program. -/
def call (op : Op) : Prog (Answer op) := Program.perform op

/-- `kalloc`, where the page is written to at once. -/
def kallocOr (panic : Panic) : Prog Page :=
  call .kalloc >>= fun found =>
    match found with
    | none => .fault panic
    | some page => pure page

/-- `kfree`. -/
def kfree (page : Page) : Prog Unit :=
  call (.kfree page) >>= fun fine => if fine then pure () else .fault .kfree

/-- `kfree` of pages, one after the other. -/
def kfreeAll : List Page → Prog Unit
  | [] => pure ()
  | page :: pages => kfree page >>= fun _ => kfreeAll pages

/-- The loop over `idx_ptdup` that looks for a root. -/
def findPtdupOr (root : Page) (panic : Panic) : Prog Unit :=
  call (.findPtdup root) >>= fun found => if found then pure () else .fault panic

/-- `PTDS_PTED_add` for each page that it needs. -/
def takePages : Nat → Prog (List Page)
  | 0 => pure []
  | count + 1 => do
      let page ← kallocOr .ptdsPtedAddKalloc
      let pages ← takePages count
      pure (page :: pages)

/-- The pages that new records take. -/
def recordPages : Prog (List Page) := call .recordPages >>= fun count => takePages count

end Ev6.AddressSpace
