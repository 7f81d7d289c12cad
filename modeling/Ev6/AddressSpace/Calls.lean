import Ev6.AddressSpace.Tables

/-!
# System calls on address spaces

`allocproc`, `freeproc`, `growproc` and `fork` of `proc.c`, and `exec`, as programs of the
calling process. The files and the contents of the pages are left out; of an executable
file, what the reads of its headers and segments return.
-/

namespace Ev6.AddressSpace

open Support PageTable

/-- `pid`, `tf`, `pagetable` and `sz` of `struct proc`. -/
structure Proc where
  pid : Nat
  tf : Page
  table : Table
  sz : Nat

/-! ## Processes -/

/-- `allocproc` of a process with identifier `self`, in a slot that it has found. -/
def allocproc (trampoline : Page) (self : Nat) : Prog (Option Proc) := do
  let pid ← call .allocpid
  let found ← call .kalloc
  match found with
  | none => pure none
  | some tf => do
      let table ← Table.procPagetable trampoline self pid tf
      call (.initRcsInfos pid)
      pure (some ⟨pid, tf, table, 0⟩)

/-- `freeproc`. -/
def freeproc (p : Proc) : Prog Unit := do
  kfree p.tf
  p.table.procFreepagetable p.sz
  call (.deletePtbMlistAll p.pid)
  call (.deleteTransInfo p.pid)
  call (.freeRcsHistory p.pid)

/-- `uvminit`, which does not look at what `mappages` returns. -/
def Table.uvminit (table : Table) (self : Nat) : Prog Table :=
  kallocOr .fault >>= fun mem =>
    table.mappages self 0 mem userPerm >>= fun (_, table) => table.l0PtesAdd

/-- `userinit`, before there is a process. -/
def userinit (trampoline : Page) : Prog Proc :=
  allocproc trampoline 0 >>= fun found =>
    match found with
    | none => .fault .fault
    | some p => do
        call (.registerTransInfo 1)
        let table ← p.table.uvminit 0
        pure { p with table := table, sz := pgsize }

/-- `fork` of a parent, in a slot that `allocproc` has found: the child, or none where it
returns -1. -/
def fork (trampoline : Page) (p : Proc) : Prog (Option Proc) :=
  allocproc trampoline p.pid >>= fun found =>
    match found with
    | none => pure none
    | some np =>
      np.table.uvmcopy p.pid p.table p.sz >>= fun (res, table) =>
        if res < 0 then do
          freeproc { np with table := table }
          pure none
        else do
          call (.registerTransInfo np.pid)
          pure (some { np with table := table, sz := p.sz })

/-- A number as a `uint`. -/
def uint (value : Int) : Nat := (value % 2 ^ 32).toNat

/-- `growproc`. -/
def growproc (p : Proc) (n : Int) : Prog (Int × Proc) :=
  let sz := uint p.sz
  if 0 < n then
    p.table.uvmalloc p.pid sz (uint (sz + n)) >>= fun (res, table) =>
      if uint res = 0 then pure (-1, { p with table := table })
      else pure (0, { p with table := table, sz := uint res })
  else if n < 0 then
    p.table.uvmdealloc sz (uint (sz + n)) >>= fun (res, table) =>
      pure (0, { p with table := table, sz := uint res })
  else pure (0, { p with sz := sz })

/-! ## Executable files -/

/-- `struct proghdr`: whether it is of type `ELF_PROG_LOAD`, the fields `filesz`, `memsz` and
`vaddr`, and how many of the reads of its segment give all the bytes that they ask for. -/
structure Proghdr where
  load : Bool
  filesz : Nat
  memsz : Nat
  vaddr : Nat
  reads : Nat
deriving DecidableEq

/-- An executable file: whether its path leads to it and its header is one, what the reads
of the program headers give, and the lengths of the arguments it is started with. -/
structure Image where
  valid : Bool
  headers : List (Option Proghdr)
  argv : List Nat
deriving DecidableEq

namespace Table

/-- The loop of `loadseg`, with the reads that give all bytes; false where it returns -1. -/
def loadsegLoop (table : Table) (va : Nat) : Nat → Nat → Nat → Prog Bool
  | 0, _, _ => pure true
  | count + 1, i, reads =>
    match table.walkaddr ((va + i) % 2 ^ 64) with
    | none => .fault .loadsegExist
    | some _ =>
      match reads with
      | 0 => pure false
      | reads + 1 => loadsegLoop table va count (i + pgsize) reads

/-- `loadseg`. -/
def loadseg (table : Table) (va sz reads : Nat) : Prog Bool :=
  if va % pgsize ≠ 0 then .fault .loadsegAligned
  else table.loadsegLoop va ((sz + (pgsize - 1)) / pgsize) 0 reads

/-- `copyout` within one page: false where it returns -1. -/
def copyout (table : Table) (va : Nat) : Bool := (table.walkaddr (pgrounddown va)).isSome

end Table

/-- The loop of `exec` over the program headers: whether it goes on behind the loop, with
the page table and `sz`. -/
def loadHeaders (self : Nat) : List (Option Proghdr) → Table → Nat → Prog (Bool × Table × Nat)
  | [], table, sz => pure (true, table, sz)
  | none :: _, table, sz => pure (false, table, sz)
  | some ph :: rest, table, sz =>
    if ph.load = false then loadHeaders self rest table sz
    else if ph.memsz < ph.filesz then pure (false, table, sz)
    else if (ph.vaddr + ph.memsz) % 2 ^ 64 < ph.vaddr then pure (false, table, sz)
    else
      table.uvmalloc self sz ((ph.vaddr + ph.memsz) % 2 ^ 64) >>= fun (sz, table) =>
        if sz = 0 then pure (false, table, 0)
        else if ph.vaddr % pgsize ≠ 0 then pure (false, table, sz)
        else
          table.loadseg ph.vaddr (uint ph.filesz) ph.reads >>= fun loaded =>
            if loaded then loadHeaders self rest table sz else pure (false, table, sz)

/-- `MAXARG`. -/
def maxarg : Nat := 32

/-- The loop of `exec` that pushes the arguments, from `argc` on: the stack pointer, or none
where it goes to `bad`. -/
def pushArgs (table : Table) (stackbase : Nat) : List Nat → Nat → Nat → Option Nat
  | [], argc, sp =>
    let sp := subWord sp ((argc + 1) * 8)
    let sp := sp - sp % 16
    if sp < stackbase then none
    else if table.copyout sp then some sp else none
  | length :: rest, argc, sp =>
    if maxarg ≤ argc then none
    else
      let sp := subWord sp (length + 1)
      let sp := sp - sp % 16
      if sp < stackbase then none
      else if table.copyout sp then pushArgs table stackbase rest (argc + 1) sp else none

/-- `exec` behind the loop over the program headers. -/
def execStack (self : Nat) (image : Image) (table : Table) (sz : Nat) :
    Prog (Bool × Table × Nat) :=
  table.uvmalloc self (pgroundup sz) ((pgroundup sz + 2 * pgsize) % 2 ^ 64) >>=
    fun (sz, table) =>
      if sz = 0 then pure (false, table, 0)
      else do
        let table ← table.uvmclear ((sz - 2 * pgsize) / pgsize)
        pure ((pushArgs table (sz - pgsize) image.argv 0 sz).isSome, table, sz)

/-- `exec` with a page table, up to the point where it commits or goes to `bad`. -/
def execImage (self : Nat) (image : Image) (table : Table) : Prog (Bool × Table × Nat) :=
  loadHeaders self image.headers table 0 >>= fun (loaded, table, sz) =>
    if loaded then execStack self image table sz else pure (false, table, sz)

/-- `exec`. -/
def exec (trampoline : Page) (p : Proc) (image : Image) : Prog (Int × Proc) :=
  if image.valid = false then pure (-1, p)
  else do
    let table ← Table.procPagetable trampoline p.pid p.pid p.tf
    let (ready, table, sz) ← execImage p.pid image table
    if ready then do
      p.table.procFreepagetable p.sz
      pure (image.argv.length, { p with table := table, sz := sz })
    else do
      table.procFreepagetable sz
      pure (-1, p)

end Ev6.AddressSpace
