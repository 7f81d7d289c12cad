import Ev6.MList.ListCalls
import Mathlib.Data.List.TakeWhile

/-!
# Replacing a memory object on the lists

The calls of `register_memobj` and `delete_memobj` that the recovery handlers make:
each replaces a broken object by a new one, with the spinlocks and sleeplocks inside
it. `initlock` and `initsleeplock` register; the old locks are deleted by their address
or, in a buffer and a broken inode, by the range of the object, of which `delete_memobj`
takes out the first hit only. `relisted_iff` says when nothing of the old object is left
on a list and every lock of the new one is listed once.
-/

namespace Ev6.MList.Relisting

open List (filterMap_map mem_append mem_cons mem_flatMap mem_map mem_range mem_singleton nodup_cons
  nodup_range not_mem_nil)
open Support

/-! ## The structures, as the compiler lays them out -/

/-- `sizeof(struct spinlock)`. -/
def spinlockSize : Nat := 24

/-- The offset of `lk` in `struct sleeplock`. -/
def lkOffset : Nat := 8

/-- `sizeof(struct buf)`. -/
def bufSize : Nat := 1120

/-- The offset of `lock` in `struct buf` and in `struct inode`. -/
def lockOffset : Nat := 16

/-- `sizeof(struct file)`. -/
def fileSize : Nat := 40

/-- `sizeof(struct inode)`. -/
def inodeSize : Nat := 136

/-- `sizeof(struct pipe)`. -/
def pipeSize : Nat := 552

/-- `&ftable->file[i]`, behind `ftable->lock`. -/
def fileAt (ftable i : Nat) : Nat := ftable + spinlockSize + i * fileSize

/-- `&icache->inode[i]`, behind `icache->lock`. -/
def inodeAt (icache i : Nat) : Nat := icache + spinlockSize + i * inodeSize

/-! ## The handlers -/

/-- `initlock`. -/
def initlock (lk : Nat) : List Call := [.register .spn lk]

/-- `initsleeplock`. -/
def initsleeplock (lk : Nat) : List Call := initlock (lk + lkOffset) ++ [.register .slp lk]

/-- `my_kalloc`. -/
def myKalloc (page : Nat) : List Call := [.delete .run page 0]

/-- `recovery_handler_spinlock`. -/
def recoveryHandlerSpinlock (lk broken : Nat) : List Call :=
  initlock lk ++ [.delete .spn broken 0]

/-- `recovery_handler_sleeplock`. -/
def recoveryHandlerSleeplock (lk broken size : Nat) : List Call :=
  initsleeplock lk ++ [.delete .slp broken size, .delete .spn broken size]

/-- `recovery_handler_buf`. -/
def recoveryHandlerBuf (broken new : Nat) : List Call :=
  myKalloc new ++ [.delete .buf broken 0, .register .buf new] ++
    recoveryHandlerSleeplock (new + lockOffset) broken bufSize

/-- `recovery_handler_file`. -/
def recoveryHandlerFile (old new : Nat) : List Call :=
  myKalloc new ++ (List.range nfile).map (fun i => .delete .fil (fileAt old i) 0) ++
    recoveryHandlerSpinlock new old ++
      (List.range nfile).map (fun i => .register .fil (fileAt new i))

/-- One pass of the loop of `recovery_handler_inode` over the inodes. -/
def inodePass (broken old new i : Nat) : List Call :=
  [.delete .ino (inodeAt old i) 0, .register .ino (inodeAt new i)] ++
    if i = broken then
      recoveryHandlerSleeplock (inodeAt new i + lockOffset) (inodeAt old i) inodeSize
    else recoveryHandlerSleeplock (inodeAt new i + lockOffset) (inodeAt old i + lockOffset) 0

/-- `recovery_handler_inode`. -/
def recoveryHandlerInode (broken old new : Nat) : List Call :=
  myKalloc new ++ recoveryHandlerSpinlock new old ++
    (List.range ninode).flatMap (inodePass broken old new)

/-- `recovery_handler_log`. -/
def recoveryHandlerLog (address new : Nat) : List Call :=
  myKalloc new ++ recoveryHandlerSpinlock new address ++
    [.delete .log address 0, .register .log new]

/-- `recovery_handler_pipe`. -/
def recoveryHandlerPipe (address new : Nat) : List Call :=
  myKalloc new ++ recoveryHandlerSpinlock new address ++
    [.delete .pip address 0, .register .pip new]

/-- `recovery_handler_cons`. -/
def recoveryHandlerCons (address new : Nat) : List Call :=
  myKalloc new ++ [.delete .con address 0, .register .con new] ++
    recoveryHandlerSpinlock new address

/-- `recovery_handler_pr`. -/
def recoveryHandlerPr (address new : Nat) : List Call :=
  myKalloc new ++ [.delete .pr address 0, .register .pr new] ++
    recoveryHandlerSpinlock new address

/-- `recovery_handler_kmem`: it takes the first page of the run list itself. -/
def recoveryHandlerKmem (broken new : Nat) : List Call :=
  [.delete .run new 0] ++ recoveryHandlerSpinlock new broken ++
    [.delete .kmm broken 0, .register .kmm new]

/-- `recovery_handler_tickslock`. -/
def recoveryHandlerTickslock (broken new : Nat) : List Call :=
  myKalloc new ++ recoveryHandlerSpinlock new broken ++ [.register .spn new]

/-- `recovery_handler_pid_lock`. -/
def recoveryHandlerPidLock (broken new : Nat) : List Call :=
  myKalloc new ++ recoveryHandlerSpinlock new broken ++ [.delete .spn broken 0] ++
    [.register .spn new]

/-- The handlers. `mlist_tracker` calls them with the address of the object that it has
found, but `recovery_handler_pipe` with the address of the error. -/
inductive Handler where
  | buf
  | file
  | inode (broken : Fin ninode)
  | log
  | pipe (error : Fin pipeSize)
  | cons
  | pr
  | kmem
  | tickslock
  | pidLock

namespace Handler

/-- The bytes of the object that is replaced; a file and an inode with their table. -/
def size : Handler → Nat
  | buf => bufSize
  | file => spinlockSize + nfile * fileSize
  | inode _ => spinlockSize + ninode * inodeSize
  | log => 168
  | pipe _ => pipeSize
  | cons => 168
  | pr => 32
  | kmem => 32
  | tickslock => spinlockSize
  | pidLock => spinlockSize

/-- The entries of the object on the lists: itself, its spinlocks and its sleeplocks. -/
def entries (handler : Handler) (base : Nat) (list : ListId) : List Nat :=
  match handler, list with
  | buf, .buf => [base]
  | buf, .slp => [base + lockOffset]
  | buf, .spn => [base + lockOffset + lkOffset]
  | file, .fil => (List.range nfile).map (fileAt base)
  | file, .spn => [base]
  | inode _, .ino => (List.range ninode).map (inodeAt base)
  | inode _, .slp => (List.range ninode).map fun i => inodeAt base i + lockOffset
  | inode _, .spn => base :: (List.range ninode).map fun i => inodeAt base i + lockOffset + lkOffset
  | log, .log => [base]
  | log, .spn => [base]
  | pipe _, .pip => [base]
  | pipe _, .spn => [base]
  | cons, .con => [base]
  | cons, .spn => [base]
  | pr, .pr => [base]
  | pr, .spn => [base]
  | kmem, .kmm => [base]
  | kmem, .spn => [base]
  | tickslock, .spn => [base]
  | pidLock, .spn => [base]
  | _, _ => []

/-- The calls that a successful run of the handler makes. -/
def calls (handler : Handler) (old new : Nat) : List Call :=
  match handler with
  | buf => recoveryHandlerBuf old new
  | file => recoveryHandlerFile old new
  | inode broken => recoveryHandlerInode broken old new
  | log => recoveryHandlerLog old new
  | pipe error => recoveryHandlerPipe (old + error) new
  | cons => recoveryHandlerCons old new
  | pr => recoveryHandlerPr old new
  | kmem => recoveryHandlerKmem old new
  | tickslock => recoveryHandlerTickslock old new
  | pidLock => recoveryHandlerPidLock old new

/-- The locks of the object on a list. -/
def locks (handler : Handler) (base : Nat) : ListId → List Nat
  | .spn => handler.entries base .spn
  | .slp => handler.entries base .slp
  | _ => []

end Handler

/-! ## The layouts -/

theorem fileAt_eq (ftable i : Nat) : fileAt ftable i = ftable + 24 + i * 40 := rfl

theorem inodeAt_eq (icache i : Nat) : inodeAt icache i = icache + 24 + i * 136 := rfl

theorem lockOffset_eq : lockOffset = 16 := rfl

theorem lkOffset_eq : lkOffset = 8 := rfl

theorem inodeSize_eq : inodeSize = 136 := rfl

namespace Handler

variable (handler : Handler) {base address : Nat} {list : ListId}

theorem inside (member : address ∈ handler.entries base list) :
    base ≤ address ∧ address < base + handler.size := by
  cases handler
  case file =>
    have whole : size file = 4024 := rfl
    cases list <;> simp only [entries, not_mem_nil, mem_singleton] at member
    case fil =>
      obtain ⟨i, low, rfl⟩ := mem_map.mp member
      rw [mem_range, nfile] at low
      rw [fileAt_eq]
      omega
    case spn => omega
  case inode broken =>
    have whole : size (inode broken) = 6824 := rfl
    have bounds : ∀ i ∈ List.range ninode, base + 24 ≤ inodeAt base i ∧
        inodeAt base i + 136 ≤ base + 6824 := by
      intro i low
      rw [mem_range, ninode] at low
      rw [inodeAt_eq]
      omega
    cases list <;> simp only [entries, not_mem_nil, mem_cons] at member
    case ino =>
      obtain ⟨i, low, rfl⟩ := mem_map.mp member
      have here := bounds i low
      omega
    case slp =>
      obtain ⟨i, low, rfl⟩ := mem_map.mp member
      have here := bounds i low
      rw [lockOffset_eq]
      omega
    case spn =>
      rcases member with rfl | later
      · omega
      · obtain ⟨i, low, rfl⟩ := mem_map.mp later
        have here := bounds i low
        rw [lockOffset_eq, lkOffset_eq]
        omega
  all_goals
    cases list <;> simp only [entries, not_mem_nil, mem_singleton] at member <;>
      subst member <;>
        simp only [size, bufSize, lockOffset, lkOffset, spinlockSize, pipeSize] <;> omega

/-- An object is listed once under each of its entries. -/
theorem nodup_entries : (handler.entries base list).Nodup := by
  cases handler
  case file =>
    cases list
    case fil =>
      refine nodup_range.map fun i j same => ?_
      simp only [fileAt_eq] at same
      omega
    all_goals simp [entries]
  case inode broken =>
    cases list
    case ino =>
      refine nodup_range.map fun i j same => ?_
      simp only [inodeAt_eq] at same
      omega
    case slp =>
      refine nodup_range.map fun i j same => ?_
      simp only [inodeAt_eq, lockOffset_eq] at same
      omega
    case spn =>
      refine nodup_cons.mpr ⟨fun member => ?_, nodup_range.map fun i j same => ?_⟩
      · obtain ⟨i, -, same⟩ := mem_map.mp member
        rw [inodeAt_eq] at same
        omega
      · simp only [inodeAt_eq, lockOffset_eq, lkOffset_eq] at same
        omega
    all_goals simp [entries]
  all_goals cases list <;> simp [entries]

theorem entries_run : handler.entries base .run = [] := by
  cases handler <;> rfl

/-- A lock of an object is one of its entries, on one of the lists of locks. -/
theorem mem_locks (member : address ∈ handler.locks base list) :
    address ∈ handler.entries base list ∧ list ≠ .run := by
  cases list <;> simp [locks] at member ⊢ <;> exact member

end Handler

/-! ## What the handlers register and delete -/

section Calls

variable {old new : Nat} (list : ListId)

theorem registered_inodePass (broken i : Nat) :
    registered list (inodePass broken old new i) =
      match list with
      | .ino => [inodeAt new i]
      | .slp => [inodeAt new i + lockOffset]
      | .spn => [inodeAt new i + lockOffset + lkOffset]
      | _ => [] := by
  by_cases same : i = broken
  · rw [inodePass, if_pos same]
    cases list <;> rfl
  · rw [inodePass, if_neg same]
    cases list <;> rfl

/-- `recovery_handler_inode` registers the new inodes and their locks. -/
theorem registered_inode (broken : Fin ninode) :
    registered list (Handler.calls (.inode broken) old new) =
      Handler.entries (.inode broken) new list := by
  have passes : ∀ inodes : List Nat,
      registered list (inodes.flatMap (inodePass broken old new)) =
        inodes.flatMap fun i => registered list (inodePass broken old new i) :=
    fun inodes => List.filterMap_flatMap
  have single : ∀ (inodes : List Nat) (place : Nat → Nat),
      (inodes.flatMap fun i => [place i]) = inodes.map place :=
    fun inodes place => List.map_eq_flatMap.symm
  simp only [Handler.calls, recoveryHandlerInode, registered_append, passes, registered_inodePass]
  cases list <;>
    simp [Handler.entries, myKalloc, recoveryHandlerSpinlock, initlock, single]

/-- `recovery_handler_file` registers the new files and the lock of their table. -/
theorem registered_file :
    registered list (Handler.calls .file old new) = Handler.entries .file new list := by
  have deleted : registered list
      ((List.range nfile).map fun i => Call.delete .fil (fileAt old i) 0) = [] := by
    simp [registered, filterMap_map, Function.comp_def, registers]
  have files : registered list ((List.range nfile).map fun i => Call.register .fil (fileAt new i)) =
      if list = .fil then (List.range nfile).map (fileAt new) else [] := by
    by_cases same : list = .fil
    · simp [registered, filterMap_map, Function.comp_def, registers, same]
    · simp [registered, filterMap_map, Function.comp_def, registers, same, Ne.symm same]
  simp only [Handler.calls, recoveryHandlerFile, registered_append, deleted, files]
  cases list <;> simp [Handler.entries, myKalloc, recoveryHandlerSpinlock, initlock]

/-- Calls that register the new object and delete exactly the entries of the old one,
each by its address. -/
structure Exact (handler : Handler) (old new : Nat) (calls : List Call) : Prop where
  registers : ∀ list, registered list calls = handler.entries new list
  deletes : ∀ list, list ≠ .run → ∀ address size, Call.delete list address size ∈ calls ↔
    size = 0 ∧ address ∈ handler.entries old list

theorem exact_file : Exact .file old new (Handler.calls .file old new) where
  registers list := registered_file list
  deletes := by
    intro list other address size
    cases list <;>
      simp [Handler.calls, recoveryHandlerFile, recoveryHandlerSpinlock, myKalloc, initlock,
        Handler.entries] at other ⊢
    all_goals grind

/-- The handlers of the objects whose lock is their first field. -/
theorem exact_single {handler : Handler} (single : handler = .log ∨ handler = .cons ∨
    handler = .pr ∨ handler = .kmem ∨ ∃ error : Fin pipeSize, error.val = 0 ∧
      handler = .pipe error) : Exact handler old new (handler.calls old new) where
  registers list := by
    rcases single with rfl | rfl | rfl | rfl | ⟨error, -, rfl⟩ <;> cases list <;> rfl
  deletes := by
    intro list other address size
    rcases single with rfl | rfl | rfl | rfl | ⟨error, zero, rfl⟩
    case inr.inr.inr.inr =>
      cases list <;>
        simp [Handler.calls, recoveryHandlerPipe, recoveryHandlerSpinlock, myKalloc, initlock,
          Handler.entries, zero] at other ⊢
      all_goals exact And.comm
    all_goals
      cases list <;>
        simp [Handler.calls, recoveryHandlerLog, recoveryHandlerCons, recoveryHandlerPr,
          recoveryHandlerKmem, recoveryHandlerSpinlock, myKalloc, initlock,
          Handler.entries] at other ⊢
      all_goals exact And.comm

/-- A single spinlock, before it is registered again. -/
theorem exact_spinlock {handler : Handler} (single : handler = .tickslock ∨ handler = .pidLock) :
    Exact handler old new (myKalloc new ++ recoveryHandlerSpinlock new old) where
  registers list := by
    rcases single with rfl | rfl <;> cases list <;> rfl
  deletes := by
    intro list other address size
    rcases single with rfl | rfl <;> cases list <;>
      simp [recoveryHandlerSpinlock, myKalloc, initlock, Handler.entries] at other ⊢
    all_goals exact And.comm

end Calls

/-! ## What the handlers start from -/

/-- A live object, with its entries on the lists. -/
structure LiveObject where
  base : Nat
  size : Nat
  entries : ListId → List Nat
  inside : ∀ list, ∀ address ∈ entries list, base ≤ address ∧ address < base + size

/-- The object that a handler replaces or makes. -/
def Handler.object (handler : Handler) (base : Nat) : LiveObject where
  base := base
  size := handler.size
  entries := handler.entries base
  inside _ _ member := handler.inside member

/-- Two objects share no byte. -/
def LiveObject.Apart (left right : LiveObject) : Prop :=
  left.base + left.size ≤ right.base ∨ right.base + right.size ≤ left.base

/-- The lists before a handler runs: they list exactly the live objects and the locks
inside them, the run list free pages, and the new object lies in pages that no live
object uses. -/
structure Start (handler : Handler) (old new : Nat) where
  mlist : MlistHeader
  addresses : ListId → List Nat
  others : List LiveObject
  lists : ∀ list, Lists (addresses list) (mlist list)
  exactly : ∀ list, list ≠ .run → (addresses list).Perm
    (handler.entries old list ++ others.flatMap fun other => other.entries list)
  free : ∀ page ∈ addresses .run, ¬(old ≤ page ∧ page < old + handler.size)
  apart : ∀ other ∈ others, other.Apart (handler.object old) ∧ other.Apart (handler.object new)
  replaced : (handler.object old).Apart (handler.object new)
  broken : kernbase ≤ old ∧ old + handler.size ≤ phystop
  allocated : IsPage new ∧ new + handler.size ≤ phystop

/-- Nothing of the old object is on a list, and every lock of the new one is listed
once. -/
def Relisted (handler : Handler) (old new : Nat) (mlist : MlistHeader) : Prop :=
  ∀ list, ∃ addresses,
    walkList (mlist list).passes (mlist list).heap (mlist list).header = some addresses ∧
    (∀ address ∈ addresses, ¬(old ≤ address ∧ address < old + handler.size)) ∧
    ∀ lock ∈ handler.locks new list, addresses.count lock = 1

/-- What `Relisted` says of the addresses of one list. -/
def Cleared (handler : Handler) (old new : Nat) (list : ListId) (addresses : List Nat) : Prop :=
  (∀ address ∈ addresses, ¬(old ≤ address ∧ address < old + handler.size)) ∧
    ∀ lock ∈ handler.locks new list, addresses.count lock = 1

section Start

variable {handler : Handler} {old new : Nat} {list : ListId}

/-- A list that keeps account of its addresses is walked along them. -/
theorem walk_of_lists {addresses : List Nat} {mlist : ObjectList} (lists : Lists addresses mlist) :
    walkList mlist.passes mlist.heap mlist.header = some addresses := by
  obtain ⟨nodes, listing, rfl⟩ := lists.nodes
  exact listing.walk (length_nodeSlots_lt mlist.pages)

theorem relisted_iff_cleared {addresses : ListId → List Nat} {final : MlistHeader}
    (walks : ∀ list, walkList (final list).passes (final list).heap (final list).header =
      some (addresses list)) :
    Relisted handler old new final ↔ ∀ list, Cleared handler old new list (addresses list) := by
  constructor
  · intro relisted list
    obtain ⟨found, walked, cleared⟩ := relisted list
    obtain rfl : addresses list = found := Option.some.inj ((walks list).symm.trans walked)
    exact cleared
  · intro cleared list
    exact ⟨addresses list, walks list, cleared list⟩

/-- The entries of an object in allocated pages can be registered. -/
theorem isObject_of_entry {address : Nat} (allocated : IsPage new ∧ new + handler.size ≤ phystop)
    (entry : address ∈ handler.entries new list) : IsObject address := by
  have bounds := handler.inside entry
  have page := allocated.1.bounds
  have top := allocated.2
  rw [phystop_eq] at top
  have marks : address ≠ emptyMark ∧ address ≠ novalue := by
    simp only [emptyMark, novalue]
    omega
  exact ⟨by omega, by simp [freeMark, marks]⟩

namespace Start

variable (start : Start handler old new)

variable {address : Nat}

/-- Inside the old object exactly its entries are listed. -/
theorem mem_old (other : list ≠ .run) (within : old ≤ address ∧ address < old + handler.size) :
    address ∈ start.addresses list ↔ address ∈ handler.entries old list := by
  rw [(start.exactly list other).mem_iff, mem_append]
  refine ⟨fun member => member.resolve_right fun elsewhere => ?_, .inl⟩
  obtain ⟨neighbour, live, entry⟩ := mem_flatMap.mp elsewhere
  have bounds := neighbour.inside list address entry
  have apart := (start.apart neighbour live).1
  simp only [LiveObject.Apart, Handler.object] at apart
  omega

theorem not_mem_new (other : list ≠ .run)
    (within : new ≤ address ∧ address < new + handler.size) : address ∉ start.addresses list := by
  rw [(start.exactly list other).mem_iff, mem_append]
  rintro (entry | elsewhere)
  · have bounds := handler.inside entry
    have apart := start.replaced
    simp only [LiveObject.Apart, Handler.object] at apart
    omega
  · obtain ⟨neighbour, live, entry⟩ := mem_flatMap.mp elsewhere
    have bounds := neighbour.inside list address entry
    have apart := (start.apart neighbour live).2
    simp only [LiveObject.Apart, Handler.object] at apart
    omega

variable {calls : List Call}

/-- Calls that register the new object register each address once. -/
theorem registrable (registers : ∀ list, registered list calls = handler.entries new list) :
    Registrable calls start.addresses where
  objects list address member := isObject_of_entry start.allocated (registers list ▸ member)
  once list := (registers list).symm ▸ handler.nodup_entries
  fresh := by
    intro list address member
    rw [registers list] at member
    by_cases run : list = .run
    · subst run
      rw [handler.entries_run] at member
      cases member
    · exact start.not_mem_new run (handler.inside member)
  notRun := (registers .run).trans handler.entries_run

variable {final : MlistHeader}

/-- What calls that register the new object leave on the lists. -/
theorem performed (registers : ∀ list, registered list calls = handler.entries new list)
    (performed : Performed calls start.mlist final) :
    ∃ after : ListId → List Nat, (∀ list, Lists (after list) (final list)) ∧
      (∀ list, list ≠ .run → after list = listedBy list (start.addresses list) calls) ∧
      after .run ⊆ start.addresses .run :=
  performed.lists start.lists (start.registrable registers)

theorem cleared_run {addresses : List Nat} (fewer : addresses ⊆ start.addresses .run) :
    Cleared handler old new .run addresses :=
  ⟨fun page member => start.free page (fewer member), fun _ member => by cases member⟩

/-- Calls that delete every entry of the old object by its address clear the lists. -/
theorem cleared_of_exact (exactly : Exact handler old new calls) {addresses : ListId → List Nat}
    (lists : ∀ list, Lists (addresses list) (final list))
    (left : ∀ list, list ≠ .run → addresses list = listedBy list (start.addresses list) calls)
    (fewer : addresses .run ⊆ start.addresses .run) :
    ∀ list, Cleared handler old new list (addresses list) := by
  intro list
  by_cases run : list = .run
  · subst run
    exact start.cleared_run fewer
  have apart := start.replaced
  simp only [LiveObject.Apart, Handler.object] at apart
  have registrable := start.registrable exactly.registers
  constructor
  · intro address member within
    rw [left list run] at member
    rcases mem_listedBy (start.lists list).once (registrable.once list) (registrable.fresh list)
      member with new | ⟨old, kept⟩
    · rw [exactly.registers list] at new
      have bounds := handler.inside new
      omega
    · exact kept ((exactly.deletes list run address 0).mpr
        ⟨rfl, (start.mem_old run within).mp old⟩)
  · intro lock member
    have entry := (handler.mem_locks member).1
    have bounds := handler.inside entry
    refine List.count_eq_one_of_mem (lists list).once ?_
    rw [left list run]
    refine listedBy_keeps (.inr (exactly.registers list ▸ entry)) fun address size deleted => ?_
    obtain ⟨rfl, target⟩ := (exactly.deletes list run address size).mp deleted
    have aimed := handler.inside target
    rw [deleteTest_zero]
    refine beq_eq_false_iff_ne.mpr ?_
    rintro rfl
    omega

theorem relisted_of_exact (exactly : Exact handler old new calls)
    (performed : Performed calls start.mlist final) : Relisted handler old new final := by
  obtain ⟨after, lists, left, fewer⟩ := start.performed exactly.registers performed
  exact (relisted_iff_cleared fun list => walk_of_lists (lists list)).mpr
    (start.cleared_of_exact exactly lists left fewer)

/-- An entry of the old object that no deletion selects is still listed. -/
theorem not_relisted_of_kept (registers : ∀ list, registered list calls = handler.entries new list)
    (performed : Performed calls start.mlist final) (other : list ≠ .run)
    (entry : address ∈ handler.entries old list)
    (missed : ∀ target size, Call.delete list target size ∈ calls →
      deleteTest target size address = false) : ¬Relisted handler old new final := by
  obtain ⟨after, lists, left, -⟩ := start.performed registers performed
  rw [relisted_iff_cleared fun list => walk_of_lists (lists list)]
  intro cleared
  have within := handler.inside entry
  refine (cleared list).1 address ?_ within
  rw [left list other]
  exact listedBy_keeps (.inl ((start.mem_old other within).mpr entry)) missed

end Start

end Start

/-! ## The range of a buffer -/

variable {address : Nat}

theorem deleteTest_outside {start size : Nat} (sized : size ≠ 0)
    (outside : address < start ∨ start + size < address) :
    deleteTest start size address = false := by
  have modulo := Nat.mod_le (start + size) (2 ^ 64)
  simp only [deleteTest, if_neg sized, Bool.and_eq_false_iff, decide_eq_false_iff_not]
  omega

/-- `delete_memobj` with the range of a buffer, whose end it includes. -/
theorem deleteTest_buf {old : Nat} (low : old + bufSize ≤ phystop) :
    deleteTest old bufSize address = true ↔ old ≤ address ∧ address ≤ old + bufSize := by
  have sized : bufSize ≠ 0 := by decide
  have small : (old + bufSize) % 2 ^ 64 = old + bufSize := by
    refine Nat.mod_eq_of_lt ?_
    rw [phystop_eq] at low
    omega
  simp only [deleteTest, if_neg sized, small, Bool.and_eq_true, decide_eq_true_eq]

/-- A deletion that finds an address takes out just it. -/
theorem eraseP_of_find {addresses : List Nat} {test : Nat → Bool}
    (once : addresses.Nodup) (found : addresses.find? test = some address) :
    addresses.eraseP test = addresses.erase address := by
  obtain ⟨hit, before, behind, rfl, passed⟩ := List.find?_eq_some_iff_append.mp found
  have missed : ∀ other ∈ before, ¬test other = true := fun other member => by
    simpa using passed other member
  have absent : address ∉ before := fun member => missed address member hit
  rw [List.eraseP_append_right _ missed, List.eraseP_cons_of_pos hit,
    List.erase_append_right _ absent, List.erase_cons_head]

section Buf

variable {old new : Nat} (start : Start .buf old new) {list : ListId} {offset : Nat}

/-- A list of locks is cleared by the range of the buffer unless the address right
behind the buffer is found first. -/
theorem cleared_range (inside : Handler.entries .buf old list = [old + offset])
    (fresh : Handler.locks .buf new list = [new + offset]) (small : 0 < offset ∧ offset < bufSize)
    (other : list ≠ .run) (once : ((start.addresses list).eraseP (deleteTest old bufSize)).Nodup)
    (absent : new + offset ∉ start.addresses list) :
    Cleared .buf old new list
        ((new + offset) :: (start.addresses list).eraseP (deleteTest old bufSize)) ↔
      (start.addresses list).find? (deleteTest old bufSize) ≠ some (old + bufSize) := by
  have low : old + bufSize ≤ phystop := start.broken.2
  have sized : Handler.size .buf = bufSize := rfl
  have apart := start.replaced
  simp only [LiveObject.Apart, Handler.object, sized] at apart
  have there : old + offset ∈ start.addresses list := by
    refine (start.mem_old other ?_).mpr (by simp [inside])
    rw [sized]
    omega
  have hits : deleteTest old bufSize (old + offset) = true := (deleteTest_buf low).mpr (by omega)
  obtain ⟨address, found⟩ : ∃ address,
      (start.addresses list).find? (deleteTest old bufSize) = some address :=
    Option.isSome_iff_exists.mp (List.find?_isSome.mpr ⟨_, there, hits⟩)
  have erased := eraseP_of_find (start.lists list).once found
  have listed := List.mem_of_find?_eq_some found
  have range := (deleteTest_buf low).mp (List.find?_some found)
  rw [found, erased]
  rw [erased] at once
  constructor
  · rintro ⟨clear, -⟩ same
    obtain rfl : address = old + bufSize := Option.some.inj same
    refine clear (old + offset) (List.mem_cons_of_mem _ ?_) (by rw [sized]; omega)
    exact (List.mem_erase_of_ne (by omega)).mpr there
  · intro different
    have here : address = old + offset := by
      have end_ne : address ≠ old + bufSize := fun same => different (congrArg some same)
      have entry := (start.mem_old other (by rw [sized]; omega)).mp listed
      rw [inside] at entry
      exact mem_singleton.mp entry
    subst here
    refine ⟨fun address member within => ?_, fun lock member => ?_⟩
    · rw [sized] at within
      rcases mem_cons.mp member with rfl | left
      · omega
      · obtain ⟨ne, old⟩ := (List.Nodup.mem_erase_iff (start.lists list).once).mp left
        have entry := (start.mem_old other within).mp old
        rw [inside] at entry
        exact ne (mem_singleton.mp entry)
    · rw [fresh] at member
      obtain rfl := mem_singleton.mp member
      refine List.count_eq_one_of_mem ?_ List.mem_cons_self
      exact nodup_cons.mpr ⟨fun left => absent (List.mem_of_mem_erase left), once⟩

end Buf

/-! ## A lock that is registered twice -/

/-- A free node precedes the node that holds the address. -/
def FreedBefore (list : ObjectList) (address : Nat) : Prop :=
  ∃ node ∈ (nodeSlots list.pages).takeWhile (list.heap.addr · ≠ address),
    freeMark (list.heap.addr node) = true

section Twice

variable {list next : ObjectList} {addresses : List Nat} {address node : Nat}
  {answer : Option Page}

/-- A node that stops the scan means that no page is taken. -/
theorem PageGiven.none_of_found (granted : PageGiven list address answer)
    (lists : Lists addresses list)
    (found : (nodeSlots list.pages).find? (stopsAt list.heap address) = some node) :
    answer = none := by
  obtain ⟨nodes, listing, -⟩ := lists.nodes
  obtain ⟨front, final, split⟩ := listing.layout.split
  have scan := loop_registerPass address listing.layout split (length_nodeSlots_lt list.pages)
  rw [found] at scan
  cases answer with
  | none => rfl
  | some page =>
    obtain ⟨⟨full, ended⟩, -⟩ := granted page rfl
    rw [ObjectList.passes, scan] at ended
    cases free : freeMark (list.heap.addr node) <;> simp [foundAt, free] at ended

/-- A registration that meets a free node links it. -/
theorem registerOn_free (lists : Lists addresses list)
    (found : (nodeSlots list.pages).find? (stopsAt list.heap address) = some node)
    (free : freeMark (list.heap.addr node) = true) :
    registerOn list address none =
      some { list with heap := list.heap.link node address list.header } := by
  obtain ⟨nodes, listing, -⟩ := lists.nodes
  rw [registerOn, ObjectList.passes,
    listing.layout.register_free (length_nodeSlots_lt list.pages) found free]
  simp

/-- A registration that meets its address changes nothing. -/
theorem registerOn_exists (lists : Lists addresses list)
    (found : (nodeSlots list.pages).find? (stopsAt list.heap address) = some node)
    (busy : freeMark (list.heap.addr node) = false) :
    registerOn list address none = some list := by
  obtain ⟨nodes, listing, -⟩ := lists.nodes
  rw [registerOn, ObjectList.passes,
    listing.layout.register_exists (length_nodeSlots_lt list.pages) found busy]
  simp

theorem walk_link (lists : Lists addresses list) (object : IsObject address)
    (slot : node ∈ nodeSlots list.pages) (free : freeMark (list.heap.addr node) = true) :
    walkList list.passes (list.heap.link node address list.header) list.header =
      some (address :: addresses) := by
  obtain ⟨nodes, listing, rfl⟩ := lists.nodes
  rw [← listing.link_addresses free]
  exact (listing.link slot free object).walk (length_nodeSlots_lt list.pages)

/-- A deletion of an address that is not listed changes nothing. -/
theorem deleteOn_missed (lists : Lists addresses list) (absent : address ∉ addresses) :
    deleteOn list address 0 = some list := by
  obtain ⟨nodes, listing, same⟩ := lists.nodes
  have short := listing.length_le
  have missed : ∀ node ∈ nodes, deleteTest address 0 (list.heap.addr node) = false := by
    intro node member
    rw [deleteTest_zero]
    refine beq_eq_false_iff_ne.mpr ?_
    rintro rfl
    exact absent (same ▸ List.mem_map_of_mem member)
  have enough := length_nodeSlots_lt list.pages
  rw [deleteOn, ObjectList.passes, deleteMemobj,
    loop_deletePass_none listing.ring.trail.2 listing.header_not_mem missed (by omega)]
  rfl

/-- A slot that does not hold a free mark holds an address of the list. -/
theorem mem_of_inUse (lists : Lists addresses list) (use : InUse list node) :
    list.heap.addr node ∈ addresses := by
  obtain ⟨nodes, listing, same⟩ := lists.nodes
  rw [← same]
  by_cases member : node ∈ nodes
  · exact List.mem_map_of_mem member
  · have free := listing.unused node use.1 member
    rw [use.2] at free
    cases free

variable {first last : ObjectList} {old new : Nat}

/-- The slots before the node of a listed address, that node, and the others. -/
theorem slots_split (lists : Lists addresses list) (there : old ∈ addresses) :
    ∃ ahead spot behind, nodeSlots list.pages = ahead ++ spot :: behind ∧
      (∀ node ∈ ahead, list.heap.addr node ≠ old) ∧ list.heap.addr spot = old ∧
      InUse list spot ∧
      (FreedBefore list old ↔ ∃ node ∈ ahead, freeMark (list.heap.addr node) = true) := by
  obtain ⟨nodes, listing, same⟩ := lists.nodes
  rw [← same] at there
  obtain ⟨holder, member, held⟩ := mem_map.mp there
  obtain ⟨spot, found⟩ : ∃ spot, (nodeSlots list.pages).find? (list.heap.addr · = old) = some spot :=
    Option.isSome_iff_exists.mp (List.find?_isSome.mpr
      ⟨holder, listing.inside holder member, by simp [held]⟩)
  have holds : list.heap.addr spot = old := by simpa using List.find?_some found
  have use : InUse list spot := by
    refine ⟨List.mem_of_find?_eq_some found, ?_⟩
    rw [holds, ← held]
    exact listing.used holder member
  obtain ⟨-, ahead, behind, split, passed⟩ := List.find?_eq_some_iff_append.mp found
  have before : ∀ node ∈ ahead, list.heap.addr node ≠ old := by
    intro node early
    simpa using passed node early
  refine ⟨ahead, spot, behind, split, before, holds, use, ?_⟩
  have taken : (nodeSlots list.pages).takeWhile (list.heap.addr · ≠ old) = ahead := by
    rw [split, List.takeWhile_append_of_pos (by simpa using before),
      List.takeWhile_cons_of_neg (by simp [holds]), List.append_nil]
  rw [FreedBefore, taken]

/-- With a free node before the old lock, the scan for the new lock finds it. -/
theorem found_of_freedBefore (lists : Lists addresses list) (there : old ∈ addresses)
    (fresh : new ∉ addresses) (object : IsObject new) (granted : PageGiven list new answer)
    (added : registerOn list new answer = some first) (deleted : deleteOn first old 0 = some last)
    (freed : FreedBefore list old) :
    ∃ node, (nodeSlots last.pages).find? (stopsAt last.heap new) = some node ∧
      freeMark (last.heap.addr node) = false := by
  have different : new ≠ old := by
    rintro rfl
    exact fresh there
  obtain ⟨ahead, spot, behind, slots, not_old, -, -, condition⟩ := slots_split lists there
  obtain ⟨hole, early, free⟩ := condition.mp freed
  obtain ⟨node, stop⟩ : ∃ node, ahead.find? (stopsAt list.heap new) = some node :=
    Option.isSome_iff_exists.mp (List.find?_isSome.mpr ⟨hole, early, by simp [stopsAt, free]⟩)
  have found : (nodeSlots list.pages).find? (stopsAt list.heap new) = some node := by
    rw [slots, List.find?_append, stop, Option.some_or]
  have vacant : freeMark (list.heap.addr node) = true := by
    have stops := List.find?_some found
    by_contra busy
    have use : InUse list node := ⟨List.mem_of_find?_eq_some found, by simpa using busy⟩
    have holds : list.heap.addr node = new := by simpa [stopsAt, use.2] using stops
    exact fresh (holds ▸ mem_of_inUse lists use)
  obtain rfl := granted.none_of_found lists found
  obtain rfl : ({ list with heap := list.heap.link node new list.header } : ObjectList) = first :=
    Option.some.inj ((registerOn_free lists found vacant).symm.trans added)
  have after := (effect_registerOn lists object fresh granted added).1
  obtain ⟨-, pages, kept, -⟩ := effect_deleteOn after deleted
  have linked : ∀ other, (list.heap.link node new list.header).addr other =
      if other = node then new else list.heap.addr other := by
    intro other
    rw [link_addr vacant, Function.update_apply]
  simp only [linked, deleteTest_zero] at kept
  have holds : last.heap.addr node = new := by
    rw [kept node (by simpa using Ne.symm different), if_pos rfl]
  obtain ⟨-, before, later, split, passed⟩ := List.find?_eq_some_iff_append.mp stop
  refine ⟨node, List.find?_eq_some_iff_append.mpr ⟨?_, before, later ++ spot :: behind, ?_, ?_⟩, ?_⟩
  · simp [stopsAt, holds]
  · rw [pages]
    change nodeSlots list.pages = _
    rw [slots, split, List.append_assoc, List.cons_append]
  · intro other member
    have stops := passed other member
    have apart : other ≠ node := by
      rintro rfl
      simp [stopsAt, vacant] at stops
    have old_ne := not_old other (split ▸ List.mem_append_left _ member)
    have same : last.heap.addr other = list.heap.addr other := by
      rw [kept other (by simp [apart, Ne.symm old_ne]), if_neg apart]
    simpa [stopsAt, same] using stops
  · rw [holds]
    exact object.2

/-- Without one, it meets the node of the old lock, which is free by then. -/
theorem free_of_not_freedBefore (lists : Lists addresses list) (there : old ∈ addresses)
    (fresh : new ∉ addresses) (object : IsObject new) (granted : PageGiven list new answer)
    (added : registerOn list new answer = some first) (deleted : deleteOn first old 0 = some last)
    (full : ¬FreedBefore list old) :
    ∃ node, (nodeSlots last.pages).find? (stopsAt last.heap new) = some node ∧
      freeMark (last.heap.addr node) = true := by
  obtain ⟨after, stay⟩ := effect_registerOn lists object fresh granted added
  obtain ⟨-, pages, kept, -⟩ := effect_deleteOn after deleted
  obtain ⟨more, longer⟩ : ∃ more, nodeSlots first.pages = nodeSlots list.pages ++ more := by
    obtain ⟨heap, -, rfl⟩ := Option.map_eq_some_iff.mp added
    obtain ⟨nodes, listing, -⟩ := lists.nodes
    cases answer with
    | none => exact ⟨[], by simp⟩
    | some page =>
      exact ⟨_, nodeSlots_append (List.ne_nil_of_mem listing.layout.header_page) page.val⟩
  obtain ⟨ahead, spot, behind, slots, not_old, holds, use, condition⟩ := slots_split lists there
  have busy : ∀ node ∈ ahead, InUse list node := by
    intro node early
    refine ⟨slots ▸ List.mem_append_left _ early, ?_⟩
    by_contra free
    exact full (condition.mpr ⟨node, early, by simpa using free⟩)
  have vacant : freeMark (last.heap.addr spot) = true := by
    refine deleteOn_frees after deleted ?_ ((stay spot use).trans holds)
    rw [longer]
    exact List.mem_append_left _ use.1
  refine ⟨spot, List.find?_eq_some_iff_append.mpr ⟨?_, ahead, behind ++ more, ?_, ?_⟩, vacant⟩
  · simp [stopsAt, vacant]
  · rw [pages, longer, slots, List.append_assoc, List.cons_append]
  · intro node early
    have same : last.heap.addr node = list.heap.addr node := by
      rw [← stay node (busy node early)]
      refine kept node ?_
      rw [stay node (busy node early), deleteTest_zero]
      exact beq_eq_false_iff_ne.mpr (Ne.symm (not_old node early))
    have not_new : list.heap.addr node ≠ new := fun equal =>
      fresh (equal ▸ mem_of_inUse lists (busy node early))
    simp [stopsAt, same, not_new, (busy node early).2]

end Twice

/-! ## The condition -/

/-- The condition under which a handler replaces its object. -/
def Relistable {handler : Handler} {old new : Nat} (start : Start handler old new) : Prop :=
  match handler with
  | .buf => ∀ list, list = .slp ∨ list = .spn →
      (start.addresses list).find? (deleteTest old bufSize) ≠ some (old + bufSize)
  | .inode _ => False
  | .pipe error => error.val = 0
  | .tickslock => FreedBefore (start.mlist .spn) old
  | .pidLock => FreedBefore (start.mlist .spn) old
  | _ => True

section Handlers

variable {old new : Nat} {final : MlistHeader}

/-- What a pass over the inodes deletes from the list of spinlocks. -/
theorem mem_inodePass {broken i target size : Nat}
    (deleted : Call.delete .spn target size ∈ inodePass broken old new i) :
    (i = broken ∧ target = inodeAt old i ∧ size = inodeSize) ∨
      (target = inodeAt old i + lockOffset ∧ size = 0) := by
  by_cases same : i = broken
  · rw [inodePass, if_pos same] at deleted
    simp [recoveryHandlerSleeplock, initsleeplock, initlock] at deleted
    exact .inl ⟨same, deleted⟩
  · rw [inodePass, if_neg same] at deleted
    simp [recoveryHandlerSleeplock, initsleeplock, initlock] at deleted
    exact .inr deleted

/-- The locks of the inodes that are not broken stay on the list of spinlocks: their
sleeplock is deleted by its own address, and the spinlock inside it has another. -/
theorem not_relisted_inode {broken : Fin ninode} (start : Start (.inode broken) old new)
    (performed : Performed (Handler.calls (.inode broken) old new) start.mlist final) :
    ¬Relisted (.inode broken) old new final := by
  obtain ⟨other, low, different⟩ : ∃ other < ninode, other ≠ broken.val := by
    by_cases first : broken.val = 0
    · exact ⟨1, by decide, by omega⟩
    · exact ⟨0, by decide, Ne.symm first⟩
  have entry : inodeAt old other + lockOffset + lkOffset ∈
      Handler.entries (.inode broken) old .spn :=
    List.mem_cons_of_mem _ (mem_map.mpr ⟨other, mem_range.mpr low, rfl⟩)
  have notRun : ListId.spn ≠ .run := by decide
  refine start.not_relisted_of_kept (fun list => registered_inode list broken) performed notRun
    entry ?_
  intro target size deleted
  simp only [Handler.calls, recoveryHandlerInode, mem_append, mem_flatMap] at deleted
  rcases deleted with (taken | table) | ⟨i, -, pass⟩
  · simp [myKalloc] at taken
  · simp only [recoveryHandlerSpinlock, initlock, List.cons_append, List.nil_append,
      mem_cons, not_mem_nil, or_false, reduceCtorEq, false_or, Call.delete.injEq,
      true_and] at table
    obtain ⟨rfl, rfl⟩ := table
    rw [deleteTest_zero, inodeAt_eq]
    exact beq_eq_false_iff_ne.mpr (by omega)
  · rw [inodeAt_eq, lockOffset_eq, lkOffset_eq]
    rcases mem_inodePass pass with ⟨rfl, rfl, rfl⟩ | ⟨rfl, rfl⟩
    · refine deleteTest_outside (by decide) ?_
      rw [inodeAt_eq, inodeSize_eq]
      omega
    · rw [deleteTest_zero, inodeAt_eq, lockOffset_eq]
      exact beq_eq_false_iff_ne.mpr (by omega)

theorem not_relisted_pipe {error : Fin pipeSize} (start : Start (.pipe error) old new)
    (shifted : error.val ≠ 0)
    (performed : Performed (Handler.calls (.pipe error) old new) start.mlist final) :
    ¬Relisted (.pipe error) old new final := by
  have notRun : ListId.pip ≠ .run := by decide
  have entry : old ∈ Handler.entries (.pipe error) old .pip := by simp [Handler.entries]
  refine start.not_relisted_of_kept (fun list => by cases list <;> rfl) performed notRun entry ?_
  intro target size deleted
  simp [Handler.calls, recoveryHandlerPipe, recoveryHandlerSpinlock, myKalloc, initlock] at deleted
  obtain ⟨rfl, rfl⟩ := deleted
  rw [deleteTest_zero]
  exact beq_eq_false_iff_ne.mpr (by omega)

/-- A buffer is replaced unless the address right behind it is found in its place. -/
theorem relisted_buf (start : Start .buf old new)
    (performed : Performed (Handler.calls .buf old new) start.mlist final) :
    Relisted .buf old new final ↔ ∀ list, list = .slp ∨ list = .spn →
      (start.addresses list).find? (deleteTest old bufSize) ≠ some (old + bufSize) := by
  have registers : ∀ list, registered list (Handler.calls .buf old new) =
      Handler.entries .buf new list := fun list => by cases list <;> rfl
  obtain ⟨after, lists, left, fewer⟩ := start.performed registers performed
  rw [relisted_iff_cleared fun list => walk_of_lists (lists list)]
  have sized : Handler.size .buf = bufSize := rfl
  have apart := start.replaced
  simp only [LiveObject.Apart, Handler.object, sized] at apart
  have locks : ∀ list offset, list ≠ .run → 0 < offset ∧ offset < bufSize →
      Handler.entries .buf old list = [old + offset] →
      Handler.entries .buf new list = [new + offset] →
      Handler.locks .buf new list = [new + offset] →
      listedBy list (start.addresses list) (Handler.calls .buf old new) =
        ((new + offset) :: start.addresses list).eraseP (deleteTest old bufSize) →
      (Cleared .buf old new list (after list) ↔
        (start.addresses list).find? (deleteTest old bufSize) ≠ some (old + bufSize)) := by
    intro list offset other small oldEntry newEntry lock result
    have skipped : ¬deleteTest old bufSize (new + offset) = true := by
      rw [deleteTest_buf start.broken.2]
      omega
    rw [List.eraseP_cons_of_neg skipped] at result
    have once := (lists list).once
    rw [left list other, result] at once
    rw [left list other, result]
    have entry : new + offset ∈ Handler.entries .buf new list := by simp [newEntry]
    exact cleared_range start oldEntry lock small other (nodup_cons.mp once).2
      (start.not_mem_new other (Handler.inside .buf entry))
  have slp := locks .slp lockOffset (by decide) (by decide) rfl rfl rfl rfl
  have spn := locks .spn (lockOffset + lkOffset) (by decide) (by decide) rfl rfl rfl rfl
  have others : ∀ list, list ≠ .slp → list ≠ .spn → Cleared .buf old new list (after list) := by
    intro list notSleep notSpin
    by_cases run : list = .run
    · subst run
      exact start.cleared_run fewer
    have registrable := start.registrable registers
    refine ⟨fun address member within => ?_, fun lock member => ?_⟩
    · rw [left list run] at member
      rcases mem_listedBy (start.lists list).once (registrable.once list) (registrable.fresh list)
        member with fresh | ⟨there, kept⟩
      · rw [registers list] at fresh
        have bounds := Handler.inside .buf fresh
        rw [sized] at bounds within
        omega
      · have entry := (start.mem_old run within).mp there
        refine kept ?_
        cases list <;>
          simp only [Handler.entries, not_mem_nil, mem_singleton] at entry
        case buf =>
          subst entry
          simp [Handler.calls, recoveryHandlerBuf]
        case slp => exact absurd rfl notSleep
        case spn => exact absurd rfl notSpin
    · cases list <;> first | exact absurd rfl notSleep | exact absurd rfl notSpin | cases member
  constructor
  · rintro cleared list (rfl | rfl)
    · exact slp.mp (cleared .slp)
    · exact spn.mp (cleared .spn)
  · intro apart list
    by_cases sleep : list = .slp
    · subst sleep
      exact slp.mpr (apart .slp (.inl rfl))
    by_cases spin : list = .spn
    · subst spin
      exact spn.mpr (apart .spn (.inr rfl))
    exact others list sleep spin

variable {middle : MlistHeader}

/-- The states of the list of spinlocks while a spinlock is replaced. -/
theorem performed_spinlock {mlist : MlistHeader}
    (performed : Performed (myKalloc new ++ recoveryHandlerSpinlock new old) mlist middle) :
    ∃ answer first, PageGiven (mlist .spn) new answer ∧
      registerOn (mlist .spn) new answer = some first ∧
      deleteOn first old 0 = some (middle .spn) := by
  cases performed with
  | call _ _ taken rest =>
    obtain ⟨runList, -, rfl⟩ := perform_delete taken
    cases rest with
    | call answer given added rest =>
      obtain ⟨first, registered, next⟩ := perform_register added
      have granted := given .spn new rfl
      rw [Function.update_of_ne (by decide)] at granted registered
      refine ⟨answer, first, granted, registered, ?_⟩
      cases rest with
      | call _ _ deleted rest =>
        obtain ⟨last, removed, rfl⟩ := perform_delete deleted
        rw [takePage_other next (by decide), Function.update_self] at removed
        cases rest with
        | done => rw [Function.update_self, removed]

/-- A spinlock that has been deleted is not deleted again. -/
theorem deleted_again {handler : Handler} (single : handler = .tickslock ∨ handler = .pidLock)
    (start : Start handler old new)
    (replaced : Performed (myKalloc new ++ recoveryHandlerSpinlock new old) start.mlist middle)
    (again : Performed [.delete .spn old 0] middle final) : middle = final := by
  have exactly : Exact handler old new (myKalloc new ++ recoveryHandlerSpinlock new old) :=
    exact_spinlock single
  obtain ⟨after, lists, left, fewer⟩ := start.performed exactly.registers replaced
  have cleared := start.cleared_of_exact exactly lists left fewer
  have sized : 0 < handler.size := by
    rcases single with rfl | rfl <;> decide
  have absent : old ∉ after .spn := fun member => (cleared .spn).1 old member (by omega)
  cases again with
  | call _ _ returned rest =>
    obtain ⟨last, deleted, rfl⟩ := perform_delete returned
    rw [deleteOn_missed (lists .spn) absent] at deleted
    cases deleted
    rw [Function.update_eq_self] at rest
    cases rest with
    | done => rfl

/-- A spinlock that is registered again is listed once exactly when the scan finds it
before a free node. -/
theorem relisted_twice {handler : Handler} (single : handler = .tickslock ∨ handler = .pidLock)
    (start : Start handler old new)
    (replaced : Performed (myKalloc new ++ recoveryHandlerSpinlock new old) start.mlist middle)
    (again : Performed [.register .spn new] middle final) :
    Relisted handler old new final ↔ FreedBefore (start.mlist .spn) old := by
  have exactly : Exact handler old new (myKalloc new ++ recoveryHandlerSpinlock new old) :=
    exact_spinlock single
  obtain ⟨after, lists, left, fewer⟩ := start.performed exactly.registers replaced
  have cleared := start.cleared_of_exact exactly lists left fewer
  have entries : ∀ base, handler.entries base .spn = [base] ∧ handler.locks base .spn = [base] := by
    rcases single with rfl | rfl <;> exact fun base => ⟨rfl, rfl⟩
  have newEntry : new ∈ handler.entries new .spn := by simp [(entries new).1]
  have oldEntry : old ∈ handler.entries old .spn := by simp [(entries old).1]
  have object := isObject_of_entry start.allocated newEntry
  have there := (start.mem_old (by decide) (handler.inside oldEntry)).mpr oldEntry
  have fresh : new ∉ start.addresses .spn :=
    start.not_mem_new (by decide) (handler.inside newEntry)
  have once := (cleared .spn).2 new (by simp [(entries new).2])
  obtain ⟨answer, first, granted, added, deleted⟩ := performed_spinlock replaced
  cases again with
  | call second given repeated rest =>
    cases rest with
    | done =>
      obtain ⟨last, result, next⟩ := perform_register repeated
      have asked := given .spn new rfl
      by_cases freed : FreedBefore (start.mlist .spn) old
      · obtain ⟨node, found, busy⟩ := found_of_freedBefore (start.lists .spn) there fresh
          object granted added deleted freed
        obtain rfl := asked.none_of_found (lists .spn) found
        rw [registerOn_exists (lists .spn) found busy] at result
        cases result
        cases next
        rw [Function.update_eq_self]
        refine iff_of_true ?_ freed
        exact (relisted_iff_cleared fun list => walk_of_lists (lists list)).mpr cleared
      · obtain ⟨node, found, vacant⟩ := free_of_not_freedBefore (start.lists .spn) there fresh
          object granted added deleted freed
        obtain rfl := asked.none_of_found (lists .spn) found
        rw [registerOn_free (lists .spn) found vacant] at result
        cases result
        cases next
        refine iff_of_false (fun relisted => ?_) freed
        obtain ⟨addresses, walked, -, counts⟩ := relisted .spn
        have linked := walk_link (lists .spn) object (List.mem_of_find?_eq_some found) vacant
        rw [Function.update_self] at walked
        obtain rfl := Option.some.inj (linked.symm.trans walked)
        have twice := counts new (by simp [(entries new).2])
        rw [List.count_cons_self, once] at twice
        exact absurd twice (by decide)

end Handlers

/-! ## The theorem -/

/-- A successful run of a recovery handler leaves no entry of the old object, and each
lock of the new one once, exactly when `Relistable` holds before it. -/
theorem relisted_iff {handler : Handler} {old new : Nat} (start : Start handler old new)
    {final : MlistHeader} (performed : Performed (handler.calls old new) start.mlist final) :
    Relisted handler old new final ↔ Relistable start := by
  cases handler with
  | buf => exact relisted_buf start performed
  | file => exact iff_of_true (start.relisted_of_exact exact_file performed) trivial
  | inode broken => exact iff_of_false (not_relisted_inode start performed) id
  | pipe error =>
    by_cases zero : error.val = 0
    · have exactly : Exact (.pipe error) old new (Handler.calls (.pipe error) old new) :=
        exact_single (.inr (.inr (.inr (.inr ⟨error, zero, rfl⟩))))
      exact iff_of_true (start.relisted_of_exact exactly performed) zero
    · exact iff_of_false (not_relisted_pipe start zero performed) zero
  | tickslock =>
    obtain ⟨middle, replaced, again⟩ := performed.split
    exact relisted_twice (.inl rfl) start replaced again
  | pidLock =>
    obtain ⟨middle, first, again⟩ := performed.split
    obtain ⟨before, replaced, deleted⟩ := first.split
    obtain rfl := deleted_again (.inr rfl) start replaced deleted
    exact relisted_twice (.inr rfl) start replaced again
  | log => exact iff_of_true (start.relisted_of_exact (exact_single (.inl rfl)) performed) trivial
  | cons =>
    exact iff_of_true
      (start.relisted_of_exact (exact_single (.inr (.inl rfl))) performed) trivial
  | pr =>
    exact iff_of_true
      (start.relisted_of_exact (exact_single (.inr (.inr (.inl rfl)))) performed) trivial
  | kmem =>
    exact iff_of_true
      (start.relisted_of_exact (exact_single (.inr (.inr (.inr (.inl rfl))))) performed) trivial

/-! ## A pipe -/

/-- A list with one page and no object. -/
def emptyList (page : Nat) : ObjectList where
  heap := { addr _ := novalue, next _ := page, freelist := 0 }
  header := page
  pages := [page]

/-- A list with one object, in the node behind the header. -/
def listOf (page address : Nat) : ObjectList :=
  { emptyList page with heap := (emptyList page).heap.link (nodeAt page 1) address page }

theorem lists_emptyList {page : Nat} (physical : IsPage page) : Lists [] (emptyList page) :=
  lists_fresh ⟨physical, rfl, fun _ _ _ => rfl, rfl⟩

theorem lists_listOf {page : Nat} (physical : IsPage page) (object : IsObject address) :
    Lists [address] (listOf page address) := by
  have granted : PageGiven (emptyList page) address none := fun _ impossible => by cases impossible
  have found : (nodeSlots (emptyList page).pages).find? (stopsAt (emptyList page).heap address) =
      some (nodeAt page 1) := rfl
  have added := registerOn_free (lists_emptyList physical) found rfl
  exact (effect_registerOn (lists_emptyList physical) object not_mem_nil granted added).1

/-- A run without a page from `my_kalloc`. -/
theorem Performed.of_foldlM {calls : List Call} {mlist final : MlistHeader}
    (returned : calls.foldlM (fun mlist call => perform mlist none call) mlist = some final) :
    Performed calls mlist final := by
  induction calls generalizing mlist with
  | nil =>
    obtain rfl := Option.some.inj returned
    exact .done mlist
  | cons call calls ih =>
    rw [List.foldlM_cons] at returned
    obtain ⟨next, first, rest⟩ := Option.bind_eq_some_iff.mp returned
    exact .call none (fun _ _ _ _ impossible => by cases impossible) first (ih rest)

/-- The page of a list. -/
def samplePage (list : ListId) : Nat := kernbase + pgsize * list.ctorIdx

/-- A pipe, and the page that replaces it. -/
def samplePipe : Nat := kernbase + 0x10000

/-- The page that replaces the pipe. -/
def sampleNew : Nat := kernbase + 0x20000

/-- One pipe and one free page. -/
def sampleMlist : ListId → ObjectList
  | .pip => listOf (samplePage .pip) samplePipe
  | .spn => listOf (samplePage .spn) samplePipe
  | .run => listOf (samplePage .run) sampleNew
  | list => emptyList (samplePage list)

/-- The addresses on the lists. -/
def sampleAddresses : ListId → List Nat
  | .pip => [samplePipe]
  | .spn => [samplePipe]
  | .run => [sampleNew]
  | _ => []

theorem sampleLists (list : ListId) : Lists (sampleAddresses list) (sampleMlist list) := by
  have page : IsPage (samplePage list) := by cases list <;> decide
  cases list
  case pip => exact lists_listOf page (by decide)
  case spn => exact lists_listOf page (by decide)
  case run => exact lists_listOf page (by decide)
  all_goals exact lists_emptyList page

theorem sampleExactly (error : Fin pipeSize) (list : ListId) (other : list ≠ .run) :
    (sampleAddresses list).Perm (Handler.entries (.pipe error) samplePipe list ++
      ([] : List LiveObject).flatMap fun object => object.entries list) := by
  cases list
  case run => exact absurd rfl other
  all_goals exact .refl _

theorem sampleFree (error : Fin pipeSize) : ∀ page ∈ sampleAddresses .run,
    ¬(samplePipe ≤ page ∧ page < samplePipe + Handler.size (.pipe error)) := by
  intro page member
  obtain rfl := mem_singleton.mp member
  change ¬(samplePipe ≤ sampleNew ∧ sampleNew < samplePipe + pipeSize)
  decide

theorem sampleReplaced (error : Fin pipeSize) :
    (Handler.object (.pipe error) samplePipe).Apart (Handler.object (.pipe error) sampleNew) := by
  refine .inl ?_
  change samplePipe + pipeSize ≤ sampleNew
  decide

theorem sampleBroken : kernbase ≤ samplePipe ∧ samplePipe + pipeSize ≤ phystop := by decide

theorem sampleAllocated : IsPage sampleNew ∧ sampleNew + pipeSize ≤ phystop := by decide

theorem pipeSize_pos : 0 < pipeSize := by decide

/-- The state in which an error is found in the pipe. -/
def sampleStart (error : Fin pipeSize) : Start (.pipe error) samplePipe sampleNew where
  mlist := sampleMlist
  addresses := sampleAddresses
  others := []
  lists := sampleLists
  exactly := sampleExactly error
  free := sampleFree error
  apart _ member := absurd member not_mem_nil
  replaced := sampleReplaced error
  broken := sampleBroken
  allocated := sampleAllocated

/-- An error at the start of the pipe. -/
theorem relisted_iff_sample : ∃ final,
    Performed (Handler.calls (.pipe ⟨0, pipeSize_pos⟩) samplePipe sampleNew) sampleMlist final ∧
      (Relisted (.pipe ⟨0, pipeSize_pos⟩) samplePipe sampleNew final ↔
        Relistable (sampleStart ⟨0, pipeSize_pos⟩)) := by
  have found : ((recoveryHandlerPipe (samplePipe + 0) sampleNew).foldlM
      (fun mlist call => perform mlist none call) sampleMlist).isSome = true := by decide +kernel
  obtain ⟨final, returned⟩ := Option.isSome_iff_exists.mp found
  have performed : Performed (Handler.calls (.pipe ⟨0, pipeSize_pos⟩) samplePipe sampleNew)
      (sampleStart ⟨0, pipeSize_pos⟩).mlist final := .of_foldlM returned
  exact ⟨final, performed, relisted_iff _ performed⟩

/-- An error in the data of a pipe: the old pipe stays on its list. -/
theorem pipe_still_listed : ¬∀ (handler : Handler) (old new : Nat) (start : Start handler old new)
    (final : MlistHeader), Performed (handler.calls old new) start.mlist final →
      Relisted handler old new final := by
  intro claimed
  have found : ((recoveryHandlerPipe (samplePipe + 24) sampleNew).foldlM
      (fun mlist call => perform mlist none call) sampleMlist).isSome = true := by decide +kernel
  obtain ⟨final, returned⟩ := Option.isSome_iff_exists.mp found
  have inside : 24 < pipeSize := by decide
  have performed : Performed (Handler.calls (.pipe ⟨24, inside⟩) samplePipe sampleNew)
      (sampleStart ⟨24, inside⟩).mlist final := .of_foldlM returned
  exact not_relisted_pipe _ (Nat.succ_ne_zero 23) performed (claimed _ _ _ _ _ performed)

end Ev6.MList.Relisting
