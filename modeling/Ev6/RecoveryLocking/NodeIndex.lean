import Ev6.Support.LabelledSystem
import Ev6.Support.Slots

/-!
# The recovery locks of single nodes

Every `struct buf`, `struct file` and `struct inode` has a recovery lock of its own.
`buf_idx`, `file_idx` and `inode_idx` say which one: they are laid out at boot, looked
up by address, and pointed to the replacement of a node or of a whole table by the
recovery handlers.
-/

namespace Ev6.RecoveryLocking

open Support

/-- `NBUF`, `NFILE` and `NINODE`. -/
structure NodeSizes where
  nbuf : Nat
  nfile : Nat
  ninode : Nat
  nbuf_pos : 0 < nbuf
  nfile_pos : 0 < nfile
  ninode_pos : 0 < ninode

/-- The types of nodes. -/
inductive NodeKind where
  | buf
  | file
  | inode
deriving DecidableEq

/-- The nodes of one type. -/
def NodeSizes.count (sizes : NodeSizes) : NodeKind → Nat
  | .buf => sizes.nbuf
  | .file => sizes.nfile
  | .inode => sizes.ninode

/-- `RL_NFLAGS`, and `RL_FLAG_MAX`. -/
def NodeSizes.rlNflags (sizes : NodeSizes) : Nat := 8 + sizes.nbuf + sizes.nfile + sizes.ninode + 1

/-- `RL_FLAG_BUF`, `RL_FLAG_FILE` and `RL_FLAG_INODE`. -/
def NodeKind.rlFlag : NodeKind → Nat
  | .buf => 0x9
  | .file => 0xa
  | .inode => 0xb

/-- The giant section of the table that the nodes of one type are in: `RL_FLAG_BCACHE`,
`RL_FLAG_FTABLE` and `RL_FLAG_ICACHE`. -/
def NodeKind.giantFlag : NodeKind → Nat
  | .buf => 0x1
  | .file => 0x3
  | .inode => 0x4

/-- The flag of the first node of one type, as the loops of `init_recovery_lock_idx` have
it: the first loop adds one, the others do not. -/
def NodeSizes.firstFlag (sizes : NodeSizes) : NodeKind → Nat
  | .buf => 8 + 1
  | .file => 8 + sizes.nbuf
  | .inode => 8 + sizes.nbuf + sizes.nfile

/-- The bytes of one node. -/
def NodeKind.sizeof : NodeKind → Nat
  | .buf => 1120
  | .file => 40
  | .inode => 136

/-- The address of a node of `struct bcache`, `struct ftable` or `struct icache`: the
array stands behind the spinlock. -/
def nodeAddr (kind : NodeKind) (table index : Nat) : Nat := table + 24 + kind.sizeof * index

variable {i : Nat} {kind : NodeKind}

theorem nodeAddr_injective {table j : Nat}
    (same : nodeAddr kind table i = nodeAddr kind table j) : i = j := by
  cases kind <;> simp only [nodeAddr, NodeKind.sizeof] at same <;> omega

/-- `struct recovery_lock_idx`. -/
structure RecoveryLockIdx where
  flag : Nat
  addr : Nat

/-- `buf_idx`, `file_idx` and `inode_idx`, and the pointers `ftable` and `icache`. -/
structure NodeTables where
  idx : NodeKind → Nat → RecoveryLockIdx
  ftable : Nat
  icache : Nat

/-- `init_recovery_lock_idx`. -/
def initRecoveryLockIdx (sizes : NodeSizes) (bcache ftable icache : Nat) : NodeTables where
  idx kind i :=
    { flag := sizes.firstFlag kind + i
      addr := nodeAddr kind (match kind with | .buf => bcache | .file => ftable | .inode => icache) i }
  ftable := ftable
  icache := icache

/-- `search_recovery_idx`. -/
def searchRecoveryIdx (sizes : NodeSizes) (tables : NodeTables) (kind : NodeKind) (addr : Nat) :
    Int :=
  match firstSlot (fun i => (tables.idx kind i).addr == addr) (sizes.count kind) with
  | some i => (tables.idx kind i).flag
  | none => -1

/-- Replace one of the index arrays. -/
def NodeTables.setIdx (tables : NodeTables) (kind : NodeKind) (idx : Nat → RecoveryLockIdx) :
    NodeTables :=
  { tables with idx := Function.update tables.idx kind idx }

/-- The branch `RL_FLAG_BUF` of `update_recovery_lock_idx`. -/
def updateBufIdx (sizes : NodeSizes) (tables : NodeTables) (broken new : Nat) : NodeTables :=
  tables.setIdx .buf fun i =>
    if i < sizes.nbuf ∧ (tables.idx .buf i).addr = broken then
      { tables.idx .buf i with addr := new }
    else tables.idx .buf i

/-- The branches `RL_FLAG_FILE` and `RL_FLAG_INODE` of `update_recovery_lock_idx`: every
entry is pointed to the node of the table in use. -/
def updateTableIdx (sizes : NodeSizes) (tables : NodeTables) (kind : NodeKind) (table : Nat) :
    NodeTables :=
  tables.setIdx kind fun i =>
    if i < sizes.count kind then { tables.idx kind i with addr := nodeAddr kind table i }
    else tables.idx kind i

/-- What the recovery handlers do to the tables. -/
inductive NodeMove where
  /-- `recovery_handler_buf` puts the buffer `new` for the buffer at `broken`. -/
  | buf (broken new : Nat)
  /-- `recovery_handler_file` puts a new `struct ftable` for the old one. -/
  | file (ftable : Nat)
  /-- `recovery_handler_inode` puts a new `struct icache` for the old one. -/
  | inode (icache : Nat)

/-- A recovery handler up to its call of `update_recovery_lock_idx`. The buffer handler
panics for an address that is not in `buf_idx`; the page of `new` is not in use. -/
def nodeStep (sizes : NodeSizes) (tables : NodeTables) : NodeMove → Option NodeTables
  | .buf broken new =>
    if searchRecoveryIdx sizes tables .buf broken < 0 then none
    else if 0 ≤ searchRecoveryIdx sizes tables .buf new then none
    else some (updateBufIdx sizes tables broken new)
  | .file ftable =>
    some (updateTableIdx sizes { tables with ftable := ftable } .file ftable)
  | .inode icache =>
    some (updateTableIdx sizes { tables with icache := icache } .inode icache)

/-- The calls of `update_recovery_lock_idx` from boot on. -/
def nodeSystem (sizes : NodeSizes) (bcache ftable icache : Nat) :
    LabelledSystem NodeTables NodeMove :=
  .ofFunction (· = initRecoveryLockIdx sizes bcache ftable icache) (nodeStep sizes)

/-! ## Nodes and their flags -/

/-- A buffer, a file or an inode. -/
@[ext]
structure Node (sizes : NodeSizes) where
  kind : NodeKind
  index : Nat
  inside : index < sizes.count kind

variable {sizes : NodeSizes}

/-- Where a node stands now: a buffer where its entry points to, the others in the table
in use. -/
def Node.addr (node : Node sizes) (tables : NodeTables) : Nat :=
  match node.kind with
  | .buf => (tables.idx .buf node.index).addr
  | .file => nodeAddr .file tables.ftable node.index
  | .inode => nodeAddr .inode tables.icache node.index

/-- The recovery lock that the functions for single nodes find for a node. -/
def Node.flag (node : Node sizes) (tables : NodeTables) : Int :=
  searchRecoveryIdx sizes tables node.kind (node.addr tables)

/-- The recovery locks that are taken, and by which process. -/
abbrev TakenLocks := Int → Option Nat

/-- `acquire_recovery_lock_buf`, `_file` and `_inode` when no recovery lock is taken. -/
def acquireRecoveryLockNode (tables : NodeTables) (node : Node sizes) (pid : Nat) : TakenLocks :=
  fun flag => if flag = node.kind.giantFlag ∨ flag = node.flag tables then some pid else none

/-- `enter_recovery_critical_section_nodes` panics: the flag is invalid, or another
process holds the recovery lock. -/
def entryPanics (tables : NodeTables) (locks : TakenLocks) (node : Node sizes) (pid : Nat) : Prop :=
  node.flag tables < 0 ∨ ∃ holder, locks (node.flag tables) = some holder ∧ holder ≠ pid

/-- Every node has a recovery lock of its own. -/
structure Separate (sizes : NodeSizes) (tables : NodeTables) : Prop where
  distinct : ∀ a b : Node sizes, a ≠ b → a.flag tables ≠ b.flag tables
  giant : ∀ (a : Node sizes) (giant : Nat), 1 ≤ giant → giant ≤ 8 → a.flag tables ≠ giant
  inside : ∀ a : Node sizes, 0 ≤ a.flag tables ∧ a.flag tables < sizes.rlNflags
  undisturbed : ∀ (a b : Node sizes) (handler pid : Nat), a ≠ b → handler ≠ pid →
    ¬ entryPanics tables (acquireRecoveryLockNode tables a handler) b pid

/-- The last buffer. -/
def lastBuf (sizes : NodeSizes) : Node sizes where
  kind := .buf
  index := sizes.nbuf - 1
  inside := Nat.sub_lt sizes.nbuf_pos Nat.one_pos

/-- The first file. -/
def firstFile (sizes : NodeSizes) : Node sizes where
  kind := .file
  index := 0
  inside := sizes.nfile_pos

/-! ## The layout in every run -/

/-- The flags are those of the boot, no two buffers share an address, and the other
entries point to the nodes of the tables in use. -/
structure LaidOut (sizes : NodeSizes) (tables : NodeTables) : Prop where
  flags : ∀ kind i, (tables.idx kind i).flag = sizes.firstFlag kind + i
  bufs : ∀ i j, i < sizes.nbuf → j < sizes.nbuf →
    (tables.idx .buf i).addr = (tables.idx .buf j).addr → i = j
  files : ∀ i, i < sizes.nfile → (tables.idx .file i).addr = nodeAddr .file tables.ftable i
  inodes : ∀ i, i < sizes.ninode → (tables.idx .inode i).addr = nodeAddr .inode tables.icache i

theorem laidOut_init (bcache ftable icache : Nat) :
    LaidOut sizes (initRecoveryLockIdx sizes bcache ftable icache) where
  flags _ _ := rfl
  bufs _ _ _ _ same := nodeAddr_injective same
  files _ _ := rfl
  inodes _ _ := rfl

variable {tables : NodeTables}

/-- No entry has the address that a search has missed. -/
theorem addr_ne_of_search_neg {addr : Nat}
    (missed : searchRecoveryIdx sizes tables kind addr < 0) (inside : i < sizes.count kind) :
    (tables.idx kind i).addr ≠ addr := by
  unfold searchRecoveryIdx at missed
  cases found : firstSlot (fun i => (tables.idx kind i).addr == addr) (sizes.count kind) with
  | some slot =>
    rw [found] at missed
    simp only at missed
    omega
  | none => simpa using firstSlot_eq_none.mp found i inside

theorem laidOut_updateBufIdx {broken new : Nat}
    (laidOut : LaidOut sizes tables) (fresh : searchRecoveryIdx sizes tables .buf new < 0) :
    LaidOut sizes (updateBufIdx sizes tables broken new) where
  flags kind i := by
    cases kind with
    | buf =>
      simp only [updateBufIdx, NodeTables.setIdx, Function.update_self]
      split_ifs <;> exact laidOut.flags .buf i
    | file => exact laidOut.flags .file i
    | inode => exact laidOut.flags .inode i
  bufs i j insideI insideJ same := by
    have freshI := addr_ne_of_search_neg fresh (show i < sizes.count .buf from insideI)
    have freshJ := addr_ne_of_search_neg fresh (show j < sizes.count .buf from insideJ)
    simp only [updateBufIdx, NodeTables.setIdx, Function.update_self, insideI, insideJ,
      true_and] at same
    split_ifs at same with brokenI brokenJ brokenJ
    · exact laidOut.bufs i j insideI insideJ (brokenI.trans brokenJ.symm)
    · exact absurd same.symm freshJ
    · exact absurd same freshI
    · exact laidOut.bufs i j insideI insideJ same
  files := laidOut.files
  inodes := laidOut.inodes

theorem laidOut_step {next : NodeTables} {move : NodeMove}
    (laidOut : LaidOut sizes tables) (taken : nodeStep sizes tables move = some next) :
    LaidOut sizes next := by
  cases move with
  | buf broken new =>
    obtain ⟨-, taken⟩ := Option.ite_none_left_eq_some.mp taken
    obtain ⟨fresh, same⟩ := Option.ite_none_left_eq_some.mp taken
    cases same
    exact laidOut_updateBufIdx laidOut (by omega)
  | file ftable =>
    cases taken
    refine ⟨fun kind i => ?_, laidOut.bufs, fun i inside => ?_, laidOut.inodes⟩
    · cases kind with
      | file =>
        simp only [updateTableIdx, NodeTables.setIdx, Function.update_self]
        split_ifs <;> exact laidOut.flags .file i
      | buf => exact laidOut.flags .buf i
      | inode => exact laidOut.flags .inode i
    · simp [updateTableIdx, NodeTables.setIdx, NodeSizes.count, inside]
  | inode icache =>
    cases taken
    refine ⟨fun kind i => ?_, laidOut.bufs, laidOut.files, fun i inside => ?_⟩
    · cases kind with
      | inode =>
        simp only [updateTableIdx, NodeTables.setIdx, Function.update_self]
        split_ifs <;> exact laidOut.flags .inode i
      | buf => exact laidOut.flags .buf i
      | file => exact laidOut.flags .file i
    · simp [updateTableIdx, NodeTables.setIdx, NodeSizes.count, inside]

theorem laidOut_run {bcache ftable icache : Nat} {moves : List NodeMove}
    (run : (nodeSystem sizes bcache ftable icache).Runs moves tables) : LaidOut sizes tables := by
  refine run.invariant (LaidOut sizes) ?_ ?_
  · rintro tables rfl
    exact laidOut_init bcache ftable icache
  · intro tables move next laidOut taken
    exact laidOut_step laidOut taken

/-- The entry at an index is the only one that has its address. -/
theorem LaidOut.search_eq (laidOut : LaidOut sizes tables) (inside : i < sizes.count kind) :
    searchRecoveryIdx sizes tables kind (tables.idx kind i).addr = sizes.firstFlag kind + i := by
  have single : ∀ j, j < sizes.count kind →
      (tables.idx kind j).addr = (tables.idx kind i).addr → j = i := by
    intro j insideJ same
    cases kind with
    | buf => exact laidOut.bufs j i insideJ inside same
    | file =>
      rw [laidOut.files j insideJ, laidOut.files i inside] at same
      exact nodeAddr_injective same
    | inode =>
      rw [laidOut.inodes j insideJ, laidOut.inodes i inside] at same
      exact nodeAddr_injective same
  have found : firstSlot (fun j => (tables.idx kind j).addr == (tables.idx kind i).addr)
      (sizes.count kind) = some i := by
    refine firstSlot_eq_some.mpr ⟨inside, by simp, fun j earlier => ?_⟩
    have other : j ≠ i := by omega
    simpa using fun same => other (single j (by omega) same)
  simp only [searchRecoveryIdx, found, laidOut.flags]
  push_cast
  rfl

theorem LaidOut.flag_eq (laidOut : LaidOut sizes tables)
    (node : Node sizes) : node.flag tables = sizes.firstFlag node.kind + node.index := by
  obtain ⟨kind, i, inside⟩ := node
  cases kind with
  | buf => exact laidOut.search_eq inside
  | file =>
    have points := laidOut.search_eq inside
    rw [laidOut.files i inside] at points
    exact points
  | inode =>
    have points := laidOut.search_eq inside
    rw [laidOut.inodes i inside] at points
    exact points

/-- Two distinct nodes share a recovery lock exactly when one is the last buffer and the
other the first file. -/
theorem LaidOut.flag_eq_iff (laidOut : LaidOut sizes tables)
    {a b : Node sizes} (different : a ≠ b) : a.flag tables = b.flag tables ↔
      a = lastBuf sizes ∧ b = firstFile sizes ∨ a = firstFile sizes ∧ b = lastBuf sizes := by
  have naturals : a.flag tables = b.flag tables ↔
      sizes.firstFlag a.kind + a.index = sizes.firstFlag b.kind + b.index := by
    rw [laidOut.flag_eq a, laidOut.flag_eq b]
    omega
  rw [naturals]
  clear naturals
  simp only [ne_eq, Node.ext_iff, lastBuf, firstFile] at different ⊢
  have insideA := a.inside
  have insideB := b.inside
  have nbuf := sizes.nbuf_pos
  have nfile := sizes.nfile_pos
  cases kindA : a.kind <;> cases kindB : b.kind <;>
    simp only [kindA, kindB, NodeSizes.count, NodeSizes.firstFlag, reduceCtorEq, true_and,
      false_and, and_false, or_false, false_or, iff_false] at insideA insideB different ⊢ <;>
    omega

/-- The recovery locks of single nodes are inside the array and apart from the giant
ones. -/
theorem LaidOut.flag_bounds (laidOut : LaidOut sizes tables)
    (node : Node sizes) : 8 < node.flag tables ∧ node.flag tables < sizes.rlNflags := by
  rw [laidOut.flag_eq node]
  have inside := node.inside
  have nbuf := sizes.nbuf_pos
  cases kind : node.kind <;>
    simp only [kind, NodeSizes.count, NodeSizes.firstFlag, NodeSizes.rlNflags] at inside ⊢ <;>
    omega

theorem NodeKind.giantFlag_le (kind : NodeKind) : kind.giantFlag ≤ 8 := by
  cases kind <;> decide

/-- The entry to the section of a node panics, while the recovery lock of another node
is held, exactly when the two share it. -/
theorem LaidOut.entryPanics_iff (laidOut : LaidOut sizes tables)
    (a b : Node sizes) {handler pid : Nat} (other : handler ≠ pid) :
    entryPanics tables (acquireRecoveryLockNode tables a handler) b pid ↔
      b.flag tables = a.flag tables := by
  have bounds := laidOut.flag_bounds b
  have giant := a.kind.giantFlag_le
  constructor
  · rintro (invalid | ⟨holder, held, -⟩)
    · omega
    · obtain ⟨matched, -⟩ := Option.ite_none_right_eq_some.mp held
      rcases matched with isGiant | same
      · omega
      · exact same
  · intro same
    refine .inr ⟨handler, ?_, other⟩
    exact if_pos (.inr same)

/-- In every run the last buffer and the first file share a recovery lock, and no other
two nodes do; all of them are inside the array and apart from the giant sections. -/
theorem not_separate_of_run {sizes : NodeSizes} {bcache ftable icache : Nat}
    {moves : List NodeMove} {tables : NodeTables}
    (run : (nodeSystem sizes bcache ftable icache).Runs moves tables) :
    ¬ Separate sizes tables ∧
      (∀ a b : Node sizes, a ≠ b → (a.flag tables = b.flag tables ↔
        a = lastBuf sizes ∧ b = firstFile sizes ∨ a = firstFile sizes ∧ b = lastBuf sizes)) ∧
      (∀ a : Node sizes, 8 < a.flag tables ∧ a.flag tables < sizes.rlNflags) ∧
      ∀ (a b : Node sizes) (handler pid : Nat), handler ≠ pid →
        (entryPanics tables (acquireRecoveryLockNode tables a handler) b pid ↔
          b.flag tables = a.flag tables) := by
  have laidOut := laidOut_run run
  have different : lastBuf sizes ≠ firstFile sizes := by
    intro same
    cases congrArg Node.kind same
  have shared := (laidOut.flag_eq_iff different).mpr (.inl ⟨rfl, rfl⟩)
  exact ⟨fun separate => separate.distinct _ _ different shared,
    fun a b other => laidOut.flag_eq_iff other, laidOut.flag_bounds,
    fun a b handler pid other => laidOut.entryPanics_iff a b other⟩

/-- The sizes of `param.h`. -/
def paramSizes : NodeSizes := ⟨30, 100, 50, by decide, by decide, by decide⟩

/-- A buffer and the file table have been replaced. -/
def replacedMoves : List NodeMove := [.buf (nodeAddr .buf 0x80010000 3) 0x87f00000, .file 0x87f01000]

theorem not_separate_of_run_replaced :
    ∃ tables, (nodeSystem paramSizes 0x80010000 0x80020000 0x80030000).Runs replacedMoves tables ∧
      ¬ Separate paramSizes tables := by
  have found : (LabelledSystem.exec (nodeStep paramSizes)
      (initRecoveryLockIdx paramSizes 0x80010000 0x80020000 0x80030000) replacedMoves).any
        (fun _ => true) = true := by
    decide +kernel
  obtain ⟨tables, result, -⟩ := (Option.any_eq_true _ _).mp found
  have run : (nodeSystem paramSizes 0x80010000 0x80020000 0x80030000).Runs replacedMoves tables :=
    .of_exec rfl result
  exact ⟨tables, run, (not_separate_of_run run).1⟩

/-- While the last buffer is recovered, a process that enters the section of the first
file panics. -/
theorem last_buf_stops_first_file :
    ¬ ∀ sizes bcache ftable icache moves tables,
      (nodeSystem sizes bcache ftable icache).Runs moves tables → Separate sizes tables := by
  intro claimed
  have separate := claimed paramSizes 0x80010000 0x80020000 0x80030000 []
    (initRecoveryLockIdx paramSizes 0x80010000 0x80020000 0x80030000) (.initial rfl)
  have different : lastBuf paramSizes ≠ firstFile paramSizes := by
    intro same
    cases congrArg Node.kind same
  refine separate.undisturbed (lastBuf paramSizes) (firstFile paramSizes) 1 2 different
    (by decide) (.inr ⟨1, ?_, by decide⟩)
  decide +kernel

end Ev6.RecoveryLocking
