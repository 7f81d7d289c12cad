import Ev6.RecoveryLocking.NodeIndex
import Mathlib.Algebra.BigOperators.Group.Finset.Basic
import Mathlib.Algebra.Order.BigOperators.Group.Finset
import Mathlib.Data.Fintype.Basic

/-!
# The busy tests of the file and the inode handler

Before a file table or an inode cache is replaced, the handler asks whether another
process is inside the section of the broken node, or of the node attached to it, and
returns `FAIL_STOP` then. The loops behind the tests, which wait for the giant section
to empty, are left out.
-/

namespace Ev6.RecoveryLocking

open Support

/-- The cases of `search_recovery_idx`. -/
def nodeKind : Nat → Option NodeKind
  | 0x9 => some .buf
  | 0xa => some .file
  | 0xb => some .inode
  | _ => none

/-- `check_and_count_procs_in_rcs`: `num` has the counters of `recovery_locks`, and
`none` is an access outside the array. -/
def checkAndCountProcsInRcs (sizes : NodeSizes) (tables : NodeTables) (num : Nat → Nat)
    (flag addr : Nat) : Option Nat :=
  let flag : Int :=
    if NodeKind.buf.rlFlag ≤ flag ∧ addr ≠ 0 then
      match nodeKind flag with
      | some kind => searchRecoveryIdx sizes tables kind addr
      | none => -1
    else flag
  if 0 ≤ flag ∧ flag < sizes.rlNflags then some (num flag.toNat) else none

/-- The tests of `check_and_wait_procs_in_rcs_file`; `true` is `FAIL_STOP`. -/
def checkAndWaitProcsInRcsFile (sizes : NodeSizes) (tables : NodeTables) (num : Nat → Nat)
    (f ip : Nat) : Option Bool :=
  if ip ≠ 0 then
    (checkAndCountProcsInRcs sizes tables num NodeKind.file.rlFlag f).bind fun count =>
      if count > 1 then some true
      else (checkAndCountProcsInRcs sizes tables num NodeKind.inode.rlFlag ip).map (· > 1)
  else (checkAndCountProcsInRcs sizes tables num NodeKind.file.rlFlag f).map (· > 1)

/-- The tests of `check_and_wait_procs_in_rcs_inode`; `true` is `FAIL_STOP`. -/
def checkAndWaitProcsInRcsInode (sizes : NodeSizes) (tables : NodeTables) (num : Nat → Nat)
    (ip f : Nat) : Option Bool :=
  (checkAndCountProcsInRcs sizes tables num NodeKind.inode.rlFlag ip).bind fun count =>
    if count > 1 then some true
    else (checkAndCountProcsInRcs sizes tables num NodeKind.file.rlFlag f).map (· > 1)

/-- The bytes of a `struct ftable`. -/
def NodeSizes.sizeofFtable (sizes : NodeSizes) : Nat := 24 + 40 * sizes.nfile

/-- The call of one of the two functions by its recovery handler. -/
inductive BusyCall (sizes : NodeSizes) (tables : NodeTables) where
  /-- `recovery_handler_file` for the file at an index: `b_fp` points into the new table,
  whose pages were free, and `b_ip` is the inode it has found, if any. -/
  | file (index : Fin sizes.nfile) (newFtable : Nat) (ip : Option (Fin sizes.ninode))
      (apart : newFtable + sizes.sizeofFtable ≤ tables.ftable ∨
        tables.ftable + sizes.sizeofFtable ≤ newFtable)
  /-- `recovery_handler_inode` for the inode at an index: `b_fp` is still 0. -/
  | inode (index : Fin sizes.ninode)

/-- The processes inside the sections, and the inode that each open file points to. -/
structure BusyState (procs : Nat) (sizes : NodeSizes) where
  tables : NodeTables
  entries : Fin procs → Nat → Nat
  ip : Fin sizes.nfile → Option (Fin sizes.ninode)

variable {procs : Nat} {sizes : NodeSizes}

/-- `recovery_locks[flag].num`. -/
def BusyState.num (state : BusyState procs sizes) (flag : Nat) : Nat :=
  ∑ p, state.entries p flag

/-- The file at an index of the table. -/
def fileNode (index : Fin sizes.nfile) : Node sizes := ⟨.file, index, index.isLt⟩

/-- The inode at an index of the cache. -/
def inodeNode (index : Fin sizes.ninode) : Node sizes := ⟨.inode, index, index.isLt⟩

/-- The result of the tests. -/
def BusyState.test (state : BusyState procs sizes) : BusyCall sizes state.tables → Option Bool
  | .file index newFtable ip _ =>
    checkAndWaitProcsInRcsFile sizes state.tables state.num (nodeAddr .file newFtable index)
      (match ip with | some ip => (inodeNode ip).addr state.tables | none => 0)
  | .inode index =>
    checkAndWaitProcsInRcsInode sizes state.tables state.num
      ((inodeNode index).addr state.tables) 0

/-- The broken node of a call. -/
def BusyCall.broken {tables : NodeTables} : BusyCall sizes tables → Node sizes
  | .file index _ _ _ => fileNode index
  | .inode index => inodeNode index

/-- A node is attached to the broken one: the inode found for a file, a file that points
to an inode. -/
def BusyState.Attached (state : BusyState procs sizes) :
    BusyCall sizes state.tables → Node sizes → Prop
  | .file _ _ ip _, node => ∃ found, ip = some found ∧ node = inodeNode found
  | .inode index, node => ∃ file, state.ip file = some index ∧ node = fileNode file

/-- A process other than the one that met the error is inside the section of a node. -/
def BusyState.OtherInside (state : BusyState procs sizes) (pid : Fin procs) (node : Node sizes) :
    Prop :=
  ∃ p, p ≠ pid ∧ 0 < state.entries p (node.flag state.tables).toNat

/-- Another process is inside the section of the broken node, or of an attached one. -/
def BusyState.Busy (state : BusyState procs sizes) (pid : Fin procs)
    (call : BusyCall sizes state.tables) : Prop :=
  state.OtherInside pid call.broken ∨
    ∃ node, state.Attached call node ∧ state.OtherInside pid node

/-- The tests read inside the array, and say exactly whether another process is inside. -/
def BusyState.Tells (state : BusyState procs sizes) (pid : Fin procs)
    (call : BusyCall sizes state.tables) : Prop :=
  ∃ verdict, state.test call = some verdict ∧ (verdict = true ↔ state.Busy pid call)

/-- The condition on the counters under which the tests are right: the inode handler
looks at the section of the inode and at the section 0xa, whosever node has it. -/
def BusyState.CountsTell (state : BusyState procs sizes) (pid : Fin procs) :
    BusyCall sizes state.tables → Prop
  | .file _ _ _ _ => False
  | .inode index =>
    (state.Busy pid (.inode index) →
      2 ≤ state.num ((inodeNode index).flag state.tables).toNat ∨ 2 ≤ state.num 0xa) ∧
    (¬ state.Busy pid (.inode index) →
      state.entries pid ((inodeNode index).flag state.tables).toNat ≤ 1 ∧ state.num 0xa ≤ 1)

/-! ## The counters that are read -/

/-- A section nobody else is in has been entered as often as the process at hand has. -/
theorem BusyState.num_eq_of_alone {state : BusyState procs sizes} {pid : Fin procs}
    {node : Node sizes} (alone : ¬ state.OtherInside pid node) :
    state.num (node.flag state.tables).toNat =
      state.entries pid (node.flag state.tables).toNat := by
  refine Finset.sum_eq_single pid (fun p _ other => ?_) (fun absent => ?_)
  · by_contra entered
    exact alone ⟨p, other, Nat.pos_of_ne_zero entered⟩
  · exact absurd (Finset.mem_univ pid) absent

/-- With an address, the counter is the one that the search finds. -/
theorem check_of_addr (tables : NodeTables) (num : Nat → Nat) (kind : NodeKind) {addr : Nat}
    (address : addr ≠ 0) :
    checkAndCountProcsInRcs sizes tables num kind.rlFlag addr =
      if 0 ≤ searchRecoveryIdx sizes tables kind addr ∧
          searchRecoveryIdx sizes tables kind addr < sizes.rlNflags then
        some (num (searchRecoveryIdx sizes tables kind addr).toNat)
      else none := by
  cases kind <;> simp [checkAndCountProcsInRcs, nodeKind, NodeKind.rlFlag, address]

/-- The counter that is read for the address of a node is that of its section. -/
theorem check_of_node {tables : NodeTables} (laidOut : LaidOut sizes tables) (num : Nat → Nat)
    (node : Node sizes) (address : node.addr tables ≠ 0) :
    checkAndCountProcsInRcs sizes tables num node.kind.rlFlag (node.addr tables) =
      some (num (node.flag tables).toNat) := by
  have bounds := laidOut.flag_bounds node
  have valid : 0 ≤ node.flag tables ∧ node.flag tables < sizes.rlNflags := by omega
  rw [check_of_addr tables num node.kind address]
  exact if_pos valid

/-- Without an address the counter with the number of the flag itself is read. -/
theorem check_of_null (tables : NodeTables) (num : Nat → Nat) :
    checkAndCountProcsInRcs sizes tables num NodeKind.file.rlFlag 0 = some (num 0xa) := by
  have nbuf := sizes.nbuf_pos
  have nfile := sizes.nfile_pos
  have ninode := sizes.ninode_pos
  have inside : (0xa : Int) < sizes.rlNflags := by
    unfold NodeSizes.rlNflags
    omega
  simp only [checkAndCountProcsInRcs, ne_eq, not_true_eq_false, and_false, if_false]
  exact if_pos ⟨by decide, inside⟩

/-- An address in the new table is not in `file_idx`. -/
theorem check_of_new_table {tables : NodeTables} (laidOut : LaidOut sizes tables)
    (num : Nat → Nat) (index : Fin sizes.nfile) {newFtable : Nat}
    (apart : newFtable + sizes.sizeofFtable ≤ tables.ftable ∨
      tables.ftable + sizes.sizeofFtable ≤ newFtable) :
    checkAndCountProcsInRcs sizes tables num NodeKind.file.rlFlag
      (nodeAddr .file newFtable index) = none := by
  have inside := index.isLt
  have missed : firstSlot (fun i => (tables.idx .file i).addr == nodeAddr .file newFtable index)
      (sizes.count .file) = none := by
    refine firstSlot_eq_none.mpr fun i low => ?_
    have low : i < sizes.nfile := low
    rw [laidOut.files i low]
    simp only [nodeAddr, NodeKind.sizeof, NodeSizes.sizeofFtable, beq_eq_false_iff_ne] at apart ⊢
    omega
  have address : nodeAddr .file newFtable index ≠ 0 := by
    unfold nodeAddr
    omega
  have search : searchRecoveryIdx sizes tables .file (nodeAddr .file newFtable index) = -1 := by
    simp only [searchRecoveryIdx, missed]
  rw [check_of_addr tables num .file address, search]
  rfl

/-- The file handler reads the counter in front of the array. -/
theorem BusyState.test_file {state : BusyState procs sizes} (laidOut : LaidOut sizes state.tables)
    (index : Fin sizes.nfile) (newFtable : Nat) (ip : Option (Fin sizes.ninode))
    (apart : newFtable + sizes.sizeofFtable ≤ state.tables.ftable ∨
      state.tables.ftable + sizes.sizeofFtable ≤ newFtable) :
    state.test (.file index newFtable ip apart) = none := by
  simp only [BusyState.test, checkAndWaitProcsInRcsFile,
    check_of_new_table laidOut state.num index apart]
  split_ifs <;> rfl

/-- The inode handler reads the counter of the inode, and the one of the section 0xa. -/
theorem BusyState.test_inode {state : BusyState procs sizes} (laidOut : LaidOut sizes state.tables)
    (index : Fin sizes.ninode) :
    state.test (.inode index) =
      some (decide (2 ≤ state.num ((inodeNode index).flag state.tables).toNat ∨
        2 ≤ state.num 0xa)) := by
  have address : (inodeNode index).addr state.tables ≠ 0 := by
    simp only [inodeNode, Node.addr, nodeAddr]
    omega
  have own := check_of_node laidOut state.num (inodeNode index) address
  have own : checkAndCountProcsInRcs sizes state.tables state.num NodeKind.inode.rlFlag
      ((inodeNode index).addr state.tables) =
        some (state.num ((inodeNode index).flag state.tables).toNat) := own
  unfold BusyState.test checkAndWaitProcsInRcsInode
  simp only [own, check_of_null, Option.bind_some, Option.map_some]
  split_ifs with crowded
  · simp [show 2 ≤ state.num ((inodeNode index).flag state.tables).toNat from crowded]
  · simp [show ¬ 2 ≤ state.num ((inodeNode index).flag state.tables).toNat from crowded]
    rfl

/-- In every state in which they are called, the busy tests are right exactly when it is
the inode handler that makes them and the two counters it reads say what the processes
inside the sections of the inode and of its files do. -/
theorem tells_iff_countsTell {procs : Nat} {sizes : NodeSizes} {bcache ftable icache : Nat}
    {moves : List NodeMove} (state : BusyState procs sizes)
    (run : (nodeSystem sizes bcache ftable icache).Runs moves state.tables) (pid : Fin procs)
    (call : BusyCall sizes state.tables) :
    state.Tells pid call ↔ state.CountsTell pid call := by
  have laidOut := laidOut_run run
  cases call with
  | file index newFtable ip apart =>
    refine iff_of_false ?_ id
    rintro ⟨verdict, read, -⟩
    rw [BusyState.test_file laidOut] at read
    cases read
  | inode index =>
    unfold BusyState.Tells BusyState.CountsTell
    rw [BusyState.test_inode laidOut]
    constructor
    · rintro ⟨verdict, read, right⟩
      cases read
      rw [decide_eq_true_eq] at right
      refine ⟨right.mpr, fun idle => ?_⟩
      have alone : ¬ state.OtherInside pid (inodeNode index) := fun other => idle (.inl other)
      have counted := BusyState.num_eq_of_alone alone
      have few := mt right.mp idle
      omega
    · rintro ⟨whenBusy, whenIdle⟩
      refine ⟨_, rfl, ?_⟩
      rw [decide_eq_true_eq]
      refine ⟨fun crowded => ?_, whenBusy⟩
      by_contra idle
      have alone : ¬ state.OtherInside pid (inodeNode index) := fun other => idle (.inl other)
      have counted := BusyState.num_eq_of_alone alone
      have few := whenIdle idle
      omega

/-- The tables after boot, and the first of two processes inside the section of the first
inode. -/
def aloneInInode : BusyState 2 paramSizes where
  tables := initRecoveryLockIdx paramSizes 0x80010000 0x80020000 0x80030000
  entries p flag := if p.val = 0 ∧ flag = 138 then 1 else 0
  ip _ := none

theorem tells_iff_countsTell_alone :
    (nodeSystem paramSizes 0x80010000 0x80020000 0x80030000).Runs [] aloneInInode.tables ∧
      aloneInInode.Tells 0 (.inode ⟨0, by decide⟩) := by
  have run : (nodeSystem paramSizes 0x80010000 0x80020000 0x80030000).Runs []
      aloneInInode.tables := .initial rfl
  have outside : ∀ node, ¬ aloneInInode.OtherInside 0 node := by
    rintro node ⟨p, other, entered⟩
    simp [aloneInInode, other] at entered
  refine ⟨run, (tells_iff_countsTell aloneInInode run 0 _).mpr ⟨?_, fun _ => ?_⟩⟩
  · rintro (own | ⟨node, -, attached⟩)
    · exact absurd own (outside _)
    · exact absurd attached (outside _)
  · simp only [BusyState.num, aloneInInode]
    decide +kernel

/-- The file handler reads in front of the array when nobody is inside any section. -/
theorem file_busy_test_outside :
    ¬ ∀ procs sizes bcache ftable icache moves (state : BusyState procs sizes),
      (nodeSystem sizes bcache ftable icache).Runs moves state.tables →
        ∀ pid call, state.Tells pid call := by
  intro claimed
  obtain ⟨verdict, read, -⟩ := claimed 2 paramSizes 0x80010000 0x80020000 0x80030000 []
    aloneInInode (.initial rfl) 0 (.file ⟨0, by decide⟩ 0x87f01000 none (.inr (by decide)))
  have outside : aloneInInode.test
      (.file ⟨0, by decide⟩ 0x87f01000 none (.inr (by decide))) = none := by
    decide +kernel
  rw [outside] at read
  cases read

end Ev6.RecoveryLocking
