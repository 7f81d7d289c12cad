import Ev6.MList.PageTables
import Ev6.Support.Slots

/-!
# The list of recovered memory objects

`recovered_list` of `mlist_tracker.c`. After each recovery `mlist_tracker` records the
range of the object and the result, and a later error address that is in no list any
more is looked up there. The recorded ranges are not those of the objects: they include
the byte behind the object, a page table is recorded by its node word, and `devsw` by
one of its entries. `answered_iff` says for which addresses the answer is right.
-/

namespace Ev6.MList

open Support PageTables

/-! ## The list -/

/-- `DEPTH`, the size of `recovered_list`. -/
def depth : Nat := 30

/-- `struct recovered_addr_node`. -/
structure RecoveredAddrNode where
  startAddr : Nat
  endAddr : Nat
  terminateFlag : Nat
  pid : Nat
  rcsFlag : Nat

namespace RecoveredAddrNode

/-- A node that nothing has been written to. -/
def zero : RecoveredAddrNode := ⟨0, 0, 0, 0, 0⟩

/-- The test of `record_recovered_memobj`. -/
def empty (node : RecoveredAddrNode) : Bool := node.startAddr == 0 && node.endAddr == 0

/-- The test of `search_recovered_addr`. -/
def covers (node : RecoveredAddrNode) (target : Nat) : Bool :=
  decide (node.startAddr ≤ target) && decide (target ≤ node.endAddr)

end RecoveredAddrNode

/-- `record_recovered_memobj`. -/
def recordRecoveredMemobj (recoveredList : Nat → RecoveredAddrNode) (node : RecoveredAddrNode) :
    Nat → RecoveredAddrNode :=
  match firstSlot (fun i => (recoveredList i).empty) depth with
  | some i => Function.update recoveredList i node
  | none => recoveredList

/-- The address that `search_recovered_addr` looks for. -/
def searchTarget (broken : Nat) : Nat := broken &&& 0xFFFFFFFF

/-- The node at which `search_recovered_addr` stops. -/
def searchIndex (recoveredList : Nat → RecoveredAddrNode) (broken : Nat) : Option Nat :=
  firstSlot (fun i => (recoveredList i).covers (searchTarget broken)) depth

/-- `search_recovered_addr`. -/
def searchRecoveredAddr (recoveredList : Nat → RecoveredAddrNode) (broken : Nat) : Int :=
  match searchIndex recoveredList broken with
  | some i => (recoveredList i).terminateFlag
  | none => -1

/-! ## Recoveries -/

/-- The results of the recovery handlers, of `after-treatment.h`. -/
inductive Result where
  | syscallSuccess
  | syscallFail
  | syscallRedo
  | reopenSyscallFail
  | reopenSyscallRedo
  | failStop
  | processKill
  | returnToUser
  | returnToKernel
  | pipe
deriving DecidableEq

/-- The value of a result. -/
def Result.code : Result → Nat
  | .syscallSuccess => 0x2
  | .syscallFail => 0x3
  | .syscallRedo => 0x4
  | .reopenSyscallFail => 0x5
  | .reopenSyscallRedo => 0x6
  | .failStop => 0x7
  | .processKill => 0x8
  | .returnToUser => 0x9
  | .returnToKernel => 0xa
  | .pipe => 0xb

/-- The memory objects that are not page tables. -/
inductive Kind where
  | kmem
  | run
  | pr
  | buf
  | ftable
  | icache
  | devsw
  | log
  | cons
  | pipe
  | spinlock
deriving DecidableEq

/-- A memory object that `mlist_tracker` has found an error in. -/
inductive Memobj where
  | struct (kind : Kind) (base : Nat) (used : base ≠ 0)
  | pagetable (node : TableNode)

/-- The results with which `mlist_tracker` records the object. The others stop the
kernel. -/
def Memobj.results : Memobj → List Result
  | .struct .kmem _ _ => [.syscallFail, .syscallSuccess, .syscallRedo, .processKill]
  | .struct .run _ _ => [.syscallFail, .syscallSuccess, .syscallRedo, .processKill]
  | .pagetable _ =>
    [.syscallFail, .syscallSuccess, .syscallRedo, .processKill, .returnToKernel]
  | .struct .pr _ _ => [.processKill, .returnToUser, .returnToKernel]
  | .struct .buf _ _ =>
    [.syscallSuccess, .syscallFail, .syscallRedo, .processKill, .returnToUser, .returnToKernel]
  | .struct .ftable _ _ =>
    [.syscallFail, .syscallSuccess, .reopenSyscallFail, .reopenSyscallRedo, .processKill]
  | .struct .icache _ _ =>
    [.syscallFail, .syscallSuccess, .syscallRedo, .reopenSyscallFail, .reopenSyscallRedo,
      .processKill]
  | .struct .devsw _ _ => [.syscallFail, .syscallSuccess, .syscallRedo, .processKill]
  | .struct .log _ _ => [.syscallFail, .syscallSuccess, .syscallRedo, .processKill]
  | .struct .cons _ _ => [.syscallFail, .syscallRedo, .returnToUser, .returnToKernel]
  | .struct .pipe _ _ => [.syscallFail, .syscallSuccess, .syscallRedo, .processKill]
  | .struct .spinlock _ _ =>
    [.syscallFail, .processKill, .syscallRedo, .returnToUser, .returnToKernel]

/-- A recovery that has succeeded, with the process that noticed the error. -/
structure Recovery where
  memobj : Memobj
  result : Result
  pid : Nat
  succeeded : result ∈ memobj.results

/-- `NDEV`. -/
def ndev : Nat := 10

section

-- the sizes of the structures, as the compiler lays them out
variable (sizeof : Kind → Nat)

namespace Memobj

/-- The address of the object. -/
def base : Memobj → Nat
  | .struct _ base _ => base
  | .pagetable node => node.table

/-- The bytes of the object: `devsw` is an array. -/
def size : Memobj → Nat
  | .struct .devsw _ _ => sizeof .devsw * ndev
  | .struct kind _ _ => sizeof kind
  | .pagetable _ => pgsize

/-- An address is in the object. -/
def Contains (memobj : Memobj) (addr : Nat) : Prop :=
  memobj.base ≤ addr ∧ addr < memobj.base + memobj.size sizeof

instance (memobj : Memobj) (addr : Nat) : Decidable (memobj.Contains sizeof addr) := by
  unfold Contains
  infer_instance

/-- The first address that is recorded: the node of a page table, not its page. -/
def recordedStart : Memobj → Nat
  | .struct _ base _ => base
  | .pagetable node => node.word

/-- The bytes that are added to it for the last address. -/
def recordedSize : Memobj → Nat
  | .struct kind _ _ => sizeof kind
  | .pagetable _ => pgsize

/-- The recovery critical section that is recorded. -/
def rcsFlag : Memobj → Nat
  | .struct .ftable _ _ => rlFlagFtable
  | .struct .icache _ _ => rlFlagIcache
  | _ => 0

theorem recordedStart_ne_zero (memobj : Memobj) : memobj.recordedStart ≠ 0 := by
  cases memobj with
  | struct kind base used => exact used
  | pagetable node =>
    have bounds := node.table.property.bounds
    intro zero
    have table : node.table.val = 0 := (Nat.or_eq_zero_iff.mp (Nat.or_eq_zero_iff.mp zero).1).1
    omega

end Memobj

/-- The result that `mlist_tracker` records: that of a pipe is determined later. -/
def Recovery.flag (recovery : Recovery) : Nat :=
  match recovery.memobj with
  | .struct .pipe _ _ => Result.pipe.code
  | _ => recovery.result.code

/-- What `mlist_tracker` records after a recovery. -/
def Recovery.node (recovery : Recovery) : RecoveredAddrNode where
  startAddr := recovery.memobj.recordedStart
  endAddr := (recovery.memobj.recordedStart + recovery.memobj.recordedSize sizeof) % 2 ^ 64
  terminateFlag := recovery.flag
  pid := recovery.pid
  rcsFlag := recovery.memobj.rcsFlag

/-- `recovered_list` after a number of recoveries. -/
def recorded (recoveries : List Recovery) : Nat → RecoveredAddrNode :=
  recoveries.foldl (fun recoveredList recovery =>
    recordRecoveredMemobj recoveredList (recovery.node sizeof)) fun _ => .zero

theorem recorded_append (recoveries : List Recovery) (recovery : Recovery) :
    recorded sizeof (recoveries ++ [recovery]) =
      recordRecoveredMemobj (recorded sizeof recoveries) (recovery.node sizeof) := by
  simp [recorded]

theorem Recovery.empty_node (recovery : Recovery) : (recovery.node sizeof).empty = false := by
  have used := recovery.memobj.recordedStart_ne_zero
  simp [RecoveredAddrNode.empty, Recovery.node, used]

/-- The recoveries are recorded in their order, as long as there are slots. -/
theorem recorded_eq (recoveries : List Recovery) {i : Nat} (low : i < depth) :
    recorded sizeof recoveries i =
      (recoveries[i]?.map (Recovery.node sizeof)).getD .zero := by
  induction recoveries using List.reverseRecOn generalizing i with
  | nil => simp [recorded]
  | append_singleton front recovery ih =>
    have emptyIff : ∀ j < depth, (recorded sizeof front j).empty = decide (front.length ≤ j) := by
      intro j lowJ
      rw [ih lowJ]
      by_cases inside : j < front.length
      · simp [Recovery.empty_node, inside]
      · simp [RecoveredAddrNode.empty, RecoveredAddrNode.zero, Nat.le_of_not_lt inside]
    rw [recorded_append]
    by_cases room : front.length < depth
    · have found : firstSlot (fun j => (recorded sizeof front j).empty) depth =
          some front.length := by
        refine firstSlot_eq_some.mpr ⟨room, ?_, fun j before => ?_⟩
        · rw [emptyIff _ room]
          exact decide_eq_true le_rfl
        · rw [emptyIff j (before.trans room)]
          exact decide_eq_false (Nat.not_le.mpr before)
      rw [recordRecoveredMemobj, found]
      by_cases here : i = front.length
      · subst here
        simp
      · simp only [Function.update_of_ne here, ih low]
        by_cases inside : i < front.length
        · rw [List.getElem?_append_left inside]
        · have beyond : front.length + 1 ≤ i := by omega
          rw [List.getElem?_eq_none (by omega), List.getElem?_eq_none (by simpa using beyond)]
    · have full : firstSlot (fun j => (recorded sizeof front j).empty) depth = none := by
        refine firstSlot_eq_none.mpr fun j lowJ => ?_
        rw [emptyIff j lowJ]
        exact decide_eq_false (by omega)
      rw [recordRecoveredMemobj, full]
      simp only [ih low]
      rw [List.getElem?_append_left (by omega)]

/-! ## When the answer is right -/

/-- A recovery whose recorded range has the address that is looked for. -/
def Recovery.Covers (recovery : Recovery) (broken : Nat) : Prop :=
  (recovery.node sizeof).covers (searchTarget broken) = true

/-- The search ends at a recovered object that contains the address and answers with its
result, or there is none and the answer is -1. -/
def Answered (recoveries : List Recovery) (broken : Nat) : Prop :=
  (∃ i recovery, recoveries[i]? = some recovery ∧ recovery.memobj.Contains sizeof broken ∧
    searchIndex (recorded sizeof recoveries) broken = some i ∧
    searchRecoveredAddr (recorded sizeof recoveries) broken = recovery.flag) ∨
  (∀ recovery ∈ recoveries, ¬ recovery.memobj.Contains sizeof broken) ∧
    searchRecoveredAddr (recorded sizeof recoveries) broken = -1

/-- The recorded ranges lead to an object that contains the address, if there is one, and
otherwise nowhere. -/
structure Findable (recoveries : List Recovery) (broken : Nat) : Prop where
  /-- A recorded range with the address comes after that of an object that contains it, or
  is its range. -/
  own : ∀ i recovery, i < depth → recoveries[i]? = some recovery →
    recovery.Covers sizeof broken →
    ∃ j other, j ≤ i ∧ recoveries[j]? = some other ∧ other.Covers sizeof broken ∧
      other.memobj.Contains sizeof broken
  /-- For an object that contains the address a recorded range has it. -/
  kept : ∀ recovery ∈ recoveries, recovery.memobj.Contains sizeof broken →
    ∃ i other, i < depth ∧ recoveries[i]? = some other ∧ other.Covers sizeof broken
  /-- The address is not taken for that of an unused slot. -/
  unused : recoveries.length < depth → searchTarget broken ≠ 0

variable {sizeof} {recoveries : List Recovery} {broken : Nat}

/-- A slot with the address is that of a recovery, or an unused one with the address 0. -/
theorem covers_recorded {i : Nat} (low : i < depth) :
    (recorded sizeof recoveries i).covers (searchTarget broken) = true ↔
      (∃ recovery, recoveries[i]? = some recovery ∧ recovery.Covers sizeof broken) ∨
        recoveries.length ≤ i ∧ searchTarget broken = 0 := by
  rw [recorded_eq sizeof recoveries low]
  cases slot : recoveries[i]? with
  | some recovery =>
    have inside := (List.getElem?_eq_some_iff.mp slot).1
    simp [Recovery.Covers, Nat.not_le.mpr inside]
  | none =>
    have beyond := List.getElem?_eq_none_iff.mp slot
    simp [RecoveredAddrNode.covers, RecoveredAddrNode.zero, beyond]

theorem Recovery.Covers.target_ne_zero {recovery : Recovery}
    (covers : recovery.Covers sizeof broken) : searchTarget broken ≠ 0 := by
  intro zero
  have start : recovery.memobj.recordedStart ≤ searchTarget broken :=
    of_decide_eq_true (Bool.and_eq_true_iff.mp covers).1
  rw [zero] at start
  exact recovery.memobj.recordedStart_ne_zero (Nat.le_zero.mp start)

theorem searchRecoveredAddr_eq (recoveredList : Nat → RecoveredAddrNode) :
    searchRecoveredAddr recoveredList broken = -1 ↔ searchIndex recoveredList broken = none := by
  unfold searchRecoveredAddr
  cases searchIndex recoveredList broken with
  | none => simp
  | some i =>
    simp only [reduceCtorEq]

/-- For every number of recoveries of any objects, `search_recovered_addr` answers for an
address as it should exactly when the recorded ranges lead to its object. -/
theorem answered_iff (sizeof : Kind → Nat) (recoveries : List Recovery) (broken : Nat) :
    Answered sizeof recoveries broken ↔ Findable sizeof recoveries broken := by
  constructor
  · rintro (⟨i, recovery, slot, contains, found, -⟩ | ⟨outside, answer⟩)
    · obtain ⟨low, here, before⟩ := firstSlot_eq_some.mp found
      have covers : recovery.Covers sizeof broken := by
        rcases (covers_recorded low).mp here with ⟨other, same, covers⟩ | ⟨beyond, -⟩
        · obtain rfl := Option.some.inj (slot.symm.trans same)
          exact covers
        · have inside := (List.getElem?_eq_some_iff.mp slot).1
          omega
      refine ⟨fun j other lowJ slotJ coversJ => ?_, fun _ _ _ => ⟨i, recovery, low, slot, covers⟩,
        fun _ => covers.target_ne_zero⟩
      refine ⟨i, recovery, ?_, slot, covers, contains⟩
      by_contra earlier
      have none := before j (Nat.lt_of_not_le earlier)
      rw [(covers_recorded lowJ).mpr (.inl ⟨other, slotJ, coversJ⟩)] at none
      cases none
    · have none := firstSlot_eq_none.mp ((searchRecoveredAddr_eq _).mp answer)
      refine ⟨fun i recovery low slot covers => ?_, fun recovery member contains => ?_,
        fun room zero => ?_⟩
      · have here := none i low
        rw [(covers_recorded low).mpr (.inl ⟨recovery, slot, covers⟩)] at here
        cases here
      · exact absurd contains (outside recovery member)
      · have here := none _ room
        rw [(covers_recorded room).mpr (.inr ⟨le_rfl, zero⟩)] at here
        cases here
  · intro findable
    cases found : searchIndex (recorded sizeof recoveries) broken with
    | none =>
      have none := firstSlot_eq_none.mp found
      refine .inr ⟨fun recovery member contains => ?_, (searchRecoveredAddr_eq _).mpr found⟩
      obtain ⟨i, other, low, slot, covers⟩ := findable.kept recovery member contains
      have here := none i low
      rw [(covers_recorded low).mpr (.inl ⟨other, slot, covers⟩)] at here
      cases here
    | some i =>
      obtain ⟨low, here, before⟩ := firstSlot_eq_some.mp found
      rcases (covers_recorded low).mp here with ⟨recovery, slot, covers⟩ | ⟨beyond, zero⟩
      · obtain ⟨j, other, upTo, slotJ, coversJ, contains⟩ :=
          findable.own i recovery low slot covers
        have last : j = i := by
          by_contra different
          have none := before j (by omega)
          rw [(covers_recorded (by omega)).mpr (.inl ⟨other, slotJ, coversJ⟩)] at none
          cases none
        subst last
        refine .inl ⟨j, other, slotJ, contains, found, ?_⟩
        rw [searchRecoveredAddr, found]
        simp only [recorded_eq sizeof recoveries low, slotJ]
        rfl
      · exact absurd zero (findable.unused (by omega))

end

/-! ## A page table -/

theorem isPage_sample : IsPage 0x87f4a000 := by decide

/-- A level-2 page table of the process 5 has been recovered. -/
def samplePagetable : Recovery where
  memobj := .pagetable ⟨⟨0x87f4a000, isPage_sample⟩, ⟨5, by decide⟩, ⟨2, by decide⟩⟩
  result := .syscallFail
  pid := 5
  succeeded := by decide

/-- The first byte of the page is not found, and the first byte behind it is. -/
theorem pagetable_not_answered :
    ¬ Answered (fun _ => 24) [samplePagetable] 0x87f4a000 ∧
      ¬ Answered (fun _ => 24) [samplePagetable] 0x87f4b000 := by
  constructor
  · rintro (⟨i, recovery, -, -, found, -⟩ | ⟨outside, -⟩)
    · have missing : searchIndex (recorded (fun _ => 24) [samplePagetable]) 0x87f4a000 = none := by
        decide +kernel
      rw [missing] at found
      cases found
    · exact outside samplePagetable (List.mem_singleton_self _) (by decide)
  · rintro (⟨i, recovery, slot, contains, -, -⟩ | ⟨-, answer⟩)
    · obtain rfl := List.mem_singleton.mp (List.mem_of_getElem? slot)
      exact absurd contains (by decide)
    · have found : searchRecoveredAddr (recorded (fun _ => 24) [samplePagetable]) 0x87f4b000 = 3 :=
        by decide +kernel
      rw [found] at answer
      cases answer

end Ev6.MList
