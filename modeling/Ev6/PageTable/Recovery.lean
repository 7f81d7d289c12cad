import Ev6.PageTable.Ptdup
import Ev6.Kernel.CallStack
import Ev6.Transactions.Basic

/-!
# Recovery of page tables

`recovery_handler_pagetable.c`: a broken page table is copied or rebuilt from its
duplicate, and the policy is put together from the call stack, the level of the table,
the transaction of the process and the interrupt that was being handled.
-/

namespace Ev6.PageTable

open Support Transactions

/-! ## Rebuilding an L0 table -/

/-- `new[num] = value`, if the entry is still empty. -/
def placeEntry (num value : Nat) : Int × (Nat → Nat) → Int × (Nat → Nat)
  | (res, new) => if new num ≠ 0 then (-1, new) else (res, Function.update new num value)

/-- The entries of one PTDS. -/
def placeRun (entry : Nat) (state : Int × (Nat → Nat)) : Int × (Nat → Nat) :=
  (List.range (ptds2size entry)).foldl
    (fun state j =>
      placeEntry (px 0 (ptds2va entry) + j)
        (runPpn entry j ||| ptds2ub entry ||| pteD ||| pteX ||| pteW ||| pteR ||| pteV) state)
    state

/-- `reconst_from_PTDS`. -/
def reconstFromPtds (records : List Nat) (new : Nat → Nat) (sva : Nat) : Int × (Nat → Nat) :=
  let eva := (sva + 0x200000) % 2 ^ 64
  records.foldl
    (fun state entry =>
      if emptyRecord entry then state
      else if sva ≤ ptds2va entry ∧ ptds2va entry ≤ eva then placeRun entry state
      else state) (0, new)

/-- `reconst_from_PTED`. -/
def reconstFromPted (records : List Nat) (new : Nat → Nat) (sva : Nat) : Int × (Nat → Nat) :=
  let eva := (sva + 0x200000) % 2 ^ 64
  records.foldl
    (fun state entry =>
      if emptyRecord entry then state
      else if sva ≤ ptds2va entry ∧ ptds2va entry < eva then
        placeEntry (px 0 (ptds2va entry)) (ptds2ppn entry ||| pteD ||| pted2flags entry ||| pteV)
          state
      else state) (0, new)

/-- The two reconstructions of `recovery_L0`: the second one is left out when the first
one fails. -/
def reconstL0 (head : PtdupHead) (new : Nat → Nat) (sva : Nat) : Int × (Nat → Nat) :=
  let (res, new) := reconstFromPtds (head.l0Ptds.elim [] Records.toList) new sva
  if res ≠ 0 then (res, new) else reconstFromPted (head.l0Pted.elim [] Records.toList) new sva

/-- `(uint64)((i << 30) | (j << 21))`, computed in a 32-bit `int`. -/
def windowVa (i j : Nat) : Nat := signExtend ((i <<< 30) ||| (j <<< 21))

/-- Where `recovery_L0` stops its search for the entry of the broken table. -/
def searchL0 (memory : PageMemory Nat) (l1 address : Nat) : Nat × Nat :=
  let entryIn := fun i => firstSlot (fun j => address = pte2pa (memory (memory l1 i) j)) entrySize
  match firstSlot (fun i => memory l1 i ≠ 0 ∧ (entryIn i).isSome) entrySize with
  | some i => (i, (entryIn i).getD 0)
  | none => (entrySize, if ∃ i < entrySize, memory l1 i ≠ 0 then entrySize else 0)

/-! ## The three levels -/

/-- `recovery_L2`, with the new value of `bp->pagetable`. The handler does not look at
its result. -/
def recoveryL2 (tables : Tables) (idx address new : Nat) : Tables × Nat :=
  ({ tables with
      memory := memmovePage tables.memory new (tables.head idx).l2
      idxPtdup := fun i =>
        if i ≤ nproc ∧ tables.idxPtdup i = address then new else tables.idxPtdup i }, new)

/-- The policy when there is no duplicate to recover from. -/
def refuse (mode : RecoveryMode) : Policy :=
  if mode = .conservative then Policy.failStop else Policy.processKill

/-- The entry of the duplicated L2 table that names a broken L1 table. -/
def searchL1 (tables : Tables) (idx address : Nat) : Option Nat :=
  firstSlot (fun i => address = pte2pa (tables.memory (tables.head idx).l2 i)) entrySize

/-- `recovery_L1`, where `ret` is the policy of a recovery that succeeds. -/
def recoveryL1 (mode : RecoveryMode) (ret : Policy) (tables : Tables)
    (idx address new pagetable : Nat) : Policy × Tables :=
  match searchL1 tables idx address with
  | none => (refuse mode, tables)
  | some i =>
    let target := tables.memory (tables.head idx).l1 i
    if target = 0 then (Policy.processKill, tables)
    else
      let memory := memmovePage tables.memory new target
      if memory new 0 = 0 ∧ memory target 0 ≠ 0 then
        (refuse mode, { tables with memory := memory })
      else
        let entry := pa2pte new ||| pteV
        let switched := memory.write pagetable i entry
        (ret, { tables with memory := switched.write (tables.head idx).l2 i entry })

/-- `recovery_L0`. It panics for a table that the duplicate does not know. -/
def recoveryL0 (ret : Policy) (tables : Tables) (idx address new pagetable : Nat) :
    Option (Policy × Tables) :=
  let head := tables.head idx
  let (i, j) := searchL0 tables.memory head.l1 address
  if i = entrySize ∧ j = entrySize then none
  else
    let (res, table) := reconstL0 head (tables.memory new) (windowVa i j)
    let memory : PageMemory Nat := Function.update tables.memory new table
    if res ≠ 0 then some (Policy.processKill, { tables with memory := memory })
    else
      let entry := pa2pte new ||| pteV
      let switched := memory.write (pte2pa (memory pagetable i)) j entry
      some (ret, { tables with memory := switched.write (switched head.l1 i) j entry })

/-! ## The policy -/

/-- `is_enable_user_coop`: -1 for a process that is not in the table. -/
def isEnableUserCoop (pids : Nat → Nat) (userCoopStatus pid : Nat) : Int :=
  match firstSlot (fun i => pid = pids i) nproc with
  | some i => (userCoopStatus &&& (1 <<< i)) >>> i
  | none => -1

/-- One round of `check_all_fail_stop_cases`. -/
def failStopFrame (text : Text) (mode : RecoveryMode) (address : Nat) : Option Policy :=
  if text.isInsideAny address [.freeproc, .uvmunmap] then some Policy.failStop
  else if mode = .conservative ∧ text.isInsideAny address [.uvmalloc, .uvmcopy, .sysWrite] then
    some Policy.failStop
  else if text.isInside address .uvmalloc then some Policy.processKill
  else none

/-- Where the process was when the error hit during an interrupt: `USERTRAP`,
`KERNELTRAP`, or neither. -/
inductive Trap where
  | unknown
  | user
  | kernel
deriving DecidableEq

/-- The scan of `identify_nmi_occurred_trap`. -/
def identifyNmiOccurredTrap (text : Text) : Bool → List Nat → Trap
  | _, [] => .unknown
  | isKernelvec, address :: rest =>
    if text.isInsideAny address [.kernelvec, .nmivec] then identifyNmiOccurredTrap text true rest
    else if isKernelvec ∧ text.isInside address .usertrap then .user
    else if isKernelvec ∧ text.isInside address .kerneltrap then .kernel
    else identifyNmiOccurredTrap text isKernelvec rest

/-- One round of `after_treatment_user_pagetable`; `caller` is the return address behind
`address`. -/
def treatmentFrame (text : Text) (trap : Trap) (ret : Policy) (address caller : Nat) :
    Option Policy :=
  if text.isInsideAny address [.consoleintr, .clockintr] then
    if trap = .user then some Policy.processKill
    else if trap = .kernel ∧ ret ≥ Policy.syscallFail then some Policy.returnToKernel
    else none
  else if text.isInside address .virtioDiskIntr then
    if trap = .user then some Policy.processKill
    else if trap = .kernel then some Policy.failStop
    else none
  else if text.isInsideAny address [.kernelvec, .nmivec] then
    if text.isInside caller .kerneltrap then some Policy.failStop else none
  else none

/-- What `recovery_handler_pagetable` is called with, and what it reads. The process
`faulting` met the error, in a page table of the process `pid`. `pcs` are the return
addresses on the stack, those from `DEPTH` on being what lies behind the array, and
`answer` is what `kalloc` gives. -/
structure TableError where
  text : Text
  mode : RecoveryMode
  pcs : Nat → Nat
  faulting : Nat
  level : Nat
  idx : Nat
  pid : Nat
  pagetable : Nat
  address : Nat
  answer : Option Page
  pids : Nat → Nat
  userCoopStatus : Nat
  trans : TransState

namespace TableError

variable (error : TableError)

/-- The test `is_enable_user_coop(bp->pid)`. -/
def cooperates : Bool := isEnableUserCoop error.pids error.userCoopStatus error.pid ≠ 0

/-- The policy of a recovery that nothing speaks against. -/
def resume : Policy := if error.cooperates then Policy.syscallRedo else Policy.syscallFail

/-- What `check_all_fail_stop_cases` decides from the call stack, if anything. -/
def scan : Option Policy :=
  (List.range depth).findSome? fun i => failStopFrame error.text error.mode (error.pcs i)

/-- `check_all_fail_stop_cases`. -/
def checkAllFailStopCases : Policy := error.scan.getD error.resume

/-- `identify_nmi_occurred_trap`. -/
def trap : Trap := identifyNmiOccurredTrap error.text false ((List.range depth).map error.pcs)

/-- `after_treatment_user_pagetable`. -/
def afterTreatment (ret : Policy) : Policy :=
  if ret = Policy.failStop then ret
  else
    ((List.range depth).findSome? fun i =>
      treatmentFrame error.text error.trap ret (error.pcs i) (error.pcs (i + 1))).getD ret

/-- The end of the handler, from the label `ret` on. -/
def finish (ret : Policy) : Policy :=
  error.afterTreatment
    (if checkAndHandleTransPagetable error.trans error.pid ≠ 0 ∧ ret = Policy.syscallFail then
      Policy.processKill
    else ret)

end TableError

/-- The tables when the new page has been filled with zero. -/
def Tables.cleared (tables : Tables) (new : Page) : Tables :=
  { tables with memory := memsetPage tables.memory new 0 }

/-- `recovery_handler_pagetable`: the policy, the tables and `bp->pagetable`. It panics
when it has no page, also where it frees the page. -/
def recoveryHandlerPagetable (error : TableError) (tables : Tables) :
    Option (Policy × Tables × Nat) :=
  let ret := error.checkAllFailStopCases
  if ret = Policy.failStop then some (error.finish ret, tables, error.pagetable)
  else
    match error.answer with
    | none => none
    | some new =>
      if (tables.head error.idx).l2 = 0 then
        some (error.finish (refuse error.mode), tables, error.pagetable)
      else
        let tables := tables.cleared new
        match error.level with
        | 2 =>
          let (after, pagetable) := recoveryL2 tables error.idx error.address new
          some (error.finish ret, after, pagetable)
        | 1 =>
          let (ret, after) := recoveryL1 error.mode error.resume tables error.idx error.address
            new error.pagetable
          some (error.finish ret, after, error.pagetable)
        | 0 =>
          (recoveryL0 error.resume tables error.idx error.address new error.pagetable).map
            fun (ret, after) => (error.finish ret, after, error.pagetable)
        | _ => some (error.finish (-1), tables, error.pagetable)

/-! ## When the process does not go on -/

/-- The policies of the handler that do not let a process go on. -/
def Contains (policy : Policy) : Prop :=
  policy = Policy.failStop ∨ policy = Policy.processKill

instance (policy : Policy) : Decidable (Contains policy) := by
  unfold Contains
  infer_instance

namespace TableError

variable (error : TableError)

/-- What the interrupt that was being handled decides, if anything. -/
def interrupt : Option Policy :=
  (List.range depth).findSome? fun i =>
    treatmentFrame error.text error.trap Policy.syscallFail (error.pcs i) (error.pcs (i + 1))

/-- The duplicate of the process exists. -/
def Ready (tables : Tables) : Prop := (tables.head error.idx).l2 ≠ 0

/-- The duplicate names the broken table, where the handler insists on it. -/
def Known (tables : Tables) : Prop :=
  error.Ready tables → error.level = 0 →
    searchL0 tables.memory (tables.head error.idx).l1 error.address ≠ (entrySize, entrySize)

/-- The duplicate is of no use for the broken table: it has no copy of the L1 table, or
its records of the L0 table contradict each other. -/
def Useless (tables : Tables) (new : Page) : Prop :=
  match error.level with
  | 0 =>
    let place := searchL0 tables.memory (tables.head error.idx).l1 error.address
    (reconstL0 (tables.head error.idx) (tables.memory new) (windowVa place.1 place.2)).1 ≠ 0
  | 1 => ∀ i ∈ searchL1 tables error.idx error.address,
      tables.memory (tables.head error.idx).l1 i = 0
  | _ => False

/-- The system stops for want of a duplicate. -/
def FailStops (tables : Tables) : Prop :=
  error.mode = .conservative ∧
    (error.Ready tables → error.level = 1 ∧ searchL1 tables error.idx error.address = none)

/-- The process is killed because of its page tables: there is no duplicate, or it is of
no use, or `uvmalloc` was to be given up at an L2 table, or the recovery of a process
that does not cooperate is a transaction's. -/
def Kills (tables : Tables) (new : Page) : Prop :=
  ¬error.Ready tables ∨ error.Useless tables new ∨
    (error.level = 2 ∧ error.scan = some Policy.processKill) ∨
    (error.cooperates = false ∧
      (error.pid = error.faulting ∨ checkAndHandleTransPagetable error.trans error.pid ≠ 0))

/-- When an error in a transaction does not let the process go on: `freeproc`,
`uvmunmap` or, for a conservative recovery, a system call that changes page tables is on
the stack; or a page is left and an interrupt does not return to the kernel, and without
an interrupt the process is killed. -/
def Contained (tables : Tables) : Prop :=
  error.scan = some Policy.failStop ∨
    ∃ new ∈ error.answer, error.Known (tables.cleared new) ∧
      (error.interrupt = none → error.Kills (tables.cleared new) new) ∧
      (error.interrupt = some Policy.returnToKernel → error.FailStops (tables.cleared new))

/-! ## The parts of the policy -/

theorem scan_cases :
    error.scan = none ∨ error.scan = some Policy.failStop ∨
      error.scan = some Policy.processKill := by
  cases scanned : error.scan with
  | none => exact .inl rfl
  | some policy =>
    obtain ⟨i, -, frame⟩ := List.exists_of_findSome?_eq_some scanned
    unfold failStopFrame at frame
    split at frame
    · exact .inr (.inl frame.symm)
    · split at frame
      · exact .inr (.inl frame.symm)
      · split at frame
        · exact .inr (.inr frame.symm)
        · cases frame

theorem interrupt_cases :
    error.interrupt = none ∨ error.interrupt = some Policy.returnToKernel ∨
      ∃ policy, error.interrupt = some policy ∧ Contains policy := by
  cases met : error.interrupt with
  | none => exact .inl rfl
  | some policy =>
    obtain ⟨i, -, frame⟩ := List.exists_of_findSome?_eq_some met
    have kill : Contains Policy.processKill := .inr rfl
    have stop : Contains Policy.failStop := .inl rfl
    unfold treatmentFrame at frame
    split_ifs at frame <;> obtain rfl := Option.some.inj frame
    · exact .inr (.inr ⟨_, rfl, kill⟩)
    · exact .inr (.inl rfl)
    · exact .inr (.inr ⟨_, rfl, kill⟩)
    · exact .inr (.inr ⟨_, rfl, stop⟩)
    · exact .inr (.inr ⟨_, rfl, stop⟩)

/-- The interrupt overrides every policy from SYSCALL_FAIL on but FAIL_STOP. -/
theorem afterTreatment_eq {ret : Policy} (running : ret ≠ Policy.failStop)
    (policy : ret ≥ Policy.syscallFail) :
    error.afterTreatment ret = error.interrupt.getD ret := by
  have same : treatmentFrame error.text error.trap ret =
      treatmentFrame error.text error.trap Policy.syscallFail := by
    funext address caller
    simp [treatmentFrame, policy]
  rw [afterTreatment, if_neg running, same, interrupt]

theorem finish_failStop : error.finish Policy.failStop = Policy.failStop := by
  have other : ¬Policy.failStop = Policy.syscallFail := by decide
  simp [finish, afterTreatment, other]

/-- A policy is contained after the interrupt has been looked at unless the interrupt
returns to the kernel, or leaves it as it is. -/
theorem contains_interrupt (ret : Policy) :
    Contains (error.interrupt.getD ret) ↔
      error.interrupt ≠ some Policy.returnToKernel ∧ (error.interrupt = none → Contains ret) := by
  rcases error.interrupt_cases with none | kernel | ⟨policy, met, contained⟩
  · simp [none]
  · have resumed : ¬Contains Policy.returnToKernel := by decide
    simp [kernel, resumed]
  · have other : policy ≠ Policy.returnToKernel := by
      rintro rfl
      revert contained
      decide
    simp [met, contained, other]

/-- A recovery that ends with PROCESS_KILL is contained unless an interrupt returns to
the kernel. -/
theorem contains_finish_processKill :
    Contains (error.finish Policy.processKill) ↔
      error.interrupt ≠ some Policy.returnToKernel := by
  have settled : ¬(checkAndHandleTransPagetable error.trans error.pid ≠ 0 ∧
      Policy.processKill = Policy.syscallFail) := fun both => absurd both.2 (by decide)
  have kill : Contains Policy.processKill := .inr rfl
  rw [finish, if_neg settled, error.afterTreatment_eq (by decide) (by decide), contains_interrupt]
  exact and_iff_left fun _ => kill

/-- A recovery that would let the process go on is contained when an interrupt decides
otherwise, or when it is the recovery of a transaction and the process does not
cooperate. -/
theorem contains_finish_resume :
    Contains (error.finish error.resume) ↔
      error.interrupt ≠ some Policy.returnToKernel ∧
        (error.interrupt = none → error.cooperates = false ∧
          checkAndHandleTransPagetable error.trans error.pid ≠ 0) := by
  by_cases cooperates : error.cooperates = true
  · have redo : error.resume = Policy.syscallRedo := by simp [resume, cooperates]
    have settled : ¬(checkAndHandleTransPagetable error.trans error.pid ≠ 0 ∧
        Policy.syscallRedo = Policy.syscallFail) := fun both => absurd both.2 (by decide)
    have resumed : ¬Contains Policy.syscallRedo := by decide
    rw [redo, finish, if_neg settled, error.afterTreatment_eq (by decide) (by decide),
      contains_interrupt]
    simp [cooperates, resumed]
  · have fails : error.resume = Policy.syscallFail := by simp [resume, cooperates]
    by_cases transaction : checkAndHandleTransPagetable error.trans error.pid ≠ 0
    · have same : error.finish Policy.syscallFail = error.finish Policy.processKill := by
        have other : ¬Policy.processKill = Policy.syscallFail := by decide
        simp [finish, transaction, other]
      rw [fails, same, contains_finish_processKill]
      simp [cooperates, transaction]
    · have settled : ¬(checkAndHandleTransPagetable error.trans error.pid ≠ 0 ∧
          Policy.syscallFail = Policy.syscallFail) := fun both => transaction both.1
      have resumed : ¬Contains Policy.syscallFail := by decide
      rw [fails, finish, if_neg settled, error.afterTreatment_eq (by decide) (by decide),
        contains_interrupt]
      simp [resumed, Decidable.not_not.mp transaction]

end TableError

/-! ## The three levels -/

/-- The check behind `memmove` in `recovery_L1` never fails. -/
theorem memmovePage_checked (memory : PageMemory Nat) (new target : Nat) :
    ¬(memmovePage memory new target new 0 = 0 ∧ memmovePage memory new target target 0 ≠ 0) := by
  have copied : memmovePage memory new target new 0 = memory target 0 := by
    simp [memmovePage, entrySize]
  have kept : memmovePage memory new target target 0 = memory target 0 := by
    by_cases same : target = new
    · rw [same] at copied ⊢
      exact copied
    · simp [memmovePage, same]
  rw [copied, kept]
  exact fun both => both.2 both.1

/-- What `recovery_L1` answers. -/
theorem recoveryL1_policy (mode : RecoveryMode) (ret : Policy) (tables : Tables)
    (idx address new pagetable : Nat) :
    (recoveryL1 mode ret tables idx address new pagetable).1 =
      match searchL1 tables idx address with
      | none => refuse mode
      | some i =>
        if tables.memory (tables.head idx).l1 i = 0 then Policy.processKill else ret := by
  unfold recoveryL1
  cases searchL1 tables idx address with
  | none => rfl
  | some i =>
    have checked := memmovePage_checked tables.memory new (tables.memory (tables.head idx).l1 i)
    dsimp only
    by_cases missing : tables.memory (tables.head idx).l1 i = 0
    · rw [if_pos missing, if_pos missing]
    · rw [if_neg missing, if_neg missing, if_neg checked]

/-- What `recovery_L0` answers. -/
theorem recoveryL0_policy (ret : Policy) (tables : Tables) (idx address new pagetable : Nat) :
    (recoveryL0 ret tables idx address new pagetable).map Prod.fst =
      let place := searchL0 tables.memory (tables.head idx).l1 address
      if place.1 = entrySize ∧ place.2 = entrySize then none
      else if (reconstL0 (tables.head idx) (tables.memory new) (windowVa place.1 place.2)).1 ≠ 0
        then some Policy.processKill
      else some ret := by
  unfold recoveryL0
  dsimp only
  split
  · rfl
  · split <;> rfl

theorem contains_refuse (error : TableError) :
    Contains (error.finish (refuse error.mode)) ↔
      error.mode = .conservative ∨ error.interrupt ≠ some Policy.returnToKernel := by
  by_cases conservative : error.mode = .conservative
  · have stop : Contains Policy.failStop := .inl rfl
    simp [refuse, conservative, error.finish_failStop, stop]
  · simp [refuse, conservative, error.contains_finish_processKill]

namespace TableError

variable (error : TableError)

/-- The handler of a process in a transaction settles its transaction. -/
theorem settles_iff (inside : 0 < checkInsideTrans error.trans .pagetable error.faulting) :
    checkAndHandleTransPagetable error.trans error.pid ≠ 0 ↔
      error.pid = error.faulting ∨ checkAndHandleTransPagetable error.trans error.pid ≠ 0 := by
  refine ⟨.inr, fun own => own.elim (fun same => ?_) id⟩
  rw [same, checkAndHandleTransPagetable, if_pos inside]
  decide

end TableError

/-- The policy of the handler once the page tables are looked at. -/
def tablePolicy (error : TableError) (tables : Tables) (new : Page) : Option Policy :=
  if (tables.head error.idx).l2 = 0 then some (refuse error.mode)
  else
    match error.level with
    | 0 => (recoveryL0 error.resume (tables.cleared new) error.idx error.address new
        error.pagetable).map Prod.fst
    | 1 => some (recoveryL1 error.mode error.resume (tables.cleared new) error.idx error.address
        new error.pagetable).1
    | _ => some error.checkAllFailStopCases

/-- The policy of the handler without what it does to the tables. -/
theorem recoveryHandlerPagetable_policy (error : TableError) (tables : Tables)
    (valid : error.level ≤ 2) :
    (recoveryHandlerPagetable error tables).map Prod.fst =
      if error.checkAllFailStopCases = Policy.failStop then some Policy.failStop
      else error.answer.bind fun new => (tablePolicy error tables new).map error.finish := by
  unfold recoveryHandlerPagetable tablePolicy
  dsimp only
  split
  · next stop => simp [stop, error.finish_failStop]
  · cases error.answer with
    | none => rfl
    | some new =>
      dsimp only [Option.bind_some]
      split
      · rfl
      · obtain zero | one | two : error.level = 0 ∨ error.level = 1 ∨ error.level = 2 := by
          omega
        · simp [zero, Option.map_map, Function.comp_def]
        · simp [one]
        · simp [two]

section Levels

variable {error : TableError} {tables : Tables} {new : Page}

/-- What the handler has to fulfil once the call stack has not stopped it. -/
def Settles (error : TableError) (tables : Tables) (new : Page) : Prop :=
  error.Known (tables.cleared new) ∧
    (error.interrupt = none → error.Kills (tables.cleared new) new) ∧
    (error.interrupt = some Policy.returnToKernel → error.FailStops (tables.cleared new))

/-- The policy of the page tables is one that is contained in the end. -/
def Ends (error : TableError) (tables : Tables) (new : Page) : Prop :=
  ∃ policy, tablePolicy error tables new = some policy ∧ Contains (error.finish policy)

theorem ends_unready (unready : (tables.head error.idx).l2 = 0) :
    Ends error tables new ↔ Settles error tables new := by
  have missing : ¬error.Ready (tables.cleared new) := fun there => there unready
  have policy : tablePolicy error tables new = some (refuse error.mode) := if_pos unready
  simp only [Ends, Settles, policy, Option.some.injEq, exists_eq_left', contains_refuse,
    TableError.Known, TableError.Kills, TableError.FailStops, missing]
  tauto

variable (ready : (tables.head error.idx).l2 ≠ 0)

include ready

theorem ends_resume (inside : 0 < checkInsideTrans error.trans .pagetable error.faulting)
    (policy : tablePolicy error tables new = some error.resume)
    (known : error.Known (tables.cleared new)) (useful : ¬error.Useless (tables.cleared new) new)
    (unkilled : ¬(error.level = 2 ∧ error.scan = some Policy.processKill))
    (found : error.level = 1 → searchL1 (tables.cleared new) error.idx error.address ≠ none) :
    Ends error tables new ↔ Settles error tables new := by
  have there : error.Ready (tables.cleared new) := ready
  have runs : ¬error.FailStops (tables.cleared new) := by
    rintro ⟨-, stops⟩
    obtain ⟨one, missing⟩ := stops there
    exact found one missing
  simp only [Ends, Settles, policy, Option.some.injEq, exists_eq_left',
    error.contains_finish_resume, known, runs, TableError.Kills, there, useful, unkilled,
    not_true_eq_false, false_or, true_and, imp_false, ← error.settles_iff inside]
  exact and_comm

theorem ends_kill (policy : tablePolicy error tables new = some Policy.processKill)
    (known : error.Known (tables.cleared new)) (kills : error.Kills (tables.cleared new) new)
    (found : error.level = 1 → searchL1 (tables.cleared new) error.idx error.address ≠ none) :
    Ends error tables new ↔ Settles error tables new := by
  have there : error.Ready (tables.cleared new) := ready
  have runs : ¬error.FailStops (tables.cleared new) := by
    rintro ⟨-, stops⟩
    obtain ⟨one, missing⟩ := stops there
    exact found one missing
  simp only [Ends, Settles, policy, Option.some.injEq, exists_eq_left',
    error.contains_finish_processKill, known, kills, runs, implies_true, true_and, imp_false,
    ne_eq]

/-- An L2 table is copied, and the result of the scan stands. -/
theorem ends_L2 (inside : 0 < checkInsideTrans error.trans .pagetable error.faulting)
    (level : error.level = 2) (running : error.scan ≠ some Policy.failStop) :
    Ends error tables new ↔ Settles error tables new := by
  have known : error.Known (tables.cleared new) := fun _ zero => by omega
  have found : error.level = 1 →
      searchL1 (tables.cleared new) error.idx error.address ≠ none := fun one => by omega
  have policy : tablePolicy error tables new = some error.checkAllFailStopCases := by
    simp [tablePolicy, ready, level]
  rcases error.scan_cases with undecided | stop | kill
  · have useful : ¬error.Useless (tables.cleared new) new := by
      simp [TableError.Useless, level]
    rw [TableError.checkAllFailStopCases, undecided] at policy
    exact ends_resume ready inside policy known useful (by simp [undecided]) found
  · exact absurd stop running
  · rw [TableError.checkAllFailStopCases, kill] at policy
    exact ends_kill ready policy known (.inr (.inr (.inl ⟨level, kill⟩))) found

/-- An L1 table is copied from its duplicate, if there is one. -/
theorem ends_L1 (inside : 0 < checkInsideTrans error.trans .pagetable error.faulting)
    (level : error.level = 1) : Ends error tables new ↔ Settles error tables new := by
  have known : error.Known (tables.cleared new) := fun _ zero => by omega
  have policy : tablePolicy error tables new =
      some (recoveryL1 error.mode error.resume (tables.cleared new) error.idx error.address new
        error.pagetable).1 := by
    simp [tablePolicy, ready, level]
  rw [recoveryL1_policy] at policy
  cases search : searchL1 (tables.cleared new) error.idx error.address with
  | none =>
    have there : error.Ready (tables.cleared new) := ready
    have useless : error.Useless (tables.cleared new) new := by
      simp [TableError.Useless, level, search]
    rw [search] at policy
    simp only [Ends, Settles, policy, Option.some.injEq, exists_eq_left', contains_refuse,
      known, TableError.Kills, useless, TableError.FailStops, level, search, true_or, or_true,
      implies_true, true_and, and_true]
    exact or_iff_not_imp_right.trans (imp_congr_left Decidable.not_not)
  | some i =>
    have found : error.level = 1 →
        searchL1 (tables.cleared new) error.idx error.address ≠ none := by
      simp [search]
    rw [search] at policy
    dsimp only at policy
    by_cases missing : (tables.cleared new).memory ((tables.cleared new).head error.idx).l1 i = 0
    · have useless : error.Useless (tables.cleared new) new := by
        simp [TableError.Useless, level, search, missing]
      rw [if_pos missing] at policy
      exact ends_kill ready policy known (.inr (.inl useless)) found
    · have useful : ¬error.Useless (tables.cleared new) new := by
        simp [TableError.Useless, level, search, missing]
      rw [if_neg missing] at policy
      exact ends_resume ready inside policy known useful (by simp [level]) found

/-- An L0 table is rebuilt from the records, if the duplicate knows the table. -/
theorem ends_L0 (inside : 0 < checkInsideTrans error.trans .pagetable error.faulting)
    (level : error.level = 0) : Ends error tables new ↔ Settles error tables new := by
  have there : error.Ready (tables.cleared new) := ready
  have found : error.level = 1 →
      searchL1 (tables.cleared new) error.idx error.address ≠ none := fun one => by omega
  have policy : tablePolicy error tables new =
      (recoveryL0 error.resume (tables.cleared new) error.idx error.address new
        error.pagetable).map Prod.fst := by
    simp [tablePolicy, ready, level]
  rw [recoveryL0_policy] at policy
  dsimp only at policy
  split_ifs at policy with unknown contradicts
  · have lost : ¬error.Known (tables.cleared new) := fun known =>
      known there level (Prod.ext unknown.1 unknown.2)
    simp [Ends, Settles, policy, lost]
  · have known : error.Known (tables.cleared new) := fun _ _ same =>
      unknown ⟨congrArg Prod.fst same, congrArg Prod.snd same⟩
    have useless : error.Useless (tables.cleared new) new := by
      simpa [TableError.Useless, level] using contradicts
    exact ends_kill ready policy known (.inr (.inl useless)) found
  · have known : error.Known (tables.cleared new) := fun _ _ same =>
      unknown ⟨congrArg Prod.fst same, congrArg Prod.snd same⟩
    have useful : ¬error.Useless (tables.cleared new) new := by
      simpa [TableError.Useless, level] using contradicts
    exact ends_resume ready inside policy known useful (by simp [level]) found

end Levels

/-- For a process in a page-table transaction the handler answers with FAIL_STOP or
PROCESS_KILL exactly under the condition `Contained`. -/
theorem contains_iff (error : TableError) (tables : Tables) (valid : error.level ≤ 2)
    (inside : 0 < checkInsideTrans error.trans .pagetable error.faulting) :
    (∃ policy after, recoveryHandlerPagetable error tables = some (policy, after) ∧
      Contains policy) ↔ error.Contained tables := by
  have answers : (∃ policy after, recoveryHandlerPagetable error tables = some (policy, after) ∧
      Contains policy) ↔
      ∃ policy, (recoveryHandlerPagetable error tables).map Prod.fst = some policy ∧
        Contains policy := by
    simp [Option.map_eq_some_iff]
  rw [answers, recoveryHandlerPagetable_policy error tables valid, TableError.Contained]
  by_cases stopped : error.scan = some Policy.failStop
  · have contained : Contains Policy.failStop := .inl rfl
    simp [TableError.checkAllFailStopCases, stopped, contained]
  · have running : error.checkAllFailStopCases ≠ Policy.failStop := by
      rcases error.scan_cases with undecided | stop | kill
      · rw [TableError.checkAllFailStopCases, undecided, TableError.resume]
        split <;> decide
      · exact absurd stop stopped
      · rw [TableError.checkAllFailStopCases, kill, Option.getD_some]
        decide
    rw [if_neg running]
    cases error.answer with
    | none => simp [stopped]
    | some new =>
      have ends : Ends error tables new ↔ Settles error tables new := by
        by_cases ready : (tables.head error.idx).l2 = 0
        · exact ends_unready ready
        · obtain zero | one | two : error.level = 0 ∨ error.level = 1 ∨ error.level = 2 := by
            omega
          · exact ends_L0 ready inside zero
          · exact ends_L1 ready inside one
          · exact ends_L2 ready inside two stopped
      simpa [stopped, Ends, Settles, Option.map_eq_some_iff] using ends

/-! ## A process that cooperates -/

/-- Functions of which only `uvmcopy` and `uvmunmap` have a body. -/
def sampleText : Text
  | .uvmcopy => (0x80001a2a, 0x80001b3c)
  | .uvmunmap => (0x80001630, 0x800016fe)
  | _ => (0x80008000, 0x80007fff)

/-- A duplicate with an L2 table, and no records. -/
def sampleTables : Tables where
  memory := fun _ _ => 0
  head := fun _ => ⟨0x87f00000, 0x87f01000, some ⟨⟨0x87f02000, by decide⟩, 0, fun _ => novalue⟩,
    some ⟨⟨0x87f03000, by decide⟩, 0, fun _ => novalue⟩⟩
  idxPtdup := fun i => if i = 1 then 0x87f10000 else 0

/-- An error in the L2 table of the third process, whose only return address is
`address`; `status` says which processes cooperate. -/
def sampleError (address status : Nat) : TableError where
  text := sampleText
  mode := .aggressive
  pcs := fun i => if i = 0 then address else 0
  faulting := 3
  level := 2
  idx := 1
  pid := 3
  pagetable := 0x87f10000
  address := 0x87f10000
  answer := some ⟨0x87e00000, by decide⟩
  pids := fun i => i + 1
  userCoopStatus := status
  trans :=
    { nextpid := 4
      array := fun i => ⟨(i + 1).toNat, if i = 2 then 1 else 0, 0, 0⟩
      logLogheader := ⟨0, fun _ => 0⟩
      logOutstanding := -1
      logRun := 0 }

/-- Without cooperation the error in `uvmcopy` kills the process. -/
theorem contains_iff_sample :
    (∃ policy after, recoveryHandlerPagetable (sampleError 0x80001a40 0) sampleTables =
      some (policy, after) ∧ Contains policy) ↔
      (sampleError 0x80001a40 0).Contained sampleTables :=
  contains_iff (sampleError 0x80001a40 0) sampleTables (by decide) (by decide +kernel)

/-- With cooperation the process is asked to repeat the system call. -/
theorem cooperating_process_resumed : ¬∀ error tables, error.level ≤ 2 →
    0 < checkInsideTrans error.trans .pagetable error.faulting →
    ∃ policy after, recoveryHandlerPagetable error tables = some (policy, after) ∧
      Contains policy := by
  intro always
  obtain ⟨policy, after, answered, contained⟩ :=
    always (sampleError 0x80001a40 4) sampleTables (by decide) (by decide +kernel)
  have redone : ((recoveryHandlerPagetable (sampleError 0x80001a40 4) sampleTables).map
      fun result => decide (result.1 = Policy.syscallRedo)) = some true := by
    decide +kernel
  rw [answered] at redone
  have redo : policy = Policy.syscallRedo := of_decide_eq_true (Option.some.inj redone)
  rw [redo] at contained
  revert contained
  decide

end Ev6.PageTable
