import Ev6.Transactions.Basic
import Ev6.Support.LabelledSystem
import Mathlib.Data.List.Nodup
import Mathlib.Data.List.Perm.Subperm

/-!
# The counters of the transactions

A process that has left all its transactions has counters 0, unless an error has
aborted it inside one: the counters stay behind, and they go to the next process
that is given the slot. `check_and_handle_trans_run` corrects one of them, when the
process itself runs the handler of `struct kmem`.
-/

namespace Ev6.Transactions

open Option (ite_none_right_eq_some)
open Function (update update_apply update_of_ne update_self)
open Support

/-- The object with the memory error. -/
inductive Broken where
  /-- `struct kmem`, and the page that the handler puts in its place. -/
  | kmem (new : Nat)
  | other
deriving DecidableEq

/-- The transactions, and the pids in the process table. No function reads the last
two fields: the depth at which each process is inside each kind of transaction, and
whether an entrance or an exit has panicked. -/
structure State where
  trans : TransState
  procs : List Nat
  inside : Nat → Target → Nat
  panicked : Bool

/-- The calls of the kernel. `leader` is the process that runs the recovery
handlers for the aborted one. -/
inductive Call where
  | fork (caller : Nat)
  | register (pid : Nat)
  | enter (logged : Logged) (pid : Nat)
  | exit (target : Target) (pid : Nat)
  | abort (broken : Broken) (pid leader : Nat)
  | reap (pid : Nat)

/-- A process has a slot. -/
def Registered (state : State) (pid : Nat) : Prop :=
  pid ≠ 0 ∧ 0 ≤ searchTransInfo state.trans pid

instance (state : State) (pid : Nat) : Decidable (Registered state pid) := by
  unfold Registered
  infer_instance

/-- A process that can run code. Until the first process forks, the boot code and
the first process count in the first slot. -/
def Executes (state : State) (pid : Nat) : Prop :=
  if state.trans.nextpid > 2 then Registered state pid else pid = 1

instance (state : State) (pid : Nat) : Decidable (Executes state pid) := by
  unfold Executes
  infer_instance

/-- A process is in no transaction. -/
def Outside (state : State) (pid : Nat) : Prop :=
  state.inside pid .log = 0 ∧ state.inside pid .pagetable = 0 ∧ state.inside pid .run = 0

instance (state : State) (pid : Nat) : Decidable (Outside state pid) := by
  unfold Outside
  infer_instance

/-- The depth of one process in one kind of transaction is changed. -/
def State.setInside (state : State) (pid : Nat) (target : Target) (depth : Nat) : State :=
  { state with
    inside := update state.inside pid
      (update (state.inside pid) target depth) }

/-- The result of a function that may panic. -/
def State.finish (state : State) (result : Option TransState) : State :=
  match result with
  | some trans => { state with trans := trans }
  | none => { state with panicked := true }

/-- The entrance function for the values it logs. -/
def enterCall (trans : TransState) (pid : Nat) : Logged → Option TransState
  | .log log => enterTransLog trans log pid
  | .pagetable => enterTransPagetable trans pid
  | .run addr => enterTransRun trans addr pid

/-- The exit function of a kind of transaction. -/
def exitCall (trans : TransState) (pid : Nat) : Target → Option TransState
  | .log => exitTransLog trans pid
  | .pagetable => exitTransPagetable trans pid
  | .run => exitTransRun trans pid

/-- What the recovery handler of an object does to the transactions of the aborted
process. -/
def recoverCall (trans : TransState) (pid leader : Nat) : Broken → Option TransState
  | .kmem new => checkAndHandleTransRun trans pid leader new
  | .other => some trans

/-- One call. An exit belongs to an entrance; `initproc` does not exit, and another
process exits outside its transactions. -/
def callStep (state : State) (call : Call) : Option State :=
  if state.panicked then none
  else
    match call with
    | .fork caller =>
      if state.procs.length < nproc ∧ (state.trans.nextpid = 1 ∨ Registered state caller) then
        some { state with
          trans := { state.trans with nextpid := state.trans.nextpid + 1 }
          procs := state.trans.nextpid :: state.procs }
      else none
    | .register pid =>
      if pid ∈ state.procs ∧ ¬Registered state pid then
        some { state with trans := registerTransInfo state.trans pid }
      else none
    | .enter logged pid =>
      if Executes state pid then
        some ((state.setInside pid logged.target (state.inside pid logged.target + 1)).finish
          (enterCall state.trans pid logged))
      else none
    | .exit target pid =>
      if Executes state pid ∧ 0 < state.inside pid target then
        some ((state.setInside pid target (state.inside pid target - 1)).finish
          (exitCall state.trans pid target))
      else none
    | .abort broken pid leader =>
      if Registered state pid ∧ Registered state leader then
        some ({ state with inside := update state.inside pid fun _ => 0 }.finish
          (recoverCall state.trans pid leader broken))
      else none
    | .reap pid =>
      if pid ∈ state.procs ∧ pid ≠ 1 ∧ Outside state pid then
        some { state with
          trans := deleteTransInfo state.trans pid
          procs := state.procs.erase pid }
      else none

/-- The state after `init_trans_info`. -/
def start (trans : TransState) : State where
  trans := initTransInfo { trans with nextpid := 1 }
  procs := []
  inside _ _ := 0
  panicked := false

/-- Runs from the boot on. -/
def transSystem : LabelledSystem State Call :=
  .ofFunction (fun state => ∃ trans, state = start trans) callStep

/-- The handler of `struct kmem` moves it to another page than the one that was
being freed. -/
def Broken.spares (broken : Broken) (logRun : Nat) : Prop :=
  match broken with
  | .kmem new => new ≠ logRun
  | .other => False

instance (broken : Broken) (logRun : Nat) : Decidable (broken.spares logRun) := by
  cases broken <;> unfold Broken.spares <;> infer_instance

/-- The error is met outside the transactions, or in the run transaction by the
process that leads its recovery, which spares the page that was being freed. -/
def Recoverable (state : State) : Call → Prop
  | .abort broken pid leader =>
    Outside state pid ∨
      (state.inside pid .log = 0 ∧ state.inside pid .pagetable = 0 ∧
        state.inside pid .run = 1 ∧ leader = pid ∧ broken.spares state.trans.logRun)
  | _ => True

instance (state : State) (call : Call) : Decidable (Recoverable state call) := by
  cases call <;> unfold Recoverable <;> infer_instance

/-- Nothing has panicked, and the counters of a process that is not between an
entrance and its exit are 0. -/
def Settled (state : State) : Prop :=
  state.panicked = false ∧
  ∀ pid target, Registered state pid → state.inside pid target = 0 →
    checkInsideTrans state.trans target pid = 0

/-! ## The slots -/

variable {pid : Nat} {state : State}

theorem Registered.slot (registered : Registered state pid) :
    ∃ i ≤ nproc, searchTransInfo state.trans pid = i ∧ (state.trans.array i).pid = pid := by
  rcases searchBelow_cases state.trans.array pid (nproc + 1) with ⟨missing, -⟩ | ⟨i, low, found, same⟩
  · have inside := registered.2
    rw [searchTransInfo, missing] at inside
    omega
  · exact ⟨i, Nat.le_of_lt_succ low, found, same⟩

variable {i : Nat}

theorem registered_of_slot (nonzero : pid ≠ 0) (low : i ≤ nproc)
    (same : (state.trans.array i).pid = pid) : Registered state pid := by
  refine ⟨nonzero, ?_⟩
  rcases searchBelow_cases state.trans.array pid (nproc + 1) with ⟨-, other⟩ | ⟨j, -, found, -⟩
  · exact absurd same (other i (Nat.lt_succ_of_le low))
  · rw [searchTransInfo, found]
    exact Int.natCast_nonneg j

/-- The counters of a slot, by its process; the first slot counts for the first
process before that is registered. -/
def expected (state : State) (i : Nat) (target : Target) : Int :=
  let pid := (state.trans.array i).pid
  if pid ≠ 0 then state.inside pid target else if i = 0 then state.inside 1 target else 0

/-- The slots belong to different processes of the process table, and their
counters are the depths of these. -/
structure Counted (state : State) : Prop where
  running : state.panicked = false
  allocated : ∀ pid ∈ state.procs, 0 < pid ∧ pid < state.trans.nextpid
  distinct : state.procs.Nodup
  room : state.procs.length ≤ nproc
  owner : ∀ i ≤ nproc, (state.trans.array i).pid ≠ 0 → (state.trans.array i).pid ∈ state.procs
  unique : ∀ i ≤ nproc, ∀ j ≤ nproc, (state.trans.array i).pid ≠ 0 →
    (state.trans.array i).pid = (state.trans.array j).pid → i = j
  counters : ∀ i ≤ nproc, ∀ target, (state.trans.array i).ntrans target = expected state i target
  absent : ∀ pid, pid ≠ 1 → ¬Registered state pid → ∀ target, state.inside pid target = 0
  first : (state.trans.array 0).pid = 1 ∨
    (state.trans.nextpid ≤ 2 ∧ ∀ i ≤ nproc, (state.trans.array i).pid = 0)
  booted : 1 ≤ state.trans.nextpid

theorem counted_start (trans : TransState) : Counted (start trans) := by
  have slot : ∀ i : Nat, i ≤ nproc → (start trans).trans.array i = ⟨0, 0, 0, 0⟩ := by
    intro i low
    have inside : (0 : Int) ≤ i ∧ (i : Int) ≤ nproc := by omega
    simp only [start, initTransInfo, if_pos inside]
  refine ⟨rfl, by simp [start], List.nodup_nil, Nat.zero_le _, ?_, ?_, ?_, fun _ _ _ _ => rfl, ?_,
    Nat.le_refl 1⟩
  · intro i low nonzero
    simp [slot i low] at nonzero
  · intro i low _ _ nonzero
    simp [slot i low] at nonzero
  · intro i low target
    simp only [expected, slot i low]
    cases target <;> simp [TransInfo.ntrans, start]
  · exact .inr ⟨by simp [start, initTransInfo], fun i low => by rw [slot i low]⟩

section Counted

variable {state : State}

variable {pid : Nat}

/-- The counters of a registered process are its depths. -/
theorem Counted.check (counted : Counted state) (registered : Registered state pid)
    (target : Target) : checkInsideTrans state.trans target pid = state.inside pid target := by
  obtain ⟨i, low, found, same⟩ := registered.slot
  have counter := counted.counters i low target
  rw [checkInsideTrans, found, counter, expected, same, if_pos registered.1]

/-- Once a process has been registered, the first slot is that of the first process. -/
theorem Counted.first_of_registered (counted : Counted state)
    (registered : Registered state pid) : (state.trans.array 0).pid = 1 := by
  rcases counted.first with first | ⟨-, unused⟩
  · exact first
  · obtain ⟨i, low, -, same⟩ := registered.slot
    exact absurd (same.symm.trans (unused i low)) registered.1

/-- The slot in which a running process counts holds its depths, and no other slot
is affected by them. -/
theorem Counted.own (counted : Counted state) (executes : Executes state pid) :
    ∃ i ≤ nproc, ownIndex state.trans pid = i ∧
      (∀ target, (state.trans.array i).ntrans target = state.inside pid target) ∧
      (∀ j ≤ nproc, j ≠ i → (state.trans.array j).pid ≠ pid ∧
        (j = 0 → (state.trans.array j).pid = 0 → pid ≠ 1)) ∧ (pid = 1 ∨ Registered state pid) ∧
      ((state.trans.array i).pid = pid ∨ (i = 0 ∧ pid = 1 ∧ (state.trans.array i).pid = 0)) := by
  by_cases later : state.trans.nextpid > 2
  · rw [Executes, if_pos later] at executes
    obtain ⟨i, low, found, same⟩ := executes.slot
    have nonzero : (state.trans.array i).pid ≠ 0 := same ▸ executes.1
    refine ⟨i, low, by rw [ownIndex, if_pos later, found], fun target => ?_, fun j inside other => ?_,
      .inr executes, .inl same⟩
    · rw [counted.counters i low target, expected, if_pos nonzero, same]
    · refine ⟨fun again => other (counted.unique i low j inside nonzero (same.trans again.symm)).symm,
        fun zero unused _ => ?_⟩
      have first := counted.first_of_registered executes
      rw [zero] at unused
      exact absurd (first.symm.trans unused) (by decide)
  · rw [Executes, if_neg later] at executes
    subst executes
    have own : ownIndex state.trans 1 = (0 : Nat) := by rw [ownIndex, if_neg later]; rfl
    rcases counted.first with first | ⟨-, unused⟩
    · refine ⟨0, Nat.zero_le _, own, fun target => ?_, fun j inside other => ⟨fun again => ?_, ?_⟩,
        .inl rfl, .inl first⟩
      · have counter := counted.counters 0 (Nat.zero_le _) target
        have pid : (state.trans.array (0 : Nat)).pid = 1 := first
        rw [counter, expected, pid]
        rfl
      · exact other (counted.unique 0 (Nat.zero_le _) j inside (by simp [first])
          (by simp [first, again])).symm
      · exact fun zero => absurd zero other
    · refine ⟨0, Nat.zero_le _, own, fun target => ?_, fun j inside other => ⟨?_, ?_⟩, .inl rfl,
        .inr ⟨rfl, rfl, unused 0 (Nat.zero_le _)⟩⟩
      · have counter := counted.counters 0 (Nat.zero_le _) target
        rw [counter, expected, unused 0 (Nat.zero_le _)]
        rfl
      · simp [unused j inside]
      · exact fun zero => absurd zero other

theorem Counted.executes (counted : Counted state)
    (registered : Registered state pid) : Executes state pid := by
  by_cases later : state.trans.nextpid > 2
  · rwa [Executes, if_pos later]
  · obtain ⟨i, low, -, same⟩ := registered.slot
    have member := counted.owner i low (same ▸ registered.1)
    have bounds := counted.allocated _ member
    rw [Executes, if_neg later]
    omega

end Counted

/-! ## What the calls do to the counters -/

/-- A state whose slots have the same pids has the same registered processes. -/
theorem registered_congr {next : State}
    (same : ∀ i ≤ nproc, (next.trans.array i).pid = (state.trans.array i).pid) (pid : Nat) :
    Registered next pid ↔ Registered state pid := by
  have scan : searchTransInfo next.trans pid = searchTransInfo state.trans pid :=
    searchBelow_congr pid fun i low => same i (Nat.le_of_lt_succ low)
  rw [Registered, Registered, scan]

variable {target : Target} {trans : TransState}

/-- The counter of the running process and its depth change together. -/
theorem Counted.change (counted : Counted state) {depth : Nat} (executes : Executes state pid)
    (own : ownIndex state.trans pid = i) (nextpid : trans.nextpid = state.trans.nextpid)
    (array : trans.array =
      update state.trans.array i ((state.trans.array i).setNtrans target depth)) :
    Counted { state.setInside pid target depth with trans := trans } := by
  obtain ⟨slot, low, found, here, others, known, place⟩ := counted.own executes
  obtain rfl : slot = i := Int.natCast_inj.mp (found.symm.trans own)
  have pids : ∀ j : Nat, (trans.array j).pid = (state.trans.array j).pid := by
    intro j
    rw [array]
    by_cases same : j = slot
    · subst same
      simp
    · have other : (j : Int) ≠ slot := by omega
      rw [update_of_ne other]
  have inside : ∀ other kind, other ≠ pid →
      (state.setInside pid target depth).inside other kind = state.inside other kind := by
    intro other kind different
    simp [State.setInside, different]
  have kept : ∀ other, Registered { state.setInside pid target depth with trans := trans } other ↔
      Registered state other := registered_congr fun j _ => pids j
  refine ⟨counted.running, ?_, counted.distinct, counted.room, ?_, ?_, ?_, ?_, ?_, ?_⟩
  · intro other member
    rw [nextpid]
    exact counted.allocated other member
  · intro j inRange nonzero
    rw [pids] at nonzero ⊢
    exact counted.owner j inRange nonzero
  · simpa only [pids] using counted.unique
  · intro j inRange kind
    by_cases same : j = slot
    · subst same
      have depths : (state.setInside pid target depth).inside pid kind =
          if kind = target then depth else state.inside pid kind := by
        simp [State.setInside, update_apply]
      have value : (trans.array j).ntrans kind =
          ((state.setInside pid target depth).inside pid kind : Nat) := by
        rw [array, update_self, TransInfo.ntrans_setNtrans, here kind, depths]
        split <;> rfl
      simp only [expected, pids]
      rcases place with mine | ⟨rfl, rfl, unused⟩
      · by_cases zero : pid = 0
        · subst zero
          rcases known with first | registered
          · cases first
          · exact absurd rfl registered.1
        · rw [value, mine, if_pos zero]
      · simp only [unused, ne_eq, not_true_eq_false, if_false, if_true]
        exact value
    · have other : (j : Int) ≠ slot := by omega
      have before := counted.counters j inRange kind
      obtain ⟨foreign, boot⟩ := others j inRange same
      have array' : trans.array j = state.trans.array j := by
        rw [array, update_of_ne other]
      simp only [expected, array']
      rw [before, expected]
      by_cases unused : (state.trans.array j).pid = 0
      · by_cases zero : j = 0
        · have different : (1 : Nat) ≠ pid := fun first => boot zero unused first.symm
          subst zero
          simp only [unused, ne_eq, not_true_eq_false, if_false, if_true, inside 1 kind different]
        · simp only [unused, ne_eq, not_true_eq_false, if_false, zero]
      · simp only [ne_eq, unused, not_false_eq_true, if_true, inside _ kind foreign]
  · intro other notFirst unregistered kind
    have before := (kept other).not.mp unregistered
    by_cases same : other = pid
    · subst same
      rcases known with first | registered
      · exact absurd first notFirst
      · exact absurd registered before
    · exact (inside other kind same).trans (counted.absent other notFirst before kind)
  · have home : (trans.array 0).pid = (state.trans.array 0).pid := pids 0
    simpa only [pids, nextpid, home] using counted.first
  · rw [nextpid]
    exact counted.booted

/-- What is logged at an entrance or reset at an exit is no counter. -/
@[simp] theorem nextpid_logEntry (trans : TransState) (logged : Logged) :
    (logEntry trans logged).nextpid = trans.nextpid := by
  cases logged <;> rfl

@[simp] theorem array_logEntry (trans : TransState) (logged : Logged) :
    (logEntry trans logged).array = trans.array := by
  cases logged <;> rfl

@[simp] theorem nextpid_logExit (trans : TransState) (target : Target) :
    (logExit trans target).nextpid = trans.nextpid := by
  cases target <;> rfl

@[simp] theorem array_logExit (trans : TransState) (target : Target) :
    (logExit trans target).array = trans.array := by
  cases target <;> rfl

/-- A process with a slot enters a transaction of any kind in the same way. -/
theorem enterCall_of_slot (own : ownIndex trans pid = i)
    (logged : Logged) : enterCall trans pid logged = enterTrans trans logged pid := by
  cases logged with
  | pagetable =>
    have slot : ¬ownIndex trans pid < 0 := by omega
    rw [enterCall, enterTransPagetable, if_neg slot]
  | _ => rfl

/-- A process with a slot leaves a transaction of any kind in the same way. -/
theorem exitCall_of_slot (own : ownIndex trans pid = i)
    (target : Target) : exitCall trans pid target = exitTrans trans target pid := by
  cases target with
  | pagetable =>
    have slot : ¬ownIndex trans pid < 0 := by omega
    rw [exitCall, exitTransPagetable, if_neg slot]
  | _ => rfl

theorem counted_enter (counted : Counted state) (executes : Executes state pid) (logged : Logged) :
    Counted ((state.setInside pid logged.target (state.inside pid logged.target + 1)).finish
      (enterCall state.trans pid logged)) := by
  obtain ⟨i, -, own, here, -⟩ := counted.own executes
  have positive : ¬(state.trans.array i).ntrans logged.target < 0 := by
    rw [here]
    omega
  rw [enterCall_of_slot own, enterTrans, own, if_neg positive]
  refine counted.change executes own (by simp [TransState.count, TransState.setInfo]) ?_
  simp only [TransState.count, TransState.setInfo, array_logEntry, here]
  push_cast
  rfl

/-- The exit of a transaction that the process is inside. -/
theorem exitTrans_of_inside (counted : Counted state)
    (executes : Executes state pid) (entered : 0 < state.inside pid target) :
    ∃ trans, exitTrans state.trans target pid = some trans ∧
      Counted { state.setInside pid target (state.inside pid target - 1) with trans := trans } := by
  obtain ⟨i, -, own, here, -⟩ := counted.own executes
  have positive : ¬(state.trans.array i).ntrans target < 1 := by
    rw [here]
    omega
  refine ⟨_, by rw [exitTrans, own, if_neg positive], ?_⟩
  refine counted.change executes own (by simp [TransState.count, TransState.setInfo]) ?_
  have lowered : (state.inside pid target : Int) + -1 = ((state.inside pid target - 1 : Nat) : Int) := by
    omega
  simp only [TransState.count, TransState.setInfo, array_logExit, here, lowered]

theorem counted_exit (counted : Counted state)
    (executes : Executes state pid) (entered : 0 < state.inside pid target) :
    Counted ((state.setInside pid target (state.inside pid target - 1)).finish
      (exitCall state.trans pid target)) := by
  obtain ⟨i, -, own, -⟩ := counted.own executes
  obtain ⟨trans, left, kept⟩ := exitTrans_of_inside counted executes entered
  rw [exitCall_of_slot own, left]
  exact kept

theorem counted_fork (counted : Counted state) {caller : Nat} (room : state.procs.length < nproc)
    (called : state.trans.nextpid = 1 ∨ Registered state caller) : Counted { state with
      trans := { state.trans with nextpid := state.trans.nextpid + 1 }
      procs := state.trans.nextpid :: state.procs } := by
  have booted := counted.booted
  refine ⟨counted.running, ?_, ?_, room, ?_, counted.unique, counted.counters, counted.absent, ?_,
    Nat.le_succ_of_le booted⟩
  · intro pid member
    rcases List.mem_cons.mp member with rfl | old
    · exact ⟨booted, Nat.lt_succ_self _⟩
    · have bounds := counted.allocated pid old
      exact ⟨bounds.1, Nat.lt_succ_of_lt bounds.2⟩
  · refine List.nodup_cons.mpr ⟨fun member => ?_, counted.distinct⟩
    exact Nat.lt_irrefl _ (counted.allocated _ member).2
  · exact fun i low nonzero => List.mem_cons_of_mem _ (counted.owner i low nonzero)
  · rcases called with boot | registered
    · refine counted.first.imp_right fun ⟨_, unused⟩ => ⟨?_, unused⟩
      show state.trans.nextpid + 1 ≤ 2
      omega
    · exact .inl (counted.first_of_registered registered)

/-- As the process table has at most `NPROC` processes, there is an unused slot. -/
theorem Counted.exists_unused (counted : Counted state) :
    ∃ i, firstSlot (fun i => (state.trans.array i).pid == 0) (nproc + 1) = some i := by
  by_contra full
  have missing : firstSlot (fun i => (state.trans.array i).pid == 0) (nproc + 1) = none := by
    simpa [Option.eq_none_iff_forall_ne_some] using full
  have used : ∀ i ≤ nproc, (state.trans.array i).pid ≠ 0 := by
    intro i low
    simpa using firstSlot_eq_none.mp missing i (Nat.lt_succ_of_le low)
  let pids := (List.range (nproc + 1)).map fun i : Nat => (state.trans.array i).pid
  have distinct : pids.Nodup := by
    refine List.Nodup.map_on (fun i inI j inJ same => ?_) List.nodup_range
    have lowI := Nat.le_of_lt_succ (List.mem_range.mp inI)
    exact counted.unique i lowI j (Nat.le_of_lt_succ (List.mem_range.mp inJ)) (used i lowI) same
  have inside : pids ⊆ state.procs := by
    intro pid member
    obtain ⟨i, inRange, rfl⟩ := List.mem_map.mp member
    have low := Nat.le_of_lt_succ (List.mem_range.mp inRange)
    exact counted.owner i low (used i low)
  have most := (List.subperm_of_subset distinct inside).length_le
  have count : pids.length = nproc + 1 := by simp [pids]
  have room := counted.room
  omega

theorem counted_register (counted : Counted state)
    (member : pid ∈ state.procs) (unregistered : ¬Registered state pid) :
    Counted { state with trans := registerTransInfo state.trans pid } := by
  obtain ⟨i, found⟩ := counted.exists_unused
  obtain ⟨inRange, empty, before⟩ := firstSlot_eq_some.mp found
  have low := Nat.le_of_lt_succ inRange
  have unused : (state.trans.array i).pid = 0 := by simpa using empty
  have bounds := counted.allocated pid member
  have nonzero : pid ≠ 0 := by omega
  have elsewhere : ∀ j ≤ nproc, (state.trans.array j).pid ≠ pid := fun j inside same =>
    unregistered (registered_of_slot nonzero inside same)
  rw [registerTransInfo, found]
  have slot : ∀ j : Nat, (update state.trans.array i
      { state.trans.array i with pid := pid }) j =
      if j = i then { state.trans.array i with pid := pid } else state.trans.array j := by
    intro j
    by_cases same : j = i
    · subst same
      simp
    · have other : (j : Int) ≠ i := by omega
      rw [update_of_ne other, if_neg same]
  have zero : (∀ j ≤ nproc, (state.trans.array j).pid = 0) → i = 0 := by
    intro unusedSlots
    by_contra later
    have used : ((state.trans.array (0 : Nat)).pid == 0) = false :=
      before 0 (Nat.pos_of_ne_zero later)
    rw [unusedSlots 0 (Nat.zero_le _)] at used
    cases used
  -- The first slot goes to the first process, any other slot to one that never ran.
  have depth : ∀ target, (if i = 0 then (state.inside 1 target : Int) else 0) =
      state.inside pid target := by
    intro target
    rcases counted.first with first | ⟨boot, unusedSlots⟩
    · have later : i ≠ 0 := by
        rintro rfl
        exact absurd (first.symm.trans unused) (by decide)
      have notFirst : pid ≠ 1 := fun same => elsewhere 0 (Nat.zero_le _) (same ▸ first)
      rw [if_neg later, counted.absent pid notFirst unregistered]
      rfl
    · obtain rfl : pid = 1 := by omega
      rw [if_pos (zero unusedSlots)]
  refine ⟨counted.running, counted.allocated, counted.distinct, counted.room, ?_, ?_, ?_, ?_, ?_,
    counted.booted⟩
  · intro j inside used
    simp only [TransState.setInfo, slot] at used ⊢
    by_cases same : j = i
    · rw [if_pos same]
      exact member
    · rw [if_neg same] at used ⊢
      exact counted.owner j inside used
  · intro j inJ k inK used same
    simp only [TransState.setInfo, slot] at used same
    by_cases first : j = i <;> by_cases second : k = i
    · exact first.trans second.symm
    · rw [if_pos first, if_neg second] at same
      exact absurd same.symm (elsewhere k inK)
    · rw [if_neg first, if_pos second] at same
      exact absurd same (elsewhere j inJ)
    · rw [if_neg first] at used same
      rw [if_neg second] at same
      exact counted.unique j inJ k inK used same
  · intro j inside target
    have value := counted.counters j inside target
    simp only [expected, TransState.setInfo, slot] at value ⊢
    by_cases same : j = i
    · subst same
      simp only [unused, ne_eq, not_true_eq_false, if_false] at value
      simp only [if_true, TransInfo.ntrans_setPid, value, nonzero, ne_eq, not_false_eq_true]
      exact depth target
    · simp only [if_neg same]
      exact value
  · intro other notFirst absent target
    refine counted.absent other notFirst (fun registered => absent ?_) target
    obtain ⟨j, inside, -, same⟩ := registered.slot
    refine registered_of_slot registered.1 inside ?_
    have different : j ≠ i := by
      rintro rfl
      exact registered.1 (same.symm.trans unused)
    simp only [TransState.setInfo, slot, if_neg different]
    exact same
  · left
    have home := slot 0
    rcases counted.first with first | ⟨boot, unusedSlots⟩
    · have later : ¬0 = i := by
        rintro rfl
        exact absurd (first.symm.trans unused) (by decide)
      rw [if_neg later] at home
      simp only [TransState.setInfo]
      exact (congrArg TransInfo.pid home).trans first
    · obtain rfl : pid = 1 := by omega
      rw [if_pos (zero unusedSlots).symm] at home
      simp only [TransState.setInfo]
      exact congrArg TransInfo.pid home

theorem counted_reap {state : State} (counted : Counted state) {pid : Nat}
    (member : pid ∈ state.procs) (notFirst : pid ≠ 1) (outside : Outside state pid) :
    Counted { state with
      trans := deleteTransInfo state.trans pid
      procs := state.procs.erase pid } := by
  have bounds := counted.allocated pid member
  have quiet : ∀ target, state.inside pid target = 0 := by
    intro target
    cases target
    · exact outside.1
    · exact outside.2.1
    · exact outside.2.2
  have slot : ∀ j : Nat, j ≤ nproc → (deleteTransInfo state.trans pid).array j =
      if (state.trans.array j).pid = pid then { state.trans.array j with pid := 0 }
      else state.trans.array j := by
    intro j inside
    have bounds : (0 : Int) ≤ j ∧ (j : Int) ≤ nproc := by omega
    simp only [deleteTransInfo, bounds.1, bounds.2, true_and]
  refine ⟨counted.running, ?_, counted.distinct.erase pid, ?_, ?_, ?_, ?_, ?_, ?_, counted.booted⟩
  · exact fun other old => counted.allocated other (List.mem_of_mem_erase old)
  · exact (List.length_erase_le).trans counted.room
  · intro j inside used
    simp only [slot j inside] at used ⊢
    by_cases same : (state.trans.array j).pid = pid
    · simp [same] at used
    · rw [if_neg same] at used ⊢
      exact (List.mem_erase_of_ne same).mpr (counted.owner j inside used)
  · intro j inJ k inK used same
    simp only [slot j inJ, slot k inK] at used same
    by_cases first : (state.trans.array j).pid = pid
    · simp [first] at used
    · rw [if_neg first] at used same
      by_cases second : (state.trans.array k).pid = pid
      · rw [if_pos second] at same
        exact absurd same used
      · rw [if_neg second] at same
        exact counted.unique j inJ k inK used same
  · intro j inside target
    have value := counted.counters j inside target
    simp only [expected, slot j inside] at value ⊢
    by_cases same : (state.trans.array j).pid = pid
    · have nonzero : pid ≠ 0 := by omega
      have later : j ≠ 0 := by
        rintro rfl
        rcases counted.first with first | ⟨-, unused⟩
        · exact notFirst (same.symm.trans first)
        · exact nonzero (same.symm.trans (unused 0 (Nat.zero_le _)))
      rw [if_pos same]
      simp only [same, nonzero, ne_eq, not_false_eq_true, if_true, quiet] at value
      simp [value, later]
    · rw [if_neg same]
      exact value
  · intro other different absent target
    by_cases same : other = pid
    · rw [same]
      exact quiet target
    · refine counted.absent other different (fun registered => absent ?_) target
      obtain ⟨j, inside, -, place⟩ := registered.slot
      refine registered_of_slot registered.1 inside ?_
      have foreign : (state.trans.array j).pid ≠ pid := fun again => same (place.symm.trans again)
      simp only [slot j inside, if_neg foreign]
      exact place
  · have home : ((deleteTransInfo state.trans pid).array 0).pid = (state.trans.array 0).pid := by
      have first := slot 0 (Nat.zero_le _)
      have foreign : (state.trans.array (0 : Nat)).pid ≠ pid := by
        rcases counted.first with first | ⟨-, unused⟩
        · exact fun same => notFirst (same.symm.trans first)
        · rw [unused 0 (Nat.zero_le _)]
          omega
      rw [if_neg foreign] at first
      exact congrArg TransInfo.pid first
    rcases counted.first with first | ⟨boot, unused⟩
    · exact .inl (home.trans first)
    · refine .inr ⟨boot, fun j inside => ?_⟩
      simp only [slot j inside, unused j inside]
      split <;> simp [unused j inside]

/-- The recovery of an error that is met outside the transactions, or in the one
that the handler leaves for the process. -/
theorem counted_abort (counted : Counted state) {broken : Broken}
    {leader : Nat} (registered : Registered state pid)
    (recoverable : Recoverable state (.abort broken pid leader)) :
    Counted ({ state with inside := update state.inside pid fun _ => 0 }.finish
      (recoverCall state.trans pid leader broken)) := by
  have run := counted.check registered .run
  rcases recoverable with outside | ⟨log, pagetable, entered, rfl, spares⟩
  · have quiet : update state.inside pid (fun _ => 0) = state.inside := by
      funext other target
      by_cases same : other = pid
      · subst same
        cases target <;> simp [outside.1, outside.2.1, outside.2.2]
      · simp [same]
    have unchanged : recoverCall state.trans pid leader broken = some state.trans := by
      cases broken with
      | other => rfl
      | kmem new =>
        rw [outside.2.2] at run
        simp [recoverCall, checkAndHandleTransRun, returnsLogRun, run]
    rw [quiet, unchanged]
    exact counted
  · obtain ⟨new, rfl, moved⟩ : ∃ new, broken = .kmem new ∧ new ≠ state.trans.logRun := by
      cases broken with
      | kmem new => exact ⟨new, rfl, spares⟩
      | other => exact absurd spares id
    have returns : returnsLogRun state.trans leader new := by
      refine ⟨?_, moved⟩
      rw [run, entered]
      decide
    have left : update state.inside leader (fun _ => 0) =
        (state.setInside leader .run (state.inside leader .run - 1)).inside := by
      funext other target
      by_cases same : other = leader
      · subst same
        cases target <;> simp [State.setInside, log, pagetable, entered]
      · simp [State.setInside, same]
    have positive : 0 < state.inside leader .run := by omega
    obtain ⟨trans, exited, kept⟩ :=
      exitTrans_of_inside counted (counted.executes registered) positive
    rw [recoverCall, checkAndHandleTransRun, if_pos returns, exitTransRun, exited, left]
    exact kept

/-- Every call keeps the counters exact, when its error is recoverable. -/
theorem counted_step {state next : State} {call : Call} (counted : Counted state)
    (recoverable : Recoverable state call) (taken : callStep state call = some next) :
    Counted next := by
  unfold callStep at taken
  rw [if_neg (by simp [counted.running])] at taken
  cases call with
  | fork caller =>
    obtain ⟨⟨room, called⟩, same⟩ := ite_none_right_eq_some.mp taken
    cases same
    exact counted_fork counted room called
  | register pid =>
    obtain ⟨⟨member, unregistered⟩, same⟩ := ite_none_right_eq_some.mp taken
    cases same
    exact counted_register counted member unregistered
  | enter logged pid =>
    obtain ⟨executes, same⟩ := ite_none_right_eq_some.mp taken
    cases same
    exact counted_enter counted executes logged
  | exit target pid =>
    obtain ⟨⟨executes, entered⟩, same⟩ := ite_none_right_eq_some.mp taken
    cases same
    exact counted_exit counted executes entered
  | abort broken pid leader =>
    obtain ⟨⟨registered, -⟩, same⟩ := ite_none_right_eq_some.mp taken
    cases same
    exact counted_abort counted registered recoverable
  | reap pid =>
    obtain ⟨⟨member, notFirst, outside⟩, same⟩ := ite_none_right_eq_some.mp taken
    cases same
    exact counted_reap counted member notFirst outside

/-- In a run whose errors are met outside the transactions, or in the run transaction
that the handler leaves, the counters are settled in every state. -/
theorem settled_of_recoverable_run {calls : List Call} {state : State}
    (run : (transSystem.guarded Recoverable).Runs calls state) : Settled state := by
  have counted : Counted state := by
    refine run.invariant Counted ?_ ?_
    · rintro _ ⟨trans, rfl⟩
      exact counted_start trans
    · intro state call next counted ⟨recoverable, taken⟩
      exact counted_step counted recoverable taken
  refine ⟨counted.running, fun pid target registered outside => ?_⟩
  rw [counted.check registered, outside]
  rfl

/-- Memory before the boot. -/
def sampleTrans : TransState where
  nextpid := 1
  array _ := ⟨0, 0, 0, 0⟩
  logLogheader := ⟨0, fun _ => 0⟩
  logOutstanding := 0
  logRun := 0

/-- The first process forks a child, which meets a broken `struct kmem` in `kfree`
and exits. -/
theorem settled_of_recoverable_run_sample : ∃ state, (transSystem.guarded Recoverable).Runs
      [.fork 0, .register 1, .fork 1, .register 2, .enter (.run 0x87fff000) 2,
        .abort (.kmem 0x87ffe000) 2 2, .reap 2] state ∧ Settled state := by
  have found : (LabelledSystem.exec (LabelledSystem.checked Recoverable callStep)
      (start sampleTrans)
      [.fork 0, .register 1, .fork 1, .register 2, .enter (.run 0x87fff000) 2,
        .abort (.kmem 0x87ffe000) 2 2, .reap 2]).isSome = true := by
    decide +kernel
  obtain ⟨state, result⟩ := Option.isSome_iff_exists.mp found
  have run : (transSystem.guarded Recoverable).Runs
      [.fork 0, .register 1, .fork 1, .register 2, .enter (.run 0x87fff000) 2,
        .abort (.kmem 0x87ffe000) 2 2, .reap 2] state :=
    .of_checked_exec ⟨sampleTrans, rfl⟩ result
  exact ⟨state, run, settled_of_recoverable_run run⟩

/-- A process that meets a broken buffer in `log_write` is aborted inside the log
transaction; its counter stays behind. -/
theorem aborted_transaction_stays : ¬∀ calls state, transSystem.Runs calls state →
    Settled state := by
  intro always
  let log : Log := ⟨30, 1, false, 0, fun _ => 0⟩
  let calls : List Call :=
    [.fork 0, .register 1, .fork 1, .register 2, .enter (.log log) 2, .abort .other 2 2]
  have found : ((LabelledSystem.exec callStep (start sampleTrans) calls).any fun state =>
      decide (Registered state 2 ∧ state.inside 2 .log = 0 ∧
        checkInsideTrans state.trans .log 2 = 1)) = true := by
    decide +kernel
  cases result : LabelledSystem.exec callStep (start sampleTrans) calls with
  | none =>
    rw [result] at found
    cases found
  | some state =>
    rw [result] at found
    obtain ⟨registered, outside, stale⟩ := of_decide_eq_true found
    have settled := always calls state (.of_exec ⟨sampleTrans, rfl⟩ result)
    rw [settled.2 2 .log registered outside] at stale
    cases stale

end Ev6.Transactions
