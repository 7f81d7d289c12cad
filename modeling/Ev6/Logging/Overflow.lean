import Ev6.Logging.Recovery
import Ev6.Logging.Reservation

/-!
# Operations that fill the log

A process that is alone in `log_write` records its block. Three operations admitted
together therefore fill the log up to the limit of the check, although none of them
passes more than `MAXOPBLOCKS` blocks to `log_write`.
-/

namespace Ev6.Logging

open Option (any_eq_true ite_none_left_eq_some map_eq_some_iff)
open Support Transactions

variable {others : Nat} {pid : Fin (others + 1) → Nat}

/-! ## One process alone -/

section Alone

variable {machine next : Machine others} {p : Fin (others + 1)} {pc after : Pc} {change : Change}
  {blocks : Fin (others + 1) → Finset Nat} {requested : Finset Nat}

theorem goto_goto : (machine.goto p pc).goto p after = machine.goto p after := by
  rw [Machine.goto, Machine.goto, Machine.goto, Function.update_idem]

/-- What a process does next does not depend on where the processes are. -/
theorem control_goto : (machine.goto p pc).control after = machine.control after := by
  cases after <;> rfl

theorem apply_goto (applied : machine.apply pid p change = some next) :
    (machine.goto p pc).apply pid p change = some (next.goto p pc) := by
  cases change with
  | takeLock =>
    obtain ⟨free, same⟩ := Option.ite_none_right_eq_some.mp applied
    cases same
    exact if_pos free
  | enter header =>
    obtain ⟨trans, entered, rfl⟩ := map_eq_some_iff.mp applied
    exact map_eq_some_iff.mpr ⟨trans, entered, rfl⟩
  | exit =>
    obtain ⟨trans, exited, rfl⟩ := map_eq_some_iff.mp applied
    exact map_eq_some_iff.mpr ⟨trans, exited, rfl⟩
  | _ =>
    cases applied
    rfl

/-- Every run to one state goes on to the other. -/
def Reaches (pid : Fin (others + 1) → Nat) (state final : Ledger others) : Prop :=
  (∃ labels, (Ledger.operations pid).Runs labels state) →
    ∃ labels, (Ledger.operations pid).Runs labels final

theorem Reaches.trans {state middle final : Ledger others} (first : Reaches pid state middle)
    (second : Reaches pid middle final) : Reaches pid state final :=
  fun runs => second (first runs)

theorem reaches_step (after : Pc) (next : Machine others) (moved : machine.control pc = some (after, change))
    (applied : machine.apply pid p change = some next) (other : pc ≠ .commitClear) :
    Reaches pid ⟨machine.goto p pc, blocks, requested⟩ ⟨next.goto p after, blocks, requested⟩ := by
  rintro ⟨labels, runs⟩
  have here : (machine.goto p pc).pc p = pc := Function.update_self ..
  have stepped : (machine.goto p pc).step pid (.act p .step) = some (next.goto p after) := by
    refine Option.bind_eq_some_iff.mpr ⟨(after, change), ?_, ?_⟩
    · change (machine.goto p pc).control ((machine.goto p pc).pc p) = _
      rw [here, control_goto, moved]
    · exact map_eq_some_iff.mpr ⟨_, apply_goto applied, goto_goto⟩
  have taken : Ledger.step pid ⟨machine.goto p pc, blocks, requested⟩ (.act p .step) =
      some ⟨next.goto p after, blocks, requested⟩ := by
    refine map_eq_some_iff.mpr ⟨_, stepped, ?_⟩
    rw [Ledger.requestedAfter, here, if_neg other]
    rfl
  have modest : Ledger.Modest ⟨machine.goto p pc, blocks, requested⟩ (.act p .step) := trivial
  have step : (Ledger.operations pid).Step ⟨machine.goto p pc, blocks, requested⟩
      (.act p .step) ⟨next.goto p after, blocks, requested⟩ := ⟨modest, taken⟩
  exact ⟨labels ++ [.act p .step], runs.step step⟩

theorem reaches_keep (after : Pc) (moved : machine.control pc = some (after, .keep)) (other : pc ≠ .commitClear) :
    Reaches pid ⟨machine.goto p pc, blocks, requested⟩ ⟨machine.goto p after, blocks, requested⟩ :=
  reaches_step after machine moved rfl other

/-- The scan passes the recorded blocks that are others. -/
theorem reaches_scan {b i : Nat} (fresh : ∀ j < machine.log.lh.n, machine.log.lh.block j ≠ b)
    (low : i ≤ machine.log.lh.n) :
    Reaches pid ⟨machine.goto p (.writeScan b i), blocks, requested⟩
      ⟨machine.goto p (.writeScan b machine.log.lh.n), blocks, requested⟩ := by
  obtain ⟨left, rest⟩ : ∃ left, machine.log.lh.n - i = left := ⟨_, rfl⟩
  induction left generalizing i with
  | zero =>
    obtain rfl : i = machine.log.lh.n := by omega
    exact id
  | succ left ih =>
    have inside : i < machine.log.lh.n := by omega
    have moved : machine.control (.writeScan b i) = some (.writeScan b (i + 1), .keep) := by
      rw [Machine.control, if_pos ⟨inside, fresh i inside⟩]
    exact (reaches_keep _ moved Pc.noConfusion).trans (ih inside (by omega))

/-- Entering and leaving the log transaction is possible for a process that is outside. -/
theorem trans_available {trans : TransState} (log : Log) {slot : Fin (others + 1) → Int}
    (seats : Seats trans pid slot) (live : p = 0 ∨ trans.nextpid > 2)
    (outside : ∀ q, (trans.array (slot q)).logNtrans = 0) :
    ∃ entered left, enterTransLog trans log (pid p) = some entered ∧
      exitTransLog entered (pid p) = some left ∧ left.nextpid = trans.nextpid ∧
      Seats left pid slot ∧ ∀ q, (left.array (slot q)).logNtrans = 0 := by
  obtain ⟨entered, enters⟩ : ∃ entered, enterTransLog trans log (pid p) = some entered := by
    refine ⟨_, ite_none_left_eq_some.mpr ⟨?_, rfl⟩⟩
    rw [seats.own live]
    exact (outside p).ge.not_gt
  obtain ⟨inside, counts⟩ := seats.enter live enters
  have nextpid : entered.nextpid = trans.nextpid := by
    simp only [enterTransLog, enterTrans, ite_none_left_eq_some] at enters
    cases enters.2
    rfl
  have still : p = 0 ∨ entered.nextpid > 2 := by rwa [nextpid]
  obtain ⟨left, leaves⟩ : ∃ left, exitTransLog entered (pid p) = some left := by
    refine ⟨_, ite_none_left_eq_some.mpr ⟨?_, rfl⟩⟩
    rw [inside.own still]
    have one := counts p
    rw [outside p, if_pos rfl] at one
    exact one.ge.not_gt
  obtain ⟨seated, settled⟩ := inside.exit still leaves
  refine ⟨entered, left, enters, leaves, ?_, seated, fun q => ?_⟩
  · simp only [exitTransLog, exitTrans, ite_none_left_eq_some] at leaves
    cases leaves.2
    exact nextpid
  · rw [settled q, counts q, outside q]
    split <;> rfl

/-- The machine after a call of `log_write` that has recorded a new block. -/
def wrote (machine : Machine others) (b : Nat) (trans : TransState) : Machine others :=
  { machine with
    log := { machine.log with
      lh := ⟨machine.log.lh.n + 1, Function.update machine.log.lh.block machine.log.lh.n b⟩ }
    dup := { machine.dup with
      lhdr := ⟨machine.dup.lhdr.n + 1,
        Function.update machine.dup.lhdr.block machine.log.lh.n b⟩ }
    trans := trans
    lock := none
    update := none }

/-- A process that is alone in `log_write` with a new block records it. -/
theorem reaches_write (blocks : Fin (others + 1) → Finset Nat) (requested : Finset Nat) {b : Nat}
    {slot : Fin (others + 1) → Int}
    (room : machine.log.lh.n < logsize ∧ machine.log.lh.n + 1 < machine.log.size)
    (within : 0 < machine.log.outstanding) (free : machine.lock = none)
    (fresh : ∀ j < machine.log.lh.n, machine.log.lh.block j ≠ b)
    (seats : Seats machine.trans pid slot) (live : p = 0 ∨ machine.trans.nextpid > 2)
    (outside : ∀ q, (machine.trans.array (slot q)).logNtrans = 0) :
    ∃ trans, trans.nextpid = machine.trans.nextpid ∧ Seats trans pid slot ∧
      (∀ q, (trans.array (slot q)).logNtrans = 0) ∧
      Reaches pid ⟨machine.goto p (.writeSpace b), blocks, requested⟩
        ⟨(wrote machine b trans).goto p .op, blocks, requested⟩ := by
  obtain ⟨entered, left, enters, leaves, nextpid, seated, settled⟩ :=
    trans_available machine.log seats live outside
  refine ⟨left, nextpid, seated, settled, ?_⟩
  obtain ⟨⟨size, outstanding, committing, n, block⟩, ⟨⟨m, copy⟩, counter⟩, before, lock, pc, booted,
    disk, update⟩ := machine
  dsimp only at room within free fresh enters
  subst free
  -- up to the lock
  have spacious : ¬(n ≥ logsize ∨ n + 1 ≥ size) := by omega
  have counted : ¬outstanding < 1 := by omega
  refine .trans (reaches_keep (.writeCaller b) (if_neg spacious) Pc.noConfusion) ?_
  refine .trans (reaches_keep (.writeTake b) (if_neg counted) Pc.noConfusion) ?_
  refine .trans (reaches_step _ _ rfl rfl Pc.noConfusion) ?_
  -- the scan ends behind the last block
  refine .trans (reaches_scan fresh (Nat.zero_le _)) ?_
  have scanned : (if n < n ∧ block n ≠ b then (Pc.writeScan b (n + 1), Change.keep)
      else (Pc.writeEnter b n, Change.keep)) = (Pc.writeEnter b n, Change.keep) :=
    if_neg fun scan => Nat.lt_irrefl _ scan.1
  refine .trans (reaches_keep (.writeEnter b n) (congrArg some scanned) Pc.noConfusion) ?_
  -- the update of the header and of its duplicate
  refine .trans (reaches_step _ _ rfl
    (map_eq_some_iff.mpr ⟨entered, enters, rfl⟩) Pc.noConfusion) ?_
  refine .trans (reaches_step _ _ rfl rfl Pc.noConfusion) ?_
  refine .trans (reaches_step _ _ rfl rfl Pc.noConfusion) ?_
  have last : (if n = n then Pc.writePin b n else Pc.writeExit, Change.keep) =
      (Pc.writePin b n, Change.keep) := by rw [if_pos rfl]
  refine .trans (reaches_keep (.writePin b n) (congrArg some last) Pc.noConfusion) ?_
  refine .trans (reaches_keep _ rfl Pc.noConfusion) ?_
  refine .trans (reaches_step _ _ rfl rfl Pc.noConfusion) ?_
  refine .trans (reaches_step _ _ rfl rfl Pc.noConfusion) ?_
  refine .trans (reaches_step _ _ rfl
    (map_eq_some_iff.mpr ⟨left, leaves, rfl⟩) Pc.noConfusion) ?_
  refine .trans (reaches_step _ _ rfl rfl Pc.noConfusion) ?_
  exact reaches_keep _ rfl Pc.noConfusion

end Alone

/-! ## Three operations at a time -/

/-- The memory of a machine with three processes when the first one boots it. -/
def crowdedMachine : Machine 2 where
  log := ⟨30, 0, false, 0, fun _ => 0⟩
  dup := ⟨⟨0, fun _ => 0⟩, 0⟩
  trans :=
    { nextpid := 4
      array := fun index => ⟨if 0 ≤ index ∧ index < 3 then index.toNat + 1 else 0, 0, 0, 0⟩
      logLogheader := ⟨0, fun _ => 0⟩
      logOutstanding := -1
      logRun := 0 }
  lock := none
  pc := fun p => if p = 0 then .bootEnter else .out
  booted := false
  disk := ⟨0, fun _ => 0⟩
  update := none

/-- The pids of the three processes. -/
def crowdedPid (p : Fin 3) : Nat := p + 1

theorem crowded_seats : Seats crowdedMachine.trans crowdedPid fun p => (p : Nat) :=
  ⟨by decide, by decide, rfl⟩

/-- The first step of the history: nothing has been logged. -/
def crowdedLedger : Ledger 2 := ⟨crowdedMachine, fun _ => ∅, ∅⟩

theorem starts_crowdedLedger : Ledger.Starts crowdedPid crowdedLedger where
  boots :=
    { empty := ⟨rfl, rfl⟩
      idle := ⟨rfl, rfl, rfl⟩
      free := rfl
      locations := rfl
      booting := rfl
      quiet := rfl
      seated := ⟨fun p => (p : Nat), crowded_seats, by decide⟩ }
  size := rfl
  none := fun _ => rfl
  fresh := rfl

/-- All three processes are in an operation, and the first `n` blocks are in the log; each
process in turn has passed up to ten of them. -/
structure Loaded (state : Ledger 2) (n : Nat) : Prop where
  runs : ∃ labels, (Ledger.operations crowdedPid).Runs labels state
  ops : ∀ p, state.machine.pc p = .op
  size : state.machine.log.size = logsize
  outstanding : 0 < state.machine.log.outstanding
  free : state.machine.lock = none
  length : state.machine.log.lh.n = n
  entries : ∀ i < n, state.machine.log.lh.block i < n
  later : state.machine.trans.nextpid > 2
  seated : ∃ slot, Seats state.machine.trans crowdedPid slot ∧
    ∀ p, (state.machine.trans.array (slot p)).logNtrans = 0
  spent : ∀ p : Fin 3, (state.blocks p).card ≤ n - 10 * p

/-- The next block is passed to `log_write` by the process whose turn it is. -/
theorem Loaded.call {state : Ledger 2} {n : Nat} (loaded : Loaded state n) (few : n < 30) :
    ∃ p : Fin 3, (p : Nat) = n / 10 ∧ ∃ labels,
      (Ledger.operations crowdedPid).Runs labels (state.call p n) := by
  obtain ⟨labels, runs⟩ := loaded.runs
  refine ⟨⟨n / 10, by omega⟩, rfl, labels ++ [.act ⟨n / 10, by omega⟩ (.logWrite n)], ?_⟩
  have modest : state.Modest (.act ⟨n / 10, by omega⟩ (.logWrite n)) := by
    have spent := loaded.spent ⟨n / 10, by omega⟩
    have limit : maxopblocks = 10 := rfl
    refine (Finset.card_insert_le _ _).trans ?_
    dsimp only at spent
    omega
  have taken : state.step crowdedPid (.act ⟨n / 10, by omega⟩ (.logWrite n)) =
      some (state.call ⟨n / 10, by omega⟩ n) := by
    refine map_eq_some_iff.mpr ⟨state.machine.goto ⟨n / 10, by omega⟩ (.writeSpace n), ?_, rfl⟩
    refine Option.bind_eq_some_iff.mpr ⟨(.writeSpace n, .keep), if_pos (loaded.ops _), rfl⟩
  have step : (Ledger.operations crowdedPid).Step state (.act ⟨n / 10, by omega⟩ (.logWrite n))
      (state.call ⟨n / 10, by omega⟩ n) := ⟨modest, taken⟩
  exact runs.step step

/-- As long as the check lets it pass, the block is recorded. -/
theorem Loaded.next {state : Ledger 2} {n : Nat} (loaded : Loaded state n) (few : n + 1 < 30) :
    ∃ after, Loaded after (n + 1) := by
  obtain ⟨p, turn, called⟩ := loaded.call (by omega)
  obtain ⟨slot, seats, outside⟩ := loaded.seated
  have room : logsize = 30 := rfl
  have length := loaded.length
  have size := loaded.size
  have fresh : ∀ j < state.machine.log.lh.n, state.machine.log.lh.block j ≠ n := by
    intro j below
    exact Nat.ne_of_lt (loaded.entries j (by omega))
  obtain ⟨trans, nextpid, seated, settled, reaches⟩ := @reaches_write _ _ _ p
    (state.call p n).blocks (state.call p n).requested n slot ⟨by omega, by omega⟩ loaded.outstanding loaded.free fresh seats (.inr loaded.later) outside
  refine ⟨⟨(wrote state.machine n trans).goto p .op, (state.call p n).blocks,
    (state.call p n).requested⟩, ?_⟩
  refine ⟨reaches called, fun q => ?_, loaded.size, loaded.outstanding, rfl, ?_, fun i below => ?_,
    ?_, ⟨slot, seated, settled⟩, fun q => ?_⟩
  · change Function.update state.machine.pc p .op q = .op
    rw [Function.update_apply]
    split
    · rfl
    · exact loaded.ops q
  · exact congrArg (· + 1) length
  · change Function.update state.machine.log.lh.block state.machine.log.lh.n n i < n + 1
    rw [Function.update_apply, length]
    split
    · omega
    · have bound := loaded.entries i (by omega)
      omega
  · exact nextpid.symm ▸ loaded.later
  · have spent := loaded.spent q
    change ((state.call p n).blocks q).card ≤ n + 1 - 10 * q
    by_cases same : q = p
    · subst same
      rw [Ledger.call_self]
      have grown := Finset.card_insert_le n (state.blocks q)
      omega
    · rw [Ledger.call_of_ne same]
      omega

theorem machine_runs {others : Nat} {pid : Fin (others + 1) → Nat} {labels : List (Label others)}
    {state : Ledger others} (runs : (Ledger.operations pid).Runs labels state) :
    (logSystem pid).Runs labels state.machine := by
  induction runs with
  | initial starts => exact .initial starts.boots
  | step _ taken ih =>
    obtain ⟨-, stepped⟩ := taken
    obtain ⟨machine, moved, rfl⟩ := map_eq_some_iff.mp stepped
    exact ih.step moved

/-- The boot, and the three calls of `begin_op`. -/
def beginAll : List (Label 2) :=
  steps 0 9 ++ [.act 0 .beginOp] ++ steps 0 7 ++ [.act 1 .beginOp] ++ steps 1 7 ++
    [.act 2 .beginOp] ++ steps 2 7

theorem loaded_zero : ∃ state, Loaded state 0 := by
  have found : (LabelledSystem.exec (LabelledSystem.checked Ledger.Modest (Ledger.step crowdedPid))
      crowdedLedger beginAll).any (fun state =>
        decide (∀ p, state.machine.pc p = .op) && decide (state.machine.log.size = logsize) &&
        decide (0 < state.machine.log.outstanding) && decide (state.machine.lock = none) &&
        decide (state.machine.log.lh.n = 0) && decide (state.machine.trans.nextpid > 2) &&
        decide (∀ p, (state.blocks p).card ≤ 0)) = true := by decide +kernel
  obtain ⟨state, result, facts⟩ := (any_eq_true _ _).mp found
  simp only [Bool.and_eq_true, decide_eq_true_eq] at facts
  obtain ⟨⟨⟨⟨⟨⟨ops, size⟩, outstanding⟩, free⟩, length⟩, later⟩, spent⟩ := facts
  have runs : (Ledger.operations crowdedPid).Runs beginAll state :=
    .of_checked_exec starts_crowdedLedger result
  obtain ⟨-, slot, framed⟩ := framed_of_runs (machine_runs runs)
  refine ⟨state, ⟨_, runs⟩, ops, size, outstanding, free, length, fun i below => ?_, later,
    ⟨slot, framed.seats, fun p => ?_⟩, fun p => (spent p).trans (Nat.zero_le _)⟩
  · exact absurd below (Nat.not_lt_zero i)
  · rw [framed.depth p, ops p]
    rfl

theorem loaded (n : Nat) (few : n < 30) : ∃ state, Loaded state n := by
  induction n with
  | zero => exact loaded_zero
  | succ n ih =>
    obtain ⟨state, before⟩ := ih (by omega)
    exact before.next few

/-- Three operations of ten blocks each: the last block finds the log full. -/
theorem admitted_operations_panic :
    ∃ labels state, (Ledger.operations crowdedPid).Runs labels state ∧ state.Panics := by
  obtain ⟨state, full⟩ := loaded 29 (by decide)
  obtain ⟨p, -, labels, runs⟩ := full.call (by decide)
  have length : state.machine.log.lh.n + 1 = logsize := congrArg (· + 1) full.length
  refine ⟨labels, state.call p 29, runs, p, 29, ?_, .inr ?_⟩
  · rw [Ledger.call_pc, if_pos rfl]
  · change state.machine.log.lh.n + 1 ≥ state.machine.log.size
    rw [full.size, length]

/-- One operation that writes a block is timely. -/
theorem log_write_fits_once : ∃ labels state,
    ((Ledger.operations crowdedPid).guarded Ledger.Timely).Runs labels state ∧
      state.machine.log.lh.n = 1 ∧ ¬state.Spills ∧ ¬state.Panics := by
  have found : (LabelledSystem.exec (LabelledSystem.checked Ledger.Timely
      (LabelledSystem.checked Ledger.Modest (Ledger.step crowdedPid)))
      crowdedLedger (beginAll ++ [.act 0 (.logWrite 7)] ++ steps 0 14)).any (fun state =>
        decide (state.machine.log.lh.n = 1)) = true := by decide +kernel
  obtain ⟨state, result, length⟩ := (any_eq_true _ _).mp found
  have runs : ((Ledger.operations crowdedPid).guarded Ledger.Timely).Runs
      (beginAll ++ [.act 0 (.logWrite 7)] ++ steps 0 14) state := by
    refine .of_checked (fun before label after taken => ?_)
      starts_crowdedLedger result
    obtain ⟨modest, stepped⟩ := Option.ite_none_right_eq_some.mp taken
    exact ⟨modest, stepped⟩
  exact ⟨_, state, runs, of_decide_eq_true length,
    (log_write_fits crowdedPid).1 _ state runs.forgetGuard,
    (log_write_fits crowdedPid).2 _ state runs⟩

end Ev6.Logging
