import Ev6.Files.Tables
import Ev6.RecoveryLocking.Basic
import Ev6.Support.KeyTable
import Ev6.Support.LabelledSystem
import Ev6.Transactions.Basic

/-!
# The side tables of the processes

A process has a slot in `trans_info_array` and one in `rcs_infos`. `fork` fills the
second in `allocproc` and the first when the child becomes runnable; `freeproc`
empties both. `trans_info_array` has a lock. `init_rcs_infos` has none: two forks may
see the same slot unused, and the second write of the two takes the slot away from
the first child. `registered_of_unclaimed_run` is about the runs in which every write
goes to a slot that is still unused, `slot_taken_twice` is a run of the other kind.
-/

namespace Ev6.Processes

open Function (forall_update_iff update update_eq_self update_of_ne update_self)
open Support Files RecoveryLocking Transactions

/-! ## The model -/

/-- Where `allocproc`, `fork` or `freeproc` is in its work on a process slot. -/
inductive Stage where
  /-- `allocpid` has returned. -/
  | alloc
  /-- `init_rcs_infos` tests a slot next. -/
  | scan (i : Nat)
  /-- `init_rcs_infos` has seen a slot unused and writes it next. -/
  | take (i : Nat)
  /-- `allocproc` has returned to `fork`. -/
  | copy
  /-- `freeproc` calls `delete_trans_info` next. -/
  | freeTrans
  /-- `freeproc` calls `free_rcs_history` next. -/
  | freeRcs
  /-- `free_rcs_history` has found a slot and empties it next. -/
  | clearRcs (i : Nat)
deriving DecidableEq

/-- The slot of `rcs_infos` that is written next. -/
def Stage.target : Stage → Option Nat
  | .take i => some i
  | _ => none

/-- A slot of `proc[]`: the fields that decide which process it is. `busy` is the
process that holds the lock of the slot in `fork` or in `wait`, and how far it is. -/
structure Proc where
  state : ProcState
  pid : Nat
  parent : Option (Fin nproc)
  busy : Option (Fin nproc × Stage)
deriving DecidableEq

/-- A slot after `freeproc`. -/
def Proc.freed : Proc := ⟨.unused, 0, none, none⟩

/-- The process table and the two side tables. -/
structure State where
  trans : TransState
  rcs : RcsState
  proc : Fin nproc → Proc

namespace State

/-- Replace one slot of the process table. -/
def setProc (state : State) (q : Fin nproc) (proc : Proc) : State :=
  { state with proc := update state.proc q proc }

/-- `nextpid` after `allocpid`. -/
def allocpid (state : State) : State :=
  { state with
    trans := { state.trans with nextpid := state.trans.nextpid + 1 }
    rcs := { state.rcs with nextpid := state.rcs.nextpid + 1 } }

/-- A process holds the lock of no other process slot. -/
def Idle (state : State) (p : Fin nproc) : Prop :=
  ∀ q, (state.proc q).busy.map Prod.fst ≠ some p

instance (state : State) (p : Fin nproc) : Decidable (state.Idle p) := by
  unfold Idle
  infer_instance

end State

/-- One stage of the work of the process `p` on the slot `q`. `fails` is the outcome of
`kalloc` in `allocproc` and of `uvmcopy` in `fork`. The child becomes runnable and is
registered under its own lock, which is one step. -/
def workStep (state : State) (p q : Fin nproc) (fails : Bool) : Stage → State
  | .alloc =>
    if fails then state.setProc q { state.proc q with busy := none }
    else state.setProc q { state.proc q with busy := some (p, .scan 0) }
  | .scan i =>
    state.setProc q { state.proc q with
      busy := some (p,
        if nproc ≤ i then .copy
        else if (state.rcs.rcsInfos i).pid = 0 then .take i
        else .scan (i + 1)) }
  | .take i =>
    { state with
      rcs := state.rcs.setInfo i
        { state.rcs.rcsInfos i with pid := (state.proc q).pid } }.setProc q
      { state.proc q with busy := some (p, .copy) }
  | .copy =>
    if fails then state.setProc q { state.proc q with busy := some (p, .freeTrans) }
    else
      { state with trans := registerTransInfo state.trans (state.proc q).pid }.setProc q
        { state.proc q with state := .runnable, parent := some p, busy := none }
  | .freeTrans =>
    { state with trans := deleteTransInfo state.trans (state.proc q).pid }.setProc q
      { state.proc q with busy := some (p, .freeRcs) }
  | .freeRcs =>
    match state.rcs.slotOf (state.proc q).pid with
    | some i => state.setProc q { state.proc q with busy := some (p, .clearRcs i) }
    | none => state.setProc q .freed
  | .clearRcs i => { state with rcs := state.rcs.setInfo i .unused }.setProc q .freed

/-- The changes of state made by the scheduler, `yield`, `sleep` and `wakeup`. -/
def switches : ProcState → ProcState → Bool
  | .runnable, .running => true
  | .running, .runnable => true
  | .running, .sleeping => true
  | .sleeping, .runnable => true
  | _, _ => false

/-- A step of the system. -/
inductive Label where
  /-- `fork` finds the unused slot `q` and calls `allocpid`. -/
  | fork (p q : Fin nproc)
  /-- The next stage of the work on the slot `q`. -/
  | work (q : Fin nproc) (fails : Bool)
  /-- `wait` of `p` finds the zombie `q` and calls `freeproc`. -/
  | wait (p q : Fin nproc)
  /-- `exit`, with `reparent`. -/
  | exit (p : Fin nproc)
  | switch (p : Fin nproc) (next : ProcState)

/-- One step, if it can be taken. -/
def step (state : State) : Label → Option State
  | .fork p q =>
    if (state.proc p).state = .running ∧ state.Idle p ∧
        (state.proc q).state = .unused ∧ (state.proc q).busy = none then
      some (state.allocpid.setProc q
        { state.proc q with pid := state.trans.nextpid, busy := some (p, .alloc) })
    else none
  | .work q fails => (state.proc q).busy.map fun work => workStep state work.1 q fails work.2
  | .wait p q =>
    if (state.proc p).state = .running ∧ state.Idle p ∧
        (state.proc q).state = .zombie ∧ (state.proc q).busy = none ∧
        (state.proc q).parent = some p then
      some (state.setProc q { state.proc q with busy := some (p, .freeTrans) })
    else none
  | .exit p =>
    if (state.proc p).state = .running ∧ state.Idle p ∧ p ≠ 0 then
      some { state with
        proc := fun q =>
          { state.proc q with
            state := if q = p then .zombie else (state.proc q).state
            parent := if (state.proc q).parent = some p then some 0 else (state.proc q).parent } }
    else none
  | .switch p next =>
    if switches (state.proc p).state next ∧ state.Idle p ∧ (state.proc p).busy = none then
      some (state.setProc p { state.proc p with state := next })
    else none

/-- The state after `userinit`, with the first process in the slot 0. -/
def boot : State where
  trans := registerTransInfo ⟨2, fun _ => ⟨0, 0, 0, 0⟩, ⟨0, fun _ => 0⟩, 0, 0⟩ 1
  rcs := allocRcs ⟨fun _ => .unused, fun _ => ⟨0, 0, none⟩, 1⟩
  proc := fun q => if q = 0 then ⟨.runnable, 1, none, none⟩ else .freed

/-- Every order of steps after `userinit`. -/
def system : LabelledSystem State Label := .ofFunction (· = boot) step

/-! ## What is asked for -/

/-- A process is in the table, and nobody is making or freeing it. -/
def Settled (p : Proc) : Prop := p.state ≠ .unused ∧ p.busy = none

instance (p : Proc) : Decidable (Settled p) := by
  unfold Settled
  infer_instance

/-- The pids in `rcs_infos`. -/
def rcsPids (state : State) (i : Fin nproc) : Nat := (state.rcs.rcsInfos i).pid

/-- The pids in `trans_info_array`. -/
def transPids (state : State) (i : Fin (nproc + 1)) : Nat := (state.trans.array (i : Nat)).pid

/-- Each process has one slot in each table, and the other slots are unused or belong
to a process that is being made or freed. A process that runs is settled, so its
searches find a slot. -/
structure Registered (state : State) : Prop where
  trans : ∀ q, Settled (state.proc q) → ∃! i, transPids state i = (state.proc q).pid
  rcs : ∀ q, Settled (state.proc q) → ∃! i, rcsPids state i = (state.proc q).pid
  transOnly : ∀ i, transPids state i ≠ 0 → ∃ q,
    (Settled (state.proc q) ∨ (state.proc q).busy ≠ none) ∧
      (state.proc q).pid = transPids state i
  rcsOnly : ∀ i, rcsPids state i ≠ 0 → ∃ q,
    (Settled (state.proc q) ∨ (state.proc q).busy ≠ none) ∧ (state.proc q).pid = rcsPids state i
  running : ∀ q, (state.proc q).state ≠ .unused → (state.proc q).state ≠ .zombie →
    Settled (state.proc q)
  searchTrans : ∀ q, Settled (state.proc q) →
    searchTransInfo state.trans (state.proc q).pid ≠ -1
  searchRcs : ∀ q, Settled (state.proc q) → (state.rcs.slotOf (state.proc q).pid).isSome

/-- The slot that `init_rcs_infos` writes next has not been taken since it was tested. -/
def Unclaimed (state : State) : Label → Prop
  | .work q _ =>
    ∀ i ∈ (state.proc q).busy.bind fun work => work.2.target, (state.rcs.rcsInfos i).pid = 0
  | _ => True

instance (state : State) (label : Label) : Decidable (Unclaimed state label) := by
  cases label <;> unfold Unclaimed <;> infer_instance

/-! ## Who has a slot -/

/-- Whether the pid of the process is to be found in `rcs_infos`. -/
def Stage.inRcs : Stage → Bool
  | .alloc => false
  | .scan _ => false
  | .take _ => false
  | _ => true

/-- The scan of `rcs_infos` that the stage is in. -/
def Stage.place : Stage → Option Nat
  | .scan i => some i
  | .take i => some i
  | _ => none

namespace Proc

/-- The pid of a slot of the process table that is in use. -/
def active (p : Proc) : Option Nat :=
  if p.state = .unused ∧ p.busy = none then none else some p.pid

/-- The pid that the process has in `rcs_infos`. -/
def rcsKey (p : Proc) : Option Nat :=
  match p.busy with
  | none => if p.state = .unused then none else some p.pid
  | some (_, stage) => if stage.inRcs then some p.pid else none

/-- The pid that the process has in `trans_info_array`. -/
def transKey (p : Proc) : Option Nat :=
  match p.busy with
  | some (_, .freeTrans) => if p.state = .unused then none else some p.pid
  | none => if p.state = .unused then none else some p.pid
  | _ => none

/-- Where the process that is being made is in its scan of `rcs_infos`. -/
def place (p : Proc) : Option Nat := p.busy.bind fun work => work.2.place

variable {p : Proc}

theorem rcsKey_active {pid : Nat} (held : p.rcsKey = some pid) : p.active = some pid := by
  unfold rcsKey at held
  unfold active
  cases busy : p.busy with
  | none => simpa [busy] using held
  | some work =>
    obtain ⟨worker, stage⟩ := work
    simp only [busy] at held
    split at held
    · simpa using held
    · cases held

theorem transKey_active {pid : Nat} (held : p.transKey = some pid) : p.active = some pid := by
  unfold transKey at held
  unfold active
  cases busy : p.busy with
  | none => simpa [busy] using held
  | some work =>
    obtain ⟨worker, stage⟩ := work
    rw [busy] at held
    cases stage <;> simp_all

/-- A process with a scan under way is not in `rcs_infos` yet. -/
theorem rcsKey_of_place {i : Nat} (here : p.place = some i) : p.rcsKey = none := by
  unfold place at here
  unfold rcsKey
  cases busy : p.busy with
  | none => simp [busy] at here
  | some work =>
    obtain ⟨worker, stage⟩ := work
    rw [busy] at here
    cases stage <;> simp_all [Stage.place, Stage.inRcs]

end Proc

/-! ## The invariant -/

/-- Whether the slot belongs to a process that has been in the table. -/
def Stage.frees : Stage → Bool
  | .freeTrans => true
  | .freeRcs => true
  | .clearRcs _ => true
  | _ => false

/-- What holds of one slot of the process table. `pids` are the pids in `rcs_infos`. -/
structure Sound (nextpid : Nat) (pids : Nat → Nat) (p : Proc) : Prop where
  recent : ∀ pid, p.active = some pid → pid < nextpid
  found : ∀ worker i, p.busy = some (worker, .clearRcs i) → i < nproc ∧ pids i = p.pid
  locked : ∀ worker stage, p.busy = some (worker, stage) →
    p.state = .unused ∨ p.state = .zombie ∧ stage.frees = true

/-- The pids in use are different, each table lists those that it should hold, and the
scans of `rcs_infos` have room. -/
structure Inv (state : State) : Prop where
  sound : ∀ q, Sound state.trans.nextpid (fun i => (state.rcs.rcsInfos i).pid) (state.proc q)
  started : 0 < state.trans.nextpid
  proper : Proper (Proc.active ∘ state.proc)
  rcs : Listed (rcsPids state) (Proc.rcsKey ∘ state.proc)
  trans : Listed (transPids state) (Proc.transKey ∘ state.proc)
  roomy : Roomy (rcsPids state) (Proc.place ∘ state.proc)

section Steps

variable {state : State} {q : Fin nproc} {new : Proc}

theorem comp_setProc (f : Proc → Option Nat) (state : State) (q : Fin nproc) (new : Proc) :
    f ∘ (state.setProc q new).proc = update (f ∘ state.proc) q (f new) :=
  Function.comp_update ..

theorem comp_setProc_eq {f : Proc → Option Nat} (same : f new = f (state.proc q)) :
    f ∘ (state.setProc q new).proc = f ∘ state.proc := by
  rw [comp_setProc, same]
  exact update_eq_self q (f ∘ state.proc)

/-- A property of every entry after one of them is replaced. -/
theorem forall_setProc {P : Proc → Prop} (others : ∀ r, r ≠ q → P (state.proc r)) (here : P new) :
    ∀ r, P ((state.setProc q new).proc r) :=
  (forall_update_iff state.proc fun _ p => P p).mpr ⟨here, others⟩

theorem Inv.properRcs (inv : Inv state) : Proper (Proc.rcsKey ∘ state.proc) :=
  inv.proper.mono fun _ _ held => Proc.rcsKey_active held

theorem Inv.properTrans (inv : Inv state) : Proper (Proc.transKey ∘ state.proc) :=
  inv.proper.mono fun _ _ held => Proc.transKey_active held

theorem Inv.owner (inv : Inv state) (active : (state.proc q).active = some (state.proc q).pid)
    {f : Proc → Option Nat} (part : ∀ p pid, f p = some pid → p.active = some pid)
    (other : Fin nproc) (pid : Nat) (held : (f ∘ state.proc) other = some pid) :
    pid = (state.proc q).pid ↔ other = q := by
  have here := part _ _ held
  constructor
  · rintro rfl
    exact inv.proper.distinct other q _ here active
  · rintro rfl
    exact Option.some.inj (here.symm.trans active)

/-- A step that only changes one entry of the process table, and nothing that is
listed anywhere. -/
theorem Inv.setProc (inv : Inv state)
    (sound : Sound state.trans.nextpid (fun i => (state.rcs.rcsInfos i).pid) new)
    (active : new.active = (state.proc q).active) (rcsKey : new.rcsKey = (state.proc q).rcsKey)
    (transKey : new.transKey = (state.proc q).transKey)
    (place : new.place = (state.proc q).place) : Inv (state.setProc q new) where
  sound := forall_setProc (fun r _ => inv.sound r) sound
  started := inv.started
  proper := by
    rw [comp_setProc_eq active]
    exact inv.proper
  rcs := by
    rw [comp_setProc_eq rcsKey]
    exact inv.rcs
  trans := by
    rw [comp_setProc_eq transKey]
    exact inv.trans
  roomy := by
    rw [comp_setProc_eq place]
    exact inv.roomy

variable {p : Proc}

theorem active_of_busy {work : Fin nproc × Stage} (busy : p.busy = some work) :
    p.active = some p.pid := by
  simp [Proc.active, busy]

variable {nextpid : Nat} {pids : Nat → Nat} {stage : Stage}

/-- The entry after a stage that leads to another one. -/
theorem Sound.work (sound : Sound nextpid pids p)
    {worker : Fin nproc} {next : Stage} (busy : p.busy = some (worker, stage))
    (found : ∀ i, next = .clearRcs i → i < nproc ∧ pids i = p.pid)
    (frees : stage.frees = true → next.frees = true) :
    Sound nextpid pids { p with busy := some (worker, next) } where
  recent := by
    intro pid held
    have active : ({ p with busy := some (worker, next) } : Proc).active = some p.pid :=
      active_of_busy rfl
    rw [active] at held
    exact sound.recent pid ((active_of_busy busy).trans held)
  found := by
    intro other i same
    obtain ⟨-, same⟩ := Prod.mk.inj (Option.some.inj same)
    exact found i same
  locked := by
    intro other last same
    cases same
    rcases sound.locked worker stage busy with unused | ⟨zombie, before⟩
    · exact .inl unused
    · exact .inr ⟨zombie, frees before⟩

/-- A process that is being made is not in the table yet. -/
theorem Sound.unused (sound : Sound nextpid pids p)
    {worker : Fin nproc} (busy : p.busy = some (worker, stage))
    (makes : stage.frees = false) : p.state = .unused := by
  rcases sound.locked worker stage busy with unused | ⟨-, frees⟩
  · exact unused
  · rw [makes] at frees
    cases frees

theorem Inv.fork (inv : Inv state) {p : Fin nproc} (unused : (state.proc q).state = .unused)
    (free : (state.proc q).busy = none) :
    Inv (state.allocpid.setProc q
      { state.proc q with pid := state.trans.nextpid, busy := some (p, .alloc) }) where
  sound := by
    refine forall_setProc (fun r _ => ?_) ?_
    · exact ⟨fun pid held => Nat.lt_succ_of_lt ((inv.sound r).recent pid held),
        (inv.sound r).found, (inv.sound r).locked⟩
    · refine ⟨fun pid held => ?_, fun worker i same => ?_, fun _ _ _ => .inl unused⟩
      · rw [active_of_busy rfl] at held
        cases held
        exact Nat.lt_succ_self _
      · cases same
  started := Nat.succ_pos _
  proper := by
    rw [comp_setProc, active_of_busy rfl]
    refine inv.proper.give inv.started.ne' fun other held => ?_
    exact absurd ((inv.sound other).recent _ held) (Nat.lt_irrefl _)
  rcs := by
    rw [comp_setProc_eq]
    · exact inv.rcs
    · have before : (state.proc q).rcsKey = none := by simp [Proc.rcsKey, free, unused]
      exact before.symm
  trans := by
    rw [comp_setProc_eq]
    · exact inv.trans
    · have before : (state.proc q).transKey = none := by simp [Proc.transKey, free, unused]
      exact before.symm
  roomy := by
    rw [comp_setProc_eq]
    · exact inv.roomy
    · have before : (state.proc q).place = none := by simp [Proc.place, free]
      exact before.symm

theorem Inv.drop (inv : Inv state) (active : new.active = none)
    (rcsKey : (state.proc q).rcsKey = none) (transKey : (state.proc q).transKey = none)
    (place : (state.proc q).place = none) (idle : new.busy = none) :
    Inv (state.setProc q new) where
  sound := by
    refine forall_setProc (fun r _ => inv.sound r) ⟨?_, ?_, ?_⟩
    · intro pid held
      rw [active] at held
      cases held
    · intro worker i same
      rw [idle] at same
      cases same
    · intro worker stage same
      rw [idle] at same
      cases same
  started := inv.started
  proper := by
    rw [comp_setProc, active]
    exact inv.proper.drop q
  rcs := by
    rw [comp_setProc_eq]
    · exact inv.rcs
    · rw [rcsKey]
      exact Option.eq_none_iff_forall_ne_some.mpr fun pid held => by
        rw [Proc.rcsKey_active held] at active
        cases active
  trans := by
    rw [comp_setProc_eq]
    · exact inv.trans
    · rw [transKey]
      exact Option.eq_none_iff_forall_ne_some.mpr fun pid held => by
        rw [Proc.transKey_active held] at active
        cases active
  roomy := by
    rw [comp_setProc_eq]
    · exact inv.roomy
    · rw [place]
      simp [Proc.place, idle]

/-- While a process is being made and does not scan yet, the pids in `rcs_infos` and
the scans are fewer than the slots. -/
theorem Inv.few (inv : Inv state) (rcsKey : (state.proc q).rcsKey = none)
    (place : (state.proc q).place = none) :
    tally (fun i => decide (rcsPids state i ≠ 0)) +
      tally (fun r => ((Proc.place ∘ state.proc) r).isSome) < nproc := by
  have listed := inv.rcs.count
  have apart : tally (fun r => ((Proc.rcsKey ∘ state.proc) r).isSome) +
      tally (fun r => ((Proc.place ∘ state.proc) r).isSome) ≤
        tally fun r => decide (r ≠ q) && true := by
    refine tally_add_le (fun r registered => ?_) (fun r registered => ?_) fun r scans => ?_
    · cases here : (Proc.place ∘ state.proc) r with
      | none => rfl
      | some i =>
        have missing : (Proc.rcsKey ∘ state.proc) r = none := Proc.rcsKey_of_place here
        rw [missing] at registered
        cases registered
    · have different : r ≠ q := by
        rintro rfl
        rw [Function.comp_apply, rcsKey] at registered
        cases registered
      simpa using different
    · have different : r ≠ q := by
        rintro rfl
        rw [Function.comp_apply, place] at scans
        cases scans
      simpa using different
  have split := tally_split (fun _ : Fin nproc => true) q
  have all := tally_le_card fun _ : Fin nproc => true
  rw [Fintype.card_fin] at all
  rw [if_pos rfl] at split
  omega

theorem Inv.startScan (inv : Inv state) {p : Fin nproc}
    (busy : (state.proc q).busy = some (p, .alloc)) :
    Inv (state.setProc q { state.proc q with busy := some (p, .scan 0) }) := by
  have rcsKey : (state.proc q).rcsKey = none := by simp [Proc.rcsKey, busy, Stage.inRcs]
  have place : (state.proc q).place = none := by simp [Proc.place, busy, Stage.place]
  refine ⟨?_, inv.started, ?_, ?_, ?_, ?_⟩
  · exact forall_setProc (fun r _ => inv.sound r)
      ((inv.sound q).work busy (fun i same => by cases same) id)
  · rw [comp_setProc_eq]
    · exact inv.proper
    · exact (active_of_busy rfl).trans (active_of_busy busy).symm
  · rw [comp_setProc_eq]
    · exact inv.rcs
    · rw [rcsKey]
      rfl
  · rw [comp_setProc_eq]
    · exact inv.trans
    · simp [Proc.transKey, busy]
  · rw [comp_setProc]
    exact inv.roomy.start place (inv.few rcsKey place)

variable {i : Nat}

/-- `init_rcs_infos` tests a slot. -/
theorem Inv.scan (inv : Inv state) {p : Fin nproc}
    (busy : (state.proc q).busy = some (p, .scan i)) : Inv (state.setProc q { state.proc q with
      busy := some (p,
        if nproc ≤ i then .copy
        else if (state.rcs.rcsInfos i).pid = 0 then .take i
        else .scan (i + 1)) }) := by
  have place : (state.proc q).place = some i := by simp [Proc.place, busy, Stage.place]
  have low : i < nproc := inv.roomy.inside place
  have active : ∀ stage, ({ state.proc q with busy := some (p, stage) } : Proc).active =
      (state.proc q).active := fun stage => (active_of_busy rfl).trans (active_of_busy busy).symm
  rw [if_neg (Nat.not_le.mpr low)]
  by_cases free : (state.rcs.rcsInfos i).pid = 0
  · rw [if_pos free]
    refine inv.setProc ?_ (active _) ?_ ?_ ?_
    · exact (inv.sound q).work busy (fun j same => by cases same) id
    · simp [Proc.rcsKey, busy, Stage.inRcs]
    · simp [Proc.transKey, busy]
    · simp [Proc.place, busy, Stage.place]
  · rw [if_neg free]
    refine ⟨?_, inv.started, ?_, ?_, ?_, ?_⟩
    · exact forall_setProc (fun r _ => inv.sound r)
        ((inv.sound q).work busy (fun j same => by cases same) id)
    · rw [comp_setProc_eq (active _)]
      exact inv.proper
    · rw [comp_setProc_eq]
      · exact inv.rcs
      · simp [Proc.rcsKey, busy, Stage.inRcs]
    · rw [comp_setProc_eq]
      · exact inv.trans
      · simp [Proc.transKey, busy]
    · rw [comp_setProc]
      exact Roomy.advance (i := ⟨i, low⟩) inv.roomy place free

/-- The pids in `rcs_infos` after one slot is written. -/
theorem rcsPids_setInfo (state : State) (low : i < nproc) (info : ProcRcsInfo) :
    rcsPids { state with rcs := state.rcs.setInfo i info } =
      update (rcsPids state) ⟨i, low⟩ info.pid := by
  funext j
  by_cases same : j = ⟨i, low⟩
  · subst same
    simp [rcsPids, RcsState.setInfo]
  · have different : j.val ≠ i := fun equal => same (Fin.ext equal)
    simp [rcsPids, RcsState.setInfo, same, different]

/-- An entry found by `free_rcs_history` is not the one that is written, unless that
one holds its pid. -/
theorem Sound.setInfo {rcs : RcsState}
    (sound : Sound nextpid (fun i => (rcs.rcsInfos i).pid) p) {info : ProcRcsInfo}
    (other : p.active = some p.pid → (rcs.rcsInfos i).pid ≠ p.pid) :
    Sound nextpid (fun j => ((rcs.setInfo i info).rcsInfos j).pid) p where
  recent := sound.recent
  found := by
    intro worker j busy
    obtain ⟨low, here⟩ := sound.found worker j busy
    have different : j ≠ i := by
      rintro rfl
      exact other (active_of_busy busy) here
    refine ⟨low, ?_⟩
    simpa [RcsState.setInfo, different] using here
  locked := sound.locked

/-- `init_rcs_infos` writes a slot that is still unused. -/
theorem Inv.take (inv : Inv state) {p : Fin nproc} {i : Nat}
    (busy : (state.proc q).busy = some (p, .take i)) (free : (state.rcs.rcsInfos i).pid = 0) :
    Inv ({ state with
      rcs := state.rcs.setInfo i
        { state.rcs.rcsInfos i with pid := (state.proc q).pid } }.setProc q
      { state.proc q with busy := some (p, .copy) }) := by
  have place : (state.proc q).place = some i := by simp [Proc.place, busy, Stage.place]
  have low : i < nproc := inv.roomy.inside place
  have active := active_of_busy busy
  have used : (state.proc q).pid ≠ 0 := inv.proper.nonzero q _ active
  have absent : (state.proc q).rcsKey = none := Proc.rcsKey_of_place place
  refine ⟨?_, inv.started, ?_, ?_, ?_, ?_⟩
  · refine forall_setProc (fun r _ => ?_) ?_
    · refine (inv.sound r).setInfo fun held => ?_
      have nonzero := inv.proper.nonzero r _ held
      omega
    · refine Sound.work ((inv.sound q).setInfo fun _ => ?_) busy (fun j same => by cases same) id
      omega
  · rw [comp_setProc_eq]
    · exact inv.proper
    · exact (active_of_busy rfl).trans active.symm
  · rw [comp_setProc]
    change Listed (rcsPids { state with rcs := state.rcs.setInfo i _ }) _
    rw [rcsPids_setInfo state low]
    refine inv.rcs.add inv.properRcs free used (fun other held => ?_) absent
    have same : other = q :=
      inv.proper.distinct other q _ (Proc.rcsKey_active held) active
    subst same
    rw [Function.comp_apply, absent] at held
    cases held
  · rw [comp_setProc_eq]
    · exact inv.trans
    · simp [Proc.transKey, busy]
  · rw [comp_setProc]
    change Roomy (rcsPids { state with rcs := state.rcs.setInfo i _ }) _
    rw [rcsPids_setInfo state low]
    exact inv.roomy.take (i := ⟨i, low⟩) place free used

/-- The pids in `trans_info_array` after a registration. -/
theorem transPids_register (state : State) (pid : Nat) (free : ∃ i, transPids state i = 0) :
    ∃ i, transPids state i = 0 ∧
      transPids { state with trans := registerTransInfo state.trans pid } =
        update (transPids state) i pid := by
  cases found : firstSlot (fun i => (state.trans.array i).pid == 0) (nproc + 1) with
  | none =>
    obtain ⟨i, here⟩ := free
    have filled := firstSlot_eq_none.mp found i i.isLt
    have unused : (state.trans.array (i.val : Int)).pid = 0 := here
    simp [unused] at filled
  | some i =>
    obtain ⟨low, here, -⟩ := firstSlot_eq_some.mp found
    refine ⟨⟨i, low⟩, by simpa [transPids] using here, ?_⟩
    funext j
    unfold registerTransInfo
    rw [found]
    by_cases same : j = ⟨i, low⟩
    · subst same
      simp [transPids, TransState.setInfo]
    · have different : (j.val : Int) ≠ (i : Int) := by
        intro equal
        exact same (Fin.ext (Int.ofNat.inj equal))
      simp [transPids, TransState.setInfo, same, different]

theorem Inv.publish (inv : Inv state) {p : Fin nproc}
    (busy : (state.proc q).busy = some (p, .copy)) :
    Inv ({ state with trans := registerTransInfo state.trans (state.proc q).pid }.setProc q
      { state.proc q with state := .runnable, parent := some p, busy := none }) := by
  have active := active_of_busy busy
  have used : (state.proc q).pid ≠ 0 := inv.proper.nonzero q _ active
  have absent : (state.proc q).transKey = none := by simp [Proc.transKey, busy]
  have sameNext : (registerTransInfo state.trans (state.proc q).pid).nextpid =
      state.trans.nextpid := by
    unfold registerTransInfo
    split <;> rfl
  refine ⟨?_, ?_, ?_, ?_, ?_, ?_⟩
  · refine forall_setProc (fun r _ => ?_) ?_
    · exact sameNext.symm ▸ inv.sound r
    · refine ⟨fun pid held => ?_, fun worker i same => ?_, fun worker stage same => ?_⟩
      · have here : some (state.proc q).pid = some pid := by simpa [Proc.active] using held
        exact lt_of_lt_of_eq ((inv.sound q).recent pid (active.trans here)) sameNext.symm
      · cases same
      · cases same
  · exact lt_of_lt_of_eq inv.started sameNext.symm
  · rw [comp_setProc_eq]
    · exact inv.proper
    · rw [active]
      simp [Proc.active]
  · rw [comp_setProc_eq]
    · exact inv.rcs
    · simp [Proc.rcsKey, busy, Stage.inRcs]
  · have free := inv.trans.free (by simp)
    obtain ⟨i, unused, after⟩ := transPids_register state (state.proc q).pid free
    rw [comp_setProc]
    change Listed (transPids { state with trans := registerTransInfo state.trans _ }) _
    rw [after]
    refine inv.trans.add inv.properTrans unused used (fun other held => ?_) absent
    have same : other = q :=
      inv.proper.distinct other q _ (Proc.transKey_active held) active
    subst same
    rw [Function.comp_apply, absent] at held
    cases held
  · rw [comp_setProc_eq]
    · exact inv.roomy
    · simp [Proc.place, busy, Stage.place]

/-- `freeproc` calls `delete_trans_info`. -/
theorem Inv.deleteTrans (inv : Inv state) {p : Fin nproc}
    (busy : (state.proc q).busy = some (p, .freeTrans)) :
    Inv ({ state with trans := deleteTransInfo state.trans (state.proc q).pid }.setProc q
      { state.proc q with busy := some (p, .freeRcs) }) := by
  have active := active_of_busy busy
  refine ⟨?_, inv.started, ?_, ?_, ?_, ?_⟩
  · refine forall_setProc (fun r _ => inv.sound r) ?_
    exact (inv.sound q).work busy (fun j same => by cases same) id
  · rw [comp_setProc_eq]
    · exact inv.proper
    · exact (active_of_busy rfl).trans active.symm
  · rw [comp_setProc_eq]
    · exact inv.rcs
    · simp [Proc.rcsKey, busy, Stage.inRcs]
  · rw [comp_setProc]
    have emptied : ∀ i, transPids
        { state with trans := deleteTransInfo state.trans (state.proc q).pid } i =
          if transPids state i = (state.proc q).pid then 0 else transPids state i := by
      intro i
      have low : (i.val : Int) ≤ nproc := by
        have := i.isLt
        omega
      by_cases same : (state.trans.array (i.val : Int)).pid = (state.proc q).pid
      · simp [transPids, deleteTransInfo, low, same]
      · simp [transPids, deleteTransInfo, same]
    exact inv.trans.remove inv.properTrans
      (inv.owner active fun _ _ held => Proc.transKey_active held) emptied
  · rw [comp_setProc_eq]
    · exact inv.roomy
    · simp [Proc.place, busy, Stage.place]

/-- `free_rcs_history` searches its slot, and finds it. -/
theorem Inv.searchRcs (inv : Inv state) {p : Fin nproc}
    (busy : (state.proc q).busy = some (p, .freeRcs)) :
    ∃ i, state.rcs.slotOf (state.proc q).pid = some i ∧
      Inv (state.setProc q { state.proc q with busy := some (p, .clearRcs i) }) := by
  have active := active_of_busy busy
  have listed : (state.proc q).rcsKey = some (state.proc q).pid := by
    simp [Proc.rcsKey, busy, Stage.inRcs]
  cases found : state.rcs.slotOf (state.proc q).pid with
  | none =>
    obtain ⟨j, here, -⟩ := inv.rcs.once q _ listed
    have missing := firstSlot_eq_none.mp found j j.isLt
    have equal : (state.rcs.rcsInfos j).pid = (state.proc q).pid := here
    simp [equal] at missing
  | some i =>
    obtain ⟨low, here, -⟩ := firstSlot_eq_some.mp found
    refine ⟨i, rfl, inv.setProc ?_ ?_ ?_ ?_ ?_⟩
    · refine (inv.sound q).work busy (fun j same => ?_) id
      cases same
      exact ⟨low, by simpa using here⟩
    · exact (active_of_busy rfl).trans active.symm
    · simp [Proc.rcsKey, busy, Stage.inRcs]
    · simp [Proc.transKey, busy]
    · simp [Proc.place, busy, Stage.place]

/-- `free_rcs_history` empties the slot it has found. -/
theorem Inv.clearRcs (inv : Inv state) {p : Fin nproc}
    (busy : (state.proc q).busy = some (p, .clearRcs i)) :
    Inv ({ state with rcs := state.rcs.setInfo i .unused }.setProc q .freed) := by
  have active := active_of_busy busy
  obtain ⟨low, here⟩ := (inv.sound q).found p i busy
  have listed : (state.proc q).rcsKey = some (state.proc q).pid := by
    simp [Proc.rcsKey, busy, Stage.inRcs]
  have freed : Proc.freed.active = none := by decide
  refine ⟨?_, inv.started, ?_, ?_, ?_, ?_⟩
  · refine forall_setProc (fun r different => ?_) ?_
    · refine (inv.sound r).setInfo fun held same => different ?_
      have equal : (state.proc r).pid = (state.proc q).pid := same.symm.trans here
      rw [equal] at held
      exact inv.proper.distinct r q _ held active
    · refine ⟨fun pid held => ?_, fun worker j same => ?_, fun worker stage same => ?_⟩
      · rw [freed] at held
        cases held
      · cases same
      · cases same
  · rw [comp_setProc, freed]
    exact inv.proper.drop q
  · rw [comp_setProc]
    change Listed (rcsPids { state with rcs := state.rcs.setInfo i _ }) _
    rw [rcsPids_setInfo state low]
    refine inv.rcs.remove inv.properRcs
      (inv.owner active fun _ _ held => Proc.rcsKey_active held) fun j => ?_
    obtain ⟨k, _, unique⟩ := inv.rcs.once q _ listed
    by_cases same : j = ⟨i, low⟩
    · subst same
      have equal : rcsPids state ⟨i, low⟩ = (state.proc q).pid := here
      rw [update_self, if_pos equal]
      rfl
    · rw [update_of_ne same, if_neg]
      intro equal
      exact same ((unique j equal).trans (unique ⟨i, low⟩ here).symm)
  · rw [comp_setProc_eq]
    · exact inv.trans
    · simp [Proc.transKey, busy, Proc.freed]
  · have kept : Roomy (rcsPids state) (Proc.place ∘ state.proc) := inv.roomy
    rw [comp_setProc_eq]
    · change Roomy (rcsPids { state with rcs := state.rcs.setInfo i _ }) _
      rw [rcsPids_setInfo state low]
      refine kept.empty fun j free => ?_
      by_cases same : j = ⟨i, low⟩
      · subst same
        exact update_self ..
      · rwa [update_of_ne same]
    · simp [Proc.place, busy, Stage.place, Proc.freed]

/-- Two entries that agree in everything the invariant reads. -/
structure Alike (p other : Proc) : Prop where
  pid : other.pid = p.pid
  busy : other.busy = p.busy
  unused : other.state = .unused ↔ p.state = .unused
  zombie : p.state = .zombie → other.state = .zombie

variable {other : Proc}

theorem Alike.active (alike : Alike p other) : other.active = p.active := by
  simp only [Proc.active, alike.pid, alike.busy, alike.unused]

theorem Alike.rcsKey (alike : Alike p other) : other.rcsKey = p.rcsKey := by
  simp only [Proc.rcsKey, alike.pid, alike.busy, alike.unused]

theorem Alike.transKey (alike : Alike p other) : other.transKey = p.transKey := by
  simp only [Proc.transKey, alike.pid, alike.busy, alike.unused]

theorem Alike.place (alike : Alike p other) : other.place = p.place := by
  simp only [Proc.place, alike.busy]

theorem Alike.sound (alike : Alike p other)
    (sound : Sound nextpid pids p) : Sound nextpid pids other where
  recent := by
    rw [alike.active]
    exact sound.recent
  found := by
    rw [alike.busy, alike.pid]
    exact sound.found
  locked := by
    intro worker stage busy
    rw [alike.busy] at busy
    rcases sound.locked worker stage busy with unused | ⟨zombie, frees⟩
    · exact .inl (alike.unused.mpr unused)
    · exact .inr ⟨alike.zombie zombie, frees⟩

/-- A step that changes nothing the invariant reads. -/
theorem Inv.alike (inv : Inv state) {proc : Fin nproc → Proc}
    (alike : ∀ r, Alike (state.proc r) (proc r)) : Inv { state with proc := proc } := by
  have same : ∀ f : Proc → Option Nat, (∀ r, f (proc r) = f (state.proc r)) →
      f ∘ proc = f ∘ state.proc := fun f each => funext each
  refine ⟨fun r => (alike r).sound (inv.sound r), inv.started, ?_, ?_, ?_, ?_⟩
  · rw [same _ fun r => (alike r).active]
    exact inv.proper
  · rw [same _ fun r => (alike r).rcsKey]
    exact inv.rcs
  · rw [same _ fun r => (alike r).transKey]
    exact inv.trans
  · rw [same _ fun r => (alike r).place]
    exact inv.roomy

theorem Inv.workStep (inv : Inv state) {p : Fin nproc} (fails : Bool)
    (busy : (state.proc q).busy = some (p, stage))
    (unclaimed : ∀ i ∈ stage.target, (state.rcs.rcsInfos i).pid = 0) :
    Inv (workStep state p q fails stage) := by
  have active : ∀ next, ({ state.proc q with busy := some (p, next) } : Proc).active =
      (state.proc q).active := fun next => (active_of_busy rfl).trans (active_of_busy busy).symm
  cases stage with
  | alloc =>
    have unused := (inv.sound q).unused busy rfl
    cases fails
    · exact inv.startScan busy
    · refine inv.drop ?_ ?_ ?_ ?_ rfl
      · simp [Proc.active, unused]
      · simp [Proc.rcsKey, busy, Stage.inRcs]
      · simp [Proc.transKey, busy]
      · simp [Proc.place, busy, Stage.place]
  | scan i => exact inv.scan busy
  | take i => exact inv.take busy (unclaimed i rfl)
  | copy =>
    have unused := (inv.sound q).unused busy rfl
    cases fails
    · exact inv.publish busy
    · refine inv.setProc ?_ (active _) ?_ ?_ ?_
      · exact (inv.sound q).work busy (fun j same => by cases same) fun _ => rfl
      · simp [Proc.rcsKey, busy, Stage.inRcs]
      · simp [Proc.transKey, busy, unused]
      · simp [Proc.place, busy, Stage.place]
  | freeTrans => exact inv.deleteTrans busy
  | freeRcs =>
    obtain ⟨i, found, after⟩ := inv.searchRcs busy
    unfold Processes.workStep
    rw [found]
    exact after
  | clearRcs i => exact inv.clearRcs busy

/-- Every step that takes no slot from another keeps the invariant. -/
theorem Inv.step (inv : Inv state) {label : Label} {next : State}
    (unclaimed : Unclaimed state label) (taken : step state label = some next) : Inv next := by
  cases label with
  | fork p q =>
    simp only [Processes.step] at taken
    split at taken
    · rename_i valid
      cases taken
      exact inv.fork valid.2.2.1 valid.2.2.2
    · cases taken
  | work q fails =>
    obtain ⟨⟨p, stage⟩, busy, rfl⟩ := Option.map_eq_some_iff.mp taken
    refine inv.workStep fails busy fun i target => unclaimed i ?_
    rw [busy]
    exact target
  | wait p q =>
    simp only [Processes.step] at taken
    split at taken
    · rename_i valid
      obtain ⟨-, -, zombie, free, -⟩ := valid
      cases taken
      refine inv.setProc ⟨fun pid held => ?_, fun worker i same => ?_, fun worker stage same => ?_⟩
        ?_ ?_ ?_ ?_
      · refine (inv.sound q).recent pid ?_
        rw [active_of_busy rfl] at held
        simpa [Proc.active, zombie] using held
      · cases same
      · cases same
        exact .inr ⟨zombie, rfl⟩
      · simp [Proc.active, zombie]
      · simp [Proc.rcsKey, free, zombie, Stage.inRcs]
      · simp [Proc.transKey, free, zombie]
      · simp [Proc.place, free, Stage.place]
    · cases taken
  | exit p =>
    simp only [Processes.step] at taken
    split at taken
    · rename_i valid
      obtain ⟨running, -, -⟩ := valid
      cases taken
      refine inv.alike fun r => ⟨rfl, rfl, ?_, ?_⟩
      · by_cases same : r = p
        · subst same
          simp [running]
        · simp [same]
      · intro zombie
        by_cases same : r = p <;> simp [same, zombie]
    · cases taken
  | switch p target =>
    simp only [Processes.step] at taken
    split at taken
    · rename_i valid
      obtain ⟨switched, -, -⟩ := valid
      cases taken
      refine inv.alike fun r => ?_
      by_cases same : r = p
      · subst same
        rw [update_self]
        refine ⟨rfl, rfl, ?_, fun zombie => ?_⟩
        · cases here : (state.proc r).state <;> cases target <;> simp_all [switches]
        · rw [zombie] at switched
          cases switched
      · rw [update_of_ne same]
        exact ⟨rfl, rfl, Iff.rfl, id⟩
    · cases taken

end Steps

/-! ## Runs -/

/-- The first process is the only one, and it is in both tables. -/
theorem Inv.boot : Inv boot := by
  have keys : ∀ f : Proc → Option Nat, f ⟨.runnable, 1, none, none⟩ = some 1 →
      f .freed = none → f ∘ Processes.boot.proc = update (fun _ => none) 0 (some 1) := by
    intro f first others
    funext q
    by_cases same : q = 0
    · subst same
      exact first
    · have entry : Processes.boot.proc q = .freed := if_neg same
      rw [update_of_ne same, Function.comp_apply, entry, others]
  have free : firstSlot (fun _ => (0 : Nat) == 0) nproc = some 0 :=
    firstSlot_eq_some.mpr ⟨by decide, rfl, fun _ low => absurd low (Nat.not_lt_zero _)⟩
  have freeTrans : firstSlot (fun _ => (0 : Nat) == 0) (nproc + 1) = some 0 :=
    firstSlot_eq_some.mpr ⟨by decide, rfl, fun _ low => absurd low (Nat.not_lt_zero _)⟩
  have rcs : rcsPids Processes.boot = update (fun _ => 0) 0 1 := by
    have table : Processes.boot.rcs.rcsInfos =
        update (fun _ => .unused) 0 { ProcRcsInfo.unused with pid := 1 } := by
      simp only [Processes.boot, allocRcs, initRcsInfos, RcsState.slotOf]
      rw [show (fun _ => ProcRcsInfo.unused.pid == 0) = fun _ : Nat => (0 : Nat) == 0 from rfl, free]
      rfl
    funext i
    rw [rcsPids, table]
    by_cases same : i = 0
    · subst same
      rfl
    · have different : i.val ≠ 0 := fun equal => same (Fin.ext equal)
      rw [update_of_ne different, update_of_ne same]
      rfl
  have next : Processes.boot.trans.nextpid = 2 := by
    simp only [Processes.boot, registerTransInfo]
    rw [freeTrans]
    rfl
  have trans : transPids Processes.boot = update (fun _ => 0) 0 1 := by
    have table : Processes.boot.trans.array =
        update (fun _ => ⟨0, 0, 0, 0⟩) 0 ⟨1, 0, 0, 0⟩ := by
      simp only [Processes.boot, registerTransInfo]
      rw [freeTrans]
      rfl
    funext i
    rw [transPids, table]
    by_cases same : i = 0
    · subst same
      rfl
    · have different : ((i : Nat) : Int) ≠ 0 := by
        intro equal
        exact same (Fin.ext (Int.ofNat.inj equal))
      rw [update_of_ne different, update_of_ne same]
  have proper : Proper (update (fun _ : Fin nproc => none) 0 (some 1)) :=
    Proper.nil.give Nat.one_ne_zero fun _ held => by cases held
  refine ⟨fun q => ?_, ?_, ?_, ?_, ?_, ?_⟩
  · have busy : (Processes.boot.proc q).busy = none := by
      by_cases same : q = 0 <;> simp [Processes.boot, same, Proc.freed]
    refine ⟨fun pid held => ?_, fun worker i same => ?_, fun worker stage same => ?_⟩
    · have here := congrFun (keys Proc.active rfl rfl) q
      rw [Function.comp_apply, held] at here
      by_cases first : q = 0
      · subst first
        rw [update_self] at here
        cases here
        rw [next]
        decide
      · rw [update_of_ne first] at here
        cases here
    · rw [busy] at same
      cases same
    · rw [busy] at same
      cases same
  · rw [next]
    decide
  · rw [keys Proc.active rfl rfl]
    exact proper
  · rw [keys Proc.rcsKey rfl rfl, rcs]
    exact Listed.nil.add Proper.nil rfl Nat.one_ne_zero (fun _ held => by cases held) rfl
  · rw [keys Proc.transKey rfl rfl, trans]
    exact Listed.nil.add Proper.nil rfl Nat.one_ne_zero (fun _ held => by cases held) rfl
  · intro k
    have idle : tally (fun q => reaches k ((Proc.place ∘ Processes.boot.proc) q)) = 0 := by
      refine tally_eq_zero.mpr fun q => ?_
      have none : (Processes.boot.proc q).place = none := by
        by_cases same : q = 0 <;> simp [Processes.boot, same, Proc.freed, Proc.place]
      rw [Function.comp_apply, none]
      rfl
    rw [idle]
    exact tally_nonneg _

theorem Inv.registered {state : State} (inv : Inv state) : Registered state := by
  have rcsKey : ∀ q, Settled (state.proc q) →
      (state.proc q).rcsKey = some (state.proc q).pid := by
    intro q settled
    simp [Proc.rcsKey, settled.2, settled.1]
  have transKey : ∀ q, Settled (state.proc q) →
      (state.proc q).transKey = some (state.proc q).pid := by
    intro q settled
    simp [Proc.transKey, settled.2, settled.1]
  have inUse : ∀ q pid, (state.proc q).active = some pid →
      (Settled (state.proc q) ∨ (state.proc q).busy ≠ none) ∧ (state.proc q).pid = pid := by
    intro q pid held
    unfold Proc.active at held
    split at held
    · cases held
    · rename_i used
      refine ⟨?_, Option.some.inj held⟩
      by_cases free : (state.proc q).busy = none
      · exact .inl ⟨fun unused => used ⟨unused, free⟩, free⟩
      · exact .inr free
  refine ⟨fun q settled => inv.trans.once q _ (transKey q settled),
    fun q settled => inv.rcs.once q _ (rcsKey q settled), ?_, ?_, ?_, ?_, ?_⟩
  · intro i filled
    obtain ⟨q, held⟩ := inv.trans.only i filled
    exact ⟨q, inUse q _ (Proc.transKey_active held)⟩
  · intro i filled
    obtain ⟨q, held⟩ := inv.rcs.only i filled
    exact ⟨q, inUse q _ (Proc.rcsKey_active held)⟩
  · intro q used lives
    refine ⟨used, ?_⟩
    cases busy : (state.proc q).busy with
    | none => rfl
    | some work =>
      rcases (inv.sound q).locked work.1 work.2 busy with unused | ⟨zombie, -⟩
      · exact absurd unused used
      · exact absurd zombie lives
  · intro q settled missing
    rcases searchBelow_cases state.trans.array (state.proc q).pid (nproc + 1) with
      ⟨-, absent⟩ | ⟨i, -, found, -⟩
    · obtain ⟨i, here, -⟩ := inv.trans.once q _ (transKey q settled)
      exact absent i i.isLt here
    · have equal : (i : Int) = -1 := found.symm.trans missing
      omega
  · intro q settled
    cases found : state.rcs.slotOf (state.proc q).pid with
    | some i => rfl
    | none =>
      obtain ⟨i, here, -⟩ := inv.rcs.once q _ (rcsKey q settled)
      have missing := firstSlot_eq_none.mp found i i.isLt
      have equal : (state.rcs.rcsInfos i).pid = (state.proc q).pid := here
      simp [equal] at missing

/-- In every run whose writes of `init_rcs_infos` all go to a slot that is still
unused, both tables list the processes. -/
theorem registered_of_unclaimed_run {events : List Label} {state : State}
    (runs : (system.guarded Unclaimed).Runs events state) : Registered state := by
  refine Inv.registered (runs.invariant Inv ?_ ?_)
  · rintro start rfl
    exact .boot
  · intro before label next inv transition
    exact inv.step transition.1 transition.2

/-- A fork into the slot `child` up to the write of `rcs_infos`, whose slot is found after
`tests` tests. -/
def forkInto (parent child : Fin nproc) (tests : Nat) : List Label :=
  .fork parent child :: .work child false :: List.replicate tests (.work child false)

/-- The first process runs and forks, and the two run. -/
def twoRunning : List Label :=
  [[.switch 0 .running], forkInto 0 1 2, [.work 1 false, .work 1 false, .switch 1 .running]].flatten

/-- Two processes fork at the same time, the fork of the second fails in `uvmcopy`, and
the child of the first exits and is waited for. -/
def forksApart : List Label :=
  [twoRunning, forkInto 0 2 3, [.work 2 false], forkInto 1 3 4, [.work 3 false, .work 3 true],
    List.replicate 3 (.work 3 false), [.work 2 false, .switch 2 .running, .exit 2, .wait 0 2],
    List.replicate 3 (.work 2 false)].flatten

theorem registered_of_forksApart : ∃ state,
    (system.guarded Unclaimed).Runs forksApart state ∧ Registered state := by
  have found : (LabelledSystem.exec (LabelledSystem.checked Unclaimed step) boot
      forksApart).isSome = true := by decide +kernel
  obtain ⟨state, result⟩ := Option.isSome_iff_exists.mp found
  have runs : (system.guarded Unclaimed).Runs forksApart state :=
    .of_checked_exec rfl result
  exact ⟨state, runs, registered_of_unclaimed_run runs⟩

/-- Two processes fork at the same time, and both see the third slot of `rcs_infos`
unused before either writes it. -/
def forksTogether : List Label :=
  [twoRunning, forkInto 0 2 3, forkInto 1 3 3, [.work 2 false, .work 3 false, .work 2 false],
    [.switch 2 .running]].flatten

/-- The child of the first fork runs and has no slot of `rcs_infos`: its next search
panics. -/
theorem slot_taken_twice : ∃ events state, system.Runs events state ∧
    (state.proc 2).state = .running ∧ state.rcs.slotOf (state.proc 2).pid = none ∧
    ¬ Registered state := by
  have found : (LabelledSystem.exec step boot forksTogether).any (fun state =>
      decide ((state.proc 2).state = .running ∧ (state.proc 2).busy = none) &&
        (state.rcs.slotOf (state.proc 2).pid).isNone) = true := by decide +kernel
  obtain ⟨state, result, lost⟩ := (Option.any_eq_true _ _).mp found
  have runs : system.Runs forksTogether state := .of_exec rfl result
  obtain ⟨settled, missing⟩ := Bool.and_eq_true_iff.mp lost
  obtain ⟨running, free⟩ := of_decide_eq_true settled
  have absent := Option.isNone_iff_eq_none.mp missing
  refine ⟨forksTogether, state, runs, running, absent, fun registered => ?_⟩
  have used : (state.proc 2).state ≠ .unused := by
    rw [running]
    decide
  have slot := registered.searchRcs 2 ⟨used, free⟩
  rw [absent] at slot
  cases slot

end Ev6.Processes
