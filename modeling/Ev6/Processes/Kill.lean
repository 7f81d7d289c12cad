import Ev6.Processes.Registration

/-!
# Killing a process by its pid

`kill` looks for the first slot with the given pid and does not ask whether the slot is
in use. A free slot has pid 0 after `freeproc`, and the pid of a process that was never
made when `kalloc` failed in `allocproc`; nothing on the way to the next process in the
slot clears `killed`. `killed_only_if_named` is about the runs in which the slot that
`kill` stops at is in use.
-/

namespace Ev6.Processes.Kill

open Option (any_eq_true ite_some_none_eq_some)
open Support Files

/-! ## The model -/

/-- A slot of `proc[]`. `making` is set while `fork` holds its lock. -/
structure Proc where
  state : ProcState
  parent : Option (Fin nproc)
  killed : Int
  xstate : Int
  pid : Int
  making : Bool
deriving DecidableEq

/-- What `freeproc` leaves of a slot. -/
def Proc.freed : Proc := ⟨.unused, none, 0, 0, 0, false⟩

/-- What `kill` does to the slot it stops at. -/
def Proc.struck (p : Proc) : Proc :=
  { p with killed := 1, state := if p.state = .sleeping then .runnable else p.state }

/-- The process table and `nextpid`. -/
structure State where
  proc : Fin nproc → Proc
  nextpid : Int

namespace State

/-- Replace one slot of the process table. -/
def setProc (state : State) (q : Fin nproc) (proc : Proc) : State :=
  { state with proc := Function.update state.proc q proc }

/-- The slot has a process in it. -/
def InUse (state : State) (q : Fin nproc) : Prop := (state.proc q).state ≠ .unused

instance (state : State) (q : Fin nproc) : Decidable (state.InUse q) := by
  unfold InUse
  infer_instance

/-- The first slot with a pid. -/
def slotOf (state : State) (pid : Int) : Option (Fin nproc) :=
  (List.finRange nproc).find? fun i => (state.proc i).pid = pid

/-- `kill` gets the lock of every slot it looks at. -/
def Passable (state : State) (pid : Int) : Prop :=
  ∀ q, (∀ i ∈ state.slotOf pid, q ≤ i) → (state.proc q).making = false

instance (state : State) (pid : Int) : Decidable (state.Passable pid) := by
  unfold Passable
  infer_instance

end State

/-- `kill`. -/
def kill (state : State) (pid : Int) : State × Int :=
  match state.slotOf pid with
  | some i => (state.setProc i (state.proc i).struck, 0)
  | none => (state, -1)

/-- `nextpid + 1`, as an `int`. -/
def bump (nextpid : Int) : Int := nextpid.succ.bmod 4294967296

/-- A step of the system. -/
inductive Label where
  /-- `allocproc` in the `fork` of `p` finds the unused slot `q` and calls `allocpid`. -/
  | alloc (p q : Fin nproc)
  /-- `allocproc` finds no page and releases the slot. -/
  | noPage (q : Fin nproc)
  /-- `fork` fails in `uvmcopy` and frees the slot. -/
  | undo (q : Fin nproc)
  /-- `fork` makes the child runnable. -/
  | ready (p q : Fin nproc)
  /-- `exit`, with `reparent`. -/
  | exit (p : Fin nproc) (status : Int)
  /-- `wait` of `p` frees the zombie `q`. -/
  | wait (p q : Fin nproc)
  /-- The scheduler, `yield`, `sleep` and `wakeup`. -/
  | switch (p : Fin nproc) (next : ProcState)
  | kill (pid : Int)
deriving DecidableEq

/-- One step, if it can be taken. -/
def step (state : State) : Label → Option State
  | .alloc p q =>
    if (state.proc p).state = .running ∧ (state.proc q).state = .unused ∧
        (state.proc q).making = false then
      some ({ state with nextpid := bump state.nextpid }.setProc q
        { state.proc q with pid := state.nextpid, making := true })
    else none
  | .noPage q =>
    if (state.proc q).making then some (state.setProc q { state.proc q with making := false })
    else none
  | .undo q => if (state.proc q).making then some (state.setProc q .freed) else none
  | .ready p q =>
    if (state.proc q).making then
      some (state.setProc q
        { state.proc q with state := .runnable, parent := some p, making := false })
    else none
  | .exit p status =>
    if (state.proc p).state = .running ∧ p ≠ 0 then
      some { state with
        proc := fun q =>
          { state.proc q with
            state := if q = p then .zombie else (state.proc q).state
            xstate := if q = p then status else (state.proc q).xstate
            parent := if (state.proc q).parent = some p then some 0 else (state.proc q).parent } }
    else none
  | .wait p q =>
    if (state.proc p).state = .running ∧ (state.proc q).state = .zombie ∧
        (state.proc q).parent = some p then
      some (state.setProc q .freed)
    else none
  | .switch p next =>
    if switches (state.proc p).state next then
      some (state.setProc p { state.proc p with state := next })
    else none
  | .kill pid => if state.Passable pid then some (kill state pid).1 else none

/-- The state after `userinit`. -/
def boot : State where
  proc q := if q = 0 then ⟨.runnable, none, 0, 0, 1, false⟩ else .freed
  nextpid := 2

/-! ## What is asked for -/

/-- The table, and for each slot whether `kill` has been called with the pid of the
process that is in it. -/
structure Watched where
  table : State
  named : Fin nproc → Bool

/-- The call names the process in the slot. -/
def Names (state : State) (q : Fin nproc) : Label → Prop
  | .kill pid => state.InUse q ∧ (state.proc q).pid = pid
  | _ => False

instance (state : State) (q : Fin nproc) (label : Label) : Decidable (Names state q label) := by
  cases label <;> unfold Names <;> infer_instance

/-- A step, with the record of the calls. A slot that is freed loses its record. -/
def watchedStep (run : Watched) (label : Label) : Option Watched :=
  (step run.table label).map fun next =>
    { table := next
      named := fun q => next.InUse q && (run.named q || Names run.table q label) }

/-- Every order of steps after `userinit`. -/
def system : LabelledSystem Watched Label :=
  .ofFunction (· = ⟨boot, fun _ => false⟩) watchedStep

/-- The slot that `kill` stops at is in use. -/
def Aimed (run : Watched) : Label → Prop
  | .kill pid => ∀ q ∈ run.table.slotOf pid, run.table.InUse q
  | _ => True

instance (run : Watched) (label : Label) : Decidable (Aimed run label) := by
  cases label <;> unfold Aimed <;> infer_instance

/-! ## The first slot with a pid -/

variable {pid : Int}

theorem State.pid_of_slotOf {state : State} {q : Fin nproc}
    (found : state.slotOf pid = some q) : (state.proc q).pid = pid := by
  simpa using List.find?_some found

theorem State.slotOf_eq_none {state : State} :
    state.slotOf pid = none ↔ ∀ q, (state.proc q).pid ≠ pid := by
  simp [slotOf, List.find?_eq_none]

variable {run : Watched}

/-- An aimed `kill` returns 0 exactly when the pid is in use. -/
theorem kill_eq_zero (aimed : Aimed run (.kill pid)) :
    (kill run.table pid).2 = 0 ↔ ∃ q, run.table.InUse q ∧ (run.table.proc q).pid = pid := by
  unfold kill
  cases found : run.table.slotOf pid with
  | some i =>
    have named := State.pid_of_slotOf found
    have used := aimed i found
    simpa using ⟨i, used, named⟩
  | none =>
    have absent := State.slotOf_eq_none.mp found
    constructor
    · intro zero
      cases zero
    · rintro ⟨q, -, same⟩
      exact absurd same (absent q)

/-! ## The invariant -/

/-- What holds of a slot: a process in it that is killed has been named, and a free slot is
not killed. -/
def Excused (p : Proc) (named : Bool) : Prop :=
  p.killed ≠ 0 → p.state ≠ .unused ∧ named = true

/-- Every killed slot has a process in it that has been named. -/
def Inv (run : Watched) : Prop := ∀ q, Excused (run.table.proc q) (run.named q)

theorem boot_killed (q : Fin nproc) : (boot.proc q).killed = 0 := by
  by_cases first : q = 0
  · simp [boot, first]
  · simp [boot, first, Proc.freed]

variable {label : Label}

/-- The slots whose `killed` a step leaves alone or clears stay excused, as long as it
takes no process away from a slot that it does not clear. -/
theorem Inv.keep {next : State} (inv : Inv run) {q : Fin nproc}
    (kept : (next.proc q).killed = (run.table.proc q).killed ∨ (next.proc q).killed = 0)
    (stays : (next.proc q).killed ≠ 0 → run.table.InUse q → next.InUse q) :
    Excused (next.proc q) (next.InUse q && (run.named q || Names run.table q label)) := by
  intro struck
  rcases kept with same | cleared
  · obtain ⟨used, named⟩ := inv q (same ▸ struck)
    have still := stays struck used
    exact ⟨still, by simp [still, named]⟩
  · exact absurd cleared struck

theorem Inv.replace {p : Fin nproc} {new : Proc} {base : State}
    (inv : Inv run) (same : base.proc = run.table.proc)
    (kept : new.killed = (run.table.proc p).killed ∨ new.killed = 0)
    (stays : new.killed ≠ 0 → run.table.InUse p → new.state ≠ .unused) : Inv ⟨base.setProc p new,
      fun q => (base.setProc p new).InUse q && (run.named q || Names run.table q label)⟩ := by
  intro q
  apply inv.keep
  · by_cases here : q = p
    · subst here
      simpa [State.setProc] using kept
    · simp [State.setProc, here, same]
  · by_cases here : q = p
    · subst here
      simpa [State.setProc, State.InUse] using stays
    · simp [State.setProc, State.InUse, here, same]

theorem Proc.struck_state (p : Proc) : p.struck.state = .unused ↔ p.state = .unused := by
  unfold struck
  by_cases asleep : p.state = .sleeping
  · simp [asleep]
  · simp [asleep]

theorem Inv.kill (inv : Inv run) (aimed : Aimed run (.kill pid)) : Inv ⟨(kill run.table pid).1,
      fun q => (Kill.kill run.table pid).1.InUse q &&
        (run.named q || Names run.table q (.kill pid))⟩ := by
  intro q
  unfold Kill.kill
  cases found : run.table.slotOf pid with
  | none => exact inv.keep (.inl rfl) fun _ used => used
  | some i =>
    by_cases here : q = i
    · subst here
      have used := aimed q found
      have still : (run.table.proc q).struck.state ≠ .unused :=
        fun unused => used ((Proc.struck_state _).mp unused)
      have names : Names run.table q (.kill pid) := ⟨used, State.pid_of_slotOf found⟩
      intro _
      simp [State.setProc, State.InUse, still, names]
    · apply inv.keep
      · simp [State.setProc, here]
      · simp [State.setProc, State.InUse, here]

theorem watchedStep_keeps {next : Watched} (inv : Inv run)
    (aimed : Aimed run label) (taken : watchedStep run label = some next) : Inv next := by
  obtain ⟨table, stepped, rfl⟩ := Option.map_eq_some_iff.mp taken
  cases label with
  | alloc p q =>
    obtain ⟨_, rfl⟩ := ite_some_none_eq_some.mp stepped
    exact inv.replace rfl (.inl rfl) fun _ used => used
  | noPage q =>
    obtain ⟨_, rfl⟩ := ite_some_none_eq_some.mp stepped
    exact inv.replace rfl (.inl rfl) fun _ used => used
  | undo q =>
    obtain ⟨_, rfl⟩ := ite_some_none_eq_some.mp stepped
    exact inv.replace rfl (.inr rfl) fun struck => absurd rfl struck
  | ready p q =>
    obtain ⟨_, rfl⟩ := ite_some_none_eq_some.mp stepped
    exact inv.replace rfl (.inl rfl) fun _ _ => by simp
  | exit p status =>
    obtain ⟨_, rfl⟩ := ite_some_none_eq_some.mp stepped
    intro q
    apply inv.keep
    · exact .inl rfl
    · intro _ used
      by_cases here : q = p
      · simp [State.InUse, here]
      · simpa [State.InUse, here] using used
  | wait p q =>
    obtain ⟨_, rfl⟩ := ite_some_none_eq_some.mp stepped
    exact inv.replace rfl (.inr rfl) fun struck => absurd rfl struck
  | switch p new =>
    obtain ⟨allowed, rfl⟩ := ite_some_none_eq_some.mp stepped
    have used : new ≠ .unused := by
      rintro rfl
      cases old : (run.table.proc p).state <;> simp [old, switches] at allowed
    exact inv.replace rfl (.inl rfl) fun _ _ => used
  | kill pid =>
    obtain ⟨_, rfl⟩ := ite_some_none_eq_some.mp stepped
    exact inv.kill aimed

theorem inv_of_runs {labels : List Label}
    (runs : (system.guarded Aimed).Runs labels run) : Inv run := by
  apply runs.invariant Inv
  · rintro _ rfl q struck
    exact absurd (boot_killed q) struck
  · rintro run label next inv ⟨aimed, taken⟩
    exact watchedStep_keeps inv aimed taken

/-! ## The result -/

/-- In a run whose calls of `kill` stop at slots in use, a process is killed only if it has
been named, and the next such call returns 0 exactly when a process has the pid. -/
theorem killed_only_if_named {labels : List Label} {run : Watched}
    (runs : (system.guarded Aimed).Runs labels run) :
    (∀ q, run.table.InUse q → (run.table.proc q).killed ≠ 0 → run.named q = true) ∧
      ∀ pid, Aimed run (.kill pid) →
        ((kill run.table pid).2 = 0 ↔
          ∃ q, run.table.InUse q ∧ (run.table.proc q).pid = pid) := by
  constructor
  · intro q _ struck
    exact (inv_of_runs runs q struck).2
  · intro pid aimed
    exact kill_eq_zero aimed

/-- A child is made, named, and waited for, and its slot is used again. -/
def recycled : List Label :=
  [.switch 0 .running, .alloc 0 1, .ready 0 1, .kill 2, .kill 7, .switch 1 .running,
    .exit 1 (-1), .wait 0 1, .alloc 0 1, .undo 1, .alloc 0 1, .ready 0 1, .kill 4]

theorem killed_only_if_named_recycled :
    ∃ run, (system.guarded Aimed).Runs recycled run ∧ (run.table.proc 1).killed = 1 ∧
      (run.table.proc 1).pid = 4 ∧ run.named 1 = true := by
  have found : (LabelledSystem.exec (LabelledSystem.checked Aimed watchedStep)
      ⟨boot, fun _ => false⟩ recycled).any (fun run => (run.table.proc 1).killed = 1 ∧
        (run.table.proc 1).pid = 4) = true := by
    decide +kernel
  obtain ⟨run, result, facts⟩ := (any_eq_true _ _).mp found
  obtain ⟨struck, fourth⟩ := of_decide_eq_true facts
  have runs : (system.guarded Aimed).Runs recycled run :=
    .of_checked_exec rfl result
  have killed : (run.table.proc 1).killed ≠ 0 := by simp [struck]
  have used := (inv_of_runs runs 1 killed).1
  exact ⟨run, runs, struck, fourth, (killed_only_if_named runs).1 1 used killed⟩

/-- `kill(0)` stops at the first free slot and returns 0 though no process has pid 0, and the
next process in the slot is killed without having been named. -/
theorem later_process_dies :
    ∃ labels run later, system.Runs labels run ∧
      (kill run.table 0).2 = 0 ∧ (∀ q, run.table.InUse q → (run.table.proc q).pid ≠ 0) ∧
      system.Runs (labels ++ [.kill 0, .alloc 0 1, .ready 0 1]) later ∧
      later.table.InUse 1 ∧ (later.table.proc 1).killed ≠ 0 ∧ later.named 1 = false := by
  have found : (LabelledSystem.exec watchedStep ⟨boot, fun _ => false⟩
      [.switch 0 .running]).any (fun run => (kill run.table 0).2 = 0 ∧
        ∀ q, run.table.InUse q → (run.table.proc q).pid ≠ 0) = true := by
    decide +kernel
  have after : (LabelledSystem.exec watchedStep ⟨boot, fun _ => false⟩
      ([.switch 0 .running] ++ [.kill 0, .alloc 0 1, .ready 0 1])).any (fun run =>
        run.table.InUse 1 ∧ (run.table.proc 1).killed ≠ 0 ∧ run.named 1 = false) = true := by
    decide +kernel
  obtain ⟨run, result, facts⟩ := (any_eq_true _ _).mp found
  obtain ⟨later, resultLater, factsLater⟩ := (any_eq_true _ _).mp after
  obtain ⟨zero, absent⟩ := of_decide_eq_true facts
  obtain ⟨used, struck, unnamed⟩ := of_decide_eq_true factsLater
  exact ⟨_, run, later, .of_exec rfl result, zero, absent, .of_exec rfl resultLater, used, struck,
    unnamed⟩

end Ev6.Processes.Kill
