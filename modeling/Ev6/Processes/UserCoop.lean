import Ev6.Processes.Registration

/-!
# User cooperation

`user_coop.c` keeps one status bit for each slot of `proc[]`, outside `struct proc`. A
process is known by its pid, and neither `allocproc` nor `freeproc` touches the bits:
a new process finds the bit of the last one in its slot. The word is loaded, changed and
stored without a lock, so that a call may undo what another one has stored in between.
`status_of_clear_run` is about the runs in which `allocproc` takes slots whose bit is clear and
no call undoes another one.
-/

namespace Ev6.Processes.UserCoop

open Option (any_eq_true ite_some_none_eq_some)
open Support Files

/-! ## The model -/

/-- A slot of `proc[]`. `making` is set while `fork` holds its lock. -/
structure Proc where
  state : ProcState
  pid : Nat
  parent : Option (Fin nproc)
  making : Bool
deriving DecidableEq

/-- A call of `sys_enable_user_coop` or `sys_disable_user_coop` that has found the slot of its
process and loaded `user_coop_status`. -/
structure Update where
  slot : Fin nproc
  word : BitVec 64
  enable : Bool
deriving DecidableEq

/-- The process table, `nextpid`, `user_coop_status`, and the calls that are about to store
it. -/
structure State where
  proc : Fin nproc → Proc
  nextpid : Nat
  userCoopStatus : BitVec 64
  updates : Fin nproc → Option Update

namespace State

/-- Replace one slot of the process table. -/
def setProc (state : State) (q : Fin nproc) (proc : Proc) : State :=
  { state with proc := Function.update state.proc q proc }

/-- The first slot with a pid. -/
def slotOf (state : State) (pid : Nat) : Option (Fin nproc) :=
  (List.finRange nproc).find? fun i => (state.proc i).pid = pid

/-- A slot is used by a process, or by a `fork` that makes one. -/
def Used (state : State) (q : Fin nproc) : Prop :=
  (state.proc q).state ≠ .unused ∨ (state.proc q).making = true

end State

/-- `1L << i`. -/
def flag (i : Fin nproc) : BitVec 64 := 1#64 <<< i.val

/-- `sys_enable_user_coop` of the process `p`, up to its store. `none` is the result -1. -/
def sysEnableUserCoop (state : State) (p : Fin nproc) : Option Update :=
  (state.slotOf (state.proc p).pid).map fun i => ⟨i, state.userCoopStatus, true⟩

/-- `sys_disable_user_coop` of the process `p`, up to its store. -/
def sysDisableUserCoop (state : State) (p : Fin nproc) : Option Update :=
  (state.slotOf (state.proc p).pid).map fun i => ⟨i, state.userCoopStatus, false⟩

/-- The word that a call stores. -/
def Update.value (update : Update) : BitVec 64 :=
  if update.enable then update.word ||| flag update.slot else update.word &&& ~~~flag update.slot

/-- `is_enable_user_coop`. -/
def isEnableUserCoop (state : State) (pid : Nat) : Int :=
  match state.slotOf pid with
  | some i => ((state.userCoopStatus &&& flag i) >>> i.val).toNat
  | none => -1

/-- A step of the system. -/
inductive Label where
  /-- `allocproc` in the `fork` of `p` finds the unused slot `q` and calls `allocpid`. -/
  | alloc (p q : Fin nproc)
  /-- `allocproc` finds no page and releases the slot. -/
  | noPage (q : Fin nproc)
  /-- `fork` fails in `uvmcopy` and frees the slot. -/
  | undo (q : Fin nproc)
  /-- `fork` makes the child runnable. -/
  | ready (p q : Fin nproc)
  /-- `exit`, with `reparent`. -/
  | exit (p : Fin nproc)
  /-- `wait` of `p` frees the zombie `q`. -/
  | wait (p q : Fin nproc)
  /-- The scheduler, `yield`, `sleep` and `wakeup`. -/
  | switch (p : Fin nproc) (next : ProcState)
  /-- `sys_enable_user_coop` or `sys_disable_user_coop` of `p`, up to its store. -/
  | load (p : Fin nproc) (enable : Bool)
  /-- The store of such a call, of the process `pid` in the slot `p`. -/
  | store (p : Fin nproc) (pid : Nat) (enable : Bool)

/-- What `freeproc` leaves of a slot. -/
def Proc.freed : Proc := ⟨.unused, 0, none, false⟩

/-- One step, if it can be taken. A process in one of the two calls makes no other one. -/
def step (state : State) : Label → Option State
  | .alloc p q =>
    if (state.proc p).state = .running ∧ state.updates p = none ∧
        (state.proc q).state = .unused ∧ (state.proc q).making = false then
      some ({ state with nextpid := state.nextpid + 1 }.setProc q
        { state.proc q with pid := state.nextpid, making := true })
    else none
  | .noPage q =>
    if (state.proc q).making then some (state.setProc q { state.proc q with making := false })
    else none
  | .undo q => if (state.proc q).making then some (state.setProc q .freed) else none
  | .ready p q =>
    if (state.proc q).making then
      some (state.setProc q ⟨.runnable, (state.proc q).pid, some p, false⟩)
    else none
  | .exit p =>
    if (state.proc p).state = .running ∧ state.updates p = none ∧ p ≠ 0 then
      some { state with
        proc := fun q =>
          { state.proc q with
            state := if q = p then .zombie else (state.proc q).state
            parent := if (state.proc q).parent = some p then some 0 else (state.proc q).parent } }
    else none
  | .wait p q =>
    if (state.proc p).state = .running ∧ state.updates p = none ∧
        (state.proc q).state = .zombie ∧ (state.proc q).parent = some p then
      some (state.setProc q .freed)
    else none
  | .switch p next =>
    if switches (state.proc p).state next then
      some (state.setProc p { state.proc p with state := next })
    else none
  | .load p enable =>
    if (state.proc p).state = .running ∧ state.updates p = none then
      some { state with
        updates := Function.update state.updates p
          (if enable then sysEnableUserCoop state p else sysDisableUserCoop state p) }
    else none
  | .store p pid enable =>
    match state.updates p with
    | some update =>
      if (state.proc p).state = .running ∧ (state.proc p).pid = pid ∧
          update.enable = enable then
        some { state with
          userCoopStatus := update.value
          updates := Function.update state.updates p none }
      else none
    | none => none

/-- The state after `userinit`. -/
def boot : State where
  proc q := if q = 0 then ⟨.runnable, 1, none, false⟩ else .freed
  nextpid := 2
  userCoopStatus := 0#64
  updates _ := none

/-- Every order of steps after `userinit`. -/
def system : LabelledSystem State Label := .ofFunction (· = boot) step

/-! ## What is asked for -/

/-- What a step says about the cooperation of a process. -/
def askedAfter (pid : Nat) (asked : Bool) : Label → Bool
  | .store _ caller enable => if caller = pid then enable else asked
  | _ => asked

/-- The process has called `sys_enable_user_coop`, and not `sys_disable_user_coop` since. -/
def asked (events : List Label) (pid : Nat) : Bool := events.foldl (askedAfter pid) false

@[simp] theorem asked_snoc (events : List Label) (label : Label) (pid : Nat) :
    asked (events ++ [label]) pid = askedAfter pid (asked events pid) label := by
  simp [asked]

/-- The word that a call has loaded has the bits that `user_coop_status` still has for the other
slots in use. -/
def Update.Current (update : Update) (state : State) : Prop :=
  ∀ q, state.Used q → q ≠ update.slot → update.word.getLsbD q = state.userCoopStatus.getLsbD q

/-- `allocproc` takes a slot whose status bit is clear, and a store undoes none of another
call. -/
def Clear (state : State) : Label → Prop
  | .alloc _ q => state.userCoopStatus.getLsbD q = false
  | .store p _ _ => ∀ update ∈ state.updates p, update.Current state
  | _ => True

instance (state : State) (q : Fin nproc) : Decidable (state.Used q) := by
  unfold State.Used
  infer_instance

instance (update : Update) (state : State) : Decidable (update.Current state) :=
  Nat.decidableForallFin _

instance (state : State) (label : Label) : Decidable (Clear state label) := by
  cases label <;> unfold Clear <;> infer_instance

/-! ## The status bits -/

theorem getLsbD_flag (i j : Fin nproc) : (flag i).getLsbD j = decide (i = j) := by
  have low : j.val < 64 := j.isLt
  simp only [flag, BitVec.getLsbD_shiftLeft, BitVec.getLsbD_one, low, Fin.ext_iff]
  by_cases below : j.val < i.val
  · simp [below]
    omega
  · simp [below]
    omega

/-- A call sets or clears the bit of its slot in the word it has loaded. -/
theorem Update.getLsbD_value (update : Update) (j : Fin nproc) :
    update.value.getLsbD j = if update.slot = j then update.enable else update.word.getLsbD j := by
  have low : j.val < 64 := j.isLt
  unfold value
  cases update.enable with
  | true =>
    rw [if_pos rfl, BitVec.getLsbD_or, getLsbD_flag]
    by_cases same : update.slot = j <;> simp [same]
  | false =>
    rw [if_neg Bool.false_ne_true, BitVec.getLsbD_and, BitVec.getLsbD_not, getLsbD_flag]
    by_cases same : update.slot = j <;> simp [same, low]

/-- `is_enable_user_coop` reads the bit of the slot. -/
theorem toNat_status (status : BitVec 64) (i : Fin nproc) :
    ((status &&& flag i) >>> i.val).toNat = if status.getLsbD i then 1 else 0 := by
  have bits : (status &&& flag i) >>> i.val = if status.getLsbD i then 1#64 else 0#64 := by
    apply BitVec.eq_of_getLsbD_eq
    intro k low
    rw [BitVec.getLsbD_ushiftRight, BitVec.getLsbD_and]
    by_cases first : k = 0
    · subst first
      rw [Nat.add_zero, getLsbD_flag]
      cases status.getLsbD i <;> simp
    · have above : (flag i).getLsbD (i.val + k) = false := by
        simp [flag, BitVec.getLsbD_shiftLeft, BitVec.getLsbD_one, first]
      rw [above, Bool.and_false]
      cases status.getLsbD i <;> simp [BitVec.getLsbD_one, first]
  rw [bits]
  split <;> rfl

/-! ## The invariant -/

/-- Pids are used once, and the bits of the used slots say what their processes asked
for. A slot that `allocproc` has given up keeps its pid. -/
structure Inv (events : List Label) (state : State) : Prop where
  recent : ∀ q, (state.proc q).pid < state.nextpid
  unique : ∀ q r, (state.proc q).pid = (state.proc r).pid → (state.proc q).pid ≠ 0 → q = r
  used : ∀ q, state.Used q → (state.proc q).pid ≠ 0
  bits : ∀ q, state.Used q → state.userCoopStatus.getLsbD q = asked events (state.proc q).pid
  later : ∀ pid, state.nextpid ≤ pid → asked events pid = false
  slots : ∀ p, ∀ update ∈ state.updates p, update.slot = p

section Invariant

variable {events : List Label} {state : State}

theorem Inv.slotOf (inv : Inv events state) {q : Fin nproc} (used : state.Used q) :
    state.slotOf (state.proc q).pid = some q := by
  obtain ⟨found, holds⟩ : ∃ i, state.slotOf (state.proc q).pid = some i :=
    Option.isSome_iff_exists.mp (List.find?_isSome.mpr ⟨q, List.mem_finRange q, by simp⟩)
  have same : (state.proc found).pid = (state.proc q).pid := by
    simpa using List.find?_some holds
  rw [holds, inv.unique found q same (same ▸ inv.used q used)]

/-- A slot is replaced: its new pid is its old one, or 0, or new, and its bit says what
the process asked for. -/
theorem Inv.setProc (inv : Inv events state) {label : Label} {q : Fin nproc} {new : Proc}
    {nextpid : Nat} (silent : ∀ pid, asked (events ++ [label]) pid = asked events pid)
    (grown : state.nextpid ≤ nextpid) (pid : new.pid = 0 ∨ new.pid = (state.proc q).pid ∨
      new.pid = state.nextpid ∧ state.nextpid < nextpid)
    (used : new.state ≠ .unused ∨ new.making = true → new.pid ≠ 0 ∧
      state.userCoopStatus.getLsbD q = asked events new.pid) :
    Inv (events ++ [label]) ({ state with nextpid := nextpid }.setProc q new) := by
  have here : ({ state with nextpid := nextpid }.setProc q new).proc q = new :=
    Function.update_self ..
  have there : ∀ r, r ≠ q →
      ({ state with nextpid := nextpid }.setProc q new).proc r = state.proc r :=
    fun r different => Function.update_of_ne different ..
  have apart : ∀ r, r ≠ q → (state.proc r).pid = new.pid → new.pid = 0 := by
    intro r different same
    rcases pid with zero | old | ⟨fresh, -⟩
    · exact zero
    · by_contra nonzero
      exact different (inv.unique r q (same.trans old) (same ▸ nonzero))
    · have low := inv.recent r
      omega
  refine ⟨fun r => ?_, fun r t same nonzero => ?_, fun r use => ?_, fun r use => ?_, ?_,
    inv.slots⟩
  · by_cases equal : r = q
    · subst equal
      rw [here]
      change new.pid < nextpid
      have low := inv.recent r
      omega
    · rw [there r equal]
      exact Nat.lt_of_lt_of_le (inv.recent r) grown
  · by_cases first : r = q <;> by_cases second : t = q
    · rw [first, second]
    · subst first
      rw [here] at same nonzero
      rw [there t second] at same
      exact absurd (apart t second same.symm) nonzero
    · subst second
      rw [here] at same
      rw [there r first] at same nonzero
      exact absurd (same.trans (apart r first same)) nonzero
    · rw [there r first] at same nonzero
      rw [there t second] at same
      exact inv.unique r t same nonzero
  · by_cases equal : r = q
    · subst equal
      rw [State.Used, here] at use
      rw [here]
      exact (used use).1
    · rw [State.Used, there r equal] at use
      rw [there r equal]
      exact inv.used r use
  · rw [silent]
    by_cases equal : r = q
    · subst equal
      rw [State.Used, here] at use
      rw [here]
      exact (used use).2
    · rw [State.Used, there r equal] at use
      rw [there r equal]
      exact inv.bits r use
  · intro pid high
    rw [silent]
    exact inv.later pid (Nat.le_trans grown high)

/-- Steps that use no other slot and keep every pid. -/
theorem Inv.congr (inv : Inv events state) {label : Label} {next : State}
    (silent : ∀ pid, asked (events ++ [label]) pid = asked events pid)
    (pids : ∀ q, (next.proc q).pid = (state.proc q).pid) (nextpid : next.nextpid = state.nextpid)
    (status : next.userCoopStatus = state.userCoopStatus) (used : ∀ q, next.Used q → state.Used q)
    (slots : ∀ p, ∀ update ∈ next.updates p, update.slot = p) : Inv (events ++ [label]) next where
  recent q := by
    rw [pids, nextpid]
    exact inv.recent q
  unique q r same := by
    rw [pids, pids] at same
    rw [pids]
    exact inv.unique q r same
  used q use := by
    rw [pids]
    exact inv.used q (used q use)
  bits q use := by
    rw [pids, silent, status]
    exact inv.bits q (used q use)
  later pid high := by
    rw [silent]
    exact inv.later pid (nextpid ▸ high)
  slots := slots

theorem Inv.setStatus (inv : Inv events state) {label : Label} {p : Fin nproc}
    (used : state.Used p) {value : Bool} {status : BitVec 64}
    (written : ∀ q : Fin nproc, state.Used q →
      status.getLsbD q = if p = q then value else state.userCoopStatus.getLsbD q)
    (said : ∀ pid, asked (events ++ [label]) pid =
      if (state.proc p).pid = pid then value else asked events pid) :
    Inv (events ++ [label])
      { state with userCoopStatus := status, updates := Function.update state.updates p none } where
  recent := inv.recent
  unique := inv.unique
  used := inv.used
  bits := by
    intro q use
    change status.getLsbD q = asked (events ++ [label]) (state.proc q).pid
    rw [written q use, said]
    by_cases same : p = q
    · rw [if_pos same, if_pos (congrArg (fun i => (state.proc i).pid) same)]
    · have different : (state.proc p).pid ≠ (state.proc q).pid := fun equal =>
        same (inv.unique p q equal (inv.used p used))
      rw [if_neg same, if_neg different]
      exact inv.bits q use
  later := by
    intro pid high
    rw [said]
    have low := inv.recent p
    have different : (state.proc p).pid ≠ pid := by
      change state.nextpid ≤ pid at high
      omega
    rw [if_neg different]
    exact inv.later pid high
  slots q update holds := by
    change update ∈ Function.update state.updates p none q at holds
    by_cases same : q = p
    · subst same
      rw [Function.update_self] at holds
      cases holds
    · rw [Function.update_of_ne same] at holds
      exact inv.slots q update holds

theorem Inv.load (inv : Inv events state) {p : Fin nproc} (used : state.Used p) (enable : Bool) :
    (if enable then sysEnableUserCoop state p else sysDisableUserCoop state p) =
      some ⟨p, state.userCoopStatus, enable⟩ := by
  rw [sysEnableUserCoop, sysDisableUserCoop, inv.slotOf used]
  cases enable <;> rfl

theorem inv_boot : Inv [] boot where
  recent := by
    intro q
    by_cases first : q = 0 <;> simp [boot, Proc.freed, first]
  unique := by
    intro q r same nonzero
    by_cases first : q = 0 <;> by_cases second : r = 0 <;>
      simp_all [boot, Proc.freed]
  used := by
    intro q use
    by_cases first : q = 0 <;> simp_all [State.Used, boot, Proc.freed]
  bits := by
    intro q _
    simp [boot, asked]
  later _ _ := rfl
  slots _ _ holds := by cases holds

/-- Every step that meets the condition keeps the invariant. -/
theorem Inv.step (inv : Inv events state) {label : Label} {next : State}
    (clear : Clear state label) (taken : UserCoop.step state label = some next) :
    Inv (events ++ [label]) next := by
  cases label with
  | alloc p q =>
    obtain ⟨-, rfl⟩ := ite_some_none_eq_some.mp taken
    have started : 0 < state.nextpid := Nat.lt_of_le_of_lt (Nat.zero_le _) (inv.recent q)
    refine inv.setProc (fun _ => by simp [askedAfter]) (Nat.le_succ _)
      (.inr (.inr ⟨rfl, Nat.lt_succ_self _⟩)) fun _ => ⟨Nat.pos_iff_ne_zero.mp started, ?_⟩
    rw [inv.later _ (Nat.le_refl _)]
    exact clear
  | noPage q =>
    obtain ⟨making, rfl⟩ := ite_some_none_eq_some.mp taken
    refine inv.setProc (fun _ => by simp [askedAfter]) (Nat.le_refl _) (.inr (.inl rfl)) ?_
    rintro (state | making)
    · exact ⟨inv.used q (.inl state), inv.bits q (.inl state)⟩
    · cases making
  | undo q =>
    obtain ⟨-, rfl⟩ := ite_some_none_eq_some.mp taken
    exact inv.setProc (fun _ => by simp [askedAfter]) (Nat.le_refl _) (.inl rfl)
      (by simp [Proc.freed])
  | ready p q =>
    obtain ⟨making, rfl⟩ := ite_some_none_eq_some.mp taken
    exact inv.setProc (fun _ => by simp [askedAfter]) (Nat.le_refl _) (.inr (.inl rfl))
      fun _ => ⟨inv.used q (.inr making), inv.bits q (.inr making)⟩
  | exit p =>
    obtain ⟨⟨running, -⟩, rfl⟩ := ite_some_none_eq_some.mp taken
    refine inv.congr (fun _ => by simp [askedAfter]) (fun _ => rfl) rfl rfl (fun q use => ?_)
      inv.slots
    by_cases same : q = p
    · exact .inl (by simp [same, running])
    · simpa [State.Used, same] using use
  | wait p q =>
    obtain ⟨-, rfl⟩ := ite_some_none_eq_some.mp taken
    exact inv.setProc (fun _ => by simp [askedAfter]) (Nat.le_refl _) (.inl rfl)
      (by simp [Proc.freed])
  | switch p change =>
    obtain ⟨switched, rfl⟩ := ite_some_none_eq_some.mp taken
    have before : state.Used p := by
      refine .inl fun unused => ?_
      rw [unused] at switched
      cases switched
    exact inv.setProc (fun _ => by simp [askedAfter]) (Nat.le_refl _) (.inr (.inl rfl))
      fun _ => ⟨inv.used p before, inv.bits p before⟩
  | load p enable =>
    obtain ⟨⟨running, -⟩, rfl⟩ := ite_some_none_eq_some.mp taken
    rw [inv.load (.inl (by simp [running])) enable]
    refine inv.congr (fun _ => by simp [askedAfter]) (fun _ => rfl) rfl rfl (fun _ => id)
      fun q update holds => ?_
    change update ∈ Function.update state.updates p _ q at holds
    by_cases same : q = p
    · subst same
      rw [Function.update_self] at holds
      cases holds
      rfl
    · rw [Function.update_of_ne same] at holds
      exact inv.slots q update holds
  | store p pid enable =>
    cases held : state.updates p with
    | none =>
      rw [UserCoop.step, held] at taken
      cases taken
    | some update =>
      rw [UserCoop.step, held] at taken
      obtain ⟨⟨running, rfl, rfl⟩, rfl⟩ := ite_some_none_eq_some.mp
        (show (if _ then some _ else none) = some next from taken)
      have used : state.Used p := .inl (by simp [running])
      have here : update.slot = p := inv.slots p update held
      refine inv.setStatus used (fun q use => ?_) fun pid => asked_snoc events _ pid
      rw [update.getLsbD_value, here]
      by_cases same : p = q
      · rw [if_pos same, if_pos same]
      · rw [if_neg same, if_neg same]
        exact clear update held q use fun equal => same (here.symm.trans equal.symm)

end Invariant

/-- In every run in which `allocproc` takes slots whose bit is clear and no store undoes one of
another call, the status of a process is what that process has asked for. -/
theorem status_of_clear_run {events : List Label} {state : State}
    (run : (system.guarded Clear).Runs events state) (q : Fin nproc)
    (live : (state.proc q).state ≠ .unused) :
    isEnableUserCoop state (state.proc q).pid = 1 ↔ asked events (state.proc q).pid = true := by
  have inv : Inv events state := by
    refine run.history_invariant Inv ?_ ?_
    · rintro state rfl
      exact inv_boot
    · intro events state label next inv ⟨clear, taken⟩
      exact inv.step clear taken
  rw [isEnableUserCoop, inv.slotOf (.inl live)]
  simp only [toNat_status, inv.bits q (.inl live)]
  cases asked events (state.proc q).pid <;> simp

/-- The first process makes a child that asks for cooperation. -/
def childAsks : List Label :=
  [.switch 0 .running, .alloc 0 1, .ready 0 1, .switch 1 .running, .load 1 true, .store 1 2 true]

theorem status_of_childAsks : ∃ state,
    (system.guarded Clear).Runs childAsks state ∧ (state.proc 1).state ≠ .unused ∧
      (isEnableUserCoop state (state.proc 1).pid = 1 ↔
        asked childAsks (state.proc 1).pid = true) := by
  have found : (LabelledSystem.exec (LabelledSystem.checked Clear step) boot childAsks).any
      (fun state => decide ((state.proc 1).state ≠ .unused)) = true := by decide +kernel
  obtain ⟨state, result, live⟩ := (any_eq_true _ _).mp found
  have run : (system.guarded Clear).Runs childAsks state :=
    .of_checked_exec rfl result
  have used : (state.proc 1).state ≠ .unused := by simpa using live
  exact ⟨state, run, used, status_of_clear_run run 1 used⟩

/-- The child exits, and another process gets its slot and its status. -/
theorem status_inherited : ¬∀ events state, system.Runs events state → ∀ q,
    (state.proc q).state ≠ .unused →
      (isEnableUserCoop state (state.proc q).pid = 1 ↔ asked events (state.proc q).pid = true) := by
  intro claimed
  let events := childAsks ++ [.exit 1, .wait 0 1, .alloc 0 1, .ready 0 1]
  have found : (LabelledSystem.exec step boot events).any (fun state =>
      decide ((state.proc 1).state ≠ .unused ∧ (state.proc 1).pid = 3 ∧
        isEnableUserCoop state 3 = 1)) = true := by decide +kernel
  obtain ⟨state, result, holds⟩ := (any_eq_true _ _).mp found
  obtain ⟨live, pid, enabled⟩ := of_decide_eq_true holds
  have run : system.Runs events state := .of_exec rfl result
  have agreed := claimed events state run 1 live
  rw [pid, enabled] at agreed
  exact absurd (agreed.mp rfl) (by decide)

end Ev6.Processes.UserCoop
