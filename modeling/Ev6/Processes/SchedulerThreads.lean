import Ev6.Processes.Scheduler

/-!
# Threads under the scheduler

A thread that goes on keeps the invariant: what it does to its own process, to the locks that
it takes and gives up, and to another process under the lock of that process.
-/

namespace Ev6.Processes.Scheduler

open Function (update update_eq_self update_idem update_of_ne update_self)
open Support Locks Files

/-! ## Steps of a thread -/

section Act

variable {C K Ch : Type} {state next : State C K Ch} {c : C} {p q : Fin nproc}
variable {thread : Thread K Ch}

/-- What the thread that a CPU runs has. -/
structure Running (state : State C K Ch) (c : C) (p : Fin nproc) (thread : Thread K Ch) : Prop where
  here : state.current c = some p
  at_ : state.thread p = thread
  active : thread.Active
  lock : ∀ q, state.lock q = some c ↔ thread.lockOf p = some q
  mutex : ∀ lk, state.mutex lk = some c ↔ lk ∈ thread.held
  nodup : thread.held.Nodup
  agrees : thread.Agrees (state.proc p)
  keeps : thread.Keeps (state.setting p)
  tuned : ∃ s, Tuned (state.cpu c) (thread.held.length + (thread.lockOf p).toList.length) s ∧
    ((∀ why intena, thread ≠ .back why intena) → s = state.setting p)

theorem Sound.running (sound : Sound state) (here : state.current c = some p)
    (at_ : state.thread p = thread) : Running state c p thread := by
  obtain ⟨gone, runs⟩ := State.loop_of_current here
  have held : state.held c = thread.held := by
    unfold State.held
    rw [here, ← at_]
  have lockOf : state.lockOf c = thread.lockOf p := by
    unfold State.lockOf
    rw [gone, runs, ← at_]
    rfl
  refine ⟨here, at_, ?_, fun q => ?_, fun lk => ?_, ?_, ?_, ?_, ?_⟩
  · obtain ⟨r, known, active⟩ := sound.away c gone
    rw [runs] at known
    cases known
    rwa [at_] at active
  · rw [sound.lock, lockOf]
  · rw [sound.mutex, held]
  · rw [← held]
    exact sound.nodup c
  · rw [← at_]
    exact sound.agrees p
  · rw [← at_]
    exact sound.keeps p
  · obtain ⟨s, counts, keeps⟩ := sound.tuned c
    rw [State.level, held, lockOf] at counts
    exact ⟨s, counts, fun notBack => keeps p here (by rwa [at_])⟩

/-- Sleepers stay passed by no one where no thread falls asleep and none looks further. -/
theorem State.Heard.mono (heard : state.Heard)
    (wakes : ∀ w lk chan i, (next.thread w).Wakes lk chan i → 0 < i →
      (state.thread w).Wakes lk chan i)
    (asleep : ∀ q lk chan, (next.thread q).Asleep lk chan (next.proc q) →
      (state.thread q).Asleep lk chan (state.proc q)) : next.Heard := by
  intro w lk chan i wakes' q below sleeps
  exact heard w lk chan i (wakes w lk chan i wakes' (Nat.zero_lt_of_lt below)) q below
    (asleep q lk chan sleeps)

variable {after : Thread K Ch}

theorem Sound.agrees_update (sound : Sound state) {proc : Fin nproc → Proc Ch}
    (others : ∀ q, q ≠ p → proc q = state.proc q) (agrees : after.Agrees (proc p)) (q : Fin nproc) :
    (update state.thread p after q).Agrees (proc q) := by
  by_cases same : q = p
  · subst same
    rwa [update_self]
  · rw [update_of_ne same, others q same]
    exact sound.agrees q

theorem Sound.keeps_update (sound : Sound state) (after : Thread K Ch)
    (keeps : after.Keeps (state.setting p)) (q : Fin nproc) :
    (update state.thread p after q).Keeps (state.setting q) := by
  by_cases same : q = p
  · subst same
    rwa [update_self]
  · rw [update_of_ne same]
    exact sound.keeps q

theorem State.theirs_update (state : State C K Ch) (p : Fin nproc) (after : Thread K Ch)
    (q : Fin nproc) (other : q ≠ p) :
    ((update state.thread p after q).Active → (state.thread q).Active) ∧
      ((state.thread q).Active → update state.thread p after q = state.thread q) := by
  have same : update state.thread p after q = state.thread q :=
    update_of_ne other _ _
  exact ⟨fun moves => same ▸ moves, fun _ => same⟩

/-- Only the thread of `p` has changed, and nothing for the others. -/
theorem State.Heard.update (heard : state.Heard) {proc : Fin nproc → Proc Ch}
    (at_ : state.thread p = thread) (others : ∀ q, q ≠ p → proc q = state.proc q)
    (wakes : ∀ lk chan i, after.Wakes lk chan i → 0 < i → thread.Wakes lk chan i)
    (asleep : ∀ lk chan, after.Asleep lk chan (proc p) → thread.Asleep lk chan (state.proc p)) :
    State.Heard { state with proc := proc, thread := Function.update state.thread p after } := by
  refine heard.mono (fun w lk chan i hears more => ?_) fun q lk chan sleeps => ?_
  · change (Function.update state.thread p after w).Wakes lk chan i at hears
    by_cases same : w = p
    · subst same
      rw [Function.update_self] at hears
      exact at_ ▸ wakes lk chan i hears more
    · rwa [Function.update_of_ne same] at hears
  · change (Function.update state.thread p after q).Asleep lk chan (proc q) at sleeps
    by_cases same : q = p
    · subst same
      rw [Function.update_self] at sleeps
      exact at_ ▸ asleep lk chan sleeps
    · rw [Function.update_of_ne same] at sleeps
      rwa [← others q same]

variable {lk : K}

/-- `pop_off` for the release of another lock. -/
theorem Running.popMutex (running : Running state c p thread) (member : lk ∈ thread.held) :
    ∃ cpu, popOff (state.cpu c) = some cpu := by
  obtain ⟨s, counts, -⟩ := running.tuned
  have length := List.length_pos_of_mem member
  have count : thread.held.length + (thread.lockOf p).toList.length =
      thread.held.length - 1 + (thread.lockOf p).toList.length + 1 := by omega
  rw [count] at counts
  obtain ⟨cpu, popped, -⟩ := counts.popOff
  exact ⟨cpu, popped⟩

/-! ### Under the lock of a process -/

variable {r : Fin nproc}

theorem Thread.active_of_lockOf (locks : thread.lockOf p = some r) : thread.Active := by
  cases thread with
  | none | saved => cases locks
  | _ => trivial

/-- The thread of a process whose lock someone else has is not where it has that lock itself. -/
theorem Sound.elsewhere (sound : Sound state) (owned : state.lock q = some c)
    (apart : state.current c ≠ some q) : (state.thread q).lockOf q ≠ some q := by
  intro locks
  obtain ⟨d, here⟩ := sound.runs q (Thread.active_of_lockOf locks)
  have mine := ((sound.running here rfl).lock q).mpr locks
  rw [owned] at mine
  cases mine
  exact apart here

variable {proc : Proc Ch}

/-- A process under its lock, where the lock is not the thread's, and where it is not running. -/
theorem Thread.Agrees.settled (agrees : thread.Agrees proc)
    (apart : thread.lockOf q ≠ some q) (still : proc.state ≠ .running) :
    thread = .none ∨ ∃ why intena, thread = .saved why intena := by
  cases thread with
  | none => exact .inl rfl
  | saved why intena => exact .inr ⟨why, intena, rfl⟩
  | run | reacquire | wakeup | visit | errand => exact absurd agrees still
  | release | doze | sched | back | wild => exact absurd rfl apart

variable {chan : Ch}

theorem Thread.Agrees.asleep (agrees : thread.Agrees proc)
    (apart : thread.lockOf q ≠ some q) (sleeps : thread.Asleep lk chan proc) :
    proc.state = .sleeping ∧ proc.chan = some chan := by
  cases thread with
  | doze | sched => exact absurd rfl apart
  | saved why =>
    cases why with
    | sleep other to_ =>
      obtain ⟨rfl, rfl, still⟩ := sleeps
      rcases agrees with same | runnable
      · exact same
      · rw [still] at runnable
        cases runnable
    | _ => cases sleeps
  | _ => cases sleeps

theorem Thread.Agrees.active (agrees : thread.Agrees proc)
    (runs : proc.state = .running) : thread.Active := by
  cases thread with
  | none =>
    rw [Thread.Agrees, runs] at agrees
    cases agrees
  | saved why =>
    cases why with
    | sleep =>
      rw [Thread.Agrees, runs] at agrees
      rcases agrees with ⟨never, -⟩ | never <;> cases never
    | _ =>
      rw [Thread.Agrees, runs] at agrees
      cases agrees
  | _ => trivial

/-- What may be done to a process and its thread by someone else. -/
structure Nudge (setting : Bool) (proc : Proc Ch) (thread : Thread K Ch) (proc' : Proc Ch)
    (thread' : Thread K Ch) : Prop where
  agrees : thread'.Agrees proc'
  keeps : thread'.Keeps setting
  active : thread'.Active → thread.Active
  same : thread.Active → thread' = thread
  asleep : ∀ lk chan, thread'.Asleep lk chan proc' → thread.Asleep lk chan proc

variable {setting : Bool}

theorem Nudge.rouse {killed : Bool} (agrees : thread.Agrees proc)
    (keeps : thread.Keeps setting) (apart : thread.lockOf q ≠ some q)
    (sleeps : proc.state = .sleeping) :
    Nudge setting proc thread ⟨.runnable, proc.chan, killed⟩ thread ∧
      ∀ lk chan, ¬ thread.Asleep lk chan ⟨.runnable, proc.chan, killed⟩ := by
  rcases agrees.settled apart (by rw [sleeps]; nofun) with rfl | ⟨why, intena, rfl⟩
  · rw [Thread.Agrees, sleeps] at agrees
    cases agrees
  · cases why with
    | sleep lk chan =>
      have awake (other : K) (to_ : Ch) :
          ¬ (Thread.saved (.sleep lk chan) intena).Asleep other to_
            ⟨.runnable, proc.chan, killed⟩ := fun never => nomatch never.2.2
      refine ⟨⟨.inr rfl, keeps, id, fun _ => rfl, fun other to_ never => ?_⟩, awake⟩
      exact absurd never (awake other to_)
    | _ =>
      rw [Thread.Agrees, sleeps] at agrees
      cases agrees

theorem Nudge.killed {killed : Bool} (agrees : thread.Agrees proc) (keeps : thread.Keeps setting) :
    Nudge setting proc thread ⟨proc.state, proc.chan, killed⟩ thread := by
  refine ⟨?_, keeps, id, fun _ => rfl, fun lk chan sleeps => ?_⟩
  · cases thread with
    | saved why | sched why | back why => cases why <;> exact agrees
    | _ => exact agrees
  · cases thread with
    | saved why | sched why => cases why <;> exact sleeps
    | _ => exact sleeps

theorem Nudge.fork (agrees : thread.Agrees proc)
    (apart : thread.lockOf q ≠ some q) (unused : proc.state = .unused) :
    Nudge setting proc thread { proc with state := .runnable } (.saved .forkret false) := by
  rcases agrees.settled apart (by rw [unused]; nofun) with rfl | ⟨why, intena, rfl⟩
  · exact ⟨rfl, .inl rfl, False.elim, False.elim, nofun⟩
  · cases why with
    | sleep lk chan =>
      rcases agrees with ⟨never, -⟩ | never
      · rw [unused] at never
        cases never
      · rw [unused] at never
        cases never
    | _ =>
      rw [Thread.Agrees, unused] at agrees
      cases agrees

/-- A zombie has been switched away from, and goes. -/
theorem Nudge.free (agrees : thread.Agrees proc)
    (apart : thread.lockOf q ≠ some q) (zombie : proc.state = .zombie) :
    Nudge setting proc thread ⟨.unused, Option.none, false⟩ (.none : Thread K Ch) := by
  rcases agrees.settled apart (by rw [zombie]; nofun) with rfl | ⟨why, intena, rfl⟩
  · exact ⟨rfl, trivial, False.elim, False.elim, nofun⟩
  · exact ⟨rfl, trivial, False.elim, False.elim, nofun⟩

variable {i : Nat}

theorem Thread.active_of_wakes (wakes : thread.Wakes lk chan i) : thread.Active := by
  cases thread with
  | none | saved => cases wakes
  | _ => trivial

theorem Thread.Wakes.has (wakes : thread.Wakes lk chan i) : lk ∈ thread.held := by
  cases thread with
  | wakeup | visit => exact wakes.2.2
  | _ => cases wakes

/-- Nobody falls asleep where a thread has done something to a process. -/
theorem Nudge.asleep_of (at_ : state.thread p = thread) (after : Thread K Ch)
    {other : Thread K Ch} (awake : ∀ lk chan proc, ¬ after.Asleep lk chan proc)
    (nudge : q ≠ p → Nudge (state.setting q) (state.proc q) (state.thread q) proc other)
    (sleeps : (update (update state.thread q other) p after r).Asleep lk chan
      (update state.proc q proc r)) : (state.thread r).Asleep lk chan (state.proc r) := by
  by_cases mine : r = p
  · subst mine
    rw [update_self] at sleeps
    exact absurd sleeps (awake _ _ _)
  · rw [update_of_ne mine] at sleeps
    by_cases same : r = q
    · subst same
      rw [update_self, update_self] at sleeps
      exact (nudge mine).asleep lk chan sleeps
    · rwa [update_of_ne same, update_of_ne same] at sleeps

theorem Nudge.wakes_of {other : Thread K Ch}
    (nudge : q ≠ p → Nudge (state.setting q) (state.proc q) (state.thread q) proc other)
    (apart : r ≠ p) (wakes : (update (update state.thread q other) p after r).Wakes lk chan i) :
    (state.thread r).Wakes lk chan i := by
  rw [update_of_ne apart] at wakes
  by_cases same : r = q
  · subst same
    rw [update_self] at wakes
    have nudged := nudge apart
    rwa [nudged.same (nudged.active (Thread.active_of_wakes wakes))] at wakes
  · rwa [update_of_ne same] at wakes

variable {held : List K}

/-- `wakeup` under `lk` has made sure that the slot has no sleeper that gave `lk` up. -/
theorem Running.heard_visit (running : Running state c p (.visit chan q held)) (sound : Sound state)
    (nudge : q ≠ p → Nudge (state.setting q) (state.proc q) (state.thread q) proc (state.thread q))
    (awake : q ≠ p → ∀ lk, ¬ (state.thread q).Asleep lk chan proc) : State.Heard { state with
      proc := update state.proc q proc
      thread := update (update state.thread q (state.thread q)) p
        (.wakeup chan (q + 1) held) } := by
  intro w lk to_ i hears r below sleeps
  have slept := Nudge.asleep_of running.at_ (.wakeup chan (q + 1) held) nofun nudge sleeps
  by_cases mine : w = p
  · subst mine
    replace hears : (Thread.wakeup chan (q.val + 1) held).Wakes lk to_ i := by
      simpa only [update_self] using hears
    obtain ⟨rfl, far, has⟩ := hears
    by_cases last : r.val < q.val
    · refine sound.heard w lk chan q.val ?_ r last slept
      rw [running.at_]
      exact ⟨rfl, Nat.le_refl _, has⟩
    · obtain rfl : r = q := by
        apply Fin.ext
        omega
      by_cases same : r = w
      · subst same
        simp only [update_self] at sleeps
        cases sleeps
      · simp only [update_of_ne same, update_self] at sleeps
        exact awake same lk sleeps
  · exact sound.heard w lk to_ i (Nudge.wakes_of nudge mine hears) r below slept

theorem State.errand_eq (state : State C K Ch) (q : Fin nproc) (what : Errand) :
    ∃ proc thread, state.errand q what =
      (state.setProc q proc).setThread q thread ∧
        ((state.thread q).Agrees (state.proc q) → (state.thread q).Keeps (state.setting q) →
          (state.thread q).lockOf q ≠ some q →
            Nudge (state.setting q) (state.proc q) (state.thread q) proc thread) ∧
        ((state.proc q).state = .running → proc.state = .running) := by
  have same : state = (state.setProc q (state.proc q)).setThread q (state.thread q) := by
    unfold State.setProc State.setThread
    simp only [update_eq_self]
  cases what with
  | kill =>
    have still : state.errand q .kill = (state.errand q .kill).setThread q (state.thread q) := by
      unfold State.errand State.setProc State.setThread
      simp only [update_eq_self]
    refine ⟨_, state.thread q, still, fun agrees keeps apart => ?_, fun runs => ?_⟩
    · by_cases sleeps : (state.proc q).state = .sleeping
      · rw [if_pos sleeps]
        exact (Nudge.rouse agrees keeps apart sleeps).1
      · rw [if_neg sleeps]
        exact Nudge.killed agrees keeps
    · show (if (state.proc q).state = .sleeping then _ else _) = _
      rw [runs]
      rfl
  | fork =>
    unfold State.errand
    by_cases unused : (state.proc q).state = .unused
    · rw [if_pos unused]
      refine ⟨_, _, rfl, fun agrees _ apart => Nudge.fork agrees apart unused, fun runs => ?_⟩
      rw [runs] at unused
      cases unused
    · rw [if_neg unused]
      exact ⟨_, _, same, fun agrees keeps _ => Nudge.killed agrees keeps, id⟩
  | free =>
    unfold State.errand
    by_cases zombie : (state.proc q).state = .zombie
    · rw [if_pos zombie]
      refine ⟨_, _, rfl, fun agrees _ apart => Nudge.free agrees apart zombie, fun runs => ?_⟩
      rw [runs] at zombie
      cases zombie
    · rw [if_neg zombie]
      exact ⟨_, _, same, fun agrees keeps _ => Nudge.killed agrees keeps, id⟩

variable [DecidableEq C]

variable {cpu : Cpu} {rest : State C K Ch → State C K Ch}

theorem State.unlockProc_eq (state : State C K Ch) (popped : popOff (state.cpu c) = some cpu) :
    state.unlockProc c q rest =
      rest { state.setCpu c cpu with lock := update state.lock q none } := by
  unfold State.unlockProc
  rw [popped]

/-- A release behind something that sets the state of the CPU. -/
theorem State.unlockProc_setCpu {before after : Cpu} (popped : popOff before = some after) :
    (state.setCpu c before).unlockProc c q rest =
      rest { state.setCpu c after with lock := update state.lock q none } := by
  have at_ : (state.setCpu c before).cpu c = before := by
    show update state.cpu c before c = before
    rw [update_self]
  rw [← at_] at popped
  rw [State.unlockProc_eq _ popped]
  unfold State.setCpu
  rw [update_idem]

theorem Running.keep (running : Running state c p thread) (sound : Sound state)
    (going : state.stopped c = none) (after : Thread K Ch) {proc : Fin nproc → Proc Ch}
    (active : after.Active) (apart : ∀ why intena, thread ≠ .back why intena)
    (held : after.held = thread.held) (lockOf : after.lockOf p = thread.lockOf p)
    (others : ∀ q, q ≠ p → proc q = state.proc q) (agrees : after.Agrees (proc p))
    (keeps : after.Keeps (state.setting p)) (heard : State.Heard { state with
      proc := proc, thread := update state.thread p after }) :
    Sound { state with proc := proc, thread := update state.thread p after } := by
  obtain ⟨here, at_, -, lock, mutex, nodup, -, -, s, counts, setting⟩ := running
  have mine : update state.thread p after p = after := by
    rw [update_self]
  refine sound.act _ here going rfl rfl rfl (fun _ _ => rfl) mine active
    (state.theirs_update p after) (fun _ _ => rfl) (owner_keep lock fun q => by rw [lockOf])
    (owner_keep mutex fun lk => by rw [held]) (held ▸ nodup) ⟨s, ?_, fun _ => setting apart⟩
    (sound.agrees_update others agrees) (sound.keeps_update _ keeps) heard
  rw [held, lockOf]
  exact counts

theorem Running.takeLock (running : Running state c p thread) (sound : Sound state)
    (going : state.stopped c = none) (after : Thread K Ch) {proc : Fin nproc → Proc Ch}
    (free : state.lock q = none) (apart : ∀ why intena, thread ≠ .back why intena)
    (quiet : thread.lockOf p = none) (active : after.Active) (held : after.held = thread.held)
    (lockOf : after.lockOf p = some q) (others : ∀ q, q ≠ p → proc q = state.proc q)
    (agrees : after.Agrees (proc p)) (keeps : after.Keeps (state.setting p))
    (heard : State.Heard { state with
      proc := proc, thread := update state.thread p after }) :
    Sound { state with
      cpu := update state.cpu c (pushOff (state.cpu c))
      lock := update state.lock q (some c)
      proc := proc
      thread := update state.thread p after } := by
  obtain ⟨here, at_, -, lock, mutex, nodup, -, -, s, counts, setting⟩ := running
  have mine : update state.thread p after p = after := by
    rw [update_self]
  refine sound.act _ here going rfl rfl rfl (fun d other => update_of_ne other _ _)
    mine active (state.theirs_update p after) (fun _ _ => rfl) (owner_take lock free fun r => ?_)
    (owner_keep mutex fun lk => by rw [held]) (held ▸ nodup) ⟨s, ?_, fun _ => setting apart⟩
    (sound.agrees_update others agrees) (sound.keeps_update _ keeps) heard
  · rw [lockOf, quiet]
    simp [eq_comm]
  · show Tuned (update state.cpu c (pushOff (state.cpu c)) c) _ s
    rw [update_self, held, lockOf]
    rw [quiet] at counts
    exact counts.pushOff

/-- A thread releases the lock of a process. A thread that is not to run may come or go. -/
theorem Running.dropLock (running : Running state c p thread) (sound : Sound state)
    (going : state.stopped c = none) (after : Thread K Ch) (cpu : Cpu)
    (set : Bool) {proc : Fin nproc → Proc Ch} {threads : Fin nproc → Thread K Ch}
    (mine : threads p = after) (active : after.Active) (held : after.held = thread.held)
    (was : thread.lockOf p = some q) (quiet : after.lockOf p = none)
    (theirs : ∀ q, q ≠ p → ((threads q).Active → (state.thread q).Active) ∧
      ((state.thread q).Active → threads q = state.thread q))
    (counts : ∃ s, Tuned cpu thread.held.length s ∧ s = set)
    (agrees : ∀ q, (threads q).Agrees (proc q))
    (keeps : ∀ q, (threads q).Keeps (update state.setting p set q))
    (heard : State.Heard { state with proc := proc, thread := threads }) :
    Sound { state with
      cpu := update state.cpu c cpu
      lock := update state.lock q none
      proc := proc
      thread := threads
      setting := update state.setting p set } := by
  obtain ⟨here, at_, -, lock, mutex, nodup, -, -, -⟩ := running
  obtain ⟨s, counts, rfl⟩ := counts
  refine sound.act _ here going rfl rfl rfl (fun d other => update_of_ne other _ _) mine
    active theirs (fun q other => update_of_ne other _ _)
    (owner_drop lock was fun r => ?_) (owner_keep mutex fun lk => by rw [held]) (held ▸ nodup)
    ⟨s, ?_, fun _ => ?_⟩ agrees keeps heard
  · rw [quiet, was]
    simp [eq_comm]
  · show Tuned (update state.cpu c cpu c) _ s
    rw [update_self, held, quiet]
    exact counts
  · show s = update state.setting p s p
    rw [update_self]

/-- A thread has done something to the process whose lock it has, and releases the lock. -/
theorem Running.drop (running : Running state c p thread) (sound : Sound state)
    (going : state.stopped c = none) (after other : Thread K Ch) (proc : Proc Ch) (cpu : Cpu)
    (active : after.Active) (held : after.held = thread.held) (was : thread.lockOf p = some q)
    (quiet : after.lockOf p = none) (counts : Tuned cpu thread.held.length (state.setting p))
    (keeps : after.Keeps (state.setting p)) (agrees : after.Agrees (update state.proc q proc p))
    (nudge : q ≠ p → Nudge (state.setting q) (state.proc q) (state.thread q) proc other)
    (heard : State.Heard { state with
      proc := update state.proc q proc
      thread := update (update state.thread q other) p after }) :
    Sound { state with
      cpu := update state.cpu c cpu
      lock := update state.lock q none
      proc := update state.proc q proc
      thread := update (update state.thread q other) p after } := by
  have sound := running.dropLock sound going after cpu (state.setting p)
    (by rw [update_self]) active held was quiet (fun r apart => ?_) ⟨_, counts, rfl⟩
    (fun r => ?_) (fun r => ?_) heard
  · rwa [update_eq_self] at sound
  · rw [update_of_ne apart]
    by_cases same : r = q
    · subst same
      rw [update_self]
      exact ⟨(nudge apart).active, (nudge apart).same⟩
    · rw [update_of_ne same]
      exact ⟨id, fun _ => rfl⟩
  · by_cases mine : r = p
    · subst mine
      rwa [update_self]
    · rw [update_of_ne mine]
      by_cases same : r = q
      · subst same
        rw [update_self, update_self]
        exact (nudge mine).agrees
      · rw [update_of_ne same, update_of_ne same]
        exact sound.agrees r
  · rw [update_eq_self]
    by_cases mine : r = p
    · subst mine
      rwa [update_self]
    · rw [update_of_ne mine]
      by_cases same : r = q
      · subst same
        rw [update_self]
        exact (nudge mine).keeps
      · rw [update_of_ne same]
        exact sound.keeps r

theorem Running.doze (running : Running state c p (.doze lk chan held)) (sound : Sound state)
    (going : state.stopped c = none) :
    Sound ((state.setProc p { state.proc p with state := .sleeping, chan := some chan }).setThread p
      (.sched (.sleep lk chan) held)) := by
  have others (q : Fin nproc) (other : q ≠ p) : update state.proc p
      { state.proc p with state := .sleeping, chan := some chan } q = state.proc q :=
    update_of_ne other _ _
  refine running.keep sound going (.sched (.sleep lk chan) held) trivial nofun rfl rfl others
    ?_ trivial (sound.heard.update running.at_ others nofun fun _ _ => id)
  show (update state.proc p _ p).state = _ ∧ (update state.proc p _ p).chan = _
  rw [update_self]
  exact ⟨rfl, rfl⟩

variable {why : Why K Ch}

/-- `sched` is called by a thread that has changed the state of its process. -/
theorem Thread.Agrees.calls (intena : Bool) (agrees : (Thread.sched why held).Agrees proc) :
    (Thread.saved why intena).Agrees proc ∧ proc.state ≠ .running := by
  cases why with
  | forkret => cases agrees
  | yield =>
    refine ⟨agrees, ?_⟩
    rw [show proc.state = .runnable from agrees]
    nofun
  | sleep lk chan =>
    refine ⟨.inl agrees, ?_⟩
    rw [agrees.1]
    nofun
  | exit =>
    refine ⟨agrees, ?_⟩
    rw [show proc.state = .zombie from agrees]
    nofun

/-- `sched` stops the CPU only for a thread that has another lock. -/
theorem Running.sched (running : Running state c p (.sched why held)) (sound : Sound state)
    (going : state.stopped c = none) : Sound (state.sched c p why) := by
  obtain ⟨here, at_, -, lock, mutex, nodup, agrees, -, s, counts, setting⟩ := running
  have mine : state.lock p = some c := (lock p).mpr rfl
  obtain ⟨gone, runs⟩ := State.loop_of_current here
  obtain ⟨off, kept⟩ := counts.off (Nat.succ_pos _)
  obtain rfl : s = state.setting p := setting nofun
  unfold State.sched
  rw [if_neg (not_not.mpr mine)]
  by_cases bare : held = []
  · subst bare
    have one : (state.cpu c).noff = 1 := counts.noff
    rw [if_neg (not_not.mpr one), if_neg (agrees.calls false).2,
      if_neg (by rw [off]; nofun)]
    refine sound.spin (l := .back p) going nofun (fun lk owned => ?_) rfl (fun _ _ => rfl) rfl
      (fun _ _ => rfl) rfl rfl (owner_keep lock fun q => Iff.rfl) ⟨_, counts⟩ (fun q moves => ?_)
      (fun q apart => ?_) ?_ ?_ ?_
    · exact absurd ((mutex lk).mp owned) List.not_mem_nil
    · change (update state.thread p _ q).Active at moves
      by_cases same : q = p
      · subst same
        rw [update_self] at moves
        cases moves
      · rw [update_of_ne same] at moves
        refine ⟨fun there => same ?_, moves⟩
        rw [here] at there
        exact (Option.some.inj there).symm
    · have other : q ≠ p := by
        rintro rfl
        exact apart here
      exact update_of_ne other _ _
    · exact sound.agrees_update (fun _ _ => rfl) (agrees.calls _).1
    · exact sound.keeps_update _ (.inr kept)
    · refine sound.heard.update at_ (fun _ _ => rfl) nofun fun lk chan sleeps => ?_
      cases why with
      | sleep other to_ => exact ⟨sleeps.1, sleeps.2.1⟩
      | _ => cases sleeps
  · have more : ¬ (state.cpu c).noff = 1 := by
      have length := List.length_pos_of_ne_nil bare
      rw [counts.noff]
      show ¬ ((held.length + 1 : Nat) : Int) = 1
      omega
    rw [if_pos more]
    refine ⟨sound.lock, sound.mutex, sound.nodup, sound.tuned, sound.away, sound.once, sound.runs,
      sound.agrees, sound.keeps, sound.heard, fun d reason panic => ?_⟩
    change update state.stopped c (some .schedLocks) d = some reason at panic
    by_cases same : d = c
    · subst same
      rw [update_self] at panic
      exact ⟨(Option.some.inj panic).symm, p, why, held, here, at_, bare⟩
    · rw [update_of_ne same] at panic
      exact sound.stopped d reason panic

theorem Running.resumed {intena : Bool}
    (running : Running state c p (.back why intena)) (sound : Sound state)
    (going : state.stopped c = none) : Sound (state.resumed c p why intena) := by
  obtain ⟨here, at_, -, lock, mutex, nodup, agrees, keeps, s, counts, -⟩ := id running
  obtain ⟨off, kept⟩ := counts.off (Nat.succ_pos _)
  have others (after : Thread K Ch) := state.theirs_update p after
  have quiet {after : Thread K Ch} {proc : Fin nproc → Proc Ch}
      (same : ∀ q, q ≠ p → proc q = state.proc q)
      (wakes : ∀ lk chan i, ¬ after.Wakes lk chan i)
      (asleep : ∀ lk chan, ¬ after.Asleep lk chan (proc p)) :=
    sound.heard.update at_ same (fun lk chan i hears => absurd hears (wakes lk chan i))
      fun lk chan sleeps => absurd sleeps (asleep lk chan)
  have mine (after : Thread K Ch) : update state.thread p after p = after := by
    rw [update_self]
  have restored (same : why = .forkret ∨ intena = state.setting p) (apart : why ≠ .forkret) :
      Tuned { state.cpu c with intena := intena } (0 + 1) (state.setting p) := by
    obtain rfl := same.resolve_left apart
    exact ⟨counts.noff, fun never => absurd never (Nat.succ_ne_zero 0), fun _ => ⟨off, rfl⟩⟩
  cases why with
  | forkret =>
    obtain ⟨cpu, popped, down⟩ := counts.popOff
    show Sound { state.unlockProc c p fun state => state.setThread p (.run []) with
      setting := update state.setting p (state.cpu c).intena }
    rw [State.unlockProc_eq _ popped]
    refine running.dropLock sound going (.run []) cpu _ (mine _) trivial rfl rfl rfl (others _)
      ⟨s, down, kept.symm⟩ (sound.agrees_update (fun _ _ => rfl) agrees) (fun q => ?_)
      (quiet (fun _ _ => rfl) nofun nofun)
    show (update state.thread p (.run []) q).Keeps
      (update state.setting p (state.cpu c).intena q)
    by_cases same : q = p
    · subst same
      rw [mine]
      trivial
    · rw [update_of_ne same, update_of_ne same]
      exact sound.keeps q
  | yield =>
    obtain ⟨cpu, popped, down⟩ := (restored keeps nofun).popOff
    show Sound ((state.setCpu c { state.cpu c with intena := intena }).unlockProc c p
      fun state => state.setThread p (.run []))
    rw [State.unlockProc_setCpu popped]
    have next := running.dropLock sound going (.run []) cpu _ (mine _) trivial rfl rfl rfl
      (others _) ⟨_, down, rfl⟩ (sound.agrees_update (fun _ _ => rfl) agrees) (fun q => ?_)
      (quiet (fun _ _ => rfl) nofun nofun)
    · rwa [update_eq_self] at next
    · rw [update_eq_self]
      exact sound.keeps_update (.run []) trivial q
  | sleep lk chan =>
    obtain ⟨cpu, popped, down⟩ := (restored keeps nofun).popOff
    have same (q : Fin nproc) (other : q ≠ p) :
        update state.proc p { state.proc p with chan := none } q = state.proc q :=
      update_of_ne other _ _
    show Sound (((state.setProc p { state.proc p with chan := none }).setCpu c
      { state.cpu c with intena := intena }).unlockProc c p
        fun state => state.setThread p (.reacquire lk))
    rw [State.unlockProc_setCpu popped]
    have next := running.dropLock sound going (.reacquire lk) cpu _ (mine _) trivial rfl rfl rfl
      (others _) ⟨_, down, rfl⟩ (sound.agrees_update same ?_) (fun q => ?_)
      (quiet same nofun nofun)
    · rwa [update_eq_self] at next
    · show (update state.proc p { state.proc p with chan := none } p).state = .running
      rw [update_self]
      exact agrees
    · rw [update_eq_self]
      exact sound.keeps_update (.reacquire lk) trivial q
  | exit => exact absurd agrees id

theorem Running.wakeup (running : Running state c p (.wakeup chan i held)) (sound : Sound state)
    (going : state.stopped c = none) {inside : i < nproc} (free : state.lock ⟨i, inside⟩ = none) :
    Sound ((state.lockProc c ⟨i, inside⟩).setThread p (.visit chan ⟨i, inside⟩ held)) :=
  running.takeLock sound going (.visit chan ⟨i, inside⟩ held) free nofun rfl trivial rfl rfl
    (fun _ _ => rfl) running.agrees trivial
    (sound.heard.update running.at_ (fun _ _ => rfl) (fun _ _ _ hears _ => hears) nofun)

theorem Running.woken (running : Running state c p (.wakeup chan i held)) (sound : Sound state)
    (going : state.stopped c = none) : Sound (state.setThread p (.run held)) :=
  running.keep sound going (.run held) trivial nofun rfl rfl (fun _ _ => rfl) running.agrees
    trivial (sound.heard.update running.at_ (fun _ _ => rfl) nofun nofun)

theorem Running.errand {what : Errand}
    (running : Running state c p (.errand what q held)) (sound : Sound state)
    (going : state.stopped c = none) :
    Sound ((state.errand q what).unlockProc c q fun state => state.setThread p (.run held)) := by
  have runs : (state.proc p).state = .running := running.agrees
  have owned : state.lock q = some c := (running.lock q).mpr rfl
  obtain ⟨s, counts, setting⟩ := running.tuned
  obtain rfl := setting nofun
  obtain ⟨cpu, popped, down⟩ := counts.popOff
  obtain ⟨proc, thread, does, settles, stays⟩ := state.errand_eq q what
  have nudge (other : q ≠ p) :
      Nudge (state.setting q) (state.proc q) (state.thread q) proc thread := by
    refine settles (sound.agrees q) (sound.keeps q) (sound.elsewhere owned fun there => other ?_)
    rw [running.here] at there
    exact (Option.some.inj there).symm
  rw [does, State.unlockProc_eq ((state.setProc q proc).setThread q thread) popped]
  refine running.drop sound going (.run held) thread proc cpu trivial rfl rfl rfl down trivial ?_
    nudge (sound.heard.mono (fun w lk chan i hears _ => ?_) fun r lk chan sleeps => ?_)
  · show (update state.proc q proc p).state = .running
    by_cases same : p = q
    · subst same
      rw [update_self]
      exact stays runs
    · rwa [update_of_ne same]
  · by_cases mine : w = p
    · subst mine
      simp only [update_self] at hears
      cases hears
    · exact Nudge.wakes_of nudge mine hears
  · exact Nudge.asleep_of running.at_ (.run held) nofun nudge sleeps

section Visit

variable [DecidableEq Ch]

theorem Running.visit {chan : Ch} {held : List K}
    (running : Running state c p (.visit chan q held)) (sound : Sound state)
    (going : state.stopped c = none) :
    Sound ((state.visit chan q).unlockProc c q fun state =>
      state.setThread p (.wakeup chan (q + 1) held)) := by
  have runs : (state.proc p).state = .running := running.agrees
  have owned : state.lock q = some c := (running.lock q).mpr rfl
  obtain ⟨s, counts, setting⟩ := running.tuned
  obtain rfl := setting nofun
  obtain ⟨cpu, popped, down⟩ := counts.popOff
  have apart (other : q ≠ p) : (state.thread q).lockOf q ≠ some q := by
    refine sound.elsewhere owned fun there => other ?_
    rw [running.here] at there
    exact (Option.some.inj there).symm
  have next (proc : Proc Ch) (nudge : q ≠ p →
      Nudge (state.setting q) (state.proc q) (state.thread q) proc (state.thread q))
      (awake : q ≠ p → ∀ lk, ¬ (state.thread q).Asleep lk chan proc)
      (mine : (update state.proc q proc p).state = .running) :=
    running.drop sound going (.wakeup chan (q + 1) held) (state.thread q) proc cpu trivial rfl rfl
      rfl down trivial mine nudge (running.heard_visit sound nudge awake)
  simp only [update_eq_self] at next
  unfold State.visit
  split
  · next sleeper =>
     rw [State.unlockProc_eq (state.setProc q _) popped]
     refine next _ (fun other => ?_) (fun other lk => ?_) ?_
     · exact (Nudge.rouse (sound.agrees q) (sound.keeps q) (apart other) sleeper.1).1
     · exact (Nudge.rouse (sound.agrees q) (sound.keeps q) (apart other) sleeper.1).2 lk chan
     · have other : p ≠ q := by
         rintro rfl
         rw [runs] at sleeper
         cases sleeper.1
       rwa [update_of_ne other]
  · next quiet =>
     rw [State.unlockProc_eq _ popped]
     have next := next (state.proc q) (fun other => ?_) (fun other lk sleeps => ?_) ?_
     · rwa [update_eq_self] at next
     · exact Nudge.killed (sound.agrees q) (sound.keeps q)
     · exact quiet ((sound.agrees q).asleep (apart other) sleeps)
     · rwa [update_eq_self]

end Visit

variable [DecidableEq K]

theorem Running.takeMutex (running : Running state c p thread) (sound : Sound state)
    (going : state.stopped c = none) (after : Thread K Ch)
    (free : state.mutex lk = none) (apart : ∀ why intena, thread ≠ .back why intena)
    (active : after.Active) (held : after.held = lk :: thread.held)
    (lockOf : after.lockOf p = thread.lockOf p) (agrees : after.Agrees (state.proc p))
    (keeps : after.Keeps (state.setting p))
    (heard : State.Heard { state with thread := update state.thread p after }) :
    Sound { state with
      cpu := update state.cpu c (pushOff (state.cpu c))
      mutex := update state.mutex lk (some c)
      thread := update state.thread p after } := by
  obtain ⟨here, at_, -, lock, mutex, nodup, -, -, s, counts, setting⟩ := running
  have mine : update state.thread p after p = after := by
    rw [update_self]
  have fresh : lk ∉ thread.held := by
    intro member
    rw [(mutex lk).mpr member] at free
    cases free
  refine sound.act _ here going rfl rfl rfl (fun d other => update_of_ne other _ _)
    mine active (state.theirs_update p after) (fun _ _ => rfl)
    (owner_keep lock fun q => by rw [lockOf]) (owner_take mutex free fun l => ?_) ?_
    ⟨s, ?_, fun _ => setting apart⟩ (sound.agrees_update (fun _ _ => rfl) agrees)
    (sound.keeps_update _ keeps) heard
  · rw [held, List.mem_cons]
  · rw [held]
    exact List.nodup_cons.mpr ⟨fresh, nodup⟩
  · show Tuned (update state.cpu c (pushOff (state.cpu c)) c) _ s
    have count : (lk :: thread.held).length + (thread.lockOf p).toList.length =
        thread.held.length + (thread.lockOf p).toList.length + 1 := by
      rw [List.length_cons]
      omega
    rw [update_self, held, lockOf, count]
    exact counts.pushOff

theorem Running.dropMutex (running : Running state c p thread) (sound : Sound state)
    (going : state.stopped c = none) (after : Thread K Ch)
    (member : lk ∈ thread.held) (apart : ∀ why intena, thread ≠ .back why intena)
    (active : after.Active) (held : after.held = thread.held.erase lk)
    (lockOf : after.lockOf p = thread.lockOf p) (agrees : after.Agrees (state.proc p))
    (keeps : after.Keeps (state.setting p)) (popped : popOff (state.cpu c) = some cpu)
    (heard : State.Heard { state with thread := update state.thread p after }) :
    Sound { state with
      cpu := update state.cpu c cpu
      mutex := update state.mutex lk none
      thread := update state.thread p after } := by
  obtain ⟨here, at_, -, lock, mutex, nodup, -, -, s, counts, setting⟩ := running
  have mine : update state.thread p after p = after := by
    rw [update_self]
  have count : thread.held.length + (thread.lockOf p).toList.length =
      (thread.held.erase lk).length + (thread.lockOf p).toList.length + 1 := by
    have length := List.length_erase_add_one member
    omega
  rw [count] at counts
  obtain ⟨after', known, down⟩ := counts.popOff
  rw [popped] at known
  cases known
  refine sound.act _ here going rfl rfl rfl (fun d other => update_of_ne other _ _)
    mine active (state.theirs_update p after) (fun _ _ => rfl)
    (owner_keep lock fun q => by rw [lockOf]) (owner_drop mutex member fun l => ?_) ?_
    ⟨s, ?_, fun _ => setting apart⟩ (sound.agrees_update (fun _ _ => rfl) agrees)
    (sound.keeps_update _ keeps) heard
  · rw [held, nodup.mem_erase_iff]
  · rw [held]
    exact nodup.erase lk
  · show Tuned (update state.cpu c cpu c) _ s
    rw [update_self, held, lockOf]
    exact down

theorem State.unlockMutex_eq (popped : popOff (state.cpu c) = some cpu) :
    state.unlockMutex c lk rest =
      rest { state.setCpu c cpu with mutex := update state.mutex lk none } := by
  unfold State.unlockMutex
  rw [popped]

theorem Running.call {act : Act K Ch}
    (running : Running state c p (.run held)) (sound : Sound state) (going : state.stopped c = none)
    (taken : state.call c p held act = some next) : Sound next := by
  have quiet {after : Thread K Ch} {proc : Fin nproc → Proc Ch}
      (others : ∀ q, q ≠ p → proc q = state.proc q)
      (wakes : ∀ lk chan i, after.Wakes lk chan i → ¬ 0 < i)
      (asleep : ∀ lk chan, ¬ after.Asleep lk chan (proc p)) :=
    sound.heard.update running.at_ others
      (fun lk chan i hears more => absurd more (wakes lk chan i hears))
      fun lk chan sleeps => absurd sleeps (asleep lk chan)
  have apart (why : Why K Ch) (intena : Bool) : Thread.run held ≠ .back why intena := nofun
  have same (q : Fin nproc) (_ : q ≠ p) : state.proc q = state.proc q := rfl
  have runs : (state.proc p).state = .running := running.agrees
  cases act with
  | go => cases taken
  | acquire lk =>
    simp only [State.call] at taken
    split at taken
    · next free =>
       cases taken
       exact running.takeMutex sound going (.run (lk :: held)) free apart trivial rfl rfl
         runs trivial (quiet same nofun nofun)
    · cases taken
  | release lk =>
    simp only [State.call] at taken
    split at taken
    · next member =>
       cases taken
       obtain ⟨cpu, popped⟩ := running.popMutex member
       rw [State.unlockMutex_eq popped]
       exact running.dropMutex sound going (.run (held.erase lk)) member apart trivial rfl
         rfl runs trivial popped (quiet same nofun nofun)
    · cases taken
  | yield =>
    simp only [State.call] at taken
    split at taken
    · next free =>
       cases taken
       have others (q : Fin nproc) (other : q ≠ p) :
           update state.proc p { state.proc p with state := .runnable } q =
             state.proc q :=
         update_of_ne other _ _
       refine running.takeLock sound going (.sched .yield held) free apart rfl trivial rfl
         rfl others ?_ trivial (quiet others nofun nofun)
       show (update state.proc p { state.proc p with state := .runnable } p).state = _
       rw [update_self]
    · cases taken
  | sleep lk chan =>
    simp only [State.call] at taken
    split at taken
    · next can =>
       cases taken
       exact running.takeLock sound going (.release lk chan held) can.2 apart rfl trivial
         rfl rfl same ⟨runs, can.1⟩ trivial (quiet same nofun nofun)
    · cases taken
  | wakeup chan =>
    cases taken
    refine running.keep sound going (.wakeup chan 0 held) trivial apart rfl rfl same runs
      trivial (quiet same (fun lk to_ i hears more => ?_) nofun)
    exact absurd (Nat.lt_of_lt_of_le more hears.2.1) (Nat.lt_irrefl 0)
  | errand what q =>
    simp only [State.call] at taken
    split at taken
    · next free =>
       cases taken
       exact running.takeLock sound going (.errand what q held) free apart rfl trivial rfl
         rfl same runs trivial (quiet same nofun nofun)
    · cases taken
  | exit =>
    simp only [State.call] at taken
    split at taken
    · next free =>
       cases taken
       have others (q : Fin nproc) (other : q ≠ p) :
           update state.proc p { state.proc p with state := .zombie } q =
             state.proc q :=
         update_of_ne other _ _
       refine running.takeLock sound going (.sched .exit held) free apart rfl trivial rfl
         rfl others ?_ trivial (quiet others nofun nofun)
       show (update state.proc p { state.proc p with state := .zombie } p).state = _
       rw [update_self]
    · cases taken
  | interrupts on =>
    simp only [State.call] at taken
    split at taken
    · next bare =>
       cases taken
       subst bare
       obtain ⟨s, counts, -⟩ := running.tuned
       have mine := running.at_
       refine sound.act (.run []) running.here going rfl rfl rfl
         (fun d other => update_of_ne other _ _) mine trivial
         (fun _ _ => ⟨id, fun _ => rfl⟩) (fun q other => update_of_ne other _ _)
         (owner_keep running.lock fun _ => Iff.rfl) (owner_keep running.mutex fun _ => Iff.rfl)
         List.nodup_nil ⟨on, ?_, fun _ => ?_⟩ sound.agrees (fun q => ?_) sound.heard
       · show Tuned (update state.cpu c { state.cpu c with intr := on } c) 0 on
         rw [update_self]
         exact ⟨counts.noff, fun _ => rfl, fun never => absurd never (Nat.lt_irrefl 0)⟩
       · show on = update state.setting p on p
         rw [update_self]
       · show (state.thread q).Keeps (update state.setting p on q)
         by_cases same : q = p
         · subst same
           rw [mine]
           trivial
         · rw [update_of_ne same]
           exact sound.keeps q
    · cases taken

/-- `sleep` releases `lk`: nobody who has `lk` is in `wakeup`. -/
theorem Running.release (running : Running state c p (.release lk chan held)) (sound : Sound state)
    (going : state.stopped c = none) : Sound (state.unlockMutex c lk fun state =>
      state.setThread p (.doze lk chan (held.erase lk))) := by
  have member : lk ∈ held := running.agrees.2
  obtain ⟨cpu, popped⟩ := running.popMutex member
  rw [State.unlockMutex_eq popped]
  refine running.dropMutex sound going (.doze lk chan (held.erase lk)) member nofun trivial
    rfl rfl running.agrees.1 trivial popped ?_
  intro w other to_ i hears q below sleeps
  change (update state.thread p _ w).Wakes other to_ i at hears
  change (update state.thread p _ q).Asleep other to_ (state.proc q) at sleeps
  by_cases mine : w = p
  · subst mine
    rw [update_self] at hears
    cases hears
  · rw [update_of_ne mine] at hears
    by_cases asleep : q = p
    · subst asleep
      rw [update_self] at sleeps
      obtain ⟨rfl, rfl⟩ := sleeps
      obtain ⟨d, there⟩ := sound.runs w (Thread.active_of_wakes hears)
      have theirs := ((sound.running there rfl).mutex lk).mpr hears.has
      rw [(running.mutex lk).mpr member] at theirs
      cases theirs
      rw [running.here] at there
      exact mine (Option.some.inj there).symm
    · rw [update_of_ne asleep] at sleeps
      exact sound.heard w other to_ i hears q below sleeps

theorem Running.reacquire (running : Running state c p (.reacquire lk))
    (sound : Sound state) (going : state.stopped c = none) (free : state.mutex lk = none) :
    Sound ((state.lockMutex c lk).setThread p (.run [lk])) :=
  running.takeMutex sound going (.run [lk]) free nofun trivial rfl rfl running.agrees trivial
    (sound.heard.update running.at_ (fun _ _ => rfl) nofun nofun)

theorem Sound.go [DecidableEq Ch] (sound : Sound state) (going : state.stopped c = none)
    (here : state.current c = some p) (taken : state.go c p = some next) : Sound next := by
  unfold State.go at taken
  split at taken
  · next lk chan held at_ =>
     cases taken
     exact (sound.running here at_).release sound going
  · next lk chan held at_ =>
     cases taken
     exact (sound.running here at_).doze sound going
  · next why held at_ =>
     cases taken
     exact (sound.running here at_).sched sound going
  · next why intena at_ =>
     cases taken
     exact (sound.running here at_).resumed sound going
  · next lk at_ =>
     split at taken
     · next free =>
        cases taken
        exact (sound.running here at_).reacquire sound going free
     · cases taken
  · next chan i held at_ =>
     split at taken
     · split at taken
       · next free =>
          cases taken
          exact (sound.running here at_).wakeup sound going free
       · cases taken
     · cases taken
       exact (sound.running here at_).woken sound going
  · next chan q held at_ =>
     cases taken
     exact (sound.running here at_).visit sound going
  · next what q held at_ =>
     cases taken
     exact (sound.running here at_).errand sound going
  · cases taken

end Act

end Ev6.Processes.Scheduler
