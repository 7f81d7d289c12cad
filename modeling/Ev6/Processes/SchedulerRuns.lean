import Ev6.Processes.SchedulerThreads

/-!
# Runs of the scheduler

`scheduler` switches to saved contexts only. With the steps of the threads, the invariant holds
along every run: a process is run by one CPU at a time, and no wakeup is lost.
-/

namespace Ev6.Processes.Scheduler

open Function (update update_eq_self update_of_ne update_self)
open Support Locks Files

/-! ## Steps of a scheduler -/

section Schedule

variable {C K Ch : Type} {state next : State C K Ch} {c : C} {q : Fin nproc}

/-- What the scheduler of a CPU has. -/
structure Scheduling (state : State C K Ch) (c : C) (l : Loop) : Prop where
  at_ : state.loop c = l
  current : state.current c = none
  lock : ∀ q, state.lock q = some c ↔ l.lockOf = some q
  bare : ∀ lk, state.mutex lk ≠ some c
  tuned : ∃ s, Tuned (state.cpu c) l.lockOf.toList.length s

theorem Sound.scheduling (sound : Sound state) {l : Loop} (at_ : state.loop c = l)
    (stays : l ≠ .away) : Scheduling state c l := by
  have current : state.current c = none := by rw [State.current, at_, if_neg stays]
  have held : state.held c = [] := by rw [State.held, current]
  have lockOf : state.lockOf c = l.lockOf := by
    rw [State.lockOf, at_]
    cases l with
    | away => exact absurd rfl stays
    | _ => rfl
  refine ⟨at_, current, fun q => ?_, fun lk owned => ?_, ?_⟩
  · rw [sound.lock, lockOf]
  · rw [sound.mutex, held] at owned
    cases owned
  · obtain ⟨s, counts, -⟩ := sound.tuned c
    rw [State.level, held, lockOf, List.length_nil, Nat.zero_add] at counts
    exact ⟨s, counts⟩

/-- A process that can run has been switched away from in `sched`, or is new. -/
theorem Sound.saved (sound : Sound state) (owned : state.lock q = some c)
    (apart : state.current c ≠ some q) (runnable : (state.proc q).state = .runnable) :
    ∃ why intena, state.thread q = .saved why intena ∧ why ≠ .exit := by
  have agrees := sound.agrees q
  rcases agrees.settled (sound.elsewhere owned apart) (by rw [runnable]; nofun) with
    none | ⟨why, intena, saved⟩
  · rw [none, Thread.Agrees, runnable] at agrees
    cases agrees
  · refine ⟨why, intena, saved, ?_⟩
    rintro rfl
    rw [saved, Thread.Agrees, runnable] at agrees
    cases agrees

variable [DecidableEq C]

/-- A scheduler changes nothing but its CPU and a lock. -/
theorem Scheduling.spin {l : Loop} (has : Scheduling state c l) (after : Loop) (sound : Sound state)
    (going : state.stopped c = none) (stays : after ≠ .away) (cpu : Cpu)
    (cproc : Option (Fin nproc))
    {owner : Fin nproc → Option C}
    (lock : ∀ q d, owner q = some d ↔
      if d = c then after.lockOf = some q else state.lock q = some d)
    (tuned : ∃ s, Tuned cpu after.lockOf.toList.length s) :
    Sound { state with
      cpu := update state.cpu c cpu
      cproc := update state.cproc c cproc
      lock := owner
      loop := update state.loop c after } := by
  refine sound.spin (c := c) (l := after) going stays has.bare rfl
    (fun d other => update_of_ne other _ _) rfl
    (fun d other => update_of_ne other _ _) rfl rfl lock ?_
    (fun q moves => ⟨fun there => ?_, moves⟩) (fun _ _ => rfl) sound.agrees sound.keeps sound.heard
  · obtain ⟨s, counts⟩ := tuned
    refine ⟨s, ?_⟩
    show Tuned (update state.cpu c cpu c) _ s
    rwa [update_self]
  · rw [has.current] at there
    cases there

theorem Scheduling.scan {i : Nat} (has : Scheduling state c (.scan i)) (sound : Sound state)
    (going : state.stopped c = none) (taken : state.scan c i = some next) : Sound next := by
  obtain ⟨s, counts⟩ := has.tuned
  have same : update state.cproc c (state.cproc c) = state.cproc :=
    update_eq_self c state.cproc
  unfold State.scan at taken
  split at taken
  · next inside =>
     split at taken
     · next free =>
        cases taken
        have sound := has.spin (.look ⟨i, inside⟩) sound going nofun _ (state.cproc c)
          (owner_take has.lock free fun r => ?_) ⟨s, counts.pushOff⟩
        · rwa [same] at sound
        · simp [Loop.lockOf, eq_comm]
     · cases taken
  · cases taken
    have sound := has.spin (.scan 0) sound going nofun
      { state.cpu c with intr := true } (state.cproc c) (owner_keep has.lock fun r => Iff.rfl)
      ⟨true, counts.noff, fun _ => rfl, fun never => absurd never (Nat.lt_irrefl 0)⟩
    rwa [same] at sound

theorem Scheduling.unlock {l : Loop} (has : Scheduling state c l) (sound : Sound state)
    (going : state.stopped c = none) (locks : l.lockOf = some q) (cproc : Option (Fin nproc)) :
    Sound ({ state with cproc := update state.cproc c cproc }.unlockProc c q fun state =>
      state.setLoop c (.scan (q + 1))) := by
  obtain ⟨s, counts⟩ := has.tuned
  rw [locks] at counts
  obtain ⟨cpu, popped, down⟩ := counts.popOff
  rw [State.unlockProc_eq
    { state with cproc := update state.cproc c cproc } popped]
  refine has.spin (.scan (q + 1)) sound going nofun cpu cproc
    (owner_drop has.lock locks fun r => ?_) ⟨s, down⟩
  rw [locks]
  simp [Loop.lockOf, eq_comm]

/-- The scheduler switches to a process: it finds a saved context. -/
theorem Scheduling.away (has : Scheduling state c (.look q)) (sound : Sound state)
    (going : state.stopped c = none) {why : Why K Ch} {intena : Bool}
    (saved : state.thread q = .saved why intena) (lives : why ≠ .exit)
    (is : next = { (state.setProc q { state.proc q with state := .running }).setThread q
        (.back why intena) with
      cproc := update state.cproc c (some q)
      loop := update state.loop c .away }) : Sound next := by
  obtain ⟨-, current, lock, bare, s, counts⟩ := has
  have idle (d : C) : state.current d ≠ some q := by
    intro there
    have active := (sound.running there rfl).active
    rw [saved] at active
    cases active
  have others (r : Fin nproc) (other : r ≠ q) :
      update state.proc q { state.proc q with state := .running } r = state.proc r :=
    update_of_ne other _ _
  have mine : update state.thread q (.back why intena) q = .back why intena := by
    rw [update_self]
  have now : next.current c = some q := by
    rw [is]
    simp [State.current]
  have held : next.held c = [] := by
    unfold State.held
    rw [now, is]
    show (update state.thread q (.back why intena) q).held = []
    rw [mine]
    rfl
  have lockOf : next.lockOf c = some q := by
    rw [is]
    simp [State.lockOf, State.setThread, Thread.lockOf]
  have agrees : ((.back why intena : Thread K Ch)).Agrees
      (update state.proc q { state.proc q with state := .running } q) := by
    rw [update_self]
    cases why with
    | exit => exact absurd rfl lives
    | _ => rfl
  have keeps : (Thread.back why intena : Thread K Ch).Keeps (state.setting q) := by
    have before := sound.keeps q
    rwa [saved] at before
  refine sound.change (c := c) (fun d other => ?_) ?_ ?_ ?_ ⟨s, ?_, fun r there apart => ?_⟩
    (fun _ => ⟨q, ?_, ?_, fun d _ => idle d⟩) (fun r moves => ?_) (fun r => ?_) (fun r => ?_) ?_
    fun reason panic => ?_
  · rw [is]
    refine ⟨update_of_ne other _ _, update_of_ne other _ _, rfl, rfl,
      fun r there => ⟨update_of_ne ?_ _ _, rfl⟩⟩
    rintro rfl
    exact idle d there
  · rw [lockOf, is]
    exact owner_keep lock fun r => Iff.rfl
  · rw [held, is]
    have without (lk : K) : state.mutex lk = some c ↔ lk ∈ ([] : List K) :=
      ⟨fun owned => absurd owned (bare lk), fun member => absurd member List.not_mem_nil⟩
    exact owner_keep without fun lk => Iff.rfl
  · rw [held]
    exact List.nodup_nil
  · rw [State.level, held, lockOf, is]
    exact counts
  · rw [now] at there
    cases there
    rw [is] at apart
    exact absurd mine (apart why intena)
  · rw [is]
    exact update_self c (some q) state.cproc
  · rw [is]
    show (update state.thread q (.back why intena) q).Active
    rw [mine]
    trivial
  · rw [is] at moves
    change (update state.thread q (.back why intena) r).Active at moves
    by_cases same : r = q
    · subst same
      exact .inl now
    · rw [update_of_ne same] at moves
      obtain ⟨d, there⟩ := sound.runs r moves
      refine .inr ⟨d, ?_, there⟩
      rintro rfl
      rw [current] at there
      cases there
  · rw [is]
    exact sound.agrees_update others agrees r
  · rw [is]
    exact sound.keeps_update _ keeps r
  · rw [is]
    exact sound.heard.update rfl others (fun _ _ _ never _ => False.elim never)
      fun _ _ never => False.elim never
  · rw [is] at panic
    change state.stopped c = some reason at panic
    rw [going] at panic
    cases panic

theorem Scheduling.look (has : Scheduling state c (.look q)) (sound : Sound state)
    (going : state.stopped c = none) : Sound (state.look c q) := by
  have owned : state.lock q = some c := (has.lock q).mpr rfl
  have apart : state.current c ≠ some q := by
    rw [has.current]
    nofun
  unfold State.look
  split
  · next runnable =>
     obtain ⟨why, intena, saved, lives⟩ := sound.saved owned apart runnable
     rw [saved]
     exact has.away sound going saved lives rfl
  · have unlocked := has.unlock sound going rfl (state.cproc c)
    rwa [update_eq_self] at unlocked

theorem Sound.step [DecidableEq K] [DecidableEq Ch] {event : Event C K Ch} (sound : Sound state)
    (taken : state.step event = some next) : Sound next := by
  cases event with
  | loop c =>
    simp only [State.step] at taken
    split at taken
    · next going =>
       split at taken
       · next i at_ => exact (sound.scheduling at_ nofun).scan sound going taken
       · next q at_ =>
          cases taken
          exact (sound.scheduling at_ nofun).look sound going
       · cases taken
       · next q at_ =>
          cases taken
          exact (sound.scheduling at_ nofun).unlock sound going rfl none
    · cases taken
  | act c act =>
    simp only [State.step] at taken
    split at taken
    · next going =>
       obtain ⟨p, here, does⟩ := Option.bind_eq_some_iff.mp taken
       split at does
       · next held at_ => exact (sound.running here at_).call sound going does
       · exact sound.go going here does
       · cases does
    · cases taken

end Schedule

/-! ## Runs -/

section Runs

variable {C K Ch : Type} {state : State C K Ch}

theorem Starts.sound (starts : Starts state) : Sound state := by
  obtain ⟨first, new, runnable, others⟩ := starts.thread
  have current (c : C) : state.current c = none := by
    have stays : Loop.scan 0 ≠ .away := by
      intro same
      cases same
    rw [State.current, starts.loop, if_neg stays]
  have held (c : C) : state.held c = [] := by rw [State.held, current]
  have lockOf (c : C) : state.lockOf c = none := by rw [State.lockOf, starts.loop]
  have idle (p : Fin nproc) :
      state.thread p = .saved .forkret false ∧ (state.proc p).state = .runnable ∨
        state.thread p = .none ∧ (state.proc p).state = .unused := by
    by_cases same : p = first
    · exact .inl ⟨same ▸ new, same ▸ runnable⟩
    · exact .inr (others p same)
  refine ⟨fun q c => ?_, fun lk c => ?_, fun c => ?_, fun c => ?_, fun c away => ?_,
    fun c d p here => ?_, fun p active => ?_, fun p => ?_, fun p => ?_, fun w lk chan i wakes => ?_,
    fun c reason panic => ?_⟩
  · simp [starts.lock, lockOf]
  · simp [starts.mutex, held]
  · rw [held]
    exact List.nodup_nil
  · refine ⟨(state.cpu c).intr, ⟨?_, fun _ => rfl, fun more => ?_⟩, fun p here => ?_⟩
    · rw [starts.cpu, State.level, held, lockOf]
      rfl
    · rw [State.level, held, lockOf] at more
      exact absurd more (Nat.lt_irrefl 0)
    · rw [current] at here
      cases here
  · rw [starts.loop] at away
    cases away
  · rw [current] at here
    cases here
  · rcases idle p with ⟨thread, -⟩ | ⟨thread, -⟩ <;> rw [thread] at active <;> cases active
  · rcases idle p with ⟨thread, is⟩ | ⟨thread, is⟩ <;> rw [thread] <;> exact is
  · rcases idle p with ⟨thread, -⟩ | ⟨thread, -⟩ <;> rw [thread]
    · exact .inl rfl
    · trivial
  · rcases idle w with ⟨thread, -⟩ | ⟨thread, -⟩ <;> rw [thread] at wakes <;> cases wakes
  · rw [starts.stopped] at panic
    cases panic

variable [DecidableEq C] [DecidableEq K] [DecidableEq Ch]

theorem Sound.of_runs {events : List (Event C K Ch)}
    (runs : (system C K Ch).Runs events state) : Sound state :=
  runs.invariant Sound (fun _ (starts : Starts _) => starts.sound)
    fun _ _ _ sound taken => sound.step taken

/-- What the scheduler promises. -/
structure Scheduled (state : State C K Ch) : Prop where
  /-- A process is run by one CPU at a time. -/
  once : ∀ c d p, state.current c = some p → state.current d = some p → c = d
  /-- A process that is `RUNNING` is run by a CPU, and its code finds it so. -/
  running : ∀ p, (state.proc p).state = .running → ∃ c, state.current c = some p
  code : ∀ c p held, state.current c = some p → state.thread p = .run held →
    (state.proc p).state = .running
  /-- The scheduler switches to saved contexts only. -/
  context : ∀ c q, state.loop c = .look q → (state.proc q).state = .runnable →
    ∃ why intena, state.thread q = .saved why intena ∧ why ≠ .exit
  /-- Code without locks finds interrupts as it has set them, wherever it has slept or been
  preempted meanwhile, and code with locks finds them off. -/
  interrupts : ∀ c p held, state.current c = some p → state.thread p = .run held →
    (state.cpu c).noff = held.length ∧
      (state.cpu c).intr = (decide (held = []) && state.setting p)
  /-- When a thread that has `lk` is through with `wakeup`, no thread that has given `lk` up to
  sleep on the channel is still to be woken. -/
  woken : ∀ w lk chan held, state.thread w = .wakeup chan nproc held → lk ∈ held →
    ∀ q, ¬ (state.thread q).Asleep lk chan (state.proc q)
  /-- A zombie whose slot is to be freed is run by no CPU. -/
  freed : ∀ w q held, state.thread w = .errand .free q held → (state.proc q).state = .zombie →
    ∀ c, state.current c ≠ some q
  /-- The only panic is that of a thread that gives up its CPU with another lock. -/
  stopped : ∀ c reason, state.stopped c = some reason → reason = .schedLocks ∧
    ∃ p why held, state.current c = some p ∧ state.thread p = .sched why held ∧ held ≠ []

theorem scheduled_of_runs {events : List (Event C K Ch)}
    (runs : (system C K Ch).Runs events state) : Scheduled state := by
  have sound := Sound.of_runs runs
  refine ⟨sound.once, fun p is => ?_, fun c p held here at_ => ?_, fun c q at_ is => ?_,
    fun c p held here at_ => ?_, fun w lk chan held at_ has q => ?_,
    fun w q held at_ is c here => ?_, sound.stopped⟩
  · exact sound.runs p ((sound.agrees p).active is)
  · exact (sound.running here at_).agrees
  · have has := sound.scheduling at_ nofun
    refine sound.saved ((has.lock q).mpr rfl) ?_ is
    rw [has.current]
    nofun
  · obtain ⟨s, counts, setting⟩ := (sound.running here at_).tuned
    obtain rfl := setting nofun
    refine ⟨counts.noff, ?_⟩
    by_cases bare : held = []
    · subst bare
      exact counts.on rfl
    · rw [(counts.off (List.length_pos_of_ne_nil bare)).1, decide_eq_false bare, Bool.false_and]
  · refine sound.heard w lk chan nproc ?_ q q.isLt
    rw [at_]
    exact ⟨rfl, Nat.le_refl _, has⟩
  · obtain ⟨d, there⟩ := sound.runs w (by rw [at_]; trivial)
    have running := sound.running there at_
    have owned : state.lock q = some d := (running.lock q).mpr rfl
    have agrees := sound.agrees q
    have runs : (state.proc w).state = .running := running.agrees
    have apart : state.current d ≠ some q := by
      rw [there]
      intro same
      rw [Option.some.inj same, is] at runs
      cases runs
    rcases agrees.settled (sound.elsewhere owned apart) (by rw [is]; nofun) with
      none | ⟨why, intena, saved⟩
    · rw [none, Thread.Agrees, is] at agrees
      cases agrees
    · have active := (sound.running here rfl).active
      rw [saved] at active
      cases active

section Sample

/-- Two CPUs, one lock, one channel, and the first process in slot 0. -/
def bootState : State (Fin 2) Unit Unit where
  proc p := ⟨if p = 0 then .runnable else .unused, none, false⟩
  lock _ := none
  mutex _ := none
  cpu _ := ⟨false, 0, false⟩
  cproc _ := none
  loop _ := .scan 0
  thread p := if p = 0 then .saved .forkret false else .none
  stopped _ := none
  setting _ := false

theorem bootState_starts : Starts bootState :=
  ⟨⟨0, rfl, rfl, by decide⟩, fun _ => rfl, fun _ => rfl, fun _ => rfl, fun _ => rfl, fun _ => rfl⟩

/-- The first process forks and goes to sleep; its child wakes it up, and has looked at every
slot. -/
theorem scheduled_after_wakeup : ∃ events state, (system (Fin 2) Unit Unit).Runs events state ∧
    state.thread 1 = .wakeup () nproc [()] ∧ (state.proc 0).state = .runnable ∧
      Scheduled state := by
  let events : List (Event (Fin 2) Unit Unit) := List.flatten [List.replicate 2 (.loop 0),
    [.act 0 .go, .act 0 (.errand .fork 1), .act 0 .go, .act 0 (.interrupts true),
      .act 0 (.acquire ()), .act 0 (.sleep () ()), .act 0 .go, .act 0 .go, .act 0 .go, .loop 0],
    List.replicate 4 (.loop 1), [.act 1 .go, .act 1 (.acquire ()), .act 1 (.wakeup ())],
    List.replicate (2 * nproc) (.act 1 .go)]
  have found : (LabelledSystem.exec State.step bootState events).any (fun state =>
      decide (state.thread 1 = .wakeup () nproc [()] ∧ (state.proc 0).state = .runnable)) =
        true := by
    decide +kernel
  obtain ⟨state, result, facts⟩ := (Option.any_eq_true _ _).mp found
  obtain ⟨through, woken⟩ := of_decide_eq_true facts
  have runs : (system (Fin 2) Unit Unit).Runs events state :=
    .of_exec bootState_starts result
  exact ⟨events, state, runs, through, woken, scheduled_of_runs runs⟩

end Sample

end Runs

end Ev6.Processes.Scheduler
