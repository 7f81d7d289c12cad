import Ev6.Processes.Kinship

/-!
# The steps that leave the family alone

Most steps of `fork`, `exit` and `wait` take a lock, let one go or look at a slot. They are
`Quiet`: nobody gets a parent, becomes runnable for the first time or ends.
-/

namespace Ev6.Processes.WaitExit

open Support Files

section Steps

variable {state : State} {p : Fin nproc}

/-- As long as there is another process, init has a child. -/
theorem Family.rooted (family : Family state) :
    (∀ q, q ≠ 0 → state.Unused q) ∨ ∃ r, state.parent r = some 0 := by
  have climb : ∀ n q, state.number q = n → ¬state.Unused q → q ≠ 0 →
      ∃ r, state.parent r = some 0 := by
    intro n
    induction n using Nat.strongRecOn with
    | ind n ih =>
      intro q number used notInit
      obtain ⟨o, parent⟩ := family.orphan q used notInit
      have guarded := family.guarded q o parent
      by_cases root : o = 0
      · exact ⟨q, root ▸ parent⟩
      · exact ih _ (number ▸ guarded.older root) o rfl guarded.parent root
  by_cases alone : ∀ q, q ≠ 0 → state.Unused q
  · exact .inl alone
  · simp only [not_forall] at alone
    obtain ⟨q, notInit, used⟩ := alone
    exact .inr (climb _ q rfl used notInit)

theorem Family.not_own_parent (family : Family state) (parent : state.parent p = some p)
    (notInit : p ≠ 0) : False :=
  Nat.lt_irrefl _ ((family.guarded p p parent).older notInit)

theorem Inv.parent_of_free (inv : Inv state) {q : Fin nproc} (unused : state.Unused q)
    (free : state.lock q = none) : state.parent q = none := by
  cases parent : state.parent q with
  | none => rfl
  | some o =>
    rcases (inv.family.guarded q o parent).child with used | forking
    · exact absurd unused used
    · have held := (inv.locked o q).mp (by rw [forking]; rfl)
      rw [free] at held
      cases held

theorem used_of_running (running : (state.proc p).state = .running) : ¬state.Unused p := by
  simp [State.Unused, running]

theorem alive_of_running (running : (state.proc p).state = .running) : ¬state.Zombie p := by
  simp [State.Zombie, running]

theorem Inv.fork (inv : Inv state) {q : Fin nproc} (idle : Idle state p)
    (unused : (state.proc q).state = .unused) (free : state.lock q = none) :
    Inv ((({ state with nextpid := state.nextpid + 1 }.modify q fun proc =>
      { proc with pid := state.nextpid }).take q p).goto p (.fork q false)) := by
  obtain ⟨running, user⟩ := idle
  have parent := inv.parent_of_free unused free
  have quiet : Quiet state ((({ state with nextpid := state.nextpid + 1 }.modify q fun proc =>
      { proc with pid := state.nextpid }).take q p).goto p (.fork q false)) p (.fork q false) :=
    .of_update rfl rfl rfl Iff.rfl Iff.rfl (fun _ asleep => ⟨asleep, rfl⟩) rfl rfl rfl fun _ => id
  refine inv.quiet quiet ?_ ?_ ?_ ?_
  · apply Sound.fork
    · rw [quiet.unused]
      exact used_of_running running
    · rw [quiet.zombie]
      exact alive_of_running running
    · exact (quiet.unused q).mpr unused
    · exact (quiet.parent q).trans parent
  · refine inv.locked.update rfl (fun r => ?_) (lock_others (.inl free) (.inr rfl))
    have before := inv.locked p r
    rw [user] at before
    by_cases here : r = q
    · subst here
      simp [Stage.Holds, State.goto, State.take]
    · simpa [Stage.Holds, State.goto, State.take, State.modify, here] using before
  · intro r placed
    rw [user] at placed
    cases placed
  · exact fun r _ => False.elim

theorem Inv.forkFails (inv : Inv state) {q : Fin nproc} {freed : Bool}
    (forking : state.stage p = .fork q false) :
    Inv (((state.modify q fun proc => if freed then .freed else proc).drop q).goto p .user) := by
  have sound := inv.sound p
  obtain ⟨unused, parent⟩ := sound.making q false forking
  have held : state.lock q = some p := (inv.locked p q).mp (by rw [forking]; rfl)
  have alive : ¬state.Zombie p := sound.alive (by rw [forking]; rfl)
  have quiet : Quiet state
      (((state.modify q fun proc => if freed then .freed else proc).drop q).goto p .user) p
      .user := by
    have same : (state.proc q).state = .unused := unused
    have none_yet : (state.proc q).parent = none := parent
    refine .of_update rfl rfl ?_ ?_ ?_ ?_ rfl rfl rfl fun _ => id <;> cases freed <;>
      simp [Proc.freed, same, none_yet]
  refine inv.quiet quiet ?_ ?_ ?_ ?_
  · apply Sound.user
    rw [quiet.zombie]
    exact alive
  · refine inv.locked.update rfl (fun r => ?_) (lock_others (.inr held) (.inl rfl))
    have before := inv.locked p r
    rw [forking] at before
    by_cases here : r = q
    · subst here
      simp [Stage.Holds, State.goto, State.drop]
    · simpa [Stage.Holds, State.goto, State.drop, State.modify, here] using before
  · intro r placed
    rw [forking] at placed
    cases placed
  · exact fun r _ => False.elim

theorem Inv.exit (inv : Inv state) {status : Int} (idle : Idle state p) (notInit : p ≠ 0) :
    Inv ({ state with left := state.number p :: state.left }.goto p (.exit status .wakeInit)) := by
  obtain ⟨running, user⟩ := idle
  have quiet : Quiet state
      ({ state with left := state.number p :: state.left }.goto p (.exit status .wakeInit)) p
      (.exit status .wakeInit) :=
    .of_same rfl rfl rfl rfl rfl fun _ => List.mem_cons_of_mem _
  refine inv.quiet quiet ?_ ?_ ?_ ?_
  · apply Sound.exit
    · exact used_of_running running
    · exact iff_of_false (alive_of_running running) Bool.noConfusion
    · exact notInit
    · exact List.mem_cons_self
    · exact nofun
    · exact nofun
  · refine inv.locked.update rfl (fun r => ?_) fun _ _ _ => Iff.rfl
    have before := inv.locked p r
    rw [user] at before
    simpa [Stage.Holds, State.goto] using before
  · intro r placed
    rw [user] at placed
    cases placed
  · exact fun r _ => False.elim

/-- A process takes its own lock and starts to look for children. -/
theorem Inv.lookFrom (inv : Inv state) {next : State} {addr : Addr}
    (quiet : Quiet state next p (.wait addr (.scan 0 false)))
    (used : ¬state.Unused p) (alive : ¬state.Zombie p) (free : state.lock p = none)
    (lock : next.lock = Function.update state.lock p (some p))
    (bare : ∀ q, ¬(state.stage p).Holds p q) : Inv next := by
  refine inv.quiet quiet ?_ ?_ ?_ ?_
  · apply Sound.scan
    · rw [quiet.unused]
      exact used
    · rw [quiet.zombie]
      exact alive
    · exact fun _ q low => absurd low (Nat.not_lt_zero _)
    · intro _
      refine .inr (inv.family.rooted.imp ?_ ?_)
      · exact fun alone q notInit => (quiet.unused q).mpr (alone q notInit)
      · rintro ⟨r, child⟩
        exact ⟨r, Nat.zero_le _, (quiet.parent r).trans child⟩
  · refine inv.locked.update quiet.stage (fun r => ?_) ?_
    · have before := inv.locked p r
      rw [lock]
      by_cases here : r = p
      · subst here
        simp [Stage.Holds]
      · rw [Function.update_of_ne here]
        exact iff_of_false here fun held => bare r (before.mpr held)
    · rw [lock]
      exact lock_others (.inl free) (.inr rfl)
  · intro q placed
    exact absurd (placed ▸ rfl) (bare q)
  · exact fun r _ => False.elim

theorem Inv.exitTo (inv : Inv state) {next : State} {status : Int} {before after : ExitPhase}
    (here : state.stage p = .exit status before) (quiet : Quiet state next p (.exit status after))
    (ended : (Stage.exit status after).ended = (Stage.exit status before).ended)
    (target : ∀ o, (Stage.exit status after).target = some o →
      o ≠ p ∧ (state.parent p = some o ∨ state.parent p = some 0))
    (child : ∀ i, (Stage.exit status after).child = some i → state.parent i = some p)
    (own : ∀ q, (Stage.exit status after).Holds p q ↔ next.lock q = some p)
    (others : ∀ r, r ≠ p → ∀ q, next.lock q = some r ↔ state.lock q = some r)
    (past : ∀ q, state.parent q = some p → (Stage.exit status after).Past q →
      (Stage.exit status before).Past q) : Inv next := by
  have sound := inv.sound p
  rw [here] at sound
  obtain ⟨notInit, left⟩ := sound.exits status before rfl
  refine inv.quiet quiet ?_ (inv.locked.update quiet.stage own others) ?_ ?_
  · apply Sound.exit
    · rw [quiet.unused]
      exact sound.used Stage.noConfusion
    · rw [quiet.zombie, ended]
      exact sound.ended
    · exact notInit
    · rw [quiet.number]
      exact quiet.left _ left
    · intro o found
      rw [quiet.parent]
      exact target o found
    · intro i found
      rw [quiet.parent]
      exact child i found
  · intro q placed
    rw [here] at placed
    cases placed
  · rw [here]
    exact past

/-- The steps of `exit` that end nothing and give nothing away. -/
theorem Inv.exitQuiet (inv : Inv state) {next : State} {status : Int} {phase : ExitPhase}
    (here : state.stage p = .exit status phase) (taken : exitStep state p status phase = some next)
    (over_end : ∀ o i, phase = .scan o i → i < nproc) (giving : ∀ o i, phase ≠ .give o i) :
    Inv next := by
  have holds := inv.locked p
  have sound := inv.sound p
  rw [here] at holds sound
  cases phase with
  | wakeInit =>
    obtain ⟨free, rfl⟩ := Option.ite_some_none_eq_some.mp taken
    refine inv.exitTo here (.of_update rfl rfl ?_ ?_ ?_ ?_ rfl rfl rfl fun _ => id) rfl nofun
      nofun holds (fun _ _ _ => Iff.rfl) fun _ _ => id
    all_goals
      unfold wakeup1
      by_cases sleeps : (state.proc 0).chan = .proc 0 ∧ (state.proc 0).state = .sleeping
      · simp [sleeps]
      · simp [sleeps]
  | sample =>
    obtain ⟨free, found⟩ := Option.ite_none_right_eq_some.mp taken
    obtain ⟨o, parent, rfl⟩ := Option.map_eq_some_iff.mp found
    refine inv.exitTo here (.of_same rfl rfl rfl rfl rfl fun _ => id) rfl ?_ nofun holds
      (fun _ _ _ => Iff.rfl) fun _ _ => id
    rintro _ ⟨⟩
    refine ⟨?_, .inl parent⟩
    rintro rfl
    exact inv.family.not_own_parent parent (sound.exits status _ rfl).1
  | parent o =>
    obtain ⟨free, rfl⟩ := Option.ite_some_none_eq_some.mp taken
    refine inv.exitTo here (.of_same rfl rfl rfl rfl rfl fun _ => id) rfl sound.target nofun ?_
      (lock_others (.inl free) (.inr rfl)) fun _ _ => id
    intro q
    by_cases same : q = o
    · subst same
      simp [Stage.Holds, State.goto, State.take]
    · simpa [Stage.Holds, State.goto, State.take, same] using holds q
  | self o =>
    obtain ⟨free, rfl⟩ := Option.ite_some_none_eq_some.mp taken
    refine inv.exitTo here (.of_same rfl rfl rfl rfl rfl fun _ => id) rfl sound.target nofun ?_
      (lock_others (.inl free) (.inr rfl)) ?_
    · intro q
      by_cases same : q = p
      · subst same
        simp [Stage.Holds, State.goto, State.take]
      · simpa [Stage.Holds, State.goto, State.take, same] using holds q
    · exact fun q _ low => absurd low (Nat.not_lt_zero _)
  | scan o i =>
    have inside := over_end o i rfl
    rw [exitStep, dif_pos inside] at taken
    by_cases child : (state.proc ⟨i, inside⟩).parent = some p
    · rw [if_pos child] at taken
      cases taken
      refine inv.exitTo here (.of_same rfl rfl rfl rfl rfl fun _ => id) rfl sound.target ?_ holds
        (fun _ _ _ => Iff.rfl) fun _ _ => id
      rintro _ ⟨⟩
      exact child
    · rw [if_neg child] at taken
      cases taken
      refine inv.exitTo here (.of_same rfl rfl rfl rfl rfl fun _ => id) rfl sound.target nofun
        holds (fun _ _ _ => Iff.rfl) ?_
      intro q parent low
      refine Nat.lt_of_le_of_ne (Nat.lt_succ_iff.mp low) fun same => ?_
      subst same
      exact child parent
  | give o i => exact absurd rfl (giving o i)
  | last =>
    cases taken
    have held : state.lock p = some p := (holds p).mp rfl
    refine inv.exitTo here (.of_same rfl rfl rfl rfl rfl fun _ => id) rfl nofun nofun ?_
      (lock_others (.inr held) (.inl rfl)) fun _ _ => id
    intro q
    by_cases same : q = p
    · subst same
      simp [Stage.Holds, State.goto, State.drop]
    · simpa [Stage.Holds, State.goto, State.drop, same] using holds q
  | gone => cases taken

theorem Inv.waitTo (inv : Inv state) {next : State} {addr : Addr} {before after : WaitPhase}
    (here : state.stage p = .wait addr before) (quiet : Quiet state next p (.wait addr after))
    (own : Sound next p (.wait addr after)) (lock : next.lock = state.lock)
    (same : ∀ q, (Stage.wait addr after).Holds p q ↔ (Stage.wait addr before).Holds p q) :
    Inv next := by
  refine inv.quiet quiet own ?_ ?_ ?_
  · refine inv.locked.update quiet.stage (fun q => ?_) fun _ _ _ => by rw [lock]
    rw [same, lock, ← here]
    exact inv.locked p q
  · intro q placed
    rw [here] at placed
    cases placed
  · exact fun q _ => False.elim

theorem Inv.waitDone (inv : Inv state) {next : State} {addr : Addr} {before : WaitPhase}
    {after : Stage} (here : state.stage p = .wait addr before) (quiet : Quiet state next p after)
    (own : Sound next p after) (bare : ∀ q, ¬after.Holds p q) (ahead : ∀ q, ¬after.Past q)
    (only : ∀ q, (Stage.wait addr before).Holds p q ↔ q = p)
    (lock : next.lock = Function.update state.lock p none) : Inv next := by
  have holds := inv.locked p
  rw [here] at holds
  have held : state.lock p = some p := (holds p).mp ((only p).mpr rfl)
  refine inv.quiet quiet own ?_ ?_ ?_
  · refine inv.locked.update quiet.stage (fun q => ?_) ?_
    · rw [lock]
      refine iff_of_false (bare q) ?_
      by_cases same : q = p
      · subst same
        simp
      · rw [Function.update_of_ne same]
        exact fun held => same ((only q).mp ((holds q).mpr held))
    · rw [lock]
      exact lock_others (.inr held) (.inl rfl)
  · intro q placed
    rw [here] at placed
    cases placed
  · exact fun q _ passed => absurd passed (ahead q)

theorem Inv.waitQuiet (inv : Inv state) {next : State} {addr : Addr} {phase : WaitPhase}
    (here : state.stage p = .wait addr phase) (taken : waitStep state p addr phase = some next)
    (kept : ∀ i, phase = .check i → (state.proc i).state = .zombie → addr = .unwritable) :
    Inv next := by
  have sound := inv.sound p
  rw [here] at sound
  have used := sound.used Stage.noConfusion
  have alive := sound.alive rfl
  cases phase with
  | scan i havekids =>
    have looked := sound.looked
    have kids := fun notInit => sound.kids notInit addr i havekids rfl
    have roots := fun init => sound.roots init addr i havekids rfl
    by_cases inside : i < nproc
    · rw [waitStep, dif_pos inside] at taken
      by_cases child : (state.proc ⟨i, inside⟩).parent = some p
      · rw [if_pos child] at taken
        cases taken
        exact inv.waitTo here (.of_same rfl rfl rfl rfl rfl fun _ => id)
          (.check used alive child looked) rfl fun _ => Iff.rfl
      · rw [if_neg child] at taken
        cases taken
        refine inv.waitTo here (.of_same rfl rfl rfl rfl rfl fun _ => id)
          (.scan used alive ?_ ?_) rfl fun _ => Iff.rfl
        · intro notInit q low parent
          have below : q.val < i := by
            refine Nat.lt_of_le_of_ne (Nat.lt_succ_iff.mp low) fun same => ?_
            subst same
            exact child parent
          exact ⟨looked notInit q below parent, kids notInit q below parent⟩
        · intro init
          refine (roots init).imp_right (Or.imp_right ?_)
          rintro ⟨r, low, root⟩
          refine ⟨r, Nat.lt_of_le_of_ne low fun same => ?_, root⟩
          subst same
          exact child (init ▸ root)
    · rw [waitStep, dif_neg inside] at taken
      by_cases fails : havekids = false ∨ (state.proc p).killed = true
      · rw [if_pos fails] at taken
        cases taken
        exact inv.waitDone here (.of_same rfl rfl rfl rfl rfl fun _ => id) (.user alive)
          (fun _ => id) (fun _ => id) (fun _ => Iff.rfl) rfl
      · rw [if_neg fails] at taken
        cases taken
        have awake : (state.proc p).state ≠ .unused ∧ (state.proc p).state ≠ .zombie :=
          ⟨used, alive⟩
        have quiet : Quiet state (((state.modify p fun proc =>
            { proc with state := .sleeping, chan := .proc p }).drop p).goto p (.wait addr .asleep))
            p (.wait addr .asleep) := by
          refine .of_update rfl rfl rfl ?_ ?_ (fun other => absurd rfl other) rfl rfl rfl
            fun _ => id
          · simp [awake.1]
          · simp [awake.2]
        refine inv.waitDone here quiet (.asleep ?_ ?_ ?_ ?_) (fun _ => id) (fun _ => id)
          (fun _ => Iff.rfl) rfl
        · rw [quiet.unused]
          exact used
        · rw [quiet.zombie]
          exact alive
        · simp [State.goto, State.drop, State.modify]
        · intro notInit q child
          rw [quiet.parent] at child
          rw [quiet.zombie]
          exact looked notInit q (Nat.lt_of_lt_of_le q.isLt (Nat.not_lt.mp inside)) child
  | check i =>
    obtain ⟨free, checked⟩ := Option.ite_none_right_eq_some.mp taken
    by_cases zombie : (state.proc i).state = .zombie
    · rw [if_pos zombie, if_pos (kept i rfl zombie)] at checked
      cases checked
      exact inv.waitDone here (.of_same rfl rfl rfl rfl rfl fun _ => id) (.user alive)
        (fun _ => id) (fun _ => id) (fun _ => Iff.rfl) rfl
    · rw [if_neg zombie] at checked
      cases checked
      refine inv.waitTo here (.of_same rfl rfl rfl rfl rfl fun _ => id)
        (.scan used alive ?_ fun _ => .inl rfl) rfl fun _ => Iff.rfl
      intro notInit q low parent
      refine ⟨?_, rfl⟩
      rcases Nat.lt_succ_iff_lt_or_eq.mp low with below | same
      · exact sound.looked notInit q below parent
      · rw [Fin.ext same]
        exact zombie
  | asleep => cases taken

/-! ## The scheduler -/

/-- The state of a process changes among those of a process that is alive, and it does not
fall asleep. -/
theorem Inv.reschedule (inv : Inv state) {new : Proc} (parent : new.parent = (state.proc p).parent)
    (unused : new.state = .unused ↔ (state.proc p).state = .unused)
    (zombie : new.state = .zombie ↔ (state.proc p).state = .zombie)
    (asleep : new.state = .sleeping →
      (state.proc p).state = .sleeping ∧ new.chan = (state.proc p).chan) :
    Inv { state with proc := Function.update state.proc p new } := by
  have quiet : Quiet state { state with proc := Function.update state.proc p new } p
      (state.stage p) :=
    .of_update rfl (by rw [Function.update_eq_self]) parent unused zombie (fun _ => asleep) rfl rfl
      rfl fun _ => id
  refine inv.still quiet rfl fun sleeps => ?_
  simp only [State.Asleep, Function.update_self] at sleeps ⊢
  exact asleep sleeps

theorem rouse_state (proc : Proc) : ((rouse proc).state = .unused ↔ proc.state = .unused) ∧
      ((rouse proc).state = .zombie ↔ proc.state = .zombie) ∧ (rouse proc).state ≠ .sleeping ∧
      (rouse proc).parent = proc.parent := by
  unfold rouse
  by_cases sleeps : proc.state = .sleeping
  · simp [sleeps]
  · simp [sleeps]

theorem Inv.run (inv : Inv state) {next : State} (taken : step state (.run p) = some next) :
    Inv next := by
  obtain ⟨⟨runnable, free⟩, chosen⟩ := Option.ite_none_right_eq_some.mp taken
  have used : ¬state.Unused p := by simp [State.Unused, runnable]
  have alive : ¬state.Zombie p := by simp [State.Zombie, runnable]
  split at chosen
  next addr here =>
    cases chosen
    refine @Inv.lookFrom state p inv _ addr ?_ used alive free rfl (by rw [here]; exact fun _ => id)
    refine .of_update rfl rfl rfl ?_ ?_ (fun other => absurd rfl other) rfl rfl rfl fun _ => id
    · simp [runnable]
    · simp [runnable]
  next =>
    cases chosen
    apply inv.reschedule <;> simp [runnable]

theorem Inv.sleepElsewhere (inv : Inv state) (idle : Idle state p) :
    Inv (state.modify p fun proc => { proc with state := .sleeping, chan := .other }) := by
  obtain ⟨running, user⟩ := idle
  have quiet : Quiet state (state.modify p fun proc =>
      { proc with state := .sleeping, chan := .other }) p .user := by
    refine .of_update rfl ?_ rfl ?_ ?_ (fun other => absurd rfl other) rfl rfl rfl fun _ => id
    · rw [← user, Function.update_eq_self]
      rfl
    · simp [running]
    · simp [running]
  refine inv.quiet quiet (.user ?_) ?_ ?_ ?_
  · rw [quiet.zombie]
    exact alive_of_running running
  · exact inv.locked
  · intro q placed
    rw [user] at placed
    cases placed
  · exact fun q _ => False.elim

end Steps

end Ev6.Processes.WaitExit
