import Ev6.Processes.KinshipChange

/-!
# No child is lost

`reaping` collects what the family and the locks say about `wait` and `exit`: who frees the
slot of a zombie, when a wait fails, and that no parent but init sleeps beside a zombie.
-/

namespace Ev6.Processes.WaitExit

open Option (ite_none_right_eq_some ite_some_none_eq_some)
open Support Files

section Steps

variable {state : State} {p : Fin nproc}

variable {addr : Addr} {next : State}

theorem Inv.wait (inv : Inv state) {phase : WaitPhase}
    (here : state.stage p = .wait addr phase) (taken : waitStep state p addr phase = some next) :
    Inv next := by
  by_cases kept : ∀ i, phase = .check i → (state.proc i).state = .zombie → addr = .unwritable
  · exact inv.waitQuiet here taken kept
  · simp only [not_forall] at kept
    obtain ⟨i, rfl, zombie, stored⟩ := kept
    obtain ⟨free, checked⟩ := ite_none_right_eq_some.mp taken
    rw [if_pos zombie, if_neg stored] at checked
    cases checked
    exact inv.reap here free zombie rfl rfl rfl rfl rfl rfl rfl

theorem Inv.exitAny (inv : Inv state) {status : Int} {phase : ExitPhase}
    (here : state.stage p = .exit status phase)
    (taken : exitStep state p status phase = some next) : Inv next := by
  by_cases giving : ∃ o i, phase = .give o i
  · obtain ⟨o, i, rfl⟩ := giving
    obtain ⟨_, rfl⟩ := ite_some_none_eq_some.mp taken
    exact inv.give here
  by_cases ending : ∃ o i, phase = .scan o i ∧ ¬i < nproc
  · obtain ⟨o, i, rfl, passed⟩ := ending
    rw [exitStep, dif_neg passed] at taken
    cases taken
    exact inv.finish here passed
  · refine inv.exitQuiet here taken (fun o i scan => ?_) fun o i give => giving ⟨o, i, give⟩
    by_contra passed
    exact ending ⟨o, i, scan, passed⟩

theorem Inv.step (inv : Inv state) {label : Label}
    (taken : WaitExit.step state label = some next) : Inv next := by
  cases label with
  | fork p q =>
    obtain ⟨⟨idle, unused, free⟩, rfl⟩ := ite_some_none_eq_some.mp taken
    exact inv.fork idle unused free
  | forkFails p freed =>
    simp only [WaitExit.step] at taken
    split at taken
    next q forking =>
      cases taken
      exact inv.forkFails forking
    next => cases taken
  | exit p status =>
    obtain ⟨⟨idle, notInit⟩, rfl⟩ := ite_some_none_eq_some.mp taken
    exact inv.exit idle notInit
  | wait p addr =>
    obtain ⟨⟨⟨running, user⟩, free⟩, rfl⟩ := ite_some_none_eq_some.mp taken
    exact @Inv.lookFrom state p inv _ addr (.of_same rfl rfl rfl rfl rfl fun _ => id)
      (used_of_running running) (alive_of_running running) free rfl
      (by rw [user]; exact fun _ => id)
  | act p =>
    simp only [WaitExit.step] at taken
    split at taken
    next => cases taken
    next q placed forking =>
      obtain ⟨_, rfl⟩ := ite_some_none_eq_some.mp taken
      cases placed with
      | false => exact inv.place forking
      | true => exact inv.ready forking
    next status phase here =>
      obtain ⟨_, moved⟩ := ite_none_right_eq_some.mp taken
      exact inv.exitAny here moved
    next addr phase here =>
      obtain ⟨_, moved⟩ := ite_none_right_eq_some.mp taken
      exact inv.wait here moved
  | run p => exact inv.run taken
  | yield p =>
    obtain ⟨⟨running, _⟩, rfl⟩ := ite_some_none_eq_some.mp taken
    apply inv.reschedule <;> simp [running]
  | sleep p =>
    obtain ⟨⟨idle, _⟩, rfl⟩ := ite_some_none_eq_some.mp taken
    exact inv.sleepElsewhere idle
  | wakeup q =>
    obtain ⟨_, rfl⟩ := ite_some_none_eq_some.mp taken
    obtain ⟨unused, zombie, awake, parent⟩ := rouse_state (state.proc q)
    exact inv.reschedule parent unused zombie fun asleep => absurd asleep awake
  | kill q =>
    obtain ⟨_, rfl⟩ := ite_some_none_eq_some.mp taken
    obtain ⟨unused, zombie, awake, parent⟩ := rouse_state (state.proc q)
    exact inv.reschedule parent unused zombie fun asleep => absurd asleep awake

theorem boot_inv : Inv boot := by
  have others : ∀ q : Fin nproc, q ≠ 0 → boot.proc q = .freed := fun q other => if_neg other
  have parents : ∀ q, boot.parent q = none := by
    intro q
    by_cases first : q = 0
    · subst first
      rfl
    · rw [State.parent, others q first]
      rfl
  have alive : ∀ q, ¬boot.Zombie q := by
    intro q
    by_cases first : q = 0
    · subst first
      rintro ⟨⟩
    · rw [State.Zombie, others q first]
      rintro ⟨⟩
  refine ⟨⟨⟨by rintro ⟨⟩, rfl⟩, ?_, ?_, fun _ => Nat.zero_lt_one⟩, fun p => .user (alive p), ?_⟩
  · intro q used notInit
    rw [State.Unused, others q notInit] at used
    exact absurd rfl used
  · intro q o child
    rw [parents q] at child
    cases child
  · intro p q
    refine iff_of_false id ?_
    rintro ⟨⟩

theorem inv_of_runs {labels : List Label} (runs : system.Runs labels state) : Inv state := by
  apply runs.invariant Inv
  · rintro _ rfl
    exact boot_inv
  · intro state label next inv taken
    exact inv.step taken

/-! ## The result -/

/-- A step that leaves the zombies alone and returns from no wait. -/
theorem Settles.of_kept (answers : next.answers = state.answers)
    (zombies : ∀ q, state.Zombie q → next.Zombie q) : Settles state next where
  collected := fun q zombie gone => absurd (zombies q zombie) gone
  freed := fun answer q more => by simp [answers] at more
  failed := fun answer more => by simp [answers] at more

theorem zombie_update {q : Fin nproc} {new : Proc}
    (procs : next.proc = Function.update state.proc q new)
    (keeps : state.Zombie q → new.state = .zombie) (r : Fin nproc) (zombie : state.Zombie r) :
    next.Zombie r := by
  rw [State.Zombie, procs]
  by_cases here : r = q
  · subst here
    rw [Function.update_self]
    exact keeps zombie
  · rw [Function.update_of_ne here]
    exact zombie

theorem Inv.no_child (inv : Inv state) {i : Nat}
    (here : state.stage p = .wait addr (.scan i false)) (passed : ¬i < nproc) (q : Fin nproc) :
    state.parent q ≠ some p := by
  intro child
  have sound := inv.sound p
  rw [here] at sound
  have below : q.val < i := Nat.lt_of_lt_of_le q.isLt (Nat.not_lt.mp passed)
  by_cases init : p = 0
  · subst init
    rcases sound.roots rfl addr i false rfl with found | alone | ⟨r, above, _⟩
    · cases found
    · have used : ¬state.Unused q :=
        (inv.family.guarded q 0 child).child.resolve_right (by rw [here]; rintro ⟨⟩)
      by_cases first : q = 0
      · rw [first, inv.family.init.2] at child
        cases child
      · exact used (alone q first)
    · exact absurd (Nat.lt_of_le_of_lt above r.isLt) passed
  · cases sound.kids init addr i false rfl q below child

theorem Inv.settles_wait (inv : Inv state) {phase : WaitPhase}
    (here : state.stage p = .wait addr phase) (taken : waitStep state p addr phase = some next) :
    Settles state next := by
  have sound := inv.sound p
  rw [here] at sound
  have alive := sound.alive rfl
  cases phase with
  | scan i havekids =>
    by_cases inside : i < nproc
    · rw [waitStep, dif_pos inside] at taken
      split at taken
      · cases taken
        exact .of_kept rfl fun _ => id
      · cases taken
        exact .of_kept rfl fun _ => id
    · rw [waitStep, dif_neg inside] at taken
      split at taken
      next fails =>
        cases taken
        refine ⟨fun q zombie gone => absurd zombie gone, ?_, ?_⟩
        · intro answer q more freed
          obtain rfl := List.cons.inj (List.append_cancel_left more) |>.1
          cases freed
        · intro answer more _
          obtain rfl := List.cons.inj (List.append_cancel_left more) |>.1
          refine ⟨rfl, rfl, ?_⟩
          rcases fails with rfl | killed
          · exact .inl (inv.no_child here inside)
          · exact .inr (.inl killed)
      · cases taken
        exact .of_kept rfl (zombie_update rfl fun zombie => absurd zombie alive)
  | check i =>
    have child : state.parent i = some p := sound.child i rfl
    obtain ⟨free, checked⟩ := ite_none_right_eq_some.mp taken
    split at checked
    next zombie =>
      split at checked
      next bad =>
        cases checked
        subst bad
        refine ⟨fun q zombie gone => absurd zombie gone, ?_, ?_⟩
        · intro answer q more freed
          obtain rfl := List.cons.inj (List.append_cancel_left more) |>.1
          cases freed
        · intro answer more _
          obtain rfl := List.cons.inj (List.append_cancel_left more) |>.1
          exact ⟨rfl, rfl, .inr (.inr ⟨i, here, zombie, child⟩)⟩
      next good =>
        have result := Option.some.inj checked
        have procs : next.proc = Function.update state.proc i .freed := by
          rw [← result]
          rfl
        have answers : next.answers = state.answers ++ [⟨p, (state.proc i).pid,
            if addr = .writable then some (state.proc i).xstate else none, some i⟩] := by
          rw [← result]
          rfl
        have collected : Collected state next i :=
          ⟨p, addr, child, here, good, by rw [procs, Function.update_self], answers⟩
        refine ⟨?_, ?_, ?_⟩
        · intro q zombieQ gone
          by_cases same : q = i
          · subst same
            exact collected
          · rw [procs, Function.update_of_ne same] at gone
            exact absurd zombieQ gone
        · intro answer q more freed
          rw [answers] at more
          obtain rfl := List.cons.inj (List.append_cancel_left more) |>.1
          cases freed
          exact ⟨zombie, collected⟩
        · intro answer more freed
          rw [answers] at more
          obtain rfl := List.cons.inj (List.append_cancel_left more) |>.1
          cases freed
    · cases checked
      exact .of_kept rfl fun _ => id
  | asleep => cases taken

theorem settles_exit {status : Int} {phase : ExitPhase}
    (taken : exitStep state p status phase = some next) : Settles state next := by
  cases phase with
  | wakeInit =>
    obtain ⟨_, rfl⟩ := ite_some_none_eq_some.mp taken
    exact .of_kept rfl (zombie_update rfl (wakeup1_spec 0 _).2.2.1.mpr)
  | sample =>
    obtain ⟨_, found⟩ := ite_none_right_eq_some.mp taken
    obtain ⟨o, _, rfl⟩ := Option.map_eq_some_iff.mp found
    exact .of_kept rfl fun _ => id
  | parent o =>
    obtain ⟨_, rfl⟩ := ite_some_none_eq_some.mp taken
    exact .of_kept rfl fun _ => id
  | self o =>
    obtain ⟨_, rfl⟩ := ite_some_none_eq_some.mp taken
    exact .of_kept rfl fun _ => id
  | scan o i =>
    by_cases inside : i < nproc
    · rw [exitStep, dif_pos inside] at taken
      split at taken
      · cases taken
        exact .of_kept rfl fun _ => id
      · cases taken
        exact .of_kept rfl fun _ => id
    · rw [exitStep, dif_neg inside] at taken
      cases taken
      refine .of_kept rfl fun q zombie => ?_
      have woken : (state.modify o (wakeup1 o)).Zombie q :=
        zombie_update rfl (wakeup1_spec o _).2.2.1.mpr q zombie
      exact zombie_update rfl (fun _ => rfl) q woken
  | give o i =>
    obtain ⟨_, rfl⟩ := ite_some_none_eq_some.mp taken
    exact .of_kept rfl (zombie_update rfl id)
  | last =>
    cases taken
    exact .of_kept rfl fun _ => id
  | gone => cases taken

/-- What every step does for the zombies and the calls of `wait`. -/
theorem Inv.settles (inv : Inv state) {label : Label}
    (taken : WaitExit.step state label = some next) : Settles state next := by
  have unused_alive : ∀ q, state.Unused q → ¬state.Zombie q := by
    intro q unused zombie
    rw [State.Unused, zombie] at unused
    cases unused
  cases label with
  | fork p q =>
    obtain ⟨_, rfl⟩ := ite_some_none_eq_some.mp taken
    exact .of_kept rfl (zombie_update rfl id)
  | forkFails p freed =>
    simp only [WaitExit.step] at taken
    split at taken
    next q forking =>
      cases taken
      have sound := inv.sound p
      have unused := (sound.making q false forking).1
      exact .of_kept rfl (zombie_update rfl fun zombie => absurd zombie (unused_alive q unused))
    next => cases taken
  | exit p status =>
    obtain ⟨_, rfl⟩ := ite_some_none_eq_some.mp taken
    exact .of_kept rfl fun _ => id
  | wait p addr =>
    obtain ⟨_, rfl⟩ := ite_some_none_eq_some.mp taken
    exact .of_kept rfl fun _ => id
  | act p =>
    simp only [WaitExit.step] at taken
    split at taken
    next => cases taken
    next q placed forking =>
      obtain ⟨_, rfl⟩ := ite_some_none_eq_some.mp taken
      have unused := ((inv.sound p).making q placed forking).1
      have alive := unused_alive q unused
      cases placed with
      | false => exact .of_kept rfl (zombie_update rfl fun zombie => absurd zombie alive)
      | true => exact .of_kept rfl (zombie_update rfl fun zombie => absurd zombie alive)
    next status phase here =>
      obtain ⟨_, moved⟩ := ite_none_right_eq_some.mp taken
      exact settles_exit moved
    next addr phase here =>
      obtain ⟨_, moved⟩ := ite_none_right_eq_some.mp taken
      exact inv.settles_wait here moved
  | run p =>
    obtain ⟨⟨runnable, _⟩, chosen⟩ := ite_none_right_eq_some.mp taken
    have alive : ¬state.Zombie p := by simp [State.Zombie, runnable]
    split at chosen
    · cases chosen
      exact .of_kept rfl (zombie_update rfl fun zombie => absurd zombie alive)
    · cases chosen
      exact .of_kept rfl (zombie_update rfl fun zombie => absurd zombie alive)
  | yield p =>
    obtain ⟨⟨running, _⟩, rfl⟩ := ite_some_none_eq_some.mp taken
    exact .of_kept rfl (zombie_update rfl fun zombie => absurd zombie (alive_of_running running))
  | sleep p =>
    obtain ⟨⟨⟨running, _⟩, _⟩, rfl⟩ := ite_some_none_eq_some.mp taken
    exact .of_kept rfl (zombie_update rfl fun zombie => absurd zombie (alive_of_running running))
  | wakeup q =>
    obtain ⟨_, rfl⟩ := ite_some_none_eq_some.mp taken
    exact .of_kept rfl (zombie_update rfl (rouse_state _).2.1.mpr)
  | kill q =>
    obtain ⟨_, rfl⟩ := ite_some_none_eq_some.mp taken
    exact .of_kept rfl (zombie_update rfl (rouse_state _).2.1.mpr)

end Steps

/-- In every interleaving a zombie goes to one wait of its parent, which returns its pid and
its status; a wait fails only without a child, killed, or without a place for the status; a
process has the parent that made it until that one exits, and init after that; and no parent
but init sleeps beside a zombie. -/
theorem reaping {labels : List Label} {state : State} (runs : system.Runs labels state) :
    (∀ label next, step state label = some next → Settles state next) ∧ Kept state ∧
      Awake state := by
  have inv := inv_of_runs runs
  refine ⟨fun label next taken => inv.settles taken, ?_, ?_⟩
  · intro q used notInit
    obtain ⟨o, parent⟩ := inv.family.orphan q used notInit
    have guarded := inv.family.guarded q o parent
    exact ⟨o, parent, guarded.parent, guarded.maker⟩
  · intro p q addr notInit here asleep child
    have sound := inv.sound p
    rw [here] at sound
    refine sound.looked notInit q ?_ child
    have sleeps : state.Asleep p := asleep
    rw [Stage.looked, if_pos sleeps]
    exact q.isLt

/-- A child exits and is waited for. -/
def collected : List Label :=
  [.run 0, .fork 0 1, .act 0, .act 0, .run 1, .exit 1 7, .act 1, .act 1, .act 1, .act 1] ++
    List.replicate nproc (.act 1) ++ [.act 1, .act 1, .wait 0 .writable, .act 0, .act 0, .act 0]

theorem reaping_collected :
    ∃ state, system.Runs collected state ∧ state.answers = [⟨0, 2, some 7, some 1⟩] ∧
      Awake state := by
  have found : (LabelledSystem.exec step boot collected).any
      (fun state => state.answers = [⟨0, 2, some 7, some 1⟩]) = true := by
    decide +kernel
  obtain ⟨state, result, facts⟩ := (Option.any_eq_true _ _).mp found
  have runs : system.Runs collected state := .of_exec rfl result
  exact ⟨state, runs, of_decide_eq_true facts, (reaping runs).2.2⟩

end Ev6.Processes.WaitExit
