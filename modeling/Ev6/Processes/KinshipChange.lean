import Ev6.Processes.KinshipQuiet

/-!
# The steps that change the family

`fork` gives a child its parent and makes it runnable, `reparent` gives one to init, `exit`
ends a process and `wait` frees its slot.
-/

namespace Ev6.Processes.WaitExit

open Function (update update_of_ne update_self)
open Support Files

section Steps

variable {state : State} {p : Fin nproc}

theorem Inv.holds_inj (inv : Inv state) {r q : Fin nproc} (mine : (state.stage p).Holds p q)
    (yours : (state.stage r).Holds r q) : r = p := by
  have left := (inv.locked p q).mp mine
  have right := (inv.locked r q).mp yours
  rw [left] at right
  exact (Option.some.inj right).symm

/-- A step that changes the process in one slot, and does not end it. -/
structure Only (state next : State) (q : Fin nproc) : Prop where
  procs : ∀ r, r ≠ q → next.proc r = state.proc r
  zombie : next.Zombie q → state.Zombie q
  number : ∀ r, r ≠ q → next.number r = state.number r
  maker : ∀ r, r ≠ q → next.maker r = state.maker r
  left : next.left = state.left

section Only

variable {next : State} {q r : Fin nproc}

theorem Only.parent (only : Only state next q) (other : r ≠ q) :
    next.parent r = state.parent r := by
  rw [State.parent, only.procs r other, State.parent]

theorem Only.unused (only : Only state next q) (other : r ≠ q) :
    next.Unused r ↔ state.Unused r := by
  rw [State.Unused, only.procs r other, State.Unused]

theorem Only.zombie_of_ne (only : Only state next q) (other : r ≠ q) :
    next.Zombie r ↔ state.Zombie r := by
  rw [State.Zombie, only.procs r other, State.Zombie]

/-- A process in another slot does not notice, if it is not the parent of the changed one
before or after, and not making it. Init may get it as a child. -/
theorem Only.unmoved (only : Only state next q) (sound : Sound state r (state.stage r))
    (other : r ≠ q) (before : state.parent q ≠ some r)
    (after : r ≠ 0 → next.parent q ≠ some r) (making : ∀ placed, state.stage r ≠ .fork q placed)
    (alone : r = 0 → q ≠ 0 → state.Unused q → next.Unused q ∨ ∃ s, s ≠ 0 ∧ ¬state.Unused s) :
    Unmoved state next r where
  unused := only.unused other
  zombie := only.zombie_of_ne other
  asleep := by
    rw [State.Asleep, State.Asleep, only.procs r other]
    exact fun asleep => ⟨asleep, rfl⟩
  number := only.number r other
  left := by
    rw [only.left]
    exact fun _ => id
  own := .inl (only.parent other)
  children := by
    intro s child
    by_cases here : s = q
    · exact absurd (here ▸ child) before
    · rw [only.parent here]
      exact child
  newborn := by
    intro notInit s child
    by_cases here : s = q
    · exact absurd (here ▸ child) (after notInit)
    · rwa [only.parent here] at child
  zombies := by
    intro _ s _ zombie alive
    by_cases here : s = q
    · subst here
      exact absurd (only.zombie zombie) alive
    · exact absurd ((only.zombie_of_ne here).mp zombie) alive
  making := by
    intro s placed here
    have apart : s ≠ q := by
      rintro rfl
      exact making placed here
    exact ⟨(only.unused apart).mpr (sound.making s placed here).1, only.parent apart⟩
  alone := by
    intro init empty s notInit
    by_cases here : s = q
    · subst here
      refine (alone init notInit (empty s notInit)).resolve_right ?_
      rintro ⟨t, notInitT, used⟩
      exact used (empty t notInitT)
    · exact (only.unused here).mpr (empty s notInit)

/-- What holds of a child in another slot and its parent. -/
theorem Only.guarded (only : Only state next q) {o : Fin nproc} (guarded : Guarded state r o)
    (other : r ≠ q) (parent : o ≠ q) (ahead : ¬(next.stage o).Past r)
    (forking : state.stage o = .fork r true → next.stage o = .fork r true) :
    Guarded next r o where
  child := by
    rw [only.unused other]
    exact guarded.child.imp_right forking
  parent := by
    rw [only.unused parent]
    exact guarded.parent
  ahead := ahead
  older := by
    rw [only.number o parent, only.number r other]
    exact guarded.older
  maker := by
    rw [only.number o parent, only.maker r other, only.left]
    exact guarded.maker

end Only

theorem Inv.place (inv : Inv state) {q : Fin nproc} (forking : state.stage p = .fork q false) :
    Inv (forkStep state p q false) := by
  have sound := inv.sound p
  rw [forking] at sound
  obtain ⟨unused, orphan⟩ := sound.making q false rfl
  have used := sound.used Stage.noConfusion
  have apart : p ≠ q := fun same => used (same ▸ unused)
  have first : (0 : Fin nproc) ≠ q := fun same => inv.family.init.1 (same ▸ unused)
  generalize result : forkStep state p q false = next
  have stages : next.stage = update state.stage p (.fork q true) := by
    rw [← result]
    rfl
  have parent : next.parent q = some p := by
    simp [← result, forkStep, State.goto, State.modify, State.parent]
  have still : next.Unused q := by
    simpa [← result, forkStep, State.goto, State.modify, State.Unused] using unused
  have born : next.number q = state.made ∧ next.maker q = state.number p := by
    simp [← result, forkStep, State.goto]
  have counted : next.made = state.made + 1 := by
    rw [← result]
    rfl
  have only : Only state next q := by
    rw [← result]
    refine ⟨?_, ?_, ?_, ?_, rfl⟩
    · intro r other
      simp [forkStep, State.goto, State.modify, other]
    · simp [forkStep, State.goto, State.modify, State.Zombie]
    · intro r other
      simp [forkStep, State.goto, other]
    · intro r other
      simp [forkStep, State.goto, other]
  refine ⟨⟨?_, ?_, ?_, ?_⟩, ?_, ?_⟩
  · rw [only.unused first, only.parent first]
    exact inv.family.init
  · intro r usedR notInit
    have other : r ≠ q := fun same => usedR (same ▸ still)
    rw [only.parent other]
    exact inv.family.orphan r (fun unusedR => usedR ((only.unused other).mpr unusedR)) notInit
  · intro r o child
    by_cases fresh : r = q
    · subst fresh
      rw [parent] at child
      cases child
      refine ⟨.inr ?_, ?_, ?_, ?_, .inl ?_⟩
      · rw [stages, update_self]
      · rw [only.unused apart]
        exact used
      · rw [stages, update_self]
        exact id
      · intro _
        rw [only.number p apart, born.1]
        exact inv.family.numbers p
      · rw [only.number p apart, born.2]
    · rw [only.parent fresh] at child
      have guarded := inv.family.guarded r o child
      refine only.guarded guarded fresh (fun same => guarded.parent (same ▸ unused)) ?_ ?_ <;>
        rw [stages] <;> by_cases same : o = p
      · rw [same, update_self]
        exact id
      · rw [update_of_ne same]
        exact guarded.ahead
      · rw [same, forking]
        exact fun equal => by cases equal
      · rw [update_of_ne same]
        exact id
  · intro r
    rw [counted]
    by_cases fresh : r = q
    · rw [fresh, born.1]
      exact Nat.lt_succ_self _
    · rw [only.number r fresh]
      exact Nat.lt_succ_of_lt (inv.family.numbers r)
  · intro r
    rw [stages]
    by_cases mine : r = p
    · subst mine
      rw [update_self]
      refine .fork ?_ ?_ still parent
      · rw [only.unused apart]
        exact used
      · rw [only.zombie_of_ne apart]
        exact sound.alive rfl
    rw [update_of_ne mine]
    by_cases fresh : r = q
    · subst fresh
      rw [(inv.sound r).idle unused]
      exact .user fun zombie => by rw [State.Zombie, still] at zombie; cases zombie
    refine (inv.sound r).keep (only.unmoved (inv.sound r) fresh ?_ ?_ ?_ ?_)
    · rw [orphan]
      rintro ⟨⟩
    · rw [parent]
      exact fun _ same => mine (Option.some.inj same).symm
    · exact fun placed making =>
        mine (inv.holds_inj (by rw [forking]; rfl) (by rw [making]; rfl))
    · exact fun _ _ _ => .inl still
  · refine inv.locked.update stages (fun s => ?_) fun r _ s => ?_
    · have before := inv.locked p s
      rw [forking] at before
      rw [← result]
      exact before
    · rw [← result]
      rfl

theorem Inv.ready (inv : Inv state) {q : Fin nproc} (forking : state.stage p = .fork q true) :
    Inv (forkStep state p q true) := by
  have sound := inv.sound p
  rw [forking] at sound
  obtain ⟨unused, parent⟩ := sound.making q true rfl
  have used := sound.used Stage.noConfusion
  have apart : p ≠ q := fun same => used (same ▸ unused)
  have first : (0 : Fin nproc) ≠ q := fun same => inv.family.init.1 (same ▸ unused)
  have holds := inv.locked p
  rw [forking] at holds
  have held : state.lock q = some p := (holds q).mp rfl
  generalize result : forkStep state p q true = next
  have stages : next.stage = update state.stage p .user := by
    rw [← result]
    rfl
  have parentAfter : next.parent q = some p := by
    simpa [← result, forkStep, State.goto, State.drop, State.modify, State.parent] using parent
  have runnable : (next.proc q).state = .runnable := by
    simp [← result, forkStep, State.goto, State.drop, State.modify]
  have only : Only state next q := by
    rw [← result]
    refine ⟨?_, ?_, fun _ _ => rfl, fun _ _ => rfl, rfl⟩
    · intro r other
      simp [forkStep, State.goto, State.drop, State.modify, other]
    · simp [forkStep, State.goto, State.drop, State.modify, State.Zombie]
  have same : next.number = state.number ∧ next.maker = state.maker ∧ next.made = state.made := by
    rw [← result]
    exact ⟨rfl, rfl, rfl⟩
  refine ⟨⟨?_, ?_, ?_, ?_⟩, ?_, ?_⟩
  · rw [only.unused first, only.parent first]
    exact inv.family.init
  · intro r usedR notInit
    by_cases fresh : r = q
    · exact ⟨p, fresh ▸ parentAfter⟩
    · rw [only.parent fresh]
      exact inv.family.orphan r (fun unusedR => usedR ((only.unused fresh).mpr unusedR)) notInit
  · intro r o child
    by_cases fresh : r = q
    · subst fresh
      rw [parentAfter] at child
      cases child
      have guarded := inv.family.guarded r p parent
      refine ⟨.inl ?_, ?_, ?_, ?_, ?_⟩
      · simp [State.Unused, runnable]
      · rw [only.unused apart]
        exact used
      · rw [stages, update_self]
        exact id
      · rw [same.1]
        exact guarded.older
      · rw [same.1, same.2.1, only.left]
        exact guarded.maker
    · rw [only.parent fresh] at child
      have guarded := inv.family.guarded r o child
      refine only.guarded guarded fresh (fun equal => guarded.parent (equal ▸ unused)) ?_ ?_ <;>
        rw [stages] <;> by_cases mine : o = p
      · rw [mine, update_self]
        exact id
      · rw [update_of_ne mine]
        exact guarded.ahead
      · rw [mine, forking]
        rintro ⟨⟩
        exact absurd rfl fresh
      · rw [update_of_ne mine]
        exact id
  · intro r
    rw [same.1, same.2.2]
    exact inv.family.numbers r
  · intro r
    rw [stages]
    by_cases mine : r = p
    · subst mine
      rw [update_self]
      apply Sound.user
      rw [only.zombie_of_ne apart]
      exact sound.alive rfl
    rw [update_of_ne mine]
    by_cases fresh : r = q
    · subst fresh
      rw [(inv.sound r).idle unused]
      exact .user (by simp [State.Zombie, runnable])
    refine (inv.sound r).keep (only.unmoved (inv.sound r) fresh ?_ ?_ ?_ ?_)
    · rw [parent]
      exact fun equal => mine (Option.some.inj equal).symm
    · rw [parentAfter]
      exact fun _ equal => mine (Option.some.inj equal).symm
    · exact fun placed making =>
        mine (inv.holds_inj (by rw [forking]; rfl) (by rw [making]; rfl))
    · rintro rfl _ _
      exact .inr ⟨p, fun init => mine init.symm, used⟩
  · refine inv.locked.update stages (fun s => ?_) ?_
    · rw [← result]
      by_cases here : s = q
      · subst here
        simp [Stage.Holds, forkStep, State.goto, State.drop]
      · simpa [Stage.Holds, forkStep, State.goto, State.drop, State.modify, here] using holds s
    · rw [← result]
      exact lock_others (.inr held) (.inl rfl)

theorem Inv.init_not_past (inv : Inv state) (r : Fin nproc) : ¬(state.stage 0).Past r := by
  intro past
  cases stage : state.stage 0 with
  | exit status phase => exact ((inv.sound 0).exits status phase stage).1 rfl
  | _ =>
    rw [stage] at past
    exact past

theorem Inv.give (inv : Inv state) {status : Int} {o i : Fin nproc}
    (here : state.stage p = .exit status (.give o i)) :
    Inv ((state.modify i fun proc => { proc with parent := some 0 }).goto p
      (.exit status (.scan o (i + 1)))) := by
  have sound := inv.sound p
  rw [here] at sound
  have child : state.parent i = some p := sound.child i rfl
  have guarded := inv.family.guarded i p child
  obtain ⟨notInit, left⟩ := sound.exits status _ rfl
  have used : ¬state.Unused i := guarded.child.resolve_right (by rw [here]; rintro ⟨⟩)
  have first : (0 : Fin nproc) ≠ i := by
    rintro rfl
    rw [inv.family.init.2] at child
    cases child
  have apart : p ≠ i := by
    rintro rfl
    exact inv.family.not_own_parent child notInit
  generalize result : (state.modify i fun proc => { proc with parent := some 0 }).goto p
      (.exit status (.scan o (i + 1))) = next
  have stages : next.stage = update state.stage p (.exit status (.scan o (i + 1))) := by
    rw [← result]
    rfl
  have parent : next.parent i = some 0 := by
    simp [← result, State.goto, State.modify, State.parent]
  have only : Only state next i := by
    rw [← result]
    refine ⟨?_, ?_, fun _ _ => rfl, fun _ _ => rfl, rfl⟩
    · intro r other
      simp [State.goto, State.modify, other]
    · simp [State.goto, State.modify, State.Zombie]
  have unused : next.Unused i ↔ state.Unused i := by
    simp [← result, State.goto, State.modify, State.Unused]
  have zombie : next.Zombie i ↔ state.Zombie i := by
    simp [← result, State.goto, State.modify, State.Zombie]
  have asleep : next.Asleep i → state.Asleep i ∧ (next.proc i).chan = (state.proc i).chan := by
    simp [← result, State.goto, State.modify, State.Asleep]
  have same : next.number = state.number ∧ next.maker = state.maker ∧ next.made = state.made := by
    rw [← result]
    exact ⟨rfl, rfl, rfl⟩
  refine ⟨⟨?_, ?_, ?_, ?_⟩, ?_, ?_⟩
  · rw [only.unused first, only.parent first]
    exact inv.family.init
  · intro r usedR notInitR
    by_cases moved : r = i
    · exact ⟨0, moved ▸ parent⟩
    · rw [only.parent moved]
      exact inv.family.orphan r (fun unusedR => usedR ((only.unused moved).mpr unusedR)) notInitR
  · intro r keeper childR
    by_cases moved : r = i
    · subst moved
      rw [parent] at childR
      cases childR
      refine ⟨.inl ?_, ?_, ?_, fun other => absurd rfl other, .inr ⟨rfl, ?_⟩⟩
      · rw [unused]
        exact used
      · rw [only.unused first]
        exact inv.family.init.1
      · rw [stages, update_of_ne notInit.symm]
        exact inv.init_not_past r
      · rcases guarded.maker with maker | ⟨init, _⟩
        · rw [same.2.1, only.left, ← maker]
          exact left
        · exact absurd init notInit
    · rw [only.parent moved] at childR
      have guardedR := inv.family.guarded r keeper childR
      by_cases given : keeper = i
      · -- a child of the child keeps its parent
        subst given
        refine ⟨?_, ?_, ?_, ?_, ?_⟩
        · rw [only.unused moved, stages, update_of_ne apart.symm]
          exact guardedR.child
        · rw [unused]
          exact guardedR.parent
        · rw [stages, update_of_ne apart.symm]
          exact guardedR.ahead
        · rw [same.1]
          exact guardedR.older
        · rw [same.1, same.2.1, only.left]
          exact guardedR.maker
      · refine only.guarded guardedR moved given ?_ ?_ <;> rw [stages] <;>
          by_cases mine : keeper = p
        · subst mine
          rw [update_self]
          intro behind
          have below : r < i := by
            refine lt_of_le_of_ne (Nat.lt_succ_iff.mp behind) moved
          exact guardedR.ahead (by rw [here]; exact below)
        · rw [update_of_ne mine]
          exact guardedR.ahead
        · rw [mine, here]
          rintro ⟨⟩
        · rw [update_of_ne mine]
          exact id
  · intro r
    rw [same.1, same.2.2]
    exact inv.family.numbers r
  · intro r
    rw [stages]
    by_cases mine : r = p
    · subst mine
      rw [update_self]
      apply Sound.exit
      · rw [only.unused apart]
        exact sound.used Stage.noConfusion
      · rw [only.zombie_of_ne apart]
        exact sound.ended
      · exact notInit
      · rw [same.1, only.left]
        exact left
      · rw [only.parent apart]
        exact sound.target
      · rintro _ ⟨⟩
    rw [update_of_ne mine]
    by_cases moved : r = i
    · subst moved
      refine (inv.sound r).keep ⟨unused, zombie, asleep, congrFun same.1 r, ?_, .inr parent, ?_, ?_,
        ?_, ?_, ?_⟩
      · rw [only.left]
        exact fun _ => id
      · intro s childS
        have other : s ≠ r := by
          rintro rfl
          rw [childS] at child
          exact apart (Option.some.inj child).symm
        rw [only.parent other]
        exact childS
      · intro notInitR s childS
        by_cases other : s = r
        · subst other
          rw [parent] at childS
          exact absurd (Option.some.inj childS).symm notInitR
        · rwa [only.parent other] at childS
      · intro _ s _ zombieS aliveS
        by_cases other : s = r
        · subst other
          exact absurd (zombie.mp zombieS) aliveS
        · exact absurd ((only.zombie_of_ne other).mp zombieS) aliveS
      · intro s placed making
        obtain ⟨unusedS, _⟩ := (inv.sound r).making s placed making
        have other : s ≠ r := by
          rintro rfl
          exact used unusedS
        exact ⟨(only.unused other).mpr unusedS, only.parent other⟩
      · exact fun init => absurd init.symm first
    refine (inv.sound r).keep (only.unmoved (inv.sound r) moved ?_ ?_ ?_ ?_)
    · rw [child]
      exact fun equal => mine (Option.some.inj equal).symm
    · rw [parent]
      exact fun notInitR equal => notInitR (Option.some.inj equal).symm
    · exact fun placed making => used ((inv.sound r).making i placed making).1
    · exact fun _ _ empty => absurd empty used
  · refine inv.locked.update stages (fun s => ?_) fun r _ s => ?_
    · have before := inv.locked p s
      rw [here] at before
      rw [← result]
      exact before
    · rw [← result]
      rfl

theorem wakeup1_spec (q : Fin nproc) (proc : Proc) : (wakeup1 q proc).parent = proc.parent ∧
      ((wakeup1 q proc).state = .unused ↔ proc.state = .unused) ∧
      ((wakeup1 q proc).state = .zombie ↔ proc.state = .zombie) ∧
      ((wakeup1 q proc).state = .sleeping → wakeup1 q proc = proc ∧ proc.chan ≠ .proc q) := by
  unfold wakeup1
  by_cases sleeps : proc.chan = .proc q ∧ proc.state = .sleeping
  · simp [sleeps]
  · rw [if_neg sleeps]
    exact ⟨rfl, Iff.rfl, Iff.rfl, fun asleep => ⟨rfl, fun same => sleeps ⟨same, asleep⟩⟩⟩

/-- The process becomes a zombie. A parent that slept in `wait` has been woken. -/
theorem Inv.finish (inv : Inv state) {status : Int} {o : Fin nproc} {i : Nat}
    (here : state.stage p = .exit status (.scan o i)) (passed : ¬i < nproc) :
    Inv ((((state.modify o (wakeup1 o)).modify p fun proc =>
      { proc with xstate := status, state := .zombie }).drop o).goto p (.exit status .last)) := by
  have sound := inv.sound p
  have holds := inv.locked p
  rw [here] at sound holds
  obtain ⟨notInit, left⟩ := sound.exits status _ rfl
  obtain ⟨apart, parent⟩ := sound.target o rfl
  have used := sound.used Stage.noConfusion
  have held : state.lock o = some p := (holds o).mp (.inl rfl)
  have childless : ∀ r, state.parent r ≠ some p := by
    intro r child
    apply (inv.family.guarded r p child).ahead
    rw [here]
    exact Nat.lt_of_lt_of_le r.isLt (Nat.not_lt.mp passed)
  generalize result : (((state.modify o (wakeup1 o)).modify p fun proc =>
      { proc with xstate := status, state := .zombie }).drop o).goto p (.exit status .last) = next
  have stages : next.stage = update state.stage p (.exit status .last) := by
    rw [← result]
    rfl
  have ended : next.proc p = { state.proc p with xstate := status, state := .zombie } := by
    simp [← result, State.goto, State.drop, State.modify, apart.symm]
  have woken : next.proc o = wakeup1 o (state.proc o) := by
    simp [← result, State.goto, State.drop, State.modify, apart]
  have others : ∀ r, r ≠ p → r ≠ o → next.proc r = state.proc r := by
    intro r mine target
    simp [← result, State.goto, State.drop, State.modify, mine, target]
  have same : next.number = state.number ∧ next.maker = state.maker ∧ next.made = state.made ∧
      next.left = state.left := by
    rw [← result]
    exact ⟨rfl, rfl, rfl, rfl⟩
  obtain ⟨wokenParent, wokenUnused, wokenZombie, wokenSleep⟩ := wakeup1_spec o (state.proc o)
  have parents : ∀ r, next.parent r = state.parent r := by
    intro r
    by_cases mine : r = p
    · rw [mine, State.parent, ended, State.parent]
    by_cases target : r = o
    · rw [target, State.parent, woken, wokenParent, State.parent]
    · rw [State.parent, others r mine target, State.parent]
  have unused : ∀ r, next.Unused r ↔ state.Unused r := by
    intro r
    by_cases mine : r = p
    · subst mine
      refine iff_of_false ?_ used
      simp [State.Unused, ended]
    by_cases target : r = o
    · rw [target, State.Unused, woken, wokenUnused, State.Unused]
    · rw [State.Unused, others r mine target, State.Unused]
  have zombie : ∀ r, r ≠ p → (next.Zombie r ↔ state.Zombie r) := by
    intro r mine
    by_cases target : r = o
    · rw [target, State.Zombie, woken, wokenZombie, State.Zombie]
    · rw [State.Zombie, others r mine target, State.Zombie]
  have asleep : ∀ r, r ≠ p → next.Asleep r →
      state.Asleep r ∧ (next.proc r).chan = (state.proc r).chan := by
    intro r mine sleeps
    by_cases target : r = o
    · subst target
      rw [State.Asleep, woken] at sleeps
      rw [woken, (wokenSleep sleeps).1]
      rw [(wokenSleep sleeps).1] at sleeps
      exact ⟨sleeps, rfl⟩
    · rw [State.Asleep, others r mine target] at sleeps
      rw [others r mine target]
      exact ⟨sleeps, rfl⟩
  refine ⟨⟨?_, ?_, ?_, ?_⟩, ?_, ?_⟩
  · rw [unused, parents]
    exact inv.family.init
  · intro r usedR notInitR
    rw [unused] at usedR
    rw [parents]
    exact inv.family.orphan r usedR notInitR
  · intro r keeper child
    rw [parents] at child
    have mine : keeper ≠ p := fun equal => childless r (equal ▸ child)
    obtain ⟨usedR, parentR, ahead, older, maker⟩ := inv.family.guarded r keeper child
    refine ⟨?_, ?_, ?_, ?_, ?_⟩
    · rw [unused, stages, update_of_ne mine]
      exact usedR
    · rw [unused]
      exact parentR
    · rw [stages, update_of_ne mine]
      exact ahead
    · rw [same.1]
      exact older
    · rw [same.1, same.2.1, same.2.2.2]
      exact maker
  · intro r
    rw [same.1, same.2.2.1]
    exact inv.family.numbers r
  · intro r
    rw [stages]
    by_cases mine : r = p
    · subst mine
      rw [update_self]
      apply Sound.exit
      · rw [unused]
        exact used
      · exact iff_of_true (by rw [State.Zombie, ended]) rfl
      · exact notInit
      · rw [same.1, same.2.2.2]
        exact left
      · rintro _ ⟨⟩
      · rintro _ ⟨⟩
    rw [update_of_ne mine]
    refine (inv.sound r).keep ⟨unused r, zombie r mine, asleep r mine, congrFun same.1 r, ?_,
      .inl (parents r), ?_, ?_, ?_, ?_, ?_⟩
    · rw [same.2.2.2]
      exact fun _ => id
    · exact fun s child => (parents s).trans child
    · exact fun _ s child => (parents s).symm.trans child
    · intro notInitR s child zombieS aliveS
      -- only `p` has become a zombie, so `r` is its parent and does not look at it
      have same : s = p := by
        by_contra other
        exact aliveS ((zombie s other).mp zombieS)
      rw [same, parents] at child
      have target : r = o := by
        rcases parent with parent | parent
        · exact Option.some.inj (child.symm.trans parent)
        · exact absurd (Option.some.inj (child.symm.trans parent)) notInitR
      have unlocked : ¬(state.stage r).Holds r r := by
        intro holdsOwn
        have own := (inv.locked r r).mp holdsOwn
        rw [target, held] at own
        exact mine (target.trans (Option.some.inj own).symm)
      refine Nat.le_trans (Nat.le_of_eq ?_) (Nat.zero_le _)
      cases stage : state.stage r with
      | wait addr phase =>
        rw [stage] at unlocked
        cases phase with
        | asleep =>
          refine if_neg fun sleeps => ?_
          have chan := (inv.sound r).chan addr stage (asleep r mine sleeps).1
          rw [target, State.Asleep, woken] at sleeps
          rw [target] at chan
          exact (wokenSleep sleeps).2 chan
        | _ => exact absurd rfl unlocked
      | _ => rfl
    · intro s placed making
      exact ⟨(unused s).mpr ((inv.sound r).making s placed making).1, parents s⟩
    · exact fun _ alone s notInitS => (unused s).mpr (alone s notInitS)
  · have lock : next.lock = update state.lock o none := by
      rw [← result]
      rfl
    refine inv.locked.update stages (fun s => ?_) ?_
    · rw [lock]
      by_cases target : s = o
      · subst target
        simp [Stage.Holds, apart]
      · rw [update_of_ne target, ← holds s]
        simp [Stage.Holds, target]
    · rw [lock]
      exact lock_others (.inr held) (.inl rfl)

theorem Inv.reap (inv : Inv state) {next : State} {addr : Addr} {i : Fin nproc}
    (here : state.stage p = .wait addr (.check i)) (free : state.lock i = none)
    (zombie : (state.proc i).state = .zombie) (procs : next.proc = update state.proc i .freed)
    (stages : next.stage = update (update state.stage i .user) p .user)
    (lock : next.lock = update state.lock p none)
    (number : next.number = state.number) (maker : next.maker = state.maker)
    (made : next.made = state.made) (left : next.left = state.left) : Inv next := by
  have sound := inv.sound p
  have holds := inv.locked p
  rw [here] at sound holds
  have child : state.parent i = some p := sound.child i rfl
  have used := sound.used Stage.noConfusion
  have alive := sound.alive rfl
  have held : state.lock p = some p := (holds p).mp rfl
  have apart : p ≠ i := fun same => alive (same ▸ zombie)
  have first : (0 : Fin nproc) ≠ i := by
    rintro rfl
    rw [inv.family.init.2] at child
    cases child
  have ended : (state.stage i).ended = true := (inv.sound i).ended.mp zombie
  have freed : next.proc i = .freed := by rw [procs, update_self]
  have parent : next.parent i = none := by
    rw [State.parent, freed]
    rfl
  have still : next.Unused i := by
    rw [State.Unused, freed]
    rfl
  have gone : ¬next.Zombie i := by
    rw [State.Zombie, still]
    rintro ⟨⟩
  have only : Only state next i := by
    refine ⟨fun r other => ?_, fun again => absurd again gone, fun r _ => congrFun number r,
      fun r _ => congrFun maker r, left⟩
    rw [procs, update_of_ne other]
  refine ⟨⟨?_, ?_, ?_, ?_⟩, ?_, ?_⟩
  · rw [only.unused first, only.parent first]
    exact inv.family.init
  · intro r usedR notInit
    have other : r ≠ i := fun same => usedR (same ▸ still)
    rw [only.parent other]
    exact inv.family.orphan r (fun unusedR => usedR ((only.unused other).mpr unusedR)) notInit
  · intro r o childR
    have other : r ≠ i := by
      rintro rfl
      rw [parent] at childR
      cases childR
    rw [only.parent other] at childR
    have guarded := inv.family.guarded r o childR
    have keeper : o ≠ i := by
      rintro rfl
      apply guarded.ahead
      cases stage : state.stage o with
      | exit status phase =>
        rw [stage] at ended
        cases phase with
        | last => exact trivial
        | gone => exact trivial
        | _ => cases ended
      | _ =>
        rw [stage] at ended
        cases ended
    refine only.guarded guarded other keeper ?_ ?_ <;> rw [stages] <;> by_cases mine : o = p
    · rw [mine, update_self]
      exact id
    · rw [update_of_ne mine, update_of_ne keeper]
      exact guarded.ahead
    · rw [mine, here]
      rintro ⟨⟩
    · rw [update_of_ne mine, update_of_ne keeper]
      exact id
  · intro r
    rw [number, made]
    exact inv.family.numbers r
  · intro r
    rw [stages]
    by_cases mine : r = p
    · subst mine
      rw [update_self]
      apply Sound.user
      rw [only.zombie_of_ne apart]
      exact alive
    rw [update_of_ne mine]
    by_cases collected : r = i
    · subst collected
      rw [update_self]
      exact .user gone
    rw [update_of_ne collected]
    refine (inv.sound r).keep (only.unmoved (inv.sound r) collected ?_ ?_ ?_ ?_)
    · rw [child]
      exact fun same => mine (Option.some.inj same).symm
    · rw [parent]
      rintro _ ⟨⟩
    · intro placed making
      have unused := ((inv.sound r).making i placed making).1
      rw [State.Unused, zombie] at unused
      cases unused
    · exact fun _ _ _ => .inl still
  · intro r s
    rw [stages, lock]
    by_cases mine : r = p
    · subst mine
      rw [update_self]
      refine iff_of_false id ?_
      by_cases same : s = r
      · subst same
        simp
      · rw [update_of_ne same]
        exact fun heldS => same ((holds s).mpr heldS)
    rw [update_of_ne mine]
    have others := @lock_others p state.lock p none (.inr held) (.inl rfl) r mine s
    rw [others]
    by_cases collected : r = i
    · subst collected
      rw [update_self, ← inv.locked r s]
      refine iff_of_false id ?_
      intro holdsS
      cases stage : state.stage r with
      | exit status phase =>
        rw [stage] at ended holdsS
        cases phase with
        | last =>
          have own := (inv.locked r s).mp (by rw [stage]; exact holdsS)
          rw [show s = r from holdsS, free] at own
          cases own
        | gone => exact holdsS
        | _ => cases ended
      | _ =>
        rw [stage] at ended
        cases ended
    · rw [update_of_ne collected]
      exact inv.locked r s

end Steps

end Ev6.Processes.WaitExit
