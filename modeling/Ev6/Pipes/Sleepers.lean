import Ev6.Pipes.Calls

/-!
# Nobody sleeps through a wakeup

Only the holder of the lock changes the pipe. While a writer puts bytes into it, readers
may be asleep without reason: the writer wakes them when it has put its last byte, or when
it has to sleep itself. It does not wake them when it finds the pipe full and gives up.
`pipe_order` is about the runs in which no reader is asleep then, `reader_left_asleep` is a
run of the other kind.
-/

namespace Ev6.Pipes

open Function (update update_of_ne update_self)
open Support FileSystem

/-! ## The ring -/

theorem pipesize_dvd : pipesize ∣ 2 ^ 32 := ⟨8388608, rfl⟩

/-- The ring holds the bytes that have been put in and not taken out. -/
structure Ring (pipe : Pipe) (accepted delivered : List UInt8) : Prop where
  window : Window pipesize pipe.data accepted delivered.length
  nread : pipe.nread = UInt32.ofNat delivered.length
  nwrite : pipe.nwrite = UInt32.ofNat accepted.length
  order : delivered = accepted.take delivered.length

namespace Ring

variable {pipe : Pipe} {accepted delivered : List UInt8}

theorem room (ring : Ring pipe accepted delivered) :
    (pipe.nwrite - pipe.nread).toNat ≤ pipesize := by
  have low := ring.window.low
  have high := ring.window.high
  rw [ring.nread, ring.nwrite, toNat_ofNat_sub low (by simp only [pipesize] at high; omega)]
  omega

theorem empty_iff (ring : Ring pipe accepted delivered) :
    pipe.nread = pipe.nwrite ↔ delivered.length = accepted.length := by
  have low := ring.window.low
  have high := ring.window.high
  rw [ring.nread, ring.nwrite, ofNat_inj_of_near low (by simp only [pipesize] at high; omega)]

theorem full_iff (ring : Ring pipe accepted delivered) :
    Full pipe ↔ accepted.length = delivered.length + pipesize := by
  have low := ring.window.low
  have high := ring.window.high
  rw [Full, ring.nread, ring.nwrite, ← UInt32.ofNat_add,
    ofNat_inj_of_near high (by simp only [pipesize] at high ⊢; omega)]

theorem push (ring : Ring pipe accepted delivered) (space : ¬Full pipe) (c : UInt8) :
    Ring (pipe.push c) (accepted ++ [c]) delivered := by
  have low := ring.window.low
  have high := ring.window.high
  have place : pipe.nwrite.toNat % pipesize = accepted.length % pipesize := by
    rw [ring.nwrite, ofNat_mod pipesize_dvd]
  rw [ring.full_iff] at space
  refine ⟨?_, ring.nread, ?_, ?_⟩
  · rw [Pipe.push, place]
    exact ring.window.push (Nat.lt_of_le_of_ne high space) c
  · rw [Pipe.push, ring.nwrite, ofNat_succ, List.length_append, List.length_singleton]
  · rw [List.take_append_of_le_length low]
    exact ring.order

theorem pop (ring : Ring pipe accepted delivered) (filled : pipe.nread ≠ pipe.nwrite) :
    Ring { pipe with nread := pipe.nread + 1 } accepted
      (delivered ++ [pipe.data (pipe.nread.toNat % pipesize)]) := by
  have low := ring.window.low
  have more : delivered.length < accepted.length := by
    rw [Ne, ring.empty_iff] at filled
    omega
  have next := ring.window.next more
  have length : (delivered ++ [pipe.data (pipe.nread.toNat % pipesize)]).length =
      delivered.length + 1 := by
    rw [List.length_append, List.length_singleton]
  refine ⟨?_, ?_, ring.nwrite, ?_⟩
  · rw [length]
    exact ring.window.pop more
  · rw [length, ← ofNat_succ, ring.nread]
  · rw [List.drop_eq_getElem_cons more] at next
    rw [length, List.take_succ_eq_append_getElem more, (List.cons.inj next).1, ring.nread,
      ofNat_mod pipesize_dvd, ← ring.order]

end Ring

/-! ## The invariant -/

/-- The call is in a section under the lock. -/
def Phase.Active (phase : Phase) : Prop := phase ≠ .asleep ∧ phase ≠ .woken

/-- The holder of the lock has a wakeup to make. -/
def Owed (state : State) : Op → Prop
  | .read => ∃ p, state.lock = some p ∧
      ∃ call, state.calls p = some call ∧ call.op = .write ∧ call.phase = .wait
  | .write => ∃ p, state.lock = some p ∧
      ∃ call, state.calls p = some call ∧ call.op = .read ∧ call.phase = .copy

/-- What holds of a call. The sleepers have a reason, or the holder of the lock will wake
them. -/
structure Sound (state : State) (p : Fin nproc) (call : Call) : Prop where
  active : call.phase.Active ↔ state.lock = some p
  asleep : call.phase = .asleep → Reason state.pipe call.op ∨ Owed state call.op
  drowsy : call.phase = .drowsy → Reason state.pipe call.op
  copy : call.phase = .copy → call.op = .read ∧ (call.i = 0 → ¬Reason state.pipe .read)

/-- The ring is in order and every call is sound. -/
structure Inv (state : State) : Prop where
  ring : Ring state.pipe state.accepted state.delivered
  sound : ∀ p call, state.calls p = some call → Sound state p call

/-- What a step does to the calls of the processes that do not take it: it may wake them. -/
def Bystander (before after : Option Call) : Prop :=
  ∀ call, after = some call →
    ∃ old, before = some old ∧
      (call = old ∨ old.phase = .asleep ∧ call = { old with phase := .woken })

theorem Bystander.refl (call : Option Call) : Bystander call call :=
  fun call same => ⟨call, same, .inl rfl⟩

theorem Call.wakeIf_cases (op : Op) (call : Call) :
    call.wakeIf op = call ∧ ¬(call.op = op ∧ call.phase = .asleep) ∨
      call.phase = .asleep ∧ call.wakeIf op = { call with phase := .woken } := by
  unfold wakeIf
  by_cases sleeps : call.op = op ∧ call.phase = .asleep
  · exact .inr ⟨sleeps.2, if_pos sleeps⟩
  · exact .inl ⟨if_neg sleeps, sleeps⟩

theorem Bystander.wakeIf (op : Op) (before : Option Call) :
    Bystander before (before.map (·.wakeIf op)) := by
  intro call same
  obtain ⟨old, here, rfl⟩ := Option.map_eq_some_iff.mp same
  refine ⟨old, here, ?_⟩
  rcases old.wakeIf_cases op with ⟨kept, _⟩ | woken
  · exact .inl kept
  · exact .inr woken

theorem not_asleep_of_wakeIf {op : Op} {before : Option Call} {call : Call}
    (same : before.map (·.wakeIf op) = some call) (asleep : call.phase = .asleep) :
    before = some call ∧ call.op ≠ op := by
  obtain ⟨old, here, rfl⟩ := Option.map_eq_some_iff.mp same
  rcases old.wakeIf_cases op with ⟨kept, awake⟩ | ⟨_, woken⟩
  · rw [kept] at asleep ⊢
    exact ⟨here, fun sameOp => awake ⟨sameOp, asleep⟩⟩
  · rw [woken] at asleep
    cases asleep

section Steps

variable {state next : State} {p : Fin nproc} {call : Call}

/-- A step of one process under the lock. The others may be woken, those that sleep on need
a reason again. -/
theorem Inv.act (inv : Inv state) (before : state.lock = none ∨ state.lock = some p)
    (after : next.lock = none ∨ next.lock = some p)
    (ring : Ring next.pipe next.accepted next.delivered)
    (others : ∀ q, q ≠ p → Bystander (state.calls q) (next.calls q))
    (own : ∀ call, next.calls p = some call → Sound next p call)
    (sleepers : ∀ q call, q ≠ p → next.calls q = some call → state.calls q = some call →
      call.phase = .asleep → Reason next.pipe call.op ∨ Owed next call.op) : Inv next where
  ring := ring
  sound := by
    intro q call here
    by_cases same : q = p
    · subst same
      exact own call here
    have unlocked : state.lock ≠ some q := by
      rcases before with free | held
      · simp [free]
      · simpa [held] using fun equal : p = q => same equal.symm
    have unlockedAfter : next.lock ≠ some q := by
      rcases after with free | held
      · simp [free]
      · simpa [held] using fun equal : p = q => same equal.symm
    obtain ⟨old, there, kept | ⟨asleep, woken⟩⟩ := others q same call here
    · subst kept
      have inactive : ¬call.phase.Active := fun active =>
        unlocked ((inv.sound q call there).active.mp active)
      refine ⟨iff_of_false inactive unlockedAfter, sleepers q call same here there, ?_, ?_⟩
      · intro drowsy
        exact absurd ⟨by simp [drowsy], by simp [drowsy]⟩ inactive
      · intro copy
        exact absurd ⟨by simp [copy], by simp [copy]⟩ inactive
    · subst woken
      exact ⟨iff_of_false (fun active => active.2 rfl) unlockedAfter, nofun, nofun, nofun⟩

/-- Who sleeps while nobody has a wakeup to make has a reason. -/
theorem Inv.reason (inv : Inv state) {q : Fin nproc} (here : state.calls q = some call)
    (asleep : call.phase = .asleep) (unowed : ¬Owed state call.op) :
    Reason state.pipe call.op :=
  ((inv.sound q call here).asleep asleep).resolve_right unowed

theorem not_owed_of_free (free : state.lock = none) (op : Op) : ¬Owed state op := by
  cases op <;> rintro ⟨p, held, _⟩ <;> simp [free] at held

/-- The wakeup that the holder of the lock has to make. -/
theorem owed_of_held (held : state.lock = some p) (here : state.calls p = some call) (op : Op) :
    Owed state op ↔
      op = .read ∧ call.op = .write ∧ call.phase = .wait ∨
        op = .write ∧ call.op = .read ∧ call.phase = .copy := by
  cases op <;> simp [Owed, held, here]

/-- The call lets the lock go without touching the pipe, and wakes the calls of one kind or
none. The holder has no wakeup to make that it has not made. -/
theorem Inv.release (inv : Inv state) (held : state.lock = some p) (free : next.lock = none)
    (pipe : next.pipe = state.pipe) (accepted : next.accepted = state.accepted)
    (delivered : next.delivered = state.delivered)
    (others : ∀ q, q ≠ p → Bystander (state.calls q) (next.calls q))
    (own : ∀ call, next.calls p = some call → Sound next p call)
    (paid : ∀ q call, q ≠ p → next.calls q = some call → call.phase = .asleep →
      ¬Owed state call.op) : Inv next := by
  apply inv.act (.inr held) (.inl free)
  · rw [pipe, accepted, delivered]
    exact inv.ring
  · exact others
  · exact own
  · intro q call different here there asleep
    rw [pipe]
    exact .inl (inv.reason there asleep (paid q call different here asleep))

theorem Inv.pipewrite (inv : Inv state) (held : state.lock = some p)
    (here : state.calls p = some call) (write : call.op = .write) (wait : call.phase = .wait)
    (heard : GivesUp state p → ¬Sleeps state .read) : Inv (state.pipewrite p call) := by
  have owed := owed_of_held held here
  unfold State.pipewrite
  split_ifs with done full gives
  · -- the last byte is in the pipe, the readers are woken
    refine inv.release held rfl rfl rfl rfl ?_ ?_ ?_
    · intro q different
      simpa [State.leave, State.setCall, State.wakeup, different] using
        Bystander.wakeIf .read (state.calls q)
    · intro later left
      simp [State.leave, State.setCall] at left
    · intro q other different there asleep
      have awake := not_asleep_of_wakeIf
        (by simpa [State.leave, State.setCall, State.wakeup, different] using there) asleep
      simp [owed, awake.2, write]
  · -- the writer gives up
    have quiet := heard ⟨call, here, write, wait, Int.not_le.mp done, full, gives⟩
    refine inv.release held rfl rfl rfl rfl ?_ ?_ ?_
    · intro q different
      simpa [State.leave, State.setCall, different] using Bystander.refl (state.calls q)
    · intro later left
      simp [State.leave, State.setCall] at left
    · intro q other different there asleep
      have same : state.calls q = some other := by
        simpa [State.leave, State.setCall, different] using there
      have writer : other.op ≠ .read := fun read => quiet ⟨q, other, same, read, asleep⟩
      simp [owed, writer, write]
  · -- the writer wakes the readers and goes to sleep
    refine inv.act (.inr held) (.inr held) inv.ring ?_ ?_ ?_
    · intro q different
      simpa [State.setCall, State.wakeup, different] using Bystander.wakeIf .read (state.calls q)
    · intro later left
      have same : later = { call with phase := .drowsy } := by
        simpa [State.setCall] using left.symm
      have open_end : state.pipe.readopen = true := by
        simpa using fun closed => gives (.inl closed)
      subst same
      refine ⟨iff_of_true ⟨by simp, by simp⟩ held, nofun, fun _ => ?_, nofun⟩
      rw [write]
      exact ⟨full, open_end⟩
    · intro q other different there same asleep
      have awake := not_asleep_of_wakeIf
        (by simpa [State.setCall, State.wakeup, different] using there) asleep
      exact .inl (inv.reason same asleep (by simp [owed, awake.2, write]))
  · -- one more byte
    refine inv.act (.inr held) (.inr held) (inv.ring.push full _) ?_ ?_ ?_
    · intro q different
      simpa [State.setCall, different] using Bystander.refl (state.calls q)
    · intro later left
      have same : later = { call with i := call.i + 1 } := by
        simpa [State.setCall] using left.symm
      subst same
      exact ⟨iff_of_true ⟨by simp [wait], by simp [wait]⟩ held, by simp [wait], by simp [wait],
        by simp [wait]⟩
    · intro q other different there same asleep
      cases op : other.op with
      | read => exact .inr ⟨p, held, { call with i := call.i + 1 }, by simp [State.setCall], write, wait⟩
      | write =>
        have reason := inv.reason same asleep (by simp [owed, op, write])
        rw [op] at reason
        exact absurd reason.1 full

theorem Inv.pipereadWait (inv : Inv state) (held : state.lock = some p)
    (here : state.calls p = some call) (read : call.op = .read) (wait : call.phase = .wait) :
    Inv (state.pipereadWait p call) := by
  have owed := owed_of_held held here
  have unowed : ∀ op, ¬Owed state op := by
    intro op
    simp [owed, read, wait]
  unfold State.pipereadWait
  split_ifs with empty struck
  · refine inv.release held rfl rfl rfl rfl ?_ ?_ ?_
    · intro q different
      simpa [State.leave, State.setCall, different] using Bystander.refl (state.calls q)
    · intro later left
      simp [State.leave, State.setCall] at left
    · intro q other _ _ _
      exact unowed other.op
  · refine inv.act (.inr held) (.inr held) inv.ring ?_ ?_ ?_
    · intro q different
      simpa [State.setCall, different] using Bystander.refl (state.calls q)
    · intro later left
      have same : later = { call with phase := .drowsy } := by
        simpa [State.setCall] using left.symm
      subst same
      refine ⟨iff_of_true ⟨by simp, by simp⟩ held, nofun, fun _ => ?_, nofun⟩
      rw [read]
      exact empty
    · intro q other _ _ same asleep
      exact .inl (inv.reason same asleep (unowed other.op))
  · refine inv.act (.inr held) (.inr held) inv.ring ?_ ?_ ?_
    · intro q different
      simpa [State.setCall, different] using Bystander.refl (state.calls q)
    · intro later left
      have same : later = { call with phase := .copy } := by
        simpa [State.setCall] using left.symm
      subst same
      exact ⟨iff_of_true ⟨by simp, by simp⟩ held, nofun, nofun, fun _ => ⟨read, fun _ => empty⟩⟩
    · intro q other _ _ same asleep
      exact .inl (inv.reason same asleep (unowed other.op))

theorem Inv.pipereadCopy (inv : Inv state) (held : state.lock = some p)
    (here : state.calls p = some call) (read : call.op = .read) (copy : call.phase = .copy) :
    Inv (state.pipereadCopy p call) := by
  have owed := owed_of_held held here
  unfold State.pipereadCopy
  split_ifs with done
  · -- the writers are woken
    refine inv.release held rfl rfl rfl rfl ?_ ?_ ?_
    · intro q different
      simpa [State.leave, State.setCall, State.wakeup, different] using
        Bystander.wakeIf .write (state.calls q)
    · intro later left
      simp [State.leave, State.setCall] at left
    · intro q other different there asleep
      have awake := not_asleep_of_wakeIf
        (by simpa [State.leave, State.setCall, State.wakeup, different] using there) asleep
      simp [owed, awake.2, read]
  · -- one byte
    have filled : state.pipe.nread ≠ state.pipe.nwrite := fun empty => done (.inr empty)
    refine inv.act (.inr held) (.inr held) (inv.ring.pop filled) ?_ ?_ ?_
    · intro q different
      simpa [State.setCall, different] using Bystander.refl (state.calls q)
    · intro later left
      have same : later = { call with i := call.i + 1 } := by
        simpa [State.setCall] using left.symm
      subst same
      exact ⟨iff_of_true ⟨by simp [copy], by simp [copy]⟩ held, by simp [copy], by simp [copy],
        fun _ => ⟨read, by simp⟩⟩
    · intro q other different there same asleep
      cases op : other.op with
      | write => exact .inr ⟨p, held, { call with i := call.i + 1 }, by simp [State.setCall], read, copy⟩
      | read =>
        have reason := inv.reason same asleep (by simp [owed, op, read])
        rw [op] at reason
        exact absurd reason.1 filled

theorem Inv.sleep (inv : Inv state) (held : state.lock = some p)
    (here : state.calls p = some call) (drowsy : call.phase = .drowsy) :
    Inv (state.sleep p call) := by
  have reason := (inv.sound p call here).drowsy drowsy
  refine inv.release held rfl rfl rfl rfl ?_ ?_ ?_
  · intro q different
    simpa [State.sleep, State.setCall, different] using Bystander.refl (state.calls q)
  · intro later left
    have same : later = { call with phase := .asleep } := by
      simpa [State.sleep, State.setCall] using left.symm
    subst same
    exact ⟨iff_of_false (fun active => active.1 rfl) (by simp [State.sleep]),
      fun _ => .inl reason, nofun, nofun⟩
  · intro q other _ _ _
    simp [owed_of_held held here, drowsy]

theorem Inv.turn (inv : Inv state) (held : state.lock = some p)
    (here : state.calls p = some call) (heard : GivesUp state p → ¬Sleeps state .read)
    (taken : state.turn p call = some next) : Inv next := by
  unfold State.turn at taken
  split at taken
  next write wait =>
    cases taken
    exact inv.pipewrite held here write wait heard
  next read wait =>
    cases taken
    exact inv.pipereadWait held here read wait
  next read copy =>
    cases taken
    exact inv.pipereadCopy held here read copy
  next drowsy =>
    cases taken
    exact inv.sleep held here drowsy
  next => cases taken

/-- Under a free lock the pipe changes in a way that wakes those who lose their reason. -/
theorem Inv.pipeclose (inv : Inv state) (free : state.lock = none) (op : Op) :
    Inv (state.pipeclose op) := by
  have ring : ∀ readopen writeopen,
      Ring { state.pipe with readopen := readopen, writeopen := writeopen } state.accepted
        state.delivered := fun _ _ =>
    ⟨inv.ring.window, inv.ring.nread, inv.ring.nwrite, inv.ring.order⟩
  have closing : ∀ kind pipe, Ring pipe state.accepted state.delivered →
      (∀ other, other ≠ kind → Reason state.pipe other → Reason pipe other) →
      Inv ({ state with pipe := pipe }.wakeup kind) := by
    intro kind pipe ring keeps
    refine ⟨ring, fun q call here => ?_⟩
    obtain ⟨old, there, same⟩ := Bystander.wakeIf kind (state.calls q) call here
    have inactive : ¬old.phase.Active := fun active => by
      have held := (inv.sound q old there).active.mp active
      simp [free] at held
    have unlocked : ¬state.lock = some q := by simp [free]
    rcases same with rfl | ⟨_, rfl⟩
    · refine ⟨iff_of_false inactive unlocked, fun asleep => ?_, fun drowsy => ?_, fun copy => ?_⟩
      · have awake := (not_asleep_of_wakeIf here asleep).2
        exact .inl (keeps _ awake (inv.reason there asleep (not_owed_of_free free _)))
      · exact absurd ⟨by simp [drowsy], by simp [drowsy]⟩ inactive
      · exact absurd ⟨by simp [copy], by simp [copy]⟩ inactive
    · exact ⟨iff_of_false (fun active => active.2 rfl) unlocked, nofun, nofun, nofun⟩
  cases op with
  | write =>
    refine closing .read _ (ring _ _) fun other different reason => ?_
    cases other with
    | read => exact absurd rfl different
    | write => exact reason
  | read =>
    refine closing .write _ (ring _ _) fun other different reason => ?_
    cases other with
    | read => exact reason
    | write => exact absurd rfl different

/-- A process is killed, and runs again if it was asleep. -/
theorem Inv.kill (inv : Inv state) (p : Fin nproc) :
    Inv { state with
      killed := update state.killed p true
      calls := update state.calls p
        ((state.calls p).map fun call => call.wakeIf call.op) } := by
  have same : ∀ q call, state.calls q = some call → call.phase ≠ .asleep →
      update state.calls p ((state.calls p).map fun call => call.wakeIf call.op) q =
        some call := by
    intro q call here awake
    by_cases equal : q = p
    · subst equal
      simp [here, Call.wakeIf, awake]
    · rw [update_of_ne equal, here]
  have owed : ∀ op, Owed state op → Owed { state with
      killed := update state.killed p true
      calls := update state.calls p
        ((state.calls p).map fun call => call.wakeIf call.op) } op := by
    intro op owed
    cases op with
    | read =>
      obtain ⟨h, held, call, here, write, wait⟩ := owed
      exact ⟨h, held, call, same h call here (by simp [wait]), write, wait⟩
    | write =>
      obtain ⟨h, held, call, here, read, copy⟩ := owed
      exact ⟨h, held, call, same h call here (by simp [copy]), read, copy⟩
  refine ⟨inv.ring, fun q call here => ?_⟩
  by_cases equal : q = p
  · subst equal
    simp only [update_self] at here
    obtain ⟨old, there, rfl⟩ := Option.map_eq_some_iff.mp here
    obtain ⟨active, asleep, drowsy, copy⟩ := inv.sound q old there
    rcases old.wakeIf_cases old.op with ⟨kept, _⟩ | ⟨slept, woken⟩
    · rw [kept]
      exact ⟨active, fun sleeps => (asleep sleeps).imp_right (owed _), drowsy, copy⟩
    · rw [woken]
      refine ⟨iff_of_false (fun active => active.2 rfl) ?_, nofun, nofun, nofun⟩
      exact fun held => (active.mpr held).1 slept
  · simp only [update_of_ne equal] at here
    obtain ⟨active, asleep, drowsy, copy⟩ := inv.sound q call here
    exact ⟨active, fun sleeps => (asleep sleeps).imp_right (owed _), drowsy, copy⟩

/-- A process takes the free lock with a call that is about to look at the pipe. -/
theorem Inv.enter (inv : Inv state) (free : state.lock = none) (wait : call.phase = .wait) :
    Inv { state.setCall p (some call) with lock := some p } := by
  refine inv.act (.inl free) (.inr rfl) inv.ring ?_ ?_ ?_
  · intro q different
    simpa [State.setCall, different] using Bystander.refl (state.calls q)
  · intro later left
    have same : later = call := by
      simpa [State.setCall] using left.symm
    subst same
    exact ⟨iff_of_true ⟨by simp [wait], by simp [wait]⟩ rfl, by simp [wait], by simp [wait],
      by simp [wait]⟩
  · intro q other _ _ same asleep
    exact .inl (inv.reason same asleep (not_owed_of_free free _))

theorem Inv.step {label : Label} (inv : Inv state) (heard : Heard state label)
    (taken : Pipes.step state label = some next) : Inv next := by
  cases label with
  | call p op n source =>
    obtain ⟨⟨free, _⟩, rfl⟩ := Option.ite_some_none_eq_some.mp taken
    exact inv.enter free rfl
  | turn p =>
    obtain ⟨held, moved⟩ := Option.ite_none_right_eq_some.mp taken
    obtain ⟨call, here, turned⟩ := Option.bind_eq_some_iff.mp moved
    exact inv.turn held here heard turned
  | resume p =>
    obtain ⟨free, woken⟩ := Option.ite_none_right_eq_some.mp taken
    obtain ⟨call, here, resumed⟩ := Option.bind_eq_some_iff.mp woken
    obtain ⟨_, rfl⟩ := Option.ite_some_none_eq_some.mp resumed
    exact inv.enter free rfl
  | close op =>
    obtain ⟨⟨free, _⟩, rfl⟩ := Option.ite_some_none_eq_some.mp taken
    exact inv.pipeclose free op
  | kill p =>
    cases taken
    exact inv.kill p
  | renew p =>
    obtain ⟨_, rfl⟩ := Option.ite_some_none_eq_some.mp taken
    refine ⟨inv.ring, fun q call here => ?_⟩
    obtain ⟨active, asleep, drowsy, copy⟩ := inv.sound q call here
    exact ⟨active, asleep, drowsy, copy⟩

theorem inv_of_runs {labels : List Label} (runs : (system.guarded Heard).Runs labels state) :
    Inv state := by
  apply runs.invariant Inv
  · rintro _ ⟨data, killed, rfl⟩
    exact ⟨⟨.empty _ _, rfl, rfl, rfl⟩, nofun⟩
  · rintro state label next inv ⟨heard, taken⟩
    exact inv.step heard taken

end Steps

/-! ## The result -/

/-- A reader that returns 0 although it was asked for something has found the pipe empty and
without a writer. -/
def Honest (state : State) : Prop :=
  ∀ p next, step state (.turn p) = some next → ∀ n, 0 < n →
    next.answers = state.answers ++ [⟨p, .read, n, 0⟩] →
    state.pipe.nread = state.pipe.nwrite ∧ state.pipe.writeopen = false

theorem Inv.honest {state : State} (inv : Inv state) : Honest state := by
  intro p next taken n positive answered
  obtain ⟨held, moved⟩ := Option.ite_none_right_eq_some.mp taken
  obtain ⟨call, here, turned⟩ := Option.bind_eq_some_iff.mp moved
  have sound := inv.sound p call here
  unfold State.turn at turned
  split at turned
  next write wait =>
    cases turned
    unfold State.pipewrite at answered
    split_ifs at answered <;>
      simp [State.leave, State.setCall, State.wakeup, write] at answered
  next read wait =>
    cases turned
    unfold State.pipereadWait at answered
    split_ifs at answered <;> simp [State.leave, State.setCall] at answered
  next read copy =>
    cases turned
    unfold State.pipereadCopy at answered
    split_ifs at answered with done
    · simp only [State.leave, State.setCall, State.wakeup, List.append_cancel_left_eq,
        List.cons.injEq, Answer.mk.injEq, and_true, true_and] at answered
      obtain ⟨_, sameN, zero⟩ := answered
      have none_yet : call.i = 0 := by omega
      have empty : state.pipe.nread = state.pipe.nwrite := by
        rcases done with all | empty
        · omega
        · exact empty
      have closed := (sound.copy copy).2 none_yet
      refine ⟨empty, ?_⟩
      simpa [Reason, empty] using closed
    · simp [State.setCall] at answered
  next drowsy =>
    cases turned
    simp [State.sleep, State.setCall] at answered
  next => cases turned

/-- In a run in which no reader is asleep when a writer gives up, the bytes come out in the
order in which they went in, the counters stay in range, a read of nothing means the end of
the stream, and nobody sleeps through a wakeup. -/
theorem pipe_order {labels : List Label} {state : State}
    (runs : (system.guarded Heard).Runs labels state) :
    state.delivered <+: state.accepted ∧
      (state.pipe.nwrite - state.pipe.nread).toNat ≤ pipesize ∧ Honest state ∧ Awaited state := by
  have inv := inv_of_runs runs
  refine ⟨?_, inv.ring.room, inv.honest, ?_⟩
  · rw [inv.ring.order]
    exact List.take_prefix _ _
  · intro free p call here asleep
    exact inv.reason here asleep (not_owed_of_free free _)

/-- An empty pipe. -/
def emptied : State :=
  ⟨⟨fun _ => 0, 0, 0, true, true⟩, none, fun _ => none, fun _ => false, [], [], []⟩

theorem fresh_emptied : Fresh emptied := ⟨_, _, rfl⟩

/-- A reader that sleeps until a writer has put three bytes into the pipe. -/
def handover : List Label :=
  [.call 0 .read 2 fun _ => 0, .turn 0, .turn 0, .call 1 .write 3 fun i => UInt8.ofNat i, .turn 1,
    .turn 1, .turn 1, .turn 1, .resume 0, .turn 0, .turn 0, .turn 0, .turn 0, .kill 1, .renew 1]

theorem pipe_order_handover :
    ∃ state, (system.guarded Heard).Runs handover state ∧ state.accepted = [0, 1, 2] ∧
      state.delivered = [0, 1] ∧ state.answers = [⟨1, .write, 3, 3⟩, ⟨0, .read, 2, 2⟩] ∧
      Awaited state := by
  have found : (LabelledSystem.exec (LabelledSystem.checked Heard step) emptied handover).any
      (fun state => state.accepted = [0, 1, 2] ∧ state.delivered = [0, 1] ∧
        state.answers = [⟨1, .write, 3, 3⟩, ⟨0, .read, 2, 2⟩]) = true := by
    decide +kernel
  obtain ⟨state, result, facts⟩ := (Option.any_eq_true _ _).mp found
  obtain ⟨accepted, delivered, answers⟩ := of_decide_eq_true facts
  have runs := LabelledSystem.Runs.of_checked_exec fresh_emptied result
  exact ⟨state, runs, accepted, delivered, answers, (pipe_order runs).2.2.2⟩

/-- A reader sleeps, and a writer is killed after it has got the lock. -/
def starved : List Label :=
  [.call 0 .read 1 fun _ => 0, .turn 0, .turn 0, .call 1 .write 513 fun _ => 0, .kill 1]

/-- The killed writer puts `k` bytes into the pipe. -/
def Filling (k : Nat) (state : State) : Prop :=
  state.lock = some 1 ∧ state.calls 0 = some ⟨.read, 1, 0, fun _ => 0, .asleep⟩ ∧
    state.calls 1 = some ⟨.write, 513, k, fun _ => 0, .wait⟩ ∧ state.killed 1 = true ∧
    state.pipe.nread = 0 ∧ state.pipe.nwrite = UInt32.ofNat k

theorem filling_runs {k : Nat} (low : k ≤ pipesize) :
    ∃ state, system.Runs (starved ++ List.replicate k (.turn 1)) state ∧ Filling k state := by
  induction k with
  | zero =>
    obtain ⟨state, result⟩ : ∃ state, LabelledSystem.exec step emptied starved = some state :=
      ⟨_, rfl⟩
    have runs : system.Runs starved state := .of_exec fresh_emptied result
    cases result
    exact ⟨_, by simpa using runs, rfl, rfl, rfl, rfl, rfl, rfl⟩
  | succ k ih =>
    obtain ⟨state, runs, held, reader, writer, killed, nread, nwrite⟩ := ih (Nat.le_of_succ_le low)
    have more : ¬(513 : Int) ≤ k := by
      simp only [pipesize] at low
      omega
    have space : ¬Full state.pipe := by
      have near : pipesize - k < 2 ^ 32 := by
        simp only [pipesize]
        omega
      have short := ofNat_inj_of_near (Nat.le_of_succ_le low) near
      rw [Full, nread, nwrite, UInt32.zero_add, short]
      omega
    refine ⟨(state.pipewrite 1 ⟨.write, 513, k, fun _ => 0, .wait⟩), ?_, ?_⟩
    · rw [List.replicate_succ', ← List.append_assoc]
      refine runs.step ?_
      simp [system, LabelledSystem.ofFunction, step, held, writer, State.turn]
    · have further : state.pipe.nwrite + 1 = UInt32.ofNat (k + 1) := by
        rw [nwrite, ofNat_succ]
      rw [State.pipewrite, if_neg more, if_neg space]
      have apart : (0 : Fin nproc) ≠ 1 := by decide
      have still : update state.calls 1 (some ⟨.write, 513, k + 1, fun _ => 0, .wait⟩) 0 =
          some ⟨.read, 1, 0, fun _ => 0, .asleep⟩ := by
        rw [update_of_ne apart, reader]
      have later : update state.calls 1 (some ⟨.write, 513, k + 1, fun _ => 0, .wait⟩) 1 =
          some ⟨.write, 513, k + 1, fun _ => 0, .wait⟩ := by
        rw [update_self]
      exact ⟨held, still, later, killed, nread, further⟩

/-- A writer fills the pipe, finds that it has been killed and returns, and the reader sleeps
on beside a full pipe. -/
theorem reader_left_asleep : ∃ labels state, system.Runs labels state ∧ ¬Awaited state := by
  obtain ⟨state, runs, held, reader, writer, killed, nread, nwrite⟩ :=
    filling_runs (Nat.le_refl pipesize)
  have full : Full state.pipe := by
    rw [Full, nread, nwrite, UInt32.zero_add]
  refine ⟨starved ++ List.replicate pipesize (.turn 1) ++ [.turn 1],
    state.leave 1 ⟨.write, 513, pipesize, fun _ => 0, .wait⟩ (-1), runs.step ?_, ?_⟩
  · have more : ¬(513 : Int) ≤ pipesize := by decide
    simp [system, LabelledSystem.ofFunction, step, held, writer, State.turn, State.pipewrite, full,
      killed, more]
  · intro awaited
    have apart : (0 : Fin nproc) ≠ 1 := by decide
    have still : update state.calls 1 none 0 =
        some ⟨.read, 1, 0, fun _ => 0, .asleep⟩ := by
      rw [update_of_ne apart, reader]
    have asleep := awaited rfl 0 _ still rfl
    have empty : state.pipe.nread = state.pipe.nwrite := asleep.1
    rw [nread, nwrite] at empty
    exact absurd empty (by decide)

end Ev6.Pipes
