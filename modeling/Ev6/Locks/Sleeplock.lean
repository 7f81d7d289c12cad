import Ev6.Kernel.Param
import Ev6.Support.LabelledSystem
import Mathlib.Data.List.FinRange

/-!
# Sleep locks

`acquiresleep`, `releasesleep` and `holdingsleep` of `sleeplock.c`, with what `sleep` and
`wakeup` do for them. A spin lock is taken while a process stands where it has it. Between two
steps of a process the others may take any number.
-/

namespace Ev6.Locks.Sleep

open Option (ite_none_right_eq_some)
open List (mem_singleton)
open Support

/-! ## The model -/

/-- `struct sleeplock`, without the spin lock `lk`. `owners` is for reasoning only: the processes
that have passed the stores in `acquiresleep`, and not those in `releasesleep`. -/
structure Sleeplock where
  locked : Bool
  pid : Nat
  owners : List (Fin nproc)

/-- The functions. -/
inductive Job where
  | acquiresleep
  | releasesleep
  | holdingsleep
deriving DecidableEq

/-- The spin locks: `lk->lk` of the sleep locks, and `p->lock` of the processes. -/
inductive Spin (L : Type) where
  | lk (lk : L)
  | proc (p : Fin nproc)
deriving DecidableEq

/-- What a process does next. -/
inductive Point (L : Type) where
  | out
  /-- `acquire(&lk->lk)`, at the start of a function and at the end of `sleep`. -/
  | enter (job : Job) (lk : L)
  /-- The test of the loop of `acquiresleep`. -/
  | test (lk : L)
  /-- `sleep`: `acquire(&p->lock)`. -/
  | doze (lk : L)
  /-- `sleep`: `release(lk)`. -/
  | drop (lk : L)
  /-- `sleep`: the process becomes `SLEEPING`, and the scheduler releases `p->lock`. -/
  | fall (lk : L)
  | asleep (lk : L)
  /-- The scheduler takes `p->lock` for the process, and `sleep` releases it. -/
  | awake (lk : L)
  /-- The stores of `acquiresleep`. -/
  | take (lk : L)
  /-- The stores of `releasesleep`. -/
  | clear (lk : L)
  /-- `wakeup`: `acquire(&p->lock)` for the slot `i`, or the end of the loop. -/
  | wake (lk : L) (i : Nat)
  /-- `wakeup`: with the lock of the slot. -/
  | visit (lk : L) (i : Fin nproc)
  /-- The test of `holdingsleep`. -/
  | look (lk : L)
  /-- `release(&lk->lk)`, with what `holdingsleep` returns. -/
  | leave (lk : L) (answer : Option Bool)
deriving DecidableEq

/-- What a function does when it has `lk->lk`. -/
def Job.first {L : Type} (lk : L) : Job → Point L
  | acquiresleep => .test lk
  | releasesleep => .clear lk
  | holdingsleep => .look lk

/-- The spin locks that the process `p` has. -/
def Point.holds {L : Type} (p : Fin nproc) : Point L → List (Spin L)
  | test lk | doze lk | take lk | clear lk | wake lk _ | look lk | leave lk _ => [.lk lk]
  | drop lk => [.lk lk, .proc p]
  | fall _ => [.proc p]
  | visit lk i => [.lk lk, .proc i]
  | out | enter _ _ | asleep _ | awake _ => []

/-- The sleep locks, the pids of the processes, and where these are. -/
structure State (L : Type) where
  lock : L → Sleeplock
  pid : Fin nproc → Nat
  point : Fin nproc → Point L

/-- A process calls a function or goes on in one, or `kill` wakes it. -/
inductive Event (L : Type) where
  | call (p : Fin nproc) (job : Job) (lk : L)
  | go (p : Fin nproc)
  | kill (q : Fin nproc) (lk : L)

section Model

variable {L : Type} [DecidableEq L]

namespace State

def goto (state : State L) (p : Fin nproc) (point : Point L) : State L :=
  { state with point := Function.update state.point p point }

def setLock (state : State L) (lk : L) (lock : Sleeplock) : State L :=
  { state with lock := Function.update state.lock lk lock }

/-- No process has the spin lock. -/
def free (state : State L) (spin : Spin L) : Bool :=
  (List.finRange nproc).all fun q => decide (spin ∉ (state.point q).holds q)

/-- A sleeper on `lk` becomes runnable. -/
def rouse (state : State L) (lk : L) (q : Fin nproc) : State L :=
  if state.point q = .asleep lk then state.goto q (.awake lk) else state

/-- The next access of a process in a function. -/
def go (state : State L) (p : Fin nproc) : Option (State L) :=
  match state.point p with
  | .out | .asleep _ => none
  | .enter job lk => if state.free (.lk lk) then some (state.goto p (job.first lk)) else none
  | .test lk => some (state.goto p (if (state.lock lk).locked then .doze lk else .take lk))
  | .doze lk => if state.free (.proc p) then some (state.goto p (.drop lk)) else none
  | .drop lk => some (state.goto p (.fall lk))
  | .fall lk => some (state.goto p (.asleep lk))
  | .awake lk =>
    if state.free (.proc p) then some (state.goto p (.enter .acquiresleep lk)) else none
  | .take lk =>
    some ((state.setLock lk ⟨true, state.pid p, p :: (state.lock lk).owners⟩).goto p
      (.leave lk none))
  | .clear lk =>
    some ((state.setLock lk ⟨false, 0, (state.lock lk).owners.erase p⟩).goto p (.wake lk 0))
  | .wake lk i =>
    if more : i < nproc then
      if state.free (.proc ⟨i, more⟩) then some (state.goto p (.visit lk ⟨i, more⟩)) else none
    else some (state.goto p (.leave lk none))
  | .visit lk i => some ((state.rouse lk i).goto p (.wake lk (i + 1)))
  | .look lk =>
    some (state.goto p (.leave lk
      (some ((state.lock lk).locked && decide ((state.lock lk).pid = state.pid p)))))
  | .leave _ _ => some (state.goto p .out)

/-- One step. A process calls `releasesleep` with a lock that it has. -/
def step (state : State L) : Event L → Option (State L)
  | .call p job lk =>
    if state.point p = .out ∧ (job = .releasesleep → p ∈ (state.lock lk).owners) then
      some (state.goto p (.enter job lk))
    else none
  | .go p => state.go p
  | .kill q lk => if state.free (.proc q) then some (state.rouse lk q) else none

end State

/-- No lock is taken, no process is in one of the functions, and no two have one pid. -/
structure Starts (state : State L) : Prop where
  lock : ∀ lk, (state.lock lk).locked = false ∧ (state.lock lk).owners = []
  point : ∀ p, state.point p = .out
  pid : Function.Injective state.pid

/-- The processes and their sleep locks. -/
def system (L : Type) [DecidableEq L] : LabelledSystem (State L) (Event L) :=
  .ofFunction Starts State.step

end Model

/-! ## What holds between the steps -/

section Sound

variable {L : Type}

/-- The process is going to sleep on the lock, or sleeps on it. -/
def Point.Waits (lk : L) : Point L → Prop
  | .fall l | .asleep l => l = lk
  | _ => False

/-- The process has cleared the lock, and its `wakeup` has yet to come to the slot `q`. -/
def Point.Owes (lk : L) (q : Fin nproc) : Point L → Prop
  | .wake l i => l = lk ∧ i ≤ q.val
  | .visit l i => l = lk ∧ i.val ≤ q.val
  | _ => False

/-- What a point says about the lock. -/
def Point.Fits (lock : L → Sleeplock) (p : Fin nproc) : Point L → Prop
  | .enter .releasesleep lk | .clear lk => p ∈ (lock lk).owners
  | .doze lk | .drop lk => (lock lk).owners ≠ []
  | .take lk => (lock lk).owners = []
  | .leave lk (some answer) => answer = true ↔ p ∈ (lock lk).owners
  | _ => True

/-- The lock says who has it. -/
def Sleeplock.Tells (lock : Sleeplock) (pid : Fin nproc → Nat) : Prop :=
  lock.locked = false ∧ lock.owners = [] ∨
    ∃ p, lock.locked = true ∧ lock.pid = pid p ∧ lock.owners = [p]

/-- What holds in every reachable state. -/
structure Sound (state : State L) : Prop where
  apart : ∀ ⦃p q spin⦄, spin ∈ (state.point p).holds p → spin ∈ (state.point q).holds q → p = q
  tells : ∀ lk, (state.lock lk).Tells state.pid
  fits : ∀ p, (state.point p).Fits state.lock p
  heard : ∀ p lk, (state.point p).Waits lk → (state.lock lk).owners ≠ [] ∨
    ∃ q, (state.point q).Owes lk p
  pids : Function.Injective state.pid

/-- What sleep locks do for the kernel: one process has a lock, `holdingsleep` tells whether it is
the caller, and who sleeps on a lock that nobody has is about to be woken by `releasesleep`. -/
structure Excludes (state : State L) : Prop where
  one : ∀ lk, (state.lock lk).owners.length ≤ 1
  holding : ∀ p lk answer, state.point p = .leave lk (some answer) →
    (answer = true ↔ p ∈ (state.lock lk).owners)
  heard : ∀ p lk, state.point p = .asleep lk → (state.lock lk).owners = [] →
    ∃ q, (state.point q).Owes lk p

variable {state : State L} {p q : Fin nproc} {before after : Point L} {lk : L}

theorem Sleeplock.Tells.owner {lock : Sleeplock} {pid : Fin nproc → Nat} (tells : lock.Tells pid)
    (has : p ∈ lock.owners) : lock.locked = true ∧ lock.pid = pid p ∧ lock.owners = [p] := by
  rcases tells with ⟨-, none⟩ | ⟨q, locked, same, only⟩
  · rw [none] at has
    cases has
  · rw [only] at has
    obtain rfl := mem_singleton.mp has
    exact ⟨locked, same, only⟩

theorem Sound.excludes (sound : Sound state) : Excludes state where
  one lk := by
    rcases sound.tells lk with ⟨-, none⟩ | ⟨p, -, -, only⟩
    · rw [none]
      exact Nat.zero_le 1
    · rw [only]
      exact Nat.le_refl 1
  holding p lk answer here := by
    have fits := sound.fits p
    rwa [here] at fits
  heard p lk here free := (sound.heard p lk (by rw [here]; rfl)).resolve_left (not_not.mpr free)

theorem Starts.sound (starts : Starts state) : Sound state := by
  obtain ⟨lock, point, pid⟩ := starts
  refine ⟨fun p q spin one => ?_, fun lk => .inl (lock lk), fun p => ?_, fun p lk waits => ?_, pid⟩
  · rw [point] at one
    cases one
  · rw [point]
    trivial
  · rw [point] at waits
    cases waits

theorem Sound.look (sound : Sound state) (p : Fin nproc) (lk : L) :
    ((state.lock lk).locked && decide ((state.lock lk).pid = state.pid p)) = true ↔
      p ∈ (state.lock lk).owners := by
  rw [Bool.and_eq_true, decide_eq_true_iff]
  constructor
  · rintro ⟨locked, same⟩
    rcases sound.tells lk with ⟨free, -⟩ | ⟨q, -, known, only⟩
    · rw [locked] at free
      cases free
    · rw [only, sound.pids (same.symm.trans known)]
      exact List.mem_singleton_self q
  · intro has
    obtain ⟨locked, same, -⟩ := (sound.tells lk).owner has
    exact ⟨locked, same⟩

variable [DecidableEq L]

/-- A process goes to another point. It writes to the lock whose `lk` it has. -/
theorem Sound.act (sound : Sound state) (at_ : state.point p = before) (next : State L)
    (point : next.point = Function.update state.point p after) (pid : next.pid = state.pid)
    (holds : ∀ spin ∈ after.holds p, spin ∈ before.holds p ∨ state.free spin = true)
    (same : ∀ lk, .lk lk ∉ before.holds p → next.lock lk = state.lock lk)
    (tells : ∀ lk, .lk lk ∈ before.holds p → (next.lock lk).Tells state.pid)
    (keeps : ∀ lk q, q ≠ p → q ∈ (state.lock lk).owners → q ∈ (next.lock lk).owners)
    (fits : after.Fits next.lock p)
    (waits : ∀ lk, after.Waits lk → before.Waits lk ∨ (next.lock lk).owners ≠ [])
    (freed : ∀ lk q, (state.lock lk).owners ≠ [] →
      (next.lock lk).owners ≠ [] ∨ after.Owes lk q)
    (owes : ∀ lk q, (state.point q).Waits lk → before.Owes lk q →
      (next.lock lk).owners ≠ [] ∨ after.Owes lk q) : Sound next := by
  have here : next.point p = after := by
    rw [point, Function.update_self]
  have there {q : Fin nproc} (other : q ≠ p) : next.point q = state.point q := by
    rw [point, Function.update_of_ne other]
  refine ⟨fun q r spin one two => ?_, fun lk => ?_, fun q => ?_, fun q lk waiting => ?_,
    by rw [pid]; exact sound.pids⟩
  · have alone {q : Fin nproc} (mine : spin ∈ after.holds p)
        (theirs : spin ∈ (state.point q).holds q) : p = q := by
      rcases holds spin mine with kept | free
      · rw [← at_] at kept
        exact sound.apart kept theirs
      · exact absurd theirs (of_decide_eq_true (List.all_eq_true.mp free q (List.mem_finRange q)))
    by_cases first : q = p
    · rw [first, here] at one
      by_cases second : r = p
      · rw [first, second]
      · rw [there second] at two
        rw [first, alone one two]
    · rw [there first] at one
      by_cases second : r = p
      · rw [second, here] at two
        rw [second, alone two one]
      · rw [there second] at two
        exact sound.apart one two
  · rw [pid]
    by_cases mine : .lk lk ∈ before.holds p
    · exact tells lk mine
    · rw [same lk mine]
      exact sound.tells lk
  · by_cases own : q = p
    · rw [own, here]
      exact fits
    · have known := sound.fits q
      have kept {lk : L} (has : .lk lk ∈ (state.point q).holds q) :
          next.lock lk = state.lock lk := by
        refine same lk fun also => ?_
        rw [← at_] at also
        exact own (sound.apart has also)
      rw [there own]
      cases place : state.point q with
      | enter job lk =>
        rw [place] at known
        cases job with
        | releasesleep => exact keeps lk q own known
        | _ => trivial
      | leave lk answer =>
        rw [place] at known kept
        cases answer with
        | none => trivial
        | some answer => rwa [Point.Fits, kept List.mem_cons_self]
      | clear lk | doze lk | drop lk | take lk =>
        rw [place] at known kept
        rwa [Point.Fits, kept List.mem_cons_self]
      | _ => trivial
  · have hears (either : (next.lock lk).owners ≠ [] ∨ after.Owes lk q) :
        (next.lock lk).owners ≠ [] ∨ ∃ r, (next.point r).Owes lk q :=
      either.imp_right fun mine => ⟨p, by rwa [here]⟩
    have waited : (state.point q).Waits lk ∨ (next.lock lk).owners ≠ [] := by
      by_cases own : q = p
      · rw [own, here] at waiting
        rw [own, at_]
        exact waits lk waiting
      · rw [there own] at waiting
        exact .inl waiting
    rcases waited with waited | taken
    · rcases sound.heard q lk waited with taken | ⟨r, owing⟩
      · exact hears (freed lk q taken)
      · by_cases own : r = p
        · rw [own, at_] at owing
          exact hears (owes lk q waited owing)
        · exact .inr ⟨r, by rwa [there own]⟩
    · exact .inl taken

/-- A process goes to another point and writes nothing. -/
theorem Sound.move (sound : Sound state) (at_ : state.point p = before) (after : Point L)
    (holds : ∀ spin ∈ after.holds p, spin ∈ before.holds p ∨ state.free spin = true)
    (fits : after.Fits state.lock p)
    (waits : ∀ lk, after.Waits lk → before.Waits lk ∨ (state.lock lk).owners ≠ [])
    (owes : ∀ lk q, (state.point q).Waits lk → before.Owes lk q → after.Owes lk q) :
    Sound (state.goto p after) :=
  sound.act at_ _ rfl rfl holds (fun _ _ => rfl) (fun lk _ => sound.tells lk)
    (fun _ _ _ => id) fits waits (fun _ _ => .inl)
    fun lk q waiting owing => .inr (owes lk q waiting owing)

/-- The same where no process waits for another one. -/
theorem Sound.pass (sound : Sound state) (at_ : state.point p = before) (after : Point L)
    (holds : ∀ spin ∈ after.holds p, spin ∈ before.holds p ∨ state.free spin = true)
    (fits : after.Fits state.lock p) (awake : ∀ lk, ¬ after.Waits lk)
    (done : ∀ lk q, ¬ before.Owes lk q) : Sound (state.goto p after) :=
  sound.move at_ after holds fits
    (fun lk waits => absurd waits (awake lk)) fun lk q _ owing => absurd owing (done lk q)

end Sound

/-! ## Steps -/

section Steps

variable {L : Type} [DecidableEq L] {state next : State L} {p q : Fin nproc} {lk : L}

theorem Sound.rouse (sound : Sound state) (lk : L) (q : Fin nproc) : Sound (state.rouse lk q) := by
  unfold State.rouse
  by_cases here : state.point q = .asleep lk
  · rw [if_pos here]
    exact sound.pass here (.awake lk) (fun _ => .inl) trivial (fun _ => id) fun _ _ => id
  · rw [if_neg here]
    exact sound

theorem State.lock_setLock_of_ne {l : L} (other : l ≠ lk) (lock : Sleeplock) (point : Point L) :
    ((state.setLock lk lock).goto p point).lock l = state.lock l := by
  simp [State.goto, State.setLock, other]

theorem Sound.take (sound : Sound state) (at_ : state.point p = .take lk) :
    Sound ((state.setLock lk ⟨true, state.pid p, p :: (state.lock lk).owners⟩).goto p
      (.leave lk none)) := by
  have free : (state.lock lk).owners = [] := by
    have fits := sound.fits p
    rwa [at_] at fits
  rw [free]
  refine sound.act at_ _ rfl rfl (fun _ => .inl) (fun l other => State.lock_setLock_of_ne
    (fun same => other (mem_singleton.mpr (congrArg Spin.lk same))) _ _)
    (fun l mine => ?_) (fun l q _ has => ?_) trivial (fun _ => False.elim)
    (fun l _ taken => .inl ?_) fun _ _ _ => False.elim
  · obtain rfl := Spin.lk.inj (mem_singleton.mp mine)
    exact .inr ⟨p, by simp [State.goto, State.setLock]⟩
  · by_cases same : l = lk
    · rw [same, free] at has
      cases has
    · rwa [State.lock_setLock_of_ne same]
  · by_cases same : l = lk
    · exact absurd free (same ▸ taken)
    · rwa [State.lock_setLock_of_ne same]

theorem Sound.clear (sound : Sound state) (at_ : state.point p = .clear lk) :
    Sound ((state.setLock lk ⟨false, 0, (state.lock lk).owners.erase p⟩).goto p (.wake lk 0)) := by
  have only : (state.lock lk).owners = [p] := by
    have fits := sound.fits p
    rw [at_] at fits
    exact ((sound.tells lk).owner fits).2.2
  have none : [p].erase p = [] := List.erase_cons_head p []
  rw [only, none]
  refine sound.act at_ _ rfl rfl (fun _ => .inl) (fun l other => State.lock_setLock_of_ne
    (fun same => other (mem_singleton.mpr (congrArg Spin.lk same))) _ _)
    (fun l mine => ?_) (fun l q other has => ?_) trivial (fun _ => False.elim)
    (fun l q taken => ?_) fun _ _ _ => False.elim
  · obtain rfl := Spin.lk.inj (mem_singleton.mp mine)
    exact .inl (by simp [State.goto, State.setLock])
  · by_cases same : l = lk
    · rw [same, only] at has
      exact absurd (mem_singleton.mp has) other
    · rwa [State.lock_setLock_of_ne same]
  · by_cases same : l = lk
    · exact .inr ⟨same.symm, Nat.zero_le q.val⟩
    · rw [State.lock_setLock_of_ne same]
      exact .inl taken

/-- `wakeup` goes on from a slot with nobody who waits for the lock. -/
theorem Sound.passed (sound : Sound state) (at_ : state.point p = .visit lk q)
    (awake : ¬ (state.point q).Waits lk) : Sound (state.goto p (.wake lk (q + 1))) := by
  refine sound.move at_ (.wake lk (q + 1)) (by simp [Point.holds]) trivial
    (fun _ => False.elim) fun l r waiting owing =>
      ⟨owing.1, Nat.lt_of_le_of_ne owing.2 fun same => ?_⟩
  rw [← Fin.ext same, ← owing.1] at waiting
  exact awake waiting

/-- A visit of `wakeup` leaves nobody in the slot who waits for the lock. -/
theorem Sound.visit (sound : Sound state) (at_ : state.point p = .visit lk q) :
    Sound ((state.rouse lk q).goto p (.wake lk (q + 1))) := by
  by_cases here : state.point q = .asleep lk
  · have other : p ≠ q := by
      rintro rfl
      rw [here] at at_
      cases at_
    have roused := sound.rouse lk q
    rw [State.rouse, if_pos here] at roused ⊢
    refine roused.passed ((Function.update_of_ne other _ _).trans at_) ?_
    simp [State.goto, Point.Waits]
  · rw [State.rouse, if_neg here]
    refine sound.passed at_ fun waits => ?_
    cases place : state.point q with
    | asleep l =>
      rw [place] at waits here
      exact here (congrArg Point.asleep waits)
    | fall l =>
      have mine : .proc q ∈ (state.point p).holds p := by simp [at_, Point.holds]
      have theirs : .proc q ∈ (state.point q).holds q := by simp [place, Point.holds]
      rw [← sound.apart mine theirs, at_] at place
      cases place
    | _ =>
      rw [place] at waits
      cases waits

theorem Sound.go (sound : Sound state) (taken : state.go p = some next) : Sound next := by
  have fits := sound.fits p
  cases at_ : state.point p with
  | out | asleep lk =>
    rw [State.go, at_] at taken
    cases taken
  | enter job lk =>
    rw [at_] at fits
    simp only [State.go, at_, ite_none_right_eq_some] at taken
    obtain ⟨free, ⟨⟩⟩ := taken
    cases job <;>
      exact sound.pass at_ _ (fun _ has => .inr (mem_singleton.mp has ▸ free)) fits
        (fun _ => id) fun _ _ => id
  | test lk =>
    rw [State.go, at_] at taken
    cases taken
    by_cases locked : (state.lock lk).locked = true
    · rw [if_pos locked]
      refine sound.pass at_ (.doze lk) (fun _ => .inl) ?_ (fun _ => id) fun _ _ => id
      rcases sound.tells lk with ⟨free, -⟩ | ⟨q, -, -, only⟩
      · rw [locked] at free
        cases free
      · rw [Point.Fits, only]
        exact List.cons_ne_nil q []
    · rw [if_neg locked]
      refine sound.pass at_ (.take lk) (fun _ => .inl) ?_ (fun _ => id) fun _ _ => id
      rcases sound.tells lk with ⟨-, none⟩ | ⟨q, taken, -⟩
      · exact none
      · exact absurd taken locked
  | doze lk =>
    rw [at_] at fits
    simp only [State.go, at_, ite_none_right_eq_some] at taken
    obtain ⟨free, ⟨⟩⟩ := taken
    exact sound.move at_ (.drop lk) (by simp [Point.holds, free]) fits (fun _ => False.elim)
      fun _ _ _ => id
  | drop lk =>
    rw [at_] at fits
    rw [State.go, at_] at taken
    cases taken
    exact sound.move at_ (.fall lk) (by simp [Point.holds]) trivial
      (fun _ same => .inr (same ▸ fits)) fun _ _ _ => id
  | fall lk =>
    rw [State.go, at_] at taken
    cases taken
    exact sound.move at_ (.asleep lk) (by simp [Point.holds]) trivial (fun _ => .inl)
      fun _ _ _ => id
  | awake lk =>
    simp only [State.go, at_, ite_none_right_eq_some] at taken
    obtain ⟨-, ⟨⟩⟩ := taken
    exact sound.pass at_ _ (fun _ => .inl) trivial (fun _ => id) fun _ _ => id
  | take lk =>
    rw [State.go, at_] at taken
    cases taken
    exact sound.take at_
  | clear lk =>
    rw [State.go, at_] at taken
    cases taken
    exact sound.clear at_
  | wake lk i =>
    simp only [State.go, at_] at taken
    by_cases more : i < nproc
    · rw [dif_pos more, ite_none_right_eq_some] at taken
      obtain ⟨free, ⟨⟩⟩ := taken
      exact sound.move at_ (.visit lk ⟨i, more⟩) (by simp [Point.holds, free]) trivial
        (fun _ => False.elim) fun _ _ _ => id
    · rw [dif_neg more] at taken
      cases taken
      exact sound.pass at_ (.leave lk none) (fun _ => .inl) trivial (fun _ => id)
        fun _ q owing => more (Nat.lt_of_le_of_lt owing.2 q.isLt)
  | visit lk q =>
    rw [State.go, at_] at taken
    cases taken
    exact sound.visit at_
  | look lk =>
    rw [State.go, at_] at taken
    cases taken
    exact sound.pass at_ (.leave lk (some _)) (fun _ => .inl) (sound.look p lk) (fun _ => id)
      fun _ _ => id
  | leave lk answer =>
    rw [State.go, at_] at taken
    cases taken
    exact sound.pass at_ .out (by simp [Point.holds]) trivial (fun _ => id) fun _ _ => id

theorem Sound.step (sound : Sound state) {event : Event L} (taken : state.step event = some next) :
    Sound next := by
  cases event with
  | call p job lk =>
    obtain ⟨⟨at_, asked⟩, ⟨⟩⟩ := ite_none_right_eq_some.mp taken
    refine sound.pass at_ (.enter job lk) (fun _ => .inl) ?_ (fun _ => id) fun _ _ => id
    cases job with
    | releasesleep => exact asked rfl
    | acquiresleep | holdingsleep => trivial
  | go p => exact sound.go taken
  | kill q lk =>
    obtain ⟨-, ⟨⟩⟩ := ite_none_right_eq_some.mp taken
    exact sound.rouse lk q

/-- In every order of the steps of the processes, a sleep lock is one process's at most, and
`holdingsleep` tells whose. No wakeup is lost. -/
theorem sleeplocks_of_runs {events : List (Event L)} (runs : (system L).Runs events state) :
    Excludes state := by
  have sound : Sound state := by
    refine runs.invariant Sound (fun start starts => ?_) fun before event after sound taken => ?_
    · exact Starts.sound starts
    · exact sound.step taken
  exact sound.excludes

end Steps

/-- A lock, and processes with the numbers of their slots as pids. -/
def oneLock : State Unit where
  lock _ := ⟨false, 0, []⟩
  pid p := p
  point _ := .out

/-- A process sleeps on the lock, and the one that had it has cleared it. -/
theorem sleeplocks_after_release : ∃ events state, (system Unit).Runs events state ∧
    state.point ⟨1, by decide⟩ = .asleep () ∧ state.point ⟨0, by decide⟩ = .wake () 0 ∧
      Excludes state := by
  let p : Fin nproc := ⟨0, by decide⟩
  let q : Fin nproc := ⟨1, by decide⟩
  let events : List (Event Unit) := .call p .acquiresleep () :: List.replicate 4 (.go p) ++
    .call q .acquiresleep () :: List.replicate 5 (.go q) ++
    .call p .releasesleep () :: List.replicate 2 (.go p)
  have found : (LabelledSystem.exec State.step oneLock events).any (fun state =>
      decide (state.point q = .asleep () ∧ state.point p = .wake () 0)) = true := by
    decide +kernel
  obtain ⟨state, result, facts⟩ := (Option.any_eq_true _ _).mp found
  obtain ⟨sleeps, wakes⟩ := of_decide_eq_true facts
  have starts : Starts oneLock := ⟨fun _ => ⟨rfl, rfl⟩, fun _ => rfl, Fin.val_injective⟩
  have runs : (system Unit).Runs events state := .of_exec starts result
  exact ⟨events, state, runs, sleeps, wakes, sleeplocks_of_runs runs⟩

end Ev6.Locks.Sleep
