import Ev6.Support.LabelledSystem
import Mathlib.Data.List.Nodup
import Mathlib.Logic.Function.Basic

/-!
# Spin locks

`acquire`, `release`, `holding`, `push_off` and `pop_off` of `spinlock.c`, on any number of
CPUs. A step is one access to a lock, with what its CPU does to its own state on the way to
it. Between two steps of a CPU the others may take any number.
-/

namespace Ev6.Locks

open Function (update)
open Support

/-! ## The model -/

/-- `struct spinlock`. -/
structure Spinlock (C : Type) where
  locked : Bool
  cpu : Option C

/-- Whether interrupts are on, and `noff` and `intena` of `struct cpu`. -/
structure Cpu where
  intr : Bool
  noff : Int
  intena : Bool
deriving DecidableEq

/-- `push_off`. -/
def pushOff (cpu : Cpu) : Cpu :=
  { intr := false
    intena := if cpu.noff = 0 then cpu.intr else cpu.intena
    noff := cpu.noff + 1 }

/-- `pop_off`; none is a panic. -/
def popOff (cpu : Cpu) : Option Cpu :=
  if cpu.intr = true then none
  else if cpu.noff - 1 < 0 then none
  else if cpu.noff - 1 = 0 ∧ cpu.intena = true then
    some { cpu with noff := cpu.noff - 1, intr := true }
  else some { cpu with noff := cpu.noff - 1 }

/-- The two callers of `holding`. -/
inductive Caller where
  | acquire
  | release
deriving DecidableEq

/-- The panics. -/
inductive Panic (L : Type) where
  | acquire (lk : L)
  | release (lk : L)
  | popOff
deriving DecidableEq

/-- What a CPU does next. -/
inductive Point (L : Type) where
  /-- The kernel goes on without the functions of this file. -/
  | idle
  /-- `holding` has read `lk->locked`; it reads `lk->cpu`. -/
  | holding (caller : Caller) (lk : L) (locked : Bool)
  /-- `acquire` swaps `lk->locked`. -/
  | swap (lk : L)
  /-- `acquire` has the lock; it writes `lk->cpu`. -/
  | stamp (lk : L)
  /-- `release` writes `lk->cpu`. -/
  | clear (lk : L)
  /-- `release` writes `lk->locked`. -/
  | unlock (lk : L)
  | panic (reason : Panic L)
deriving DecidableEq

/-- The locks, and for each CPU its state, what it does next, the locks that `acquire` has
given it and `release` has not taken back, and how often its code has called `push_off`
itself. `setting` is for reasoning only: how the code of a CPU has set its interrupts. -/
structure State (C L : Type) where
  lock : L → Spinlock C
  cpu : C → Cpu
  point : C → Point L
  held : C → List L
  depth : C → Nat
  setting : C → Bool

/-- What a CPU does: it calls a function, goes on with one, or sets its interrupts. -/
inductive Event (C L : Type) where
  | acquire (c : C) (lk : L)
  | release (c : C) (lk : L)
  | go (c : C)
  | pushOff (c : C)
  | popOff (c : C)
  | interrupts (c : C) (on : Bool)

section Model

variable {C L : Type} [DecidableEq C] [DecidableEq L]

namespace State

def setCpu (state : State C L) (c : C) (cpu : Cpu) : State C L :=
  { state with cpu := update state.cpu c cpu }

def goto (state : State C L) (c : C) (point : Point L) : State C L :=
  { state with point := update state.point c point }

def setLock (state : State C L) (lk : L) (lock : Spinlock C) : State C L :=
  { state with lock := update state.lock lk lock }

def setHeld (state : State C L) (c : C) (held : List L) : State C L :=
  { state with held := update state.held c held }

/-- `pop_off`, and then the next point. -/
def pop (state : State C L) (c : C) (next : Point L) : State C L :=
  match popOff (state.cpu c) with
  | none => state.goto c (.panic .popOff)
  | some cpu => (state.setCpu c cpu).goto c next

/-- What `holding` returns when it has read `lk->locked`. -/
def holds (state : State C L) (c : C) (lk : L) (locked : Bool) : Bool :=
  locked && decide ((state.lock lk).cpu = some c)

/-- The next access of a CPU in a function of this file. -/
def go (state : State C L) (c : C) : Option (State C L) :=
  match state.point c with
  | .idle | .panic _ => none
  | .holding .acquire lk locked =>
    some (state.pop c (if state.holds c lk locked then .panic (.acquire lk) else .swap lk))
  | .holding .release lk locked =>
    some (state.pop c (if state.holds c lk locked then .clear lk else .panic (.release lk)))
  | .swap lk =>
    if (state.lock lk).locked then some state
    else some ((state.setLock lk { state.lock lk with locked := true }).goto c (.stamp lk))
  | .stamp lk =>
    some (((state.setLock lk { state.lock lk with cpu := some c }).setHeld c
      (lk :: state.held c)).goto c .idle)
  | .clear lk => some ((state.setLock lk { state.lock lk with cpu := none }).goto c (.unlock lk))
  | .unlock lk =>
    some (((state.setLock lk { state.lock lk with locked := false }).setHeld c
      ((state.held c).erase lk)).pop c .idle)

/-- One step. A CPU calls a function when it is not in another, `pop_off` as often as
`push_off`, and sets its interrupts with neither a lock nor a `push_off` of its own. -/
def step (state : State C L) : Event C L → Option (State C L)
  | .acquire c lk =>
    if state.point c = .idle then
      some ((state.setCpu c (pushOff (pushOff (state.cpu c)))).goto c
        (.holding .acquire lk (state.lock lk).locked))
    else none
  | .release c lk =>
    if state.point c = .idle then
      some ((state.setCpu c (pushOff (state.cpu c))).goto c
        (.holding .release lk (state.lock lk).locked))
    else none
  | .go c => state.go c
  | .pushOff c =>
    if state.point c = .idle then
      some { state.setCpu c (pushOff (state.cpu c)) with
        depth := update state.depth c (state.depth c + 1) }
    else none
  | .popOff c =>
    if state.point c = .idle ∧ 0 < state.depth c then
      some { state.pop c .idle with
        depth := update state.depth c (state.depth c - 1) }
    else none
  | .interrupts c on =>
    if state.point c = .idle ∧ state.held c = [] ∧ state.depth c = 0 then
      some { state.setCpu c { state.cpu c with intr := on } with
        setting := update state.setting c on }
    else none

end State

/-- No lock is taken, and no CPU is in one of the functions. -/
structure Starts (state : State C L) : Prop where
  lock : ∀ lk, state.lock lk = ⟨false, none⟩
  point : ∀ c, state.point c = .idle
  held : ∀ c, state.held c = []
  depth : ∀ c, state.depth c = 0
  noff : ∀ c, (state.cpu c).noff = 0
  intr : ∀ c, (state.cpu c).intr = state.setting c

/-- The CPUs and their locks. -/
def system (C L : Type) [DecidableEq C] [DecidableEq L] : LabelledSystem (State C L) (Event C L) :=
  .ofFunction Starts State.step

end Model

/-! ## Interrupts -/

/-- `push_off` has been called `n` times more than `pop_off`: then interrupts are off, and what
they were is kept. -/
structure Tuned (cpu : Cpu) (n : Nat) (setting : Bool) : Prop where
  noff : cpu.noff = n
  on : n = 0 → cpu.intr = setting
  off : 0 < n → cpu.intr = false ∧ cpu.intena = setting

section Tuned

variable {cpu : Cpu} {n : Nat} {setting : Bool}

theorem Tuned.pushOff (tuned : Tuned cpu n setting) : Tuned (pushOff cpu) (n + 1) setting := by
  refine ⟨?_, fun never => absurd never (Nat.succ_ne_zero n), fun _ => ⟨rfl, ?_⟩⟩
  · show cpu.noff + 1 = _
    rw [tuned.noff]
    rfl
  · show (if cpu.noff = 0 then cpu.intr else cpu.intena) = setting
    rw [tuned.noff]
    by_cases zero : n = 0
    · rw [if_pos (by omega)]
      exact tuned.on zero
    · rw [if_neg (by omega)]
      exact (tuned.off (Nat.pos_of_ne_zero zero)).2

/-- A `pop_off` after a `push_off` does not panic. -/
theorem Tuned.popOff (tuned : Tuned cpu (n + 1) setting) :
    ∃ after, popOff cpu = some after ∧ Tuned after n setting := by
  obtain ⟨off, kept⟩ := tuned.off (Nat.succ_pos n)
  have noff : cpu.noff - 1 = n := by
    rw [tuned.noff]
    omega
  unfold Locks.popOff
  rw [off, if_neg Bool.false_ne_true, noff, if_neg (by omega)]
  by_cases last : n = 0 ∧ setting = true
  · obtain ⟨rfl, rfl⟩ := last
    rw [if_pos ⟨rfl, kept⟩]
    exact ⟨_, rfl, rfl, fun _ => rfl, fun never => absurd never (Nat.lt_irrefl 0)⟩
  · rw [if_neg fun both => last ⟨by omega, kept ▸ both.2⟩]
    refine ⟨_, rfl, rfl, fun zero => ?_, fun _ => ⟨rfl, kept⟩⟩
    exact (Bool.eq_false_iff.mpr fun on => last ⟨zero, on⟩).symm

end Tuned

/-! ## The invariant -/

/-- How often `push_off` has been called at a point, without what the held locks stand for. -/
def Point.level {L : Type} : Point L → Nat
  | .holding .acquire _ _ => 2
  | .holding .release _ _ | .swap _ | .stamp _ | .panic (.acquire _) => 1
  | _ => 0

/-- What a point says about the locks of its CPU. -/
def Point.Fits {L : Type} (held : List L) : Point L → Prop
  | .idle => True
  | .holding _ lk locked => lk ∈ held → locked = true
  | .swap lk | .stamp lk | .panic (.release lk) => lk ∉ held
  | .clear lk | .unlock lk | .panic (.acquire lk) => lk ∈ held
  | .panic .popOff => False

/-- At the point the lock that is worked on is as it looks. -/
def Point.Plain {L : Type} : Point L → Prop
  | .stamp _ | .unlock _ => False
  | _ => True

variable {C L : Type}

/-- A CPU has a lock from the swap in `acquire` to the one in `release`. -/
def State.Owns (state : State C L) (c : C) (lk : L) : Prop :=
  lk ∈ state.held c ∨ state.point c = .stamp lk

/-- What holds of each CPU alone. -/
structure CpuSound (state : State C L) (c : C) : Prop where
  tuned : Tuned (state.cpu c) ((state.held c).length + state.depth c + (state.point c).level)
    (state.setting c)
  fits : (state.point c).Fits (state.held c)
  nodup : (state.held c).Nodup

/-- What holds in every reachable state. -/
structure Sound (state : State C L) : Prop where
  each : ∀ c, CpuSound state c
  once : ∀ c d lk, state.Owns c lk → state.Owns d lk → c = d
  locked : ∀ lk, (state.lock lk).locked = true ↔ ∃ c, state.Owns c lk
  cpu : ∀ c lk, (state.lock lk).cpu = some c ↔ lk ∈ state.held c ∧ state.point c ≠ .unlock lk

/-- Nothing but the locks has changed for a CPU. -/
structure Same (state next : State C L) (d : C) : Prop where
  cpu : next.cpu d = state.cpu d
  point : next.point d = state.point d
  held : next.held d = state.held d
  depth : next.depth d = state.depth d
  setting : next.setting d = state.setting d

section Change

variable {state next : State C L} {c d : C} {lk : L}

theorem Same.sound (same : Same state next d) (sound : CpuSound state d) : CpuSound next d := by
  refine ⟨?_, ?_, ?_⟩
  · rw [same.cpu, same.held, same.depth, same.point, same.setting]
    exact sound.tuned
  · rw [same.point, same.held]
    exact sound.fits
  · rw [same.held]
    exact sound.nodup

theorem Same.owns (same : Same state next d) : next.Owns d lk ↔ state.Owns d lk := by
  unfold State.Owns
  rw [same.held, same.point]

theorem Sound.change (sound : Sound state) (others : ∀ d, d ≠ c → Same state next d)
    (here : CpuSound next c)
    (takes : ∀ lk, next.Owns c lk → state.Owns c lk ∨ (state.lock lk).locked = false)
    (locked : ∀ lk, (next.lock lk).locked = true ↔
      next.Owns c lk ∨ (state.lock lk).locked = true ∧ ¬ state.Owns c lk)
    (mine : ∀ lk, (next.lock lk).cpu = some c ↔ lk ∈ next.held c ∧ next.point c ≠ .unlock lk)
    (theirs : ∀ lk d, d ≠ c → ((next.lock lk).cpu = some d ↔ (state.lock lk).cpu = some d)) :
    Sound next := by
  have alone (d : C) (lk : L) (apart : d ≠ c) (owns : state.Owns d lk) : ¬ next.Owns c lk := by
    intro both
    rcases takes lk both with old | free
    · exact apart (sound.once d c lk owns old)
    · rw [(sound.locked lk).mpr ⟨d, owns⟩] at free
      cases free
  refine ⟨fun d => ?_, fun d e lk one two => ?_, fun lk => ?_, fun d lk => ?_⟩
  · by_cases same : d = c
    · subst same
      exact here
    · exact (others d same).sound (sound.each d)
  · by_cases first : d = c
    · by_cases second : e = c
      · rw [first, second]
      · subst first
        exact absurd one (alone e lk second ((others e second).owns.mp two))
    · by_cases second : e = c
      · subst second
        exact absurd two (alone d lk first ((others d first).owns.mp one))
      · exact sound.once d e lk ((others d first).owns.mp one) ((others e second).owns.mp two)
  · rw [locked]
    constructor
    · rintro (owns | ⟨taken, apart⟩)
      · exact ⟨c, owns⟩
      · obtain ⟨d, owns⟩ := (sound.locked lk).mp taken
        have other : d ≠ c := by
          rintro rfl
          exact apart owns
        exact ⟨d, (others d other).owns.mpr owns⟩
    · rintro ⟨d, owns⟩
      by_cases same : d = c
      · subst same
        exact .inl owns
      · have old := (others d same).owns.mp owns
        refine .inr ⟨(sound.locked lk).mpr ⟨d, old⟩, fun both => same (sound.once d c lk old both)⟩
  · by_cases same : d = c
    · subst same
      exact mine lk
    · rw [theirs lk d same, sound.cpu, (others d same).held, (others d same).point]

/-- A CPU goes from one plain point to another and leaves the locks alone. -/
theorem Sound.move (sound : Sound state) (others : ∀ d, d ≠ c → Same state next d)
    (before : (state.point c).Plain) (after : (next.point c).Plain) (lock : next.lock = state.lock)
    (held : next.held c = state.held c) (here : CpuSound next c) : Sound next := by
  have owns (lk : L) : next.Owns c lk ↔ state.Owns c lk := by
    unfold State.Owns
    rw [held]
    refine or_congr_right ⟨fun stamp => ?_, fun stamp => ?_⟩
    · rw [stamp] at after
      exact after.elim
    · rw [stamp] at before
      exact before.elim
  refine sound.change others here (fun lk both => .inl ((owns lk).mp both)) (fun lk => ?_)
    (fun lk => ?_) fun lk d _ => by rw [lock]
  · rw [lock, owns]
    have known := sound.locked lk
    constructor
    · intro taken
      by_cases mine : state.Owns c lk
      · exact .inl mine
      · exact .inr ⟨taken, mine⟩
    · rintro (mine | ⟨taken, -⟩)
      · exact known.mpr ⟨c, mine⟩
      · exact taken
  · rw [lock, held, sound.cpu]
    refine and_congr_right fun _ => ⟨fun _ unlock => ?_, fun _ unlock => ?_⟩
    · rw [unlock] at after
      exact after
    · rw [unlock] at before
      exact before

theorem Starts.sound (starts : Starts state) : Sound state := by
  have none (c : C) (lk : L) : ¬ state.Owns c lk := by
    rintro (held | stamp)
    · rw [starts.held] at held
      cases held
    · rw [starts.point] at stamp
      cases stamp
  refine ⟨fun c => ⟨?_, ?_, ?_⟩, fun c d lk owns _ => absurd owns (none c lk), fun lk => ?_,
    fun c lk => ?_⟩
  · rw [starts.held, starts.depth, starts.point]
    exact ⟨starts.noff c, fun _ => starts.intr c, fun never => absurd never (Nat.lt_irrefl 0)⟩
  · rw [starts.point]
    trivial
  · rw [starts.held]
    exact List.nodup_nil
  · rw [starts.lock]
    refine ⟨fun never => ?_, fun owned => ?_⟩
    · cases never
    · obtain ⟨c, owns⟩ := owned
      exact absurd owns (none c lk)
  · rw [starts.lock, starts.held]
    refine ⟨fun never => ?_, fun member => ?_⟩
    · cases never
    · cases member.1

theorem Sound.locked_of_mem (sound : Sound state) (member : lk ∈ state.held c) :
    (state.lock lk).locked = true :=
  (sound.locked lk).mpr ⟨c, .inl member⟩

/-- A CPU that is in no function changes its own state only. -/
theorem Sound.own (sound : Sound state) (idle : state.point c = .idle)
    (others : ∀ d, d ≠ c → Same state next d) (point : next.point c = .idle)
    (lock : next.lock = state.lock) (held : next.held c = state.held c)
    (tuned : Tuned (next.cpu c) ((state.held c).length + next.depth c) (next.setting c)) :
    Sound next := by
  refine sound.move others ?_ ?_ lock held ⟨?_, ?_, ?_⟩
  · rw [idle]
    trivial
  · rw [point]
    trivial
  · rw [held, point]
    exact tuned
  · rw [point]
    trivial
  · rw [held]
    exact (sound.each c).nodup

/-- A CPU writes itself, or none, to `cpu` of a lock that it owns, and owns the same locks. -/
theorem Sound.name [DecidableEq L] {cpu : Option C} (sound : Sound state) (mine : state.Owns c lk)
    (others : ∀ d, d ≠ c → Same state next d) (here : CpuSound next c)
    (owns : ∀ l, next.Owns c l ↔ state.Owns c l)
    (lock : next.lock = update state.lock lk { state.lock lk with cpu := cpu })
    (itself : cpu = none ∨ cpu = some c)
    (named : ∀ l, (next.lock l).cpu = some c ↔ l ∈ next.held c ∧ next.point c ≠ .unlock l) :
    Sound next := by
  refine sound.change others here (fun l both => .inl ((owns l).mp both)) (fun l => ?_) named
    fun l d other => ?_
  · have locked : (next.lock l).locked = (state.lock l).locked := by
      rw [lock]
      by_cases same : l = lk
      · subst same
        simp
      · simp [same]
    rw [owns, locked]
    have known := sound.locked l
    by_cases owned : state.Owns c l
    · simp [owned, known.mpr ⟨c, owned⟩]
    · simp [owned]
  · rw [lock]
    by_cases same : l = lk
    · subst same
      have apart : ¬ (state.lock l).cpu = some d := by
        intro equal
        exact other (sound.once d c l (.inl ((sound.cpu d l).mp equal).1) mine)
      rcases itself with rfl | rfl <;> simp [apart, Ne.symm other]
    · simp [same]

end Change

/-! ## One step -/

section Steps

variable [DecidableEq C] {state next : State C L} {c : C} {lk : L}

/-- What `holding` returns is whether the CPU holds the lock. -/
theorem Sound.holds (sound : Sound state) {caller : Caller} {locked : Bool}
    (here : state.point c = .holding caller lk locked) :
    state.holds c lk locked = true ↔ lk ∈ state.held c := by
  have fits := (sound.each c).fits
  rw [here] at fits
  unfold State.holds
  rw [Bool.and_eq_true, decide_eq_true_iff, sound.cpu, here]
  constructor
  · rintro ⟨-, member, -⟩
    exact member
  · intro member
    exact ⟨fits member, member, fun never => by cases never⟩

/-- A CPU goes on with `pop_off` to a point where one `push_off` less counts. -/
theorem Sound.pop {point : Point L} (sound : Sound state) (before : (state.point c).Plain)
    (after : point.Plain) (fits : point.Fits (state.held c))
    (level : (state.point c).level = point.level + 1) : Sound (state.pop c point) := by
  have tuned := (sound.each c).tuned
  rw [level, ← Nat.add_assoc] at tuned
  obtain ⟨cpu, popped, down⟩ := tuned.popOff
  unfold State.pop
  rw [popped]
  refine sound.move (c := c) (fun d other => ?_) before ?_ rfl rfl ⟨?_, ?_, (sound.each c).nodup⟩
  · constructor <;> simp [State.goto, State.setCpu, other]
  · simpa [State.goto] using after
  · simpa [State.goto, State.setCpu] using down
  · simpa [State.goto, State.setCpu] using fits

/-- A CPU calls a function with `push_off`. -/
theorem Sound.call (sound : Sound state) {cpu : Cpu} {point : Point L}
    (idle : state.point c = .idle) (after : point.Plain) (fits : point.Fits (state.held c))
    (tuned : Tuned cpu ((state.held c).length + state.depth c + point.level) (state.setting c)) :
    Sound ((state.setCpu c cpu).goto c point) := by
  have before : (state.point c).Plain := by
    rw [idle]
    trivial
  refine sound.move (c := c) (fun d other => ?_) before ?_ rfl rfl ⟨?_, ?_, (sound.each c).nodup⟩
  · constructor <;> simp [State.goto, State.setCpu, other]
  · simpa [State.goto] using after
  · simpa [State.goto, State.setCpu] using tuned
  · simpa [State.goto, State.setCpu] using fits

variable [DecidableEq L]

theorem Sound.swap (sound : Sound state) (here : state.point c = .swap lk)
    (free : (state.lock lk).locked = false) :
    Sound ((state.setLock lk { state.lock lk with locked := true }).goto c (.stamp lk)) := by
  obtain ⟨tuned, fits, nodup⟩ := sound.each c
  rw [here] at tuned fits
  have old (l : L) : state.Owns c l ↔ l ∈ state.held c := by
    simp [State.Owns, here]
  have new (l : L) : ((state.setLock lk { state.lock lk with locked := true }).goto c
      (.stamp lk)).Owns c l ↔ l ∈ state.held c ∨ l = lk := by
    simp [State.Owns, State.goto, State.setLock, eq_comm]
  refine sound.change (c := c) (fun d other => ?_) ⟨?_, ?_, nodup⟩ (fun l => ?_) (fun l => ?_)
    (fun l => ?_) fun l d other => ?_
  · constructor <;> simp [State.goto, State.setLock, other]
  · simpa [State.goto, State.setLock, Point.level] using tuned
  · simpa [State.goto, State.setLock, Point.Fits] using fits
  · rw [old, new]
    rintro (member | rfl)
    · exact .inl member
    · exact .inr free
  · rw [old, new]
    by_cases same : l = lk
    · subst same
      simp [State.goto, State.setLock]
    · have taken := fun (member : l ∈ state.held c) => sound.locked_of_mem member
      by_cases member : l ∈ state.held c
      · simp [State.goto, State.setLock, same, member, taken member]
      · simp [State.goto, State.setLock, same, member]
  · have known := sound.cpu c l
    rw [here] at known
    by_cases same : l = lk
    · subst same
      simpa [State.goto, State.setLock] using known
    · simpa [State.goto, State.setLock, same] using known
  · by_cases same : l = lk
    · subst same
      simp [State.goto, State.setLock]
    · simp [State.goto, State.setLock, same]

/-- `acquire` writes its CPU to the lock and returns. -/
theorem Sound.stamp (sound : Sound state) (here : state.point c = .stamp lk) :
    Sound (((state.setLock lk { state.lock lk with cpu := some c }).setHeld c
      (lk :: state.held c)).goto c .idle) := by
  obtain ⟨tuned, fits, nodup⟩ := sound.each c
  rw [here] at tuned fits
  refine sound.name (.inr here) (fun d other => ?_) ⟨?_, ?_, ?_⟩ (fun l => ?_) rfl (.inr rfl)
    fun l => ?_
  · constructor <;> simp [State.goto, State.setLock, State.setHeld, other]
  · have count : (state.held c).length + 1 + state.depth c =
        (state.held c).length + state.depth c + (Point.stamp lk).level := by
      show _ = _ + _ + 1
      omega
    rw [← count] at tuned
    simpa [State.goto, State.setLock, State.setHeld, Point.level] using tuned
  · simp [State.goto, Point.Fits]
  · simpa [State.goto, State.setHeld] using ⟨fits, nodup⟩
  · simp [State.Owns, State.goto, State.setLock, State.setHeld, here, or_comm, eq_comm]
  · by_cases same : l = lk
    · subst same
      simp [State.goto, State.setLock, State.setHeld]
    · have known := sound.cpu c l
      rw [here] at known
      simpa [State.goto, State.setLock, State.setHeld, same] using known

theorem Sound.clear (sound : Sound state) (here : state.point c = .clear lk) :
    Sound ((state.setLock lk { state.lock lk with cpu := none }).goto c (.unlock lk)) := by
  obtain ⟨tuned, fits, nodup⟩ := sound.each c
  rw [here] at tuned fits
  refine sound.name (.inl fits) (fun d other => ?_) ⟨?_, ?_, nodup⟩ (fun l => ?_) rfl (.inl rfl)
    fun l => ?_
  · constructor <;> simp [State.goto, State.setLock, other]
  · simpa [State.goto, State.setLock, Point.level] using tuned
  · simpa [State.goto, State.setLock, Point.Fits] using fits
  · simp [State.Owns, State.goto, State.setLock, here]
  · by_cases same : l = lk
    · subst same
      simp [State.goto, State.setLock]
    · have known := sound.cpu c l
      rw [here] at known
      simpa [State.goto, State.setLock, same, Ne.symm same] using known

theorem Sound.unlock (sound : Sound state) (here : state.point c = .unlock lk) :
    Sound (((state.setLock lk { state.lock lk with locked := false }).setHeld c
      ((state.held c).erase lk)).pop c .idle) := by
  obtain ⟨tuned, fits, nodup⟩ := sound.each c
  rw [here] at tuned fits
  have count : (state.held c).length + state.depth c + (Point.unlock lk).level =
      ((state.held c).erase lk).length + state.depth c + 1 := by
    have length := List.length_erase_add_one fits
    show _ + _ + 0 = _
    omega
  rw [count] at tuned
  obtain ⟨cpu, popped, down⟩ := tuned.popOff
  have member : lk ∈ state.held c := fits
  have left (l : L) : l ∈ (state.held c).erase lk ↔ l ≠ lk ∧ l ∈ state.held c :=
    nodup.mem_erase_iff
  have old (l : L) : state.Owns c l ↔ l ∈ state.held c := by
    simp [State.Owns, here]
  have same : ((state.setLock lk { state.lock lk with locked := false }).setHeld c
      ((state.held c).erase lk)).pop c .idle =
        (((state.setLock lk { state.lock lk with locked := false }).setHeld c
          ((state.held c).erase lk)).setCpu c cpu).goto c .idle := by
    unfold State.pop
    simp only [State.setLock, State.setHeld, popped]
  have new (l : L) : ((((state.setLock lk { state.lock lk with locked := false }).setHeld c
      ((state.held c).erase lk)).setCpu c cpu).goto c .idle).Owns c l ↔
        l ≠ lk ∧ l ∈ state.held c := by
    simp [State.Owns, State.goto, State.setLock, State.setHeld, State.setCpu, left]
  rw [same]
  refine sound.change (c := c) (fun d other => ?_) ⟨?_, ?_, ?_⟩ (fun l both => ?_) (fun l => ?_)
    (fun l => ?_) fun l d other => ?_
  · constructor <;> simp [State.goto, State.setLock, State.setHeld, State.setCpu, other]
  · simpa [State.goto, State.setLock, State.setHeld, State.setCpu, Point.level] using down
  · simp [State.goto, Point.Fits]
  · simpa [State.goto, State.setHeld, State.setCpu] using nodup.erase lk
  · exact .inl ((old l).mpr ((new l).mp both).2)
  · rw [old, new]
    by_cases same : l = lk
    · subst same
      simp [State.goto, State.setLock, State.setHeld, State.setCpu, member]
    · by_cases member : l ∈ state.held c
      · simp [State.goto, State.setLock, State.setHeld, State.setCpu, same, member,
          sound.locked_of_mem member]
      · simp [State.goto, State.setLock, State.setHeld, State.setCpu, same, member]
  · have known := sound.cpu c l
    rw [here] at known
    by_cases same : l = lk
    · subst same
      have apart : ¬ (state.lock l).cpu = some c := by simpa using known
      simp [State.goto, State.setLock, State.setHeld, State.setCpu, left, apart]
    · simpa [State.goto, State.setLock, State.setHeld, State.setCpu, left, same,
        Ne.symm same] using known
  · by_cases same : l = lk
    · subst same
      simp [State.goto, State.setLock, State.setHeld, State.setCpu]
    · simp [State.goto, State.setLock, State.setHeld, State.setCpu, same]

theorem Sound.go (sound : Sound state) (taken : state.go c = some next) : Sound next := by
  unfold State.go at taken
  cases here : state.point c with
  | idle =>
    rw [here] at taken
    cases taken
  | panic reason =>
    rw [here] at taken
    cases taken
  | holding caller lk locked =>
    have known := sound.holds here
    have plain : (state.point c).Plain := by
      rw [here]
      trivial
    cases caller with
    | acquire =>
      simp only [here] at taken
      cases taken
      by_cases member : lk ∈ state.held c
      · rw [known.mpr member]
        exact sound.pop plain trivial member (by rw [here]; rfl)
      · rw [if_neg fun holds => member (known.mp holds)]
        exact sound.pop plain trivial member (by rw [here]; rfl)
    | release =>
      simp only [here] at taken
      cases taken
      by_cases member : lk ∈ state.held c
      · rw [known.mpr member]
        exact sound.pop plain trivial member (by rw [here]; rfl)
      · rw [if_neg fun holds => member (known.mp holds)]
        exact sound.pop plain trivial member (by rw [here]; rfl)
  | swap lk =>
    simp only [here] at taken
    cases busy : (state.lock lk).locked with
    | true =>
      rw [busy] at taken
      cases taken
      exact sound
    | false =>
      rw [busy] at taken
      cases taken
      exact sound.swap here busy
  | stamp lk =>
    simp only [here] at taken
    cases taken
    exact sound.stamp here
  | clear lk =>
    simp only [here] at taken
    cases taken
    exact sound.clear here
  | unlock lk =>
    simp only [here] at taken
    cases taken
    exact sound.unlock here

theorem Sound.step {event : Event C L} (sound : Sound state)
    (taken : state.step event = some next) : Sound next := by
  unfold State.step at taken
  cases event with
  | acquire c lk =>
    obtain ⟨idle, done⟩ := Option.ite_none_right_eq_some.mp taken
    cases done
    have tuned := (sound.each c).tuned
    rw [idle] at tuned
    exact sound.call idle trivial (fun member => sound.locked_of_mem member)
      tuned.pushOff.pushOff
  | release c lk =>
    obtain ⟨idle, done⟩ := Option.ite_none_right_eq_some.mp taken
    cases done
    have tuned := (sound.each c).tuned
    rw [idle] at tuned
    exact sound.call idle trivial (fun member => sound.locked_of_mem member) tuned.pushOff
  | go c => exact sound.go taken
  | pushOff c =>
    obtain ⟨idle, done⟩ := Option.ite_none_right_eq_some.mp taken
    cases done
    have tuned := (sound.each c).tuned
    rw [idle] at tuned
    refine sound.own idle (fun d other => ?_) idle rfl rfl ?_
    · constructor <;> simp [State.setCpu, other]
    · simpa [State.setCpu, Point.level, Nat.add_assoc] using tuned.pushOff
  | popOff c =>
    obtain ⟨⟨idle, positive⟩, done⟩ := Option.ite_none_right_eq_some.mp taken
    cases done
    have tuned := (sound.each c).tuned
    rw [idle] at tuned
    have count : (state.held c).length + state.depth c + (Point.idle : Point L).level =
        (state.held c).length + (state.depth c - 1) + 1 := by
      show _ + _ + 0 = _
      omega
    rw [count] at tuned
    obtain ⟨cpu, popped, down⟩ := tuned.popOff
    have same : state.pop c .idle = (state.setCpu c cpu).goto c .idle := by
      unfold State.pop
      rw [popped]
    rw [same]
    refine sound.own idle (fun d other => ?_) ?_ rfl rfl ?_
    · constructor <;> simp [State.setCpu, State.goto, other]
    · simp [State.goto]
    · simpa [State.setCpu, State.goto] using down
  | interrupts c on =>
    obtain ⟨⟨idle, none, zero⟩, done⟩ := Option.ite_none_right_eq_some.mp taken
    cases done
    have tuned := (sound.each c).tuned
    rw [idle, none, zero] at tuned
    refine sound.own idle (fun d other => ?_) idle rfl rfl ?_
    · constructor <;> simp [State.setCpu, other]
    · have noff : (state.cpu c).noff = 0 := tuned.noff
      constructor <;> simp [State.setCpu, none, zero, noff]

end Steps

/-! ## Runs -/

section Runs

variable [DecidableEq C] [DecidableEq L] {state : State C L} {events : List (Event C L)}

/-- What the locks do for the kernel: a lock is held by one CPU, without interrupts, and
`holding` tells a CPU whether it holds a lock, whatever the others do meanwhile. So the panics
of `acquire` and `release` come for a lock that the CPU has, and for one that it does not have.
When the last lock is released, interrupts are as they were before the first. -/
structure Excludes (state : State C L) : Prop where
  alone : ∀ c d lk, lk ∈ state.held c → lk ∈ state.held d → c = d
  quiet : ∀ c, state.held c ≠ [] → (state.cpu c).intr = false
  holding : ∀ c caller lk locked, state.point c = .holding caller lk locked →
    (state.holds c lk locked = true ↔ lk ∈ state.held c)
  panics : ∀ c reason, state.point c = .panic reason →
    (∃ lk, reason = .acquire lk ∧ lk ∈ state.held c) ∨
      ∃ lk, reason = .release lk ∧ lk ∉ state.held c
  restored : ∀ c, state.point c = .idle → state.held c = [] → state.depth c = 0 →
    (state.cpu c).intr = state.setting c

omit [DecidableEq L] in
theorem Sound.excludes (sound : Sound state) : Excludes state := by
  refine ⟨fun c d lk one two => sound.once c d lk (.inl one) (.inl two), fun c some => ?_,
    fun c caller lk locked here => sound.holds here, fun c reason here => ?_,
    fun c here none zero => ?_⟩
  · refine ((sound.each c).tuned.off ?_).1
    have positive := List.length_pos_iff.mpr some
    omega
  · have fits := (sound.each c).fits
    rw [here] at fits
    cases reason with
    | acquire lk => exact .inl ⟨lk, rfl, fits⟩
    | release lk => exact .inr ⟨lk, rfl, fits⟩
    | popOff => exact fits.elim
  · refine (sound.each c).tuned.on ?_
    rw [here, none, zero]
    rfl

/-- In every run of any number of CPUs, with the accesses of `acquire`, `release` and `holding`
in any order, the locks exclude. -/
theorem excludes_of_runs (runs : (system C L).Runs events state) : Excludes state := by
  have sound : Sound state := by
    refine runs.invariant Sound (fun start starts => ?_) fun before event after sound taken => ?_
    · exact Starts.sound starts
    · exact sound.step taken
  exact sound.excludes

end Runs

/-- Two CPUs, with interrupts on, and a lock. -/
def twoCpus : State (Fin 2) Unit where
  lock _ := ⟨false, none⟩
  cpu _ := ⟨true, 0, false⟩
  point _ := .idle
  held _ := []
  depth _ := 0
  setting _ := true

theorem twoCpus_starts : Starts twoCpus :=
  ⟨fun _ => rfl, fun _ => rfl, fun _ => rfl, fun _ => rfl, fun _ => rfl, fun _ => rfl⟩

/-- The second CPU asks for the lock while the first has it, spins, and gets it. -/
theorem excludes_after_contention : ∃ events state, (system (Fin 2) Unit).Runs events state ∧
    state.held 0 = [] ∧ state.held 1 = [()] ∧ Excludes state := by
  let events : List (Event (Fin 2) Unit) := [.acquire 0 (), .acquire 1 (), .go 0, .go 1, .go 0,
    .go 1, .go 0, .release 0 (), .go 1, .go 0, .go 0, .go 1, .go 0, .go 1, .go 1]
  have found : (LabelledSystem.exec State.step twoCpus events).any (fun state =>
      decide (state.held 0 = [] ∧ state.held 1 = [()])) = true := by
    decide +kernel
  obtain ⟨state, result, facts⟩ := (Option.any_eq_true _ _).mp found
  obtain ⟨first, second⟩ := of_decide_eq_true facts
  have runs : (system (Fin 2) Unit).Runs events state :=
    .of_exec twoCpus_starts result
  exact ⟨events, state, runs, first, second, excludes_of_runs runs⟩

end Ev6.Locks
