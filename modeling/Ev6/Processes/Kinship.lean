import Ev6.Processes.WaitExit

/-!
# Parents and children

What a process has read of the table stays true until it acts on it: only a parent changes
the parent of its children, and a child that becomes a zombie holds the lock of its parent
then, or its parent is init. `Sound` says it for each stage, `Family` for the tree, and
`Locked` for the locks.
-/

namespace Ev6.Processes.WaitExit

open Function (update update_eq_self update_of_ne update_self)
open Support Files

/-! ## What a stage says -/

/-- The process in the stage holds the lock of the slot. -/
def Stage.Holds (p : Fin nproc) : Stage → Fin nproc → Prop
  | .fork made _, q => q = made
  | .exit _ (.self o), q => q = o
  | .exit _ (.scan o _), q => q = o ∨ q = p
  | .exit _ (.give o _), q => q = o ∨ q = p
  | .exit _ .last, q => q = p
  | .wait _ (.scan _ _), q => q = p
  | .wait _ (.check _), q => q = p
  | _, _ => False

/-- `reparent` has left the slot behind. -/
def Stage.Past : Stage → Fin nproc → Prop
  | .exit _ (.scan _ i), q => q.val < i
  | .exit _ (.give _ i), q => q < i
  | .exit _ .last, _ => True
  | .exit _ .gone, _ => True
  | _, _ => False

/-- The process has become a zombie. -/
def Stage.ended : Stage → Bool
  | .exit _ .last => true
  | .exit _ .gone => true
  | _ => false

/-- The parent that `exit` has read. -/
def Stage.target : Stage → Option (Fin nproc)
  | .exit _ (.parent o) => some o
  | .exit _ (.self o) => some o
  | .exit _ (.scan o _) => some o
  | .exit _ (.give o _) => some o
  | _ => none

/-- The child that has been found. -/
def Stage.child : Stage → Option (Fin nproc)
  | .exit _ (.give _ i) => some i
  | .wait _ (.check i) => some i
  | _ => none

/-- How many slots `wait` has looked at in vain. A sleeper has looked at all of them. -/
def Stage.looked (asleep : Prop) [Decidable asleep] : Stage → Nat
  | .wait _ (.scan i _) => i
  | .wait _ (.check i) => i
  | .wait _ .asleep => if asleep then nproc else 0
  | _ => 0

/-! ## The invariant -/

namespace State

/-- The parent of the process in a slot. -/
def parent (state : State) (q : Fin nproc) : Option (Fin nproc) := (state.proc q).parent

def Unused (state : State) (q : Fin nproc) : Prop := (state.proc q).state = .unused

def Zombie (state : State) (q : Fin nproc) : Prop := (state.proc q).state = .zombie

def Asleep (state : State) (q : Fin nproc) : Prop := (state.proc q).state = .sleeping

instance (state : State) (q : Fin nproc) : Decidable (state.Asleep q) := by
  unfold Asleep
  infer_instance

end State

/-- What holds of a process in a stage. -/
structure Sound (state : State) (p : Fin nproc) (stage : Stage) : Prop where
  idle : state.Unused p → stage = .user
  ended : state.Zombie p ↔ stage.ended = true
  chan : ∀ addr, stage = .wait addr .asleep → state.Asleep p → (state.proc p).chan = .proc p
  exits : ∀ status phase, stage = .exit status phase → p ≠ 0 ∧ state.number p ∈ state.left
  target : ∀ o, stage.target = some o →
    o ≠ p ∧ (state.parent p = some o ∨ state.parent p = some 0)
  child : ∀ i, stage.child = some i → state.parent i = some p
  making : ∀ q placed, stage = .fork q placed →
    state.Unused q ∧ state.parent q = if placed then some p else none
  looked : p ≠ 0 → ∀ q, q.val < stage.looked (state.Asleep p) → state.parent q = some p →
    ¬state.Zombie q
  kids : p ≠ 0 → ∀ addr i havekids, stage = .wait addr (.scan i havekids) →
    ∀ q, q.val < i → state.parent q = some p → havekids = true
  roots : p = 0 → ∀ addr i havekids, stage = .wait addr (.scan i havekids) →
    havekids = true ∨ (∀ q, q ≠ 0 → state.Unused q) ∨ ∃ r, i ≤ r.val ∧ state.parent r = some 0

/-- What holds of a child and its parent. -/
structure Guarded (state : State) (q o : Fin nproc) : Prop where
  child : ¬state.Unused q ∨ state.stage o = .fork q true
  parent : ¬state.Unused o
  ahead : ¬(state.stage o).Past q
  older : o ≠ 0 → state.number o < state.number q
  maker : state.number o = state.maker q ∨ o = 0 ∧ state.maker q ∈ state.left

/-- The processes form a tree with init at its root. -/
structure Family (state : State) : Prop where
  init : ¬state.Unused 0 ∧ state.parent 0 = none
  orphan : ∀ q, ¬state.Unused q → q ≠ 0 → ∃ o, state.parent q = some o
  guarded : ∀ q o, state.parent q = some o → Guarded state q o
  numbers : ∀ q, state.number q < state.made

/-- The locks are held by those whose stage says so. -/
def Locked (state : State) : Prop :=
  ∀ p q, (state.stage p).Holds p q ↔ state.lock q = some p

structure Inv (state : State) : Prop where
  family : Family state
  sound : ∀ p, Sound state p (state.stage p)
  locked : Locked state

/-! ## What another process knows -/

/-- What a step may change without touching what the process `r` knows. -/
structure Unmoved (state next : State) (r : Fin nproc) : Prop where
  unused : next.Unused r ↔ state.Unused r
  zombie : next.Zombie r ↔ state.Zombie r
  asleep : next.Asleep r → state.Asleep r ∧ (next.proc r).chan = (state.proc r).chan
  number : next.number r = state.number r
  left : ∀ n ∈ state.left, n ∈ next.left
  own : next.parent r = state.parent r ∨ next.parent r = some 0
  children : ∀ q, state.parent q = some r → next.parent q = some r
  newborn : r ≠ 0 → ∀ q, next.parent q = some r → state.parent q = some r
  zombies : r ≠ 0 → ∀ q, next.parent q = some r → next.Zombie q → ¬state.Zombie q →
    (state.stage r).looked (next.Asleep r) ≤ q.val
  making : ∀ q placed, state.stage r = .fork q placed →
    next.Unused q ∧ next.parent q = state.parent q
  alone : r = 0 → (∀ q, q ≠ 0 → state.Unused q) → ∀ q, q ≠ 0 → next.Unused q

theorem Stage.looked_mono {before after : Prop} [Decidable before] [Decidable after]
    (still : after → before) (stage : Stage) : stage.looked after ≤ stage.looked before := by
  cases stage with
  | wait addr phase =>
    cases phase with
    | asleep =>
      simp only [looked]
      by_cases asleep : after
      · rw [if_pos asleep, if_pos (still asleep)]
      · rw [if_neg asleep]
        exact Nat.zero_le _
    | _ => exact Nat.le_refl _
  | _ => exact Nat.le_refl _

variable {next state : State}

theorem Sound.keep {r : Fin nproc}
    (sound : Sound state r (state.stage r)) (unmoved : Unmoved state next r) :
    Sound next r (state.stage r) where
  idle := fun unused => sound.idle (unmoved.unused.mp unused)
  ended := unmoved.zombie.trans sound.ended
  chan := by
    intro addr here asleep
    obtain ⟨before, same⟩ := unmoved.asleep asleep
    rw [same]
    exact sound.chan addr here before
  exits := by
    intro status phase here
    obtain ⟨notInit, left⟩ := sound.exits status phase here
    rw [unmoved.number]
    exact ⟨notInit, unmoved.left _ left⟩
  target := by
    intro o here
    obtain ⟨other, parent⟩ := sound.target o here
    rcases unmoved.own with same | adopted
    · rw [same]
      exact ⟨other, parent⟩
    · exact ⟨other, .inr adopted⟩
  child := fun i here => unmoved.children i (sound.child i here)
  making := by
    intro q placed here
    obtain ⟨unused, same⟩ := unmoved.making q placed here
    rw [same]
    exact ⟨unused, (sound.making q placed here).2⟩
  looked := by
    intro notInit q low child zombie
    have before := unmoved.newborn notInit q child
    have further := Stage.looked_mono (fun asleep => (unmoved.asleep asleep).1) (state.stage r)
    by_cases already : state.Zombie q
    · exact sound.looked notInit q (Nat.lt_of_lt_of_le low further) before already
    · exact absurd low (Nat.not_lt.mpr (unmoved.zombies notInit q child zombie already))
  kids := by
    intro notInit addr i havekids here q low child
    exact sound.kids notInit addr i havekids here q low (unmoved.newborn notInit q child)
  roots := by
    intro init addr i havekids here
    refine (sound.roots init addr i havekids here).imp_right (Or.imp ?_ ?_)
    · exact unmoved.alone init
    · rintro ⟨root, low, child⟩
      exact ⟨root, low, init ▸ unmoved.children root (init ▸ child)⟩

section Stages

variable {state : State} {p : Fin nproc}

theorem Sound.user (alive : ¬state.Zombie p) : Sound state p .user where
  idle := fun _ => rfl
  ended := iff_of_false alive Bool.noConfusion
  chan := nofun
  exits := nofun
  target := nofun
  child := nofun
  making := nofun
  looked := fun _ _ low => absurd low (Nat.not_lt_zero _)
  kids := nofun
  roots := nofun

theorem Sound.fork {q : Fin nproc} {placed : Bool} (used : ¬state.Unused p)
    (alive : ¬state.Zombie p) (unused : state.Unused q)
    (parent : state.parent q = if placed then some p else none) :
    Sound state p (.fork q placed) where
  idle := fun unused => absurd unused used
  ended := iff_of_false alive Bool.noConfusion
  chan := nofun
  exits := nofun
  target := nofun
  child := nofun
  making := by
    rintro _ _ ⟨⟩
    exact ⟨unused, parent⟩
  looked := fun _ _ low => absurd low (Nat.not_lt_zero _)
  kids := nofun
  roots := nofun

theorem Sound.exit {status : Int} {phase : ExitPhase} (used : ¬state.Unused p)
    (ended : state.Zombie p ↔ (Stage.exit status phase).ended = true) (notInit : p ≠ 0)
    (left : state.number p ∈ state.left) (target : ∀ o, (Stage.exit status phase).target = some o →
      o ≠ p ∧ (state.parent p = some o ∨ state.parent p = some 0))
    (child : ∀ i, (Stage.exit status phase).child = some i → state.parent i = some p) :
    Sound state p (.exit status phase) where
  idle := fun unused => absurd unused used
  ended := ended
  chan := nofun
  exits := by
    rintro _ _ ⟨⟩
    exact ⟨notInit, left⟩
  target := target
  child := child
  making := nofun
  looked := fun _ _ low => absurd low (Nat.not_lt_zero _)
  kids := nofun
  roots := nofun

variable {addr : Addr}

theorem Sound.scan {i : Nat} {havekids : Bool} (used : ¬state.Unused p) (alive : ¬state.Zombie p)
    (looked : p ≠ 0 → ∀ q, q.val < i → state.parent q = some p → ¬state.Zombie q ∧ havekids = true)
    (roots : p = 0 → havekids = true ∨ (∀ q, q ≠ 0 → state.Unused q) ∨
      ∃ r, i ≤ r.val ∧ state.parent r = some 0) :
    Sound state p (.wait addr (.scan i havekids)) where
  idle := fun unused => absurd unused used
  ended := iff_of_false alive Bool.noConfusion
  chan := nofun
  exits := nofun
  target := nofun
  child := nofun
  making := nofun
  looked := fun notInit q low child => (looked notInit q low child).1
  kids := by
    rintro notInit _ _ _ ⟨⟩ q low child
    exact (looked notInit q low child).2
  roots := by
    rintro init _ _ _ ⟨⟩
    exact roots init

theorem Sound.check {i : Fin nproc} (used : ¬state.Unused p)
    (alive : ¬state.Zombie p) (child : state.parent i = some p)
    (looked : p ≠ 0 → ∀ q, q < i → state.parent q = some p → ¬state.Zombie q) :
    Sound state p (.wait addr (.check i)) where
  idle := fun unused => absurd unused used
  ended := iff_of_false alive Bool.noConfusion
  chan := nofun
  exits := nofun
  target := nofun
  child := by
    rintro _ ⟨⟩
    exact child
  making := nofun
  looked := looked
  kids := nofun
  roots := nofun

theorem Sound.asleep (used : ¬state.Unused p) (alive : ¬state.Zombie p)
    (chan : (state.proc p).chan = .proc p)
    (looked : p ≠ 0 → ∀ q, state.parent q = some p → ¬state.Zombie q) :
    Sound state p (.wait addr .asleep) where
  idle := fun unused => absurd unused used
  ended := iff_of_false alive Bool.noConfusion
  chan := fun _ _ _ => chan
  exits := nofun
  target := nofun
  child := nofun
  making := nofun
  looked := fun notInit q _ child => looked notInit q child
  kids := nofun
  roots := nofun

/-- A process in a call is neither free nor, before the end of `exit`, a zombie. -/
theorem Sound.used {stage : Stage} (sound : Sound state p stage) (busy : stage ≠ .user) :
    ¬state.Unused p := fun unused => busy (sound.idle unused)

theorem Sound.alive {stage : Stage} (sound : Sound state p stage) (going : stage.ended = false) :
    ¬state.Zombie p := by
  intro zombie
  have ended := sound.ended.mp zombie
  rw [going] at ended
  cases ended

end Stages

/-! ## Steps that leave the family alone -/

/-- A step that takes the process `p` to a stage and changes no parent, makes no process and
ends none, and puts no other process to sleep. -/
structure Quiet (state next : State) (p : Fin nproc) (stage : Stage) : Prop where
  stage : next.stage = update state.stage p stage
  parent : ∀ q, next.parent q = state.parent q
  unused : ∀ q, next.Unused q ↔ state.Unused q
  zombie : ∀ q, next.Zombie q ↔ state.Zombie q
  asleep : ∀ q, q ≠ p → next.Asleep q →
    state.Asleep q ∧ (next.proc q).chan = (state.proc q).chan
  number : next.number = state.number
  maker : next.maker = state.maker
  made : next.made = state.made
  left : ∀ n ∈ state.left, n ∈ next.left

variable {p : Fin nproc} {stage : Stage}

theorem Quiet.unmoved {r : Fin nproc}
    (quiet : Quiet state next p stage) (sound : Sound state r (state.stage r))
    (asleep : next.Asleep r → state.Asleep r ∧ (next.proc r).chan = (state.proc r).chan) :
    Unmoved state next r where
  unused := quiet.unused r
  zombie := quiet.zombie r
  asleep := asleep
  number := congrFun quiet.number r
  left := quiet.left
  own := .inl (quiet.parent r)
  children := fun q child => (quiet.parent q).trans child
  newborn := fun _ q child => (quiet.parent q).symm.trans child
  zombies := fun _ q _ after before => absurd ((quiet.zombie q).mp after) before
  making := fun q placed here =>
    ⟨(quiet.unused q).mpr (sound.making q placed here).1, quiet.parent q⟩
  alone := fun _ alone q notInit => (quiet.unused q).mpr (alone q notInit)

theorem Family.quiet (family : Family state) (quiet : Quiet state next p stage)
    (placed : ∀ q, state.stage p = .fork q true → stage = .fork q true)
    (past : ∀ q, state.parent q = some p → stage.Past q → (state.stage p).Past q) :
    Family next where
  init := by
    rw [quiet.unused, quiet.parent]
    exact family.init
  orphan := by
    intro q used notInit
    rw [quiet.unused] at used
    rw [quiet.parent]
    exact family.orphan q used notInit
  guarded := by
    intro q o child
    rw [quiet.parent] at child
    obtain ⟨used, parent, ahead, older, maker⟩ := family.guarded q o child
    refine ⟨?_, ?_, ?_, ?_, ?_⟩
    · rw [quiet.unused, quiet.stage]
      refine used.imp_right fun forking => ?_
      by_cases here : o = p
      · subst here
        rw [update_self]
        exact placed q forking
      · rw [update_of_ne here]
        exact forking
    · rw [quiet.unused]
      exact parent
    · rw [quiet.stage]
      by_cases here : o = p
      · subst here
        rw [update_self]
        exact fun behind => ahead (past q child behind)
      · rw [update_of_ne here]
        exact ahead
    · rw [quiet.number]
      exact older
    · rw [quiet.number, quiet.maker]
      exact maker.imp_right fun adopted => ⟨adopted.1, quiet.left _ adopted.2⟩
  numbers := by
    intro q
    rw [quiet.number, quiet.made]
    exact family.numbers q

/-- A quiet step keeps the invariant when the process knows what its new stage says. -/
theorem Inv.quiet (inv : Inv state)
    (quiet : Quiet state next p stage) (own : Sound next p stage) (locked : Locked next)
    (placed : ∀ q, state.stage p = .fork q true → stage = .fork q true)
    (past : ∀ q, state.parent q = some p → stage.Past q → (state.stage p).Past q) : Inv next where
  family := inv.family.quiet quiet placed past
  locked := locked
  sound := by
    intro r
    rw [quiet.stage]
    by_cases here : r = p
    · subst here
      rw [update_self]
      exact own
    · rw [update_of_ne here]
      exact (inv.sound r).keep (quiet.unmoved (inv.sound r) (quiet.asleep r here))

/-- A quiet step in which no stage changes and nobody falls asleep. -/
theorem Inv.still (inv : Inv state)
    (quiet : Quiet state next p (state.stage p)) (lock : next.lock = state.lock)
    (asleep : next.Asleep p → state.Asleep p ∧ (next.proc p).chan = (state.proc p).chan) :
    Inv next := by
  have same : next.stage = state.stage := by
    rw [quiet.stage, update_eq_self]
  apply inv.quiet quiet
  · exact (inv.sound p).keep (quiet.unmoved (inv.sound p) asleep)
  · intro r q
    rw [same, lock]
    exact inv.locked r q
  · exact fun _ => id
  · exact fun _ _ => id

theorem Quiet.of_update {q : Fin nproc} {new : Proc} (procs : next.proc = update state.proc q new)
    (stages : next.stage = update state.stage p stage) (parent : new.parent = (state.proc q).parent)
    (unused : new.state = .unused ↔ (state.proc q).state = .unused)
    (zombie : new.state = .zombie ↔ (state.proc q).state = .zombie)
    (asleep : q ≠ p → new.state = .sleeping →
      (state.proc q).state = .sleeping ∧ new.chan = (state.proc q).chan)
    (number : next.number = state.number) (maker : next.maker = state.maker)
    (made : next.made = state.made) (left : ∀ n ∈ state.left, n ∈ next.left) :
    Quiet state next p stage := by
  have here : next.proc q = new := by rw [procs, update_self]
  have elsewhere : ∀ r, r ≠ q → next.proc r = state.proc r := by
    intro r other
    rw [procs, update_of_ne other]
  refine ⟨stages, ?_, ?_, ?_, ?_, number, maker, made, left⟩ <;> intro r <;>
    by_cases same : r = q
  · subst same
    rw [State.parent, here, parent, State.parent]
  · rw [State.parent, elsewhere r same, State.parent]
  · subst same
    rw [State.Unused, here, unused, State.Unused]
  · rw [State.Unused, elsewhere r same, State.Unused]
  · subst same
    rw [State.Zombie, here, zombie, State.Zombie]
  · rw [State.Zombie, elsewhere r same, State.Zombie]
  · subst same
    intro other
    rw [State.Asleep, here]
    exact asleep other
  · intro _
    rw [State.Asleep, elsewhere r same]
    exact fun sleeps => ⟨sleeps, rfl⟩

theorem Quiet.of_same (procs : next.proc = state.proc)
    (stages : next.stage = update state.stage p stage)
    (number : next.number = state.number) (maker : next.maker = state.maker)
    (made : next.made = state.made) (left : ∀ n ∈ state.left, n ∈ next.left) :
    Quiet state next p stage := by
  refine Quiet.of_update (q := p) ?_ stages rfl Iff.rfl Iff.rfl ?_ number maker made left
  · rw [procs, update_eq_self]
  · exact fun other => absurd rfl other

/-! ## The locks -/

theorem Locked.update (locked : Locked state) (stages : next.stage = update state.stage p stage)
    (own : ∀ q, stage.Holds p q ↔ next.lock q = some p)
    (others : ∀ r, r ≠ p → ∀ q, next.lock q = some r ↔ state.lock q = some r) : Locked next := by
  intro r q
  rw [stages]
  by_cases here : r = p
  · subst here
    rw [update_self]
    exact own q
  · rw [update_of_ne here, others r here]
    exact locked r q

/-- A lock that is free, or held by the process, goes to the process or becomes free. -/
theorem lock_others {lock : Fin nproc → Option (Fin nproc)} {q : Fin nproc}
    {new : Option (Fin nproc)} (old : lock q = none ∨ lock q = some p)
    (changed : new = none ∨ new = some p) (r : Fin nproc) (other : r ≠ p) (s : Fin nproc) :
    update lock q new s = some r ↔ lock s = some r := by
  have different : some p ≠ some r := fun same => other (Option.some.inj same).symm
  by_cases here : s = q
  · subst here
    rw [update_self]
    constructor
    · rintro rfl
      rcases changed with none | mine
      · cases none
      · exact absurd mine.symm different
    · intro held
      rcases old with free | mine
      · rw [free] at held
        cases held
      · exact absurd (mine.symm.trans held) different
  · rw [update_of_ne here]

end Ev6.Processes.WaitExit
