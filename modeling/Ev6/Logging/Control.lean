import Ev6.Logging.Machine

/-!
# The control flow of the log

`Transition` lists what a process can do next. From it follow the invariants that
say who holds `log->lock`, which operations are counted and who commits.
-/

namespace Ev6.Logging

open Support Transactions

variable {others : Nat}

/-- The steps of one process. -/
inductive Transition (machine : Machine others) (p : Fin (others + 1)) :
    Pc → Pc → Change → Prop where
  | callBegin (booted : machine.booted = true) (live : p = 0 ∨ machine.trans.nextpid > 2) :
      Transition machine p .out .beginTake .keep
  | callWrite (b) : Transition machine p .op (.writeSpace b) .keep
  | callEnd : Transition machine p .op .endTake .keep
  | tearWrite (b i header outstanding) :
      Transition machine p (.writeEnter b i) (.writeEnter b i) (.tear header outstanding)
  | tearBoot (header outstanding) :
      Transition machine p .bootEnter .bootEnter (.tear header outstanding)
  | beginTake : Transition machine p .beginTake .beginTest .takeLock
  | beginWait (committing : machine.log.committing = true) :
      Transition machine p .beginTest .beginAsleep .dropLock
  | beginTest (calm : machine.log.committing = false) :
      Transition machine p .beginTest .beginSpace .keep
  | beginFull : Transition machine p .beginSpace .beginAsleep .dropLock
  | beginSpace : Transition machine p .beginSpace .beginAdd .keep
  | beginAsleep : Transition machine p .beginAsleep .beginTest .takeLock
  | beginAdd : Transition machine p .beginAdd .beginAddDup (.addOutstanding 1)
  | beginAddDup : Transition machine p .beginAddDup .beginDrop (.addDup 1)
  | beginDrop : Transition machine p .beginDrop .beginLeave .dropLock
  | beginLeave : Transition machine p .beginLeave .op .keep
  | writeSpace (b) : Transition machine p (.writeSpace b) (.writeCaller b) .keep
  | writeCaller (b) : Transition machine p (.writeCaller b) (.writeTake b) .keep
  | writeTake (b) : Transition machine p (.writeTake b) (.writeScan b 0) .takeLock
  | writeNext (b i) (inside : i < machine.log.lh.n) :
      Transition machine p (.writeScan b i) (.writeScan b (i + 1)) .keep
  | writeFound (b i) (found : i < machine.log.lh.n → machine.log.lh.block i = b) :
      Transition machine p (.writeScan b i) (.writeEnter b i) .keep
  | writeEnter (b i) :
      Transition machine p (.writeEnter b i) (.writeBlock b i)
        (.enter (putBlock machine.log.lh i b))
  | writeBlock (b i) : Transition machine p (.writeBlock b i) (.writeDupBlock b i) (.setBlock i b)
  | writeDupBlock (b i) :
      Transition machine p (.writeDupBlock b i) (.writeTest b i) (.setDupBlock i b)
  | writeNew (b i) (fresh : i = machine.log.lh.n) :
      Transition machine p (.writeTest b i) (.writePin b i) .keep
  | writeOld (b i) (known : i ≠ machine.log.lh.n) :
      Transition machine p (.writeTest b i) .writeExit .keep
  | writePin (b i) : Transition machine p (.writePin b i) (.writeGrow b i) .keep
  | writeGrow (b i) :
      Transition machine p (.writeGrow b i) (.writeDupGrow b i) (.setN (machine.log.lh.n + 1))
  | writeDupGrow (b i) :
      Transition machine p (.writeDupGrow b i) .writeExit (.setDupN (machine.dup.lhdr.n + 1))
  | writeExit : Transition machine p .writeExit .writeDrop .exit
  | writeDrop : Transition machine p .writeDrop .writeLeave .dropLock
  | writeLeave : Transition machine p .writeLeave .op .keep
  | endTake : Transition machine p .endTake .endSub .takeLock
  | endSub : Transition machine p .endSub .endSubDup (.addOutstanding (-1))
  | endSubDup : Transition machine p .endSubDup .endTest (.addDup (-1))
  | endTest (calm : machine.log.committing = false) : Transition machine p .endTest .endLast .keep
  | endLast (last : machine.log.outstanding = 0) : Transition machine p .endLast .endSet .keep
  | endOther : Transition machine p .endLast (.endDrop false) .keep
  | endSet : Transition machine p .endSet (.endDrop true) (.setCommitting true)
  | endDrop (commit) : Transition machine p (.endDrop commit) (.endLeave commit) .dropLock
  | endCommit : Transition machine p (.endLeave true) .commitEnter .keep
  | endReturn : Transition machine p (.endLeave false) .out .keep
  | commitEnter : Transition machine p .commitEnter .commitTest .keep
  | commitTest : Transition machine p .commitTest .commitLog .keep
  | commitEmpty : Transition machine p .commitTest .commitLeave .keep
  | commitLog : Transition machine p .commitLog .commitHead .keep
  | commitHead : Transition machine p .commitHead .commitInstall .keep
  | commitInstall : Transition machine p .commitInstall .commitClear .keep
  | commitClear : Transition machine p .commitClear .commitClearDup .clear
  | commitClearDup : Transition machine p .commitClearDup .commitErase .clearDup
  | commitErase : Transition machine p .commitErase .commitLeave .keep
  | commitLeave : Transition machine p .commitLeave .doneEnter .keep
  | doneEnter : Transition machine p .doneEnter .doneTake .keep
  | doneTake : Transition machine p .doneTake .doneClear .takeLock
  | doneClear : Transition machine p .doneClear .doneDrop (.setCommitting false)
  | doneDrop : Transition machine p .doneDrop .doneLeave .dropLock
  | doneLeave : Transition machine p .doneLeave .out .keep
  | bootEnter : Transition machine p .bootEnter .bootN (.enter machine.disk)
  | bootN : Transition machine p .bootN .bootDupN (.setN machine.disk.n)
  | bootDupN : Transition machine p .bootDupN (.bootTest 0) (.setDupN machine.disk.n)
  | bootNext (i) (inside : i < machine.log.lh.n) :
      Transition machine p (.bootTest i) (.bootBlock i) .keep
  | bootDone (i) (outside : ¬i < machine.log.lh.n) :
      Transition machine p (.bootTest i) .bootExit .keep
  | bootBlock (i) :
      Transition machine p (.bootBlock i) (.bootDupBlock i) (.setBlock i (machine.disk.block i))
  | bootDupBlock (i) :
      Transition machine p (.bootDupBlock i) (.bootTest (i + 1))
        (.setDupBlock i (machine.disk.block i))
  | bootExit : Transition machine p .bootExit .bootInstall .exit
  | bootInstall : Transition machine p .bootInstall .bootClear .keep
  | bootClear : Transition machine p .bootClear .bootClearDup .clear
  | bootClearDup : Transition machine p .bootClearDup .bootErase .clearDup
  | bootErase : Transition machine p .bootErase .out .finishBoot

variable {machine : Machine others}

/-- The instructions of the source are such transitions. -/
theorem control_cases (p : Fin (others + 1)) {pc next : Pc}
    {change : Change} (taken : machine.control pc = some (next, change)) :
    Transition machine p pc next change := by
  cases pc with
  | out | op => cases taken
  | beginTest =>
    cases committing : machine.log.committing
    · obtain ⟨rfl, rfl⟩ : Pc.beginSpace = next ∧ Change.keep = change := by
        simpa [Machine.control, committing] using taken
      exact .beginTest committing
    · obtain ⟨rfl, rfl⟩ : Pc.beginAsleep = next ∧ Change.dropLock = change := by
        simpa [Machine.control, committing] using taken
      exact .beginWait committing
  | beginSpace =>
    simp only [Machine.control, Option.some.injEq] at taken
    split at taken
    all_goals obtain ⟨rfl, rfl⟩ := Prod.mk.inj taken
    · exact .beginFull
    · exact .beginSpace
  | writeSpace b | writeCaller b =>
    simp only [Machine.control] at taken
    split at taken
    · cases taken
    · cases taken
      constructor
  | writeScan b i =>
    simp only [Machine.control, Option.some.injEq] at taken
    split at taken
    all_goals obtain ⟨rfl, rfl⟩ := Prod.mk.inj taken
    · rename_i scan
      exact .writeNext b i scan.1
    · rename_i scan
      exact .writeFound b i fun inside => not_not.mp fun other => scan ⟨inside, other⟩
  | writeTest b i =>
    simp only [Machine.control] at taken
    cases taken
    split
    · rename_i fresh
      exact .writeNew b i fresh
    · rename_i known
      exact .writeOld b i known
  | endTest =>
    cases committing : machine.log.committing
    · obtain ⟨rfl, rfl⟩ : Pc.endLast = next ∧ Change.keep = change := by
        simpa [Machine.control, committing] using taken
      exact .endTest committing
    · simp [Machine.control, committing] at taken
  | endLast =>
    simp only [Machine.control] at taken
    cases taken
    split
    · rename_i last
      exact .endLast last
    · exact .endOther
  | endLeave commit =>
    cases taken
    cases commit
    · exact .endReturn
    · exact .endCommit
  | commitTest =>
    simp only [Machine.control] at taken
    cases taken
    split
    · exact .commitTest
    · exact .commitEmpty
  | bootTest i =>
    simp only [Machine.control] at taken
    cases taken
    split
    · rename_i inside
      exact .bootNext i inside
    · rename_i outside
      exact .bootDone i outside
  | _ =>
    cases taken
    constructor

/-- Every action of a process is such a transition. -/
theorem moves_cases {p : Fin (others + 1)} {action : Action}
    {next : Pc} {change : Change} (taken : machine.moves p action = some (next, change)) :
    Transition machine p (machine.pc p) next change := by
  cases action with
  | step => exact control_cases p taken
  | beginOp =>
    obtain ⟨⟨out, booted, live⟩, same⟩ := Option.ite_none_right_eq_some.mp taken
    cases same
    rw [out]
    exact .callBegin booted live
  | logWrite b =>
    obtain ⟨op, same⟩ := Option.ite_none_right_eq_some.mp taken
    cases same
    rw [op]
    exact .callWrite b
  | endOp =>
    obtain ⟨op, same⟩ := Option.ite_none_right_eq_some.mp taken
    cases same
    rw [op]
    exact .callEnd
  | tear header outstanding =>
    cases pc : machine.pc p <;> simp only [Machine.moves, pc, reduceCtorEq] at taken
    all_goals obtain ⟨rfl, rfl⟩ := Prod.mk.inj (Option.some.inj taken)
    · exact .tearWrite _ _ header outstanding
    · exact .tearBoot header outstanding

/-! ## What a change does -/

/-- How a change moves the counter of the operations. -/
def Change.outstanding : Change → Int
  | .addOutstanding change => change
  | _ => 0

/-- How a change moves the duplicate of the counter. -/
def Change.dupOutstanding : Change → Int
  | .addDup change => change
  | _ => 0

/-- The value of `log->committing` after a change. -/
def Change.committing (change : Change) (before : Bool) : Bool :=
  match change with
  | .setCommitting value => value
  | _ => before

section Apply

variable {pid : Fin (others + 1) → Nat} {machine next : Machine others} {p : Fin (others + 1)}
  {change : Change}

/-- The effect of a change on what the control flow depends on. -/
theorem apply_control (applied : machine.apply pid p change = some next) :
    next.pc = machine.pc ∧ next.trans.nextpid = machine.trans.nextpid ∧
    next.log.outstanding = machine.log.outstanding + change.outstanding ∧
    next.dup.outstanding = machine.dup.outstanding + change.dupOutstanding ∧
    next.log.committing = change.committing machine.log.committing ∧
    (next.booted = machine.booted ∨ change = .finishBoot ∧ next.booted = true) ∧
    (change = .takeLock ∧ machine.lock = none ∧ next.lock = some p ∨
      change = .dropLock ∧ next.lock = none ∨
      change ≠ .takeLock ∧ change ≠ .dropLock ∧ next.lock = machine.lock) := by
  cases change with
  | takeLock =>
    obtain ⟨free, same⟩ := Option.ite_none_right_eq_some.mp applied
    cases same
    simp [Change.outstanding, Change.dupOutstanding, Change.committing, free]
  | enter after =>
    obtain ⟨trans, entered, rfl⟩ := Option.map_eq_some_iff.mp applied
    have nextpid : trans.nextpid = machine.trans.nextpid := by
      simp only [enterTransLog, enterTrans, Option.ite_none_left_eq_some] at entered
      cases entered.2
      rfl
    simp [Change.outstanding, Change.dupOutstanding, Change.committing, nextpid]
  | exit =>
    obtain ⟨trans, exited, rfl⟩ := Option.map_eq_some_iff.mp applied
    have nextpid : trans.nextpid = machine.trans.nextpid := by
      simp only [exitTransLog, exitTrans, Option.ite_none_left_eq_some] at exited
      cases exited.2
      rfl
    simp [Change.outstanding, Change.dupOutstanding, Change.committing, nextpid]
  | _ =>
    cases applied
    simp [Change.outstanding, Change.dupOutstanding, Change.committing]

end Apply

/-! ## What a transition does -/

/-- The process has seen, under the lock, that no commit is running. -/
def Pc.calm : Pc → Bool
  | .beginSpace | .beginAdd | .endLast | .endSet => true
  | _ => false

section Transition

variable {machine : Machine others} {p : Fin (others + 1)} {pc next : Pc} {change : Change}

theorem Transition.holds (taken : Transition machine p pc next change) :
    change = .takeLock ∧ pc.holds = false ∧ next.holds = true ∨
    change = .dropLock ∧ pc.holds = true ∧ next.holds = false ∨
    change ≠ .takeLock ∧ change ≠ .dropLock ∧ next.holds = pc.holds := by
  cases taken <;> simp [Pc.holds]

theorem Transition.counted (taken : Transition machine p pc next change) :
    ((if next.counted then 1 else 0) - (if pc.counted then 1 else 0) : Int) =
      change.outstanding := by
  cases taken <;> rfl

theorem Transition.dupCounted (taken : Transition machine p pc next change) :
    ((if next.dupCounted then 1 else 0) - (if pc.dupCounted then 1 else 0) : Int) =
      change.dupOutstanding := by
  cases taken <;> rfl

theorem Transition.commits (taken : Transition machine p pc next change) :
    next.commits = change.committing pc.commits := by
  cases taken <;> rfl

theorem Transition.inBoot (taken : Transition machine p pc next change) :
    change = .finishBoot ∧ next = .out ∧ pc.inBoot = true ∨
    change ≠ .finishBoot ∧ next.inBoot = pc.inBoot := by
  cases taken <;> simp [Pc.inBoot]

/-- Only a process of a booted machine leaves the outside. -/
theorem Transition.of_out (taken : Transition machine p .out next change) :
    machine.booted = true ∧ (p = 0 ∨ machine.trans.nextpid > 2) := by
  cases taken with
  | callBegin booted live => exact ⟨booted, live⟩

theorem Transition.calm (taken : Transition machine p pc next change) (calm : next.calm = true) :
    change = .keep ∧ (machine.log.committing = false ∨ pc.calm = true) ∧
      (next = .endSet → machine.log.outstanding = 0) := by
  cases taken <;> simp_all [Pc.calm]

/-- The counter and the flag are changed under the lock. -/
theorem Transition.locked (taken : Transition machine p pc next change)
    (changes : change.outstanding ≠ 0 ∨ ∃ value, change = .setCommitting value) :
    pc.holds = true := by
  cases taken <;> simp_all [Pc.holds, Change.outstanding]

/-- While a commit is running, no other process changes the counter or the flag. -/
theorem Transition.blocked (taken : Transition machine p pc next change)
    (calm : pc.calm = false) (uncounted : pc.counted = false) (other : pc.commits = false) :
    change.outstanding = 0 ∧ ∀ value, change ≠ .setCommitting value := by
  cases taken <;> simp_all [Pc.calm, Pc.counted, Pc.commits, Change.outstanding]

/-- A process that commits leaves the counter alone. -/
theorem Transition.committer (taken : Transition machine p pc next change)
    (commits : pc.commits = true) : change.outstanding = 0 ∧ change ≠ .setCommitting true := by
  cases taken <;> simp_all [Pc.commits, Pc.inCommit, Change.outstanding]

/-- The flag is set by a process that has seen the counter at 0. -/
theorem Transition.sets (taken : Transition machine p pc next (.setCommitting true)) :
    pc = .endSet := by
  cases taken
  rfl

end Transition

theorem Pc.holds_of_calm {pc : Pc} (calm : pc.calm = true) : pc.holds = true := by
  cases pc <;> simp_all [Pc.calm, Pc.holds]

/-! ## The invariant -/

/-- Who holds the lock, which operations are counted and who commits. -/
structure Controlled (machine : Machine others) : Prop where
  lock : ∀ p, (machine.pc p).holds = true ↔ machine.lock = some p
  live : ∀ p, machine.pc p ≠ .out → p = 0 ∨ machine.trans.nextpid > 2
  booting : machine.booted = false →
    (machine.pc 0).inBoot = true ∧ ∀ p, p ≠ 0 → machine.pc p = .out
  running : machine.booted = true → ∀ p, (machine.pc p).inBoot = false
  counted : machine.log.outstanding = tally fun p => (machine.pc p).counted
  dupCounted : machine.dup.outstanding = tally fun p => (machine.pc p).dupCounted
  calm : ∀ p, (machine.pc p).calm = true → machine.log.committing = false
  last : ∀ p, machine.pc p = .endSet → machine.log.outstanding = 0
  commit : ∀ p, (machine.pc p).commits = true → machine.log.committing = true ∧
    machine.log.outstanding = 0 ∧ ∀ q, (machine.pc q).commits = true → q = p

theorem controlled_start {pid : Fin (others + 1) → Nat}
    (boots : Boots pid machine) : Controlled machine := by
  have pc : ∀ p, machine.pc p = if p = 0 then .bootEnter else .out := by
    simp [boots.locations]
  have no : ∀ test : Pc → Bool, test .bootEnter = false → test .out = false →
      ∀ p, test (machine.pc p) = false := by
    intro test first outside p
    rw [pc p]
    split
    · exact first
    · exact outside
  refine ⟨fun p => ?_, fun p inside => ?_, fun _ => ⟨by simp [pc, Pc.inBoot], fun p other => ?_⟩,
    fun booted => ?_, ?_, ?_, fun p calm => boots.idle.2.2, fun p here => boots.idle.1,
    fun p commits => ?_⟩
  · simp [no Pc.holds rfl rfl p, boots.free]
  · left
    by_contra other
    exact inside (by rw [pc p, if_neg other])
  · rw [pc p, if_neg other]
  · rw [boots.booting] at booted
    cases booted
  · rw [boots.idle.1, tally_eq_zero.mpr fun p => no Pc.counted rfl rfl p]
  · rw [boots.idle.2.1, tally_eq_zero.mpr fun p => no Pc.dupCounted rfl rfl p]
  · rw [no Pc.commits rfl rfl p] at commits
    cases commits

section Controlled

variable {machine : Machine others}

variable {p : Fin (others + 1)}

theorem Controlled.holder (controlled : Controlled machine) {q : Fin (others + 1)}
    (first : (machine.pc p).holds = true) (second : (machine.pc q).holds = true) : p = q := by
  have here := (controlled.lock p).mp first
  rw [(controlled.lock q).mp second] at here
  exact (Option.some.inj here).symm

/-- While a commit is running, no operation is counted. -/
theorem Controlled.uncounted (controlled : Controlled machine)
    (commits : (machine.pc p).commits = true) (q : Fin (others + 1)) :
    (machine.pc q).counted = false := by
  have zero := (controlled.commit p commits).2.1
  rw [controlled.counted] at zero
  exact tally_eq_zero.mp zero q

/-- A process in `recover_from_log` is the first one, and the only one. -/
theorem Controlled.boot (controlled : Controlled machine)
    (boots : (machine.pc p).inBoot = true) : p = 0 ∧ ∀ q, q ≠ p → machine.pc q = .out := by
  have booting : machine.booted = false := by
    by_contra booted
    rw [controlled.running (by simpa using booted) p] at boots
    cases boots
  have others := (controlled.booting booting).2
  have first : p = 0 := by
    by_contra other
    rw [others p other] at boots
    cases boots
  exact ⟨first, fun q different => others q (first ▸ different)⟩

theorem Controlled.act (controlled : Controlled machine) {pid : Fin (others + 1) → Nat}
    {pc : Pc} {change : Change} {after : Machine others}
    (taken : Transition machine p (machine.pc p) pc change)
    (applied : machine.apply pid p change = some after) : Controlled (after.goto p pc) := by
  obtain ⟨locations, nextpid, outstanding, dupOutstanding, committing, booted, lock⟩ :=
    apply_control applied
  have pcs : ∀ q, (after.goto p pc).pc q = if q = p then pc else machine.pc q := by
    intro q
    simp only [Machine.goto, locations, Function.update_apply]
  have counts : ∀ test : Pc → Bool, tally (fun q => test ((after.goto p pc).pc q)) =
      tally (fun q => test (machine.pc q)) +
        ((if test pc then 1 else 0) - (if test (machine.pc p) then 1 else 0)) := by
    intro test
    rw [← tally_update test machine.pc p pc]
    simp only [Machine.goto, locations]
  -- The counter and the flag change only under the lock.
  have steady : ∀ q, q ≠ p → (machine.pc q).holds = true →
      change.outstanding = 0 ∧ change.committing machine.log.committing = machine.log.committing := by
    intro q other holds
    by_contra changes
    have locked : (machine.pc p).holds = true := by
      refine taken.locked ?_
      by_contra unchanged
      refine changes ⟨by_contra fun moved => unchanged (.inl moved), ?_⟩
      cases change with
      | setCommitting value => exact absurd (.inr ⟨value, rfl⟩) unchanged
      | _ => rfl
    exact other (controlled.holder holds locked)
  refine ⟨fun q => ?_, fun q inside => ?_, fun unbooted => ?_, fun finished q => ?_, ?_, ?_,
    fun q calm => ?_, fun q here => ?_, fun q commits => ?_⟩
  · rw [pcs]
    show _ ↔ after.lock = some q
    by_cases same : q = p
    · subst same
      rw [if_pos rfl]
      rcases taken.holds with ⟨took, -, holds⟩ | ⟨dropped, -, holds⟩ | ⟨noTake, noDrop, holds⟩
      · rcases lock with ⟨-, -, lock⟩ | ⟨other, -⟩ | ⟨other, -⟩
        · simp [holds, lock]
        · rw [took] at other
          cases other
        · exact absurd took other
      · rcases lock with ⟨other, -⟩ | ⟨-, lock⟩ | ⟨-, other, -⟩
        · rw [dropped] at other
          cases other
        · simp [holds, lock]
        · exact absurd dropped other
      · rcases lock with ⟨other, -⟩ | ⟨other, -⟩ | ⟨-, -, lock⟩
        · exact absurd other noTake
        · exact absurd other noDrop
        · rw [holds, lock]
          exact controlled.lock q
    · rw [if_neg same]
      rcases lock with ⟨took, free, lock⟩ | ⟨dropped, lock⟩ | ⟨-, -, lock⟩
      · rw [controlled.lock q, free, lock]
        simp [Ne.symm same]
      · have mine : machine.lock = some p := by
          rcases taken.holds with ⟨other, -⟩ | ⟨-, holds, -⟩ | ⟨-, other, -⟩
          · rw [dropped] at other
            cases other
          · exact (controlled.lock p).mp holds
          · exact absurd dropped other
        rw [controlled.lock q, mine, lock]
        simp [Ne.symm same]
      · rw [lock]
        exact controlled.lock q
  · rw [pcs] at inside
    show q = 0 ∨ after.trans.nextpid > 2
    rw [nextpid]
    by_cases same : q = p
    · subst same
      by_cases outside : machine.pc q = .out
      · rw [outside] at taken
        exact taken.of_out.2
      · exact controlled.live q outside
    · rw [if_neg same] at inside
      exact controlled.live q inside
  · have before : machine.booted = false := by
      rcases booted with same | ⟨-, finished⟩
      · exact same.symm.trans unbooted
      · exact absurd (finished.symm.trans unbooted) (by decide)
    obtain ⟨boots, outside⟩ := controlled.booting before
    have first : p = 0 := by
      by_contra other
      rw [outside p other] at taken
      exact absurd (taken.of_out.1.symm.trans before) (by decide)
    subst first
    refine ⟨?_, fun q other => ?_⟩
    · rw [pcs, if_pos rfl]
      rcases taken.inBoot with ⟨finished, -⟩ | ⟨-, same⟩
      · rw [finished] at applied
        cases applied
        cases unbooted
      · rw [same]
        exact boots
    · rw [pcs, if_neg other]
      exact outside q other
  · rw [pcs]
    rcases taken.inBoot with ⟨-, out, boots⟩ | ⟨unfinished, same⟩
    · have others := (controlled.boot boots).2
      split
      · rw [out]
        rfl
      · rename_i other
        rw [others q other]
        rfl
    · have before : machine.booted = true := by
        rcases booted with kept | ⟨finish, -⟩
        · exact kept.symm.trans finished
        · exact absurd finish unfinished
      split
      · rw [same]
        exact controlled.running before p
      · exact controlled.running before q
  · show after.log.outstanding = _
    rw [outstanding, counts Pc.counted, taken.counted, controlled.counted]
  · show after.dup.outstanding = _
    rw [dupOutstanding, counts Pc.dupCounted, taken.dupCounted, controlled.dupCounted]
  · show after.log.committing = false
    rw [pcs] at calm
    rw [committing]
    by_cases same : q = p
    · subst same
      rw [if_pos rfl] at calm
      obtain ⟨rfl, seen, -⟩ := taken.calm calm
      exact seen.elim id (controlled.calm q)
    · rw [if_neg same] at calm
      rw [(steady q same (Pc.holds_of_calm calm)).2]
      exact controlled.calm q calm
  · show after.log.outstanding = 0
    rw [pcs] at here
    rw [outstanding]
    by_cases same : q = p
    · subst same
      rw [if_pos rfl] at here
      subst here
      obtain ⟨rfl, -, last⟩ := taken.calm rfl
      rw [last rfl]
      rfl
    · rw [if_neg same] at here
      rw [(steady q same (by rw [here]; rfl)).1, controlled.last q here]
      rfl
  · show after.log.committing = true ∧ after.log.outstanding = 0 ∧ _
    rw [committing, outstanding]
    rw [pcs] at commits
    by_cases same : q = p
    · subst same
      rw [if_pos rfl, taken.commits] at commits
      by_cases before : (machine.pc q).commits = true
      · obtain ⟨flag, zero, unique⟩ := controlled.commit q before
        obtain ⟨steady, unset⟩ := taken.committer before
        refine ⟨?_, by rw [steady, zero]; rfl, fun r other => ?_⟩
        · cases change with
          | setCommitting value =>
            cases value
            · cases commits
            · rfl
          | _ => exact flag
        · by_contra different
          rw [pcs, if_neg different] at other
          exact different (unique r other)
      · have set : change = .setCommitting true := by
          cases change with
          | setCommitting value =>
            cases value
            · cases commits
            · rfl
          | _ => exact absurd commits before
        subst set
        have here := taken.sets
        have quiet := controlled.calm q (by rw [here]; rfl)
        refine ⟨rfl, by rw [controlled.last q here]; rfl, fun r other => ?_⟩
        by_contra different
        rw [pcs, if_neg different] at other
        rw [(controlled.commit r other).1] at quiet
        cases quiet
    · rw [if_neg same] at commits
      obtain ⟨flag, zero, unique⟩ := controlled.commit q commits
      have other : (machine.pc p).commits = false := by
        by_contra commits
        exact same (unique p (by simpa using commits)).symm
      have calm : (machine.pc p).calm = false := by
        by_contra calm
        have quiet := controlled.calm p (by simpa using calm)
        rw [flag] at quiet
        cases quiet
      obtain ⟨steady, unset⟩ := taken.blocked calm (controlled.uncounted commits p) other
      have kept : change.committing machine.log.committing = machine.log.committing := by
        cases change with
        | setCommitting value => exact absurd rfl (unset value)
        | _ => rfl
      refine ⟨kept.trans flag, by rw [steady, zero]; rfl, fun r again => ?_⟩
      rw [pcs] at again
      by_cases here : r = p
      · rw [if_pos here, taken.commits] at again
        cases change with
        | setCommitting value => exact absurd rfl (unset value)
        | _ =>
          rw [other] at again
          cases again
      · rw [if_neg here] at again
        exact unique r again

theorem Controlled.step (controlled : Controlled machine) {pid : Fin (others + 1) → Nat}
    {label : Label others} {next : Machine others}
    (taken : machine.step pid label = some next) : Controlled next := by
  cases label with
  | act p action =>
    obtain ⟨⟨pc, change⟩, moved, result⟩ := Option.bind_eq_some_iff.mp taken
    obtain ⟨after, applied, rfl⟩ := Option.map_eq_some_iff.mp result
    exact controlled.act (moves_cases moved) applied
  | fork =>
    obtain ⟨-, same⟩ := Option.ite_none_right_eq_some.mp taken
    cases same
    refine { controlled with live := fun p inside => ?_ }
    exact (controlled.live p inside).imp_right fun live => Nat.lt_succ_of_lt live

end Controlled

end Ev6.Logging
