import Ev6.Logging.Control

/-!
# The updates of the log header

Only one process at a time is in the middle of an update of the header. Outside the
updates the duplicate agrees with the header; during an update the snapshot of the
transaction, or the duplicate, is the header just before it or just after it.
-/

namespace Ev6.Logging

open Option (map_eq_some_iff)
open Function (update update_apply update_of_ne update_self)
open Support Transactions

variable {others : Nat}

namespace Same

variable {header other third : LogHeader}

theorem refl (header : LogHeader) : Same header header := ⟨rfl, fun _ _ => rfl⟩

theorem symm (same : Same header other) : Same other header :=
  ⟨same.1.symm, fun i inside => (same.2 i (same.1 ▸ inside)).symm⟩

theorem trans (first : Same header other) (second : Same other third) : Same header third :=
  ⟨first.1.trans second.1,
    fun i inside => (first.2 i inside).trans (second.2 i (first.1 ▸ inside))⟩

/-- A block at the end, or a block written again, is no change up to the length. -/
theorem setBlock (same : Same header other) {i b : Nat} (place : i < other.n → other.block i = b) :
    Same { header with block := update header.block i b } other := by
  refine ⟨same.1, fun j inside => ?_⟩
  by_cases here : j = i
  · subst here
    have known := place (same.1 ▸ inside)
    simp [known]
  · simp only [update_of_ne here]
    exact same.2 j inside

end Same

theorem same_putBlock_of_lt {header : LogHeader} {i b : Nat} (inside : i < header.n)
    (known : header.block i = b) : Same header (putBlock header i b) := by
  have old : i ≠ header.n := Nat.ne_of_lt inside
  refine ⟨by simp [putBlock, old], fun j _ => ?_⟩
  by_cases here : j = i
  · subst here
    simp [putBlock, known]
  · simp [putBlock, here]

/-- A header that agrees, and has the new block, agrees with the longer one. -/
theorem same_putBlock_of_eq {header before : LogHeader} {b : Nat} (same : Same header before)
    (here : header.block before.n = b) :
    Same { header with n := header.n + 1 } (putBlock before before.n b) := by
  refine ⟨by simp [putBlock, same.1], fun i inside => ?_⟩
  rcases Nat.lt_succ_iff_lt_or_eq.mp inside with below | rfl
  · have old : i ≠ before.n := Nat.ne_of_lt (same.1 ▸ below)
    simp only [putBlock, update_of_ne old]
    exact same.2 i below
  · rw [same.1]
    simp [putBlock, here]

/-- What the scan for a block has found out. -/
def Scanned (header : LogHeader) : Pc → Prop
  | .writeScan _ i => i ≤ header.n
  | .writeEnter b i => i ≤ header.n ∧ (i < header.n → header.block i = b)
  | _ => True

/-- The header and its duplicate before a block is entered in the duplicate, and the
place of the block. -/
structure Placing (lh dup before after : LogHeader) (b i : Nat) : Prop where
  place : i ≤ before.n
  known : i < before.n → before.block i = b
  leads : after = putBlock before i b
  header : Same lh before
  duplicate : Same dup before

/-- The header and its duplicate while the blocks of the disk are copied. -/
structure Copying (lh dup after disk : LogHeader) (i : Nat) : Prop where
  leads : after = disk
  lengths : lh.n = disk.n ∧ dup.n = disk.n
  copied : ∀ j < i, lh.block j = disk.block j ∧ dup.block j = disk.block j

/-- How far an update from `before` to `after` has come, by the location of the
process that makes it. -/
def Progress (lh dup before after disk : LogHeader) : Pc → Prop
  | .writeBlock b i => Placing lh dup before after b i
  | .writeDupBlock b i => Placing lh dup before after b i ∧ lh.block i = b
  | .writeTest b i => Placing lh dup before after b i ∧ lh.block i = b ∧ dup.block i = b
  | .writePin b i | .writeGrow b i =>
    Placing lh dup before after b i ∧ lh.block i = b ∧ dup.block i = b ∧ i = before.n
  | .writeDupGrow b _ =>
    Same dup before ∧ dup.block before.n = b ∧ Same lh after ∧
      after = putBlock before before.n b
  | .writeExit | .bootExit => Same dup after ∧ Same lh after
  | .commitClearDup | .bootClearDup => Same dup before ∧ lh.n = 0
  | .bootN => after = disk
  | .bootDupN => after = disk ∧ lh.n = disk.n
  | .bootTest i | .bootBlock i => Copying lh dup after disk i
  | .bootDupBlock i => Copying lh dup after disk i ∧ lh.block i = disk.block i
  | _ => True

/-- The process reads the header for an update, or is in the middle of one. -/
def Pc.usesHeader : Pc → Bool
  | .writeScan _ _ | .writeEnter _ _ | .commitClear | .bootEnter | .bootClear => true
  | pc => pc.updates

/-- The header with its duplicate, and the counters of the transactions. -/
structure Framed (pid : Fin (others + 1) → Nat) (slot : Fin (others + 1) → Int)
    (machine : Machine others) : Prop where
  seats : Seats machine.trans pid slot
  depth : ∀ p, (machine.trans.array (slot p)).logNtrans =
    if (machine.pc p).inTrans then 1 else 0
  scanned : ∀ p, Scanned machine.log.lh (machine.pc p)
  snapshot : ∀ p, (machine.pc p).inTrans = true →
    (∃ after, machine.update = some (machine.trans.logLogheader, after)) ∧
      machine.trans.logOutstanding = machine.log.outstanding
  quiet : machine.update = none →
    Same machine.dup.lhdr machine.log.lh ∧ ∀ p, (machine.pc p).updates = false
  busy : ∀ before after, machine.update = some (before, after) →
    ∃ p, (machine.pc p).updates = true ∧
      Progress machine.log.lh machine.dup.lhdr before after machine.disk (machine.pc p)

theorem framed_start {pid : Fin (others + 1) → Nat} {machine : Machine others}
    (boots : Boots pid machine) : ∃ slot, Framed pid slot machine := by
  obtain ⟨slot, seats, zero⟩ := boots.seated
  have pc : ∀ p, machine.pc p = .bootEnter ∨ machine.pc p = .out := by
    intro p
    rw [boots.locations]
    by_cases first : p = 0
    · exact .inl (if_pos first)
    · exact .inr (if_neg first)
  refine ⟨slot, seats, fun p => ?_, fun p => ?_, fun p inside => ?_, fun _ => ⟨?_, fun p => ?_⟩,
    fun before after busy => ?_⟩
  · rcases pc p with here | here <;> simp [here, zero, Pc.inTrans]
  · rcases pc p with here | here <;> simp [here, Scanned]
  · rcases pc p with here | here <;> simp [here, Pc.inTrans] at inside
  · refine ⟨boots.empty.2.trans boots.empty.1.symm, fun i inside => ?_⟩
    rw [boots.empty.2] at inside
    exact absurd inside (Nat.not_lt_zero i)
  · rcases pc p with here | here <;> rw [here] <;> rfl
  · rw [boots.quiet] at busy
    cases busy

/-! ## The transactions -/

section Seats

variable {trans after : TransState} {pid : Fin (others + 1) → Nat}
  {slot : Fin (others + 1) → Int}

/-- Changing the counter of one slot keeps the seats. -/
theorem Seats.count (seats : Seats trans pid slot) (index : Int) (target : Target) (change : Int) :
    Seats (trans.count index target change) pid slot :=
  ⟨fun p => (searchTransInfo_count ..).trans (seats.found p), seats.apart, seats.first⟩

variable {p : Fin (others + 1)}

/-- A process of the machine counts in its own slot. -/
theorem Seats.own (seats : Seats trans pid slot)
    (live : p = 0 ∨ trans.nextpid > 2) : ownIndex trans (pid p) = slot p := by
  by_cases later : trans.nextpid > 2
  · rw [ownIndex, if_pos later, seats.found]
  · rw [ownIndex, if_neg later]
    obtain rfl := live.resolve_right later
    exact seats.first.symm

/-- The log counter of a slot after the counter of a process has been changed. -/
theorem Seats.count_log (seats : Seats trans pid slot) (p q : Fin (others + 1)) (change : Int) :
    ((trans.count (slot p) .log change).array (slot q)).logNtrans =
      (trans.array (slot q)).logNtrans + if q = p then change else 0 := by
  have count := ntrans_count trans (slot p) (slot q) .log change
  by_cases same : q = p
  · subst same
    rw [if_pos rfl] at count ⊢
    exact count
  · rw [if_neg fun again => same (seats.apart again)] at count
    rw [if_neg same]
    exact count

/-- `enter_trans_log` takes the snapshot. -/
theorem enterTransLog_logged {log : Log} {pid : Nat}
    (entered : enterTransLog trans log pid = some after) :
    after.logLogheader = log.lh ∧ after.logOutstanding = log.outstanding := by
  simp only [enterTransLog, enterTrans, Option.ite_none_left_eq_some] at entered
  cases entered.2
  exact ⟨rfl, rfl⟩

theorem Seats.enter (seats : Seats trans pid slot) (live : p = 0 ∨ trans.nextpid > 2) {log : Log}
    (entered : enterTransLog trans log (pid p) = some after) :
    Seats after pid slot ∧ ∀ q, (after.array (slot q)).logNtrans =
      (trans.array (slot q)).logNtrans + if q = p then 1 else 0 := by
  simp only [enterTransLog, enterTrans, seats.own live, Option.ite_none_left_eq_some] at entered
  cases entered.2
  have kept : Seats (logEntry trans (.log log)) pid slot := ⟨seats.found, seats.apart, seats.first⟩
  exact ⟨kept.count _ _ _, fun q => kept.count_log p q 1⟩

/-- `exit_trans_log` counts down. -/
theorem Seats.exit (seats : Seats trans pid slot)
    (live : p = 0 ∨ trans.nextpid > 2) (exited : exitTransLog trans (pid p) = some after) :
    Seats after pid slot ∧ ∀ q, (after.array (slot q)).logNtrans =
        (trans.array (slot q)).logNtrans + if q = p then -1 else 0 := by
  simp only [exitTransLog, exitTrans, seats.own live, Option.ite_none_left_eq_some] at exited
  cases exited.2
  have kept := seats.count (slot p) .log (-1)
  exact ⟨⟨kept.found, kept.apart, kept.first⟩, fun q => seats.count_log p q (-1)⟩

end Seats

/-! ## One process at a time -/

section Exclusive

variable {machine : Machine others}

variable {pc : Pc}

/-- A process that uses the header has been counted and holds the lock, commits, or
boots the system. -/
theorem Pc.usesHeader_cases (uses : pc.usesHeader = true) :
    (pc.holds = true ∧ pc.counted = true) ∨ pc.commits = true ∨ pc.inBoot = true := by
  cases pc <;> simp_all [Pc.usesHeader, Pc.updates, Pc.inTrans, Pc.holds, Pc.counted, Pc.inWrite,
    Pc.commits, Pc.inCommit, Pc.inBoot]

theorem Pc.usesHeader_of_updates (updates : pc.updates = true) : pc.usesHeader = true := by
  cases pc <;> simp_all [Pc.usesHeader, Pc.updates, Pc.inTrans]

theorem Pc.updates_of_inTrans (inside : pc.inTrans = true) : pc.updates = true := by
  cases pc <;> simp_all [Pc.updates, Pc.inTrans]

/-- A process inside a log transaction holds the lock or boots the system. -/
theorem Pc.inTrans_cases (inside : pc.inTrans = true) : pc.holds = true ∨ pc.inBoot = true := by
  cases pc <;> simp_all [Pc.inTrans, Pc.holds, Pc.inBoot]

theorem Pc.scanned_of_idle {header : LogHeader} (idle : pc.usesHeader = false) :
    Scanned header pc := by
  cases pc <;> simp_all [Pc.usesHeader, Scanned]

theorem Pc.not_inTrans (idle : pc.usesHeader = false) : pc.inTrans = false := by
  by_contra inside
  have uses := Pc.usesHeader_of_updates (Pc.updates_of_inTrans (by simpa using inside))
  exact absurd (uses.symm.trans idle) (by decide)

theorem Pc.not_updates (idle : pc.usesHeader = false) : pc.updates = false := by
  by_contra updates
  have uses := Pc.usesHeader_of_updates (by simpa using updates)
  exact absurd (uses.symm.trans idle) (by decide)

theorem Controlled.exclusive (controlled : Controlled machine) {p q : Fin (others + 1)}
    (first : (machine.pc p).usesHeader = true) (second : (machine.pc q).usesHeader = true) :
    p = q := by
  have outside : ∀ {r s : Fin (others + 1)}, (machine.pc r).inBoot = true →
      (machine.pc s).usesHeader = true → r = s := by
    intro r s boots uses
    by_contra different
    rw [(controlled.boot boots).2 s fun same => different same.symm] at uses
    cases uses
  have counted : ∀ {r s : Fin (others + 1)}, (machine.pc r).commits = true →
      (machine.pc s).counted = true → False := by
    intro r s commits here
    rw [controlled.uncounted commits s] at here
    cases here
  rcases Pc.usesHeader_cases first with ⟨firstHolds, firstCounted⟩ | firstCommits | boots
  · rcases Pc.usesHeader_cases second with ⟨secondHolds, -⟩ | secondCommits | boots
    · exact controlled.holder firstHolds secondHolds
    · exact (counted secondCommits firstCounted).elim
    · exact (outside boots first).symm
  · rcases Pc.usesHeader_cases second with ⟨-, secondCounted⟩ | secondCommits | boots
    · exact (counted firstCommits secondCounted).elim
    · exact ((controlled.commit p firstCommits).2.2 q secondCommits).symm
    · exact (outside boots first).symm
  · exact outside boots second

end Exclusive

/-! ## The transactions of a step -/

/-- How a change moves the counter of the log transactions. -/
def Change.nesting : Change → Int
  | .enter _ => 1
  | .exit => -1
  | _ => 0

section Step

variable {pid : Fin (others + 1) → Nat} {slot : Fin (others + 1) → Int}
  {machine next : Machine others} {p : Fin (others + 1)} {pc after : Pc} {change : Change}

theorem Transition.nesting (taken : Transition machine p pc after change) :
    ((if after.inTrans then 1 else 0) - (if pc.inTrans then 1 else 0) : Int) = change.nesting := by
  cases taken <;> rfl

/-- A change counts the transactions of its own process. -/
theorem Seats.apply (seats : Seats machine.trans pid slot)
    (live : change.nesting ≠ 0 → p = 0 ∨ machine.trans.nextpid > 2)
    (applied : machine.apply pid p change = some next) :
    Seats next.trans pid slot ∧ ∀ q, (next.trans.array (slot q)).logNtrans =
      (machine.trans.array (slot q)).logNtrans + if q = p then change.nesting else 0 := by
  cases change with
  | takeLock =>
    obtain ⟨-, same⟩ := Option.ite_none_right_eq_some.mp applied
    cases same
    exact ⟨seats, fun q => by simp [Change.nesting]⟩
  | enter header =>
    obtain ⟨trans, entered, rfl⟩ := map_eq_some_iff.mp applied
    exact seats.enter (live (by simp [Change.nesting])) entered
  | exit =>
    obtain ⟨trans, exited, rfl⟩ := map_eq_some_iff.mp applied
    exact seats.exit (live (by decide)) exited
  | tear header outstanding =>
    cases applied
    exact ⟨⟨seats.found, seats.apart, seats.first⟩, fun q => by simp [Change.nesting]⟩
  | _ =>
    cases applied
    exact ⟨seats, fun q => by simp [Change.nesting]⟩

/-- The step of a process that does not use the header leaves it alone. -/
theorem Transition.harmless (taken : Transition machine p pc after change)
    (idle : pc.usesHeader = false) (applied : machine.apply pid p change = some next) :
    next.log.lh = machine.log.lh ∧ next.dup.lhdr = machine.dup.lhdr ∧
      next.update = machine.update ∧ next.disk = machine.disk ∧
      next.trans.logLogheader = machine.trans.logLogheader ∧
      next.trans.logOutstanding = machine.trans.logOutstanding ∧
      after.updates = false ∧ ∀ header, Scanned header after := by
  cases taken with
  | beginTake | beginAsleep | writeTake | endTake | doneTake =>
    obtain ⟨-, same⟩ := Option.ite_none_right_eq_some.mp applied
    cases same
    simp [Pc.updates, Pc.inTrans, Scanned]
  | tearWrite | tearBoot | writeNext | writeFound | writeEnter | writeBlock | writeDupBlock
  | writeNew | writeOld | writePin | writeGrow | writeDupGrow | writeExit | commitClear
  | commitClearDup | bootEnter | bootN | bootDupN | bootNext | bootDone | bootBlock | bootDupBlock
  | bootExit | bootClear | bootClearDup => cases idle
  | _ =>
    cases applied
    simp [Pc.updates, Pc.inTrans, Scanned]

/-! ## The process that uses the header -/

/-- The header, for a process that is the only one to use it and stands at `pc`. -/
structure OwnFrame (machine : Machine others) (pc : Pc) : Prop where
  scanned : Scanned machine.log.lh pc
  settled : pc.updates = false →
    machine.update = none ∧ Same machine.dup.lhdr machine.log.lh
  running : pc.updates = true → ∃ before after, machine.update = some (before, after) ∧
    Progress machine.log.lh machine.dup.lhdr before after machine.disk pc ∧
    (pc.inTrans = true → machine.trans.logLogheader = before ∧
      machine.trans.logOutstanding = machine.log.outstanding)

/-- A step that changes the data and stays outside the updates. -/
theorem OwnFrame.idle (scanned : Scanned machine.log.lh pc) (quiet : machine.update = none)
    (same : Same machine.dup.lhdr machine.log.lh) (outside : pc.updates = false) :
    OwnFrame machine pc :=
  ⟨scanned, fun _ => ⟨quiet, same⟩,
    fun updates => absurd (updates.symm.trans outside) (by decide)⟩

variable {before result : LogHeader}

theorem OwnFrame.busy (updates : pc.updates = true) (scanned : Scanned machine.log.lh pc)
    (update : machine.update = some (before, result))
    (progress : Progress machine.log.lh machine.dup.lhdr before result machine.disk pc)
    (snapshot : pc.inTrans = true → machine.trans.logLogheader = before ∧
      machine.trans.logOutstanding = machine.log.outstanding) : OwnFrame machine pc :=
  ⟨scanned, fun outside => absurd (updates.symm.trans outside) (by decide),
    fun _ => ⟨before, result, update, progress, snapshot⟩⟩

variable {dup lh : LogHeader} {b i : Nat}

theorem Placing.setHeader (placing : Placing lh dup before result b i) :
    Placing { lh with block := update lh.block i b } dup before result b i :=
  { placing with header := placing.header.setBlock placing.known }

theorem Placing.setDuplicate (placing : Placing lh dup before result b i) :
    Placing lh { dup with block := update dup.block i b } before result b i :=
  { placing with duplicate := placing.duplicate.setBlock placing.known }

/-- When the block was known, the update is finished. -/
theorem Placing.finish (placing : Placing lh dup before result b i) (old : i ≠ before.n) :
    Same dup result ∧ Same lh result := by
  have inside : i < before.n := Nat.lt_of_le_of_ne placing.place old
  have same : Same before result := by
    rw [placing.leads]
    exact same_putBlock_of_lt inside (placing.known inside)
  exact ⟨placing.duplicate.trans same, placing.header.trans same⟩

/-- A block of the disk is written into a header that has the earlier ones. -/
theorem copied_update {block : Nat → Nat} {disk : LogHeader}
    (copied : ∀ j < i, block j = disk.block j) :
    ∀ j < i + 1, update block i (disk.block i) j = disk.block j := by
  intro j inside
  rcases Nat.lt_succ_iff_lt_or_eq.mp inside with below | rfl
  · rw [update_of_ne (Nat.ne_of_lt below)]
    exact copied j below
  · exact update_self ..

theorem Copying.finish {disk : LogHeader}
    (copying : Copying lh dup result disk i) (outside : ¬i < lh.n) :
    Same dup result ∧ Same lh result := by
  rw [copying.leads]
  obtain ⟨length, dupLength⟩ := copying.lengths
  refine ⟨⟨dupLength, fun j inside => (copying.copied j ?_).2⟩,
    length, fun j inside => (copying.copied j ?_).1⟩
  · omega
  · omega

/-- The process that uses the header keeps its facts. -/
theorem OwnFrame.step (own : OwnFrame machine pc) (taken : Transition machine p pc after change)
    (uses : pc.usesHeader = true) (applied : machine.apply pid p change = some next) :
    OwnFrame next after := by
  cases taken with
  | tearWrite b i header outstanding =>
    cases applied
    obtain ⟨quiet, same⟩ := own.settled rfl
    exact .idle own.scanned quiet same rfl
  | tearBoot header outstanding =>
    cases applied
    obtain ⟨quiet, same⟩ := own.settled rfl
    exact .idle trivial quiet same rfl
  | writeNext b i inside =>
    cases applied
    obtain ⟨quiet, same⟩ := own.settled rfl
    exact .idle inside quiet same rfl
  | writeFound b i found =>
    cases applied
    obtain ⟨quiet, same⟩ := own.settled rfl
    exact .idle ⟨own.scanned, found⟩ quiet same rfl
  | writeEnter b i =>
    obtain ⟨trans, entered, rfl⟩ := map_eq_some_iff.mp applied
    obtain ⟨quiet, same⟩ := own.settled rfl
    obtain ⟨place, known⟩ := own.scanned
    exact .busy rfl trivial rfl ⟨place, known, rfl, .refl _, same⟩
      fun _ => enterTransLog_logged entered
  | writeBlock b i =>
    cases applied
    obtain ⟨before, result, update, placing, snapshot⟩ := own.running rfl
    exact .busy rfl trivial update ⟨placing.setHeader, update_self ..⟩ snapshot
  | writeDupBlock b i =>
    cases applied
    obtain ⟨before, result, update, ⟨placing, here⟩, snapshot⟩ := own.running rfl
    exact .busy rfl trivial update ⟨placing.setDuplicate, here, update_self ..⟩ snapshot
  | writeNew b i fresh =>
    cases applied
    obtain ⟨before, result, update, ⟨placing, here, dupHere⟩, snapshot⟩ := own.running rfl
    exact .busy rfl trivial update ⟨placing, here, dupHere, fresh.trans placing.header.1⟩ snapshot
  | writeOld b i known =>
    cases applied
    obtain ⟨before, result, update, ⟨placing, -, -⟩, snapshot⟩ := own.running rfl
    rw [placing.header.1] at known
    exact .busy rfl trivial update (placing.finish known) snapshot
  | writePin b i =>
    cases applied
    obtain ⟨before, result, update, progress, snapshot⟩ := own.running rfl
    exact .busy rfl trivial update progress snapshot
  | writeGrow b i =>
    cases applied
    obtain ⟨before, result, update, ⟨placing, here, dupHere, fresh⟩, snapshot⟩ := own.running rfl
    subst fresh
    refine .busy rfl trivial update ⟨placing.duplicate, dupHere, ?_, placing.leads⟩ snapshot
    rw [placing.leads]
    exact same_putBlock_of_eq placing.header here
  | writeDupGrow b i =>
    cases applied
    obtain ⟨before, result, update, ⟨duplicate, dupHere, header, leads⟩, snapshot⟩ :=
      own.running rfl
    refine .busy rfl trivial update ⟨?_, header⟩ snapshot
    rw [leads]
    exact same_putBlock_of_eq duplicate dupHere
  | writeExit | bootExit =>
    obtain ⟨trans, exited, rfl⟩ := map_eq_some_iff.mp applied
    obtain ⟨before, result, update, ⟨duplicate, header⟩, snapshot⟩ := own.running rfl
    exact .idle trivial rfl (duplicate.trans header.symm) rfl
  | commitClear | bootClear =>
    cases applied
    obtain ⟨quiet, same⟩ := own.settled rfl
    exact .busy rfl trivial rfl ⟨same, rfl⟩ fun inside => nomatch inside
  | commitClearDup | bootClearDup =>
    cases applied
    obtain ⟨before, result, update, ⟨-, empty⟩, -⟩ := own.running rfl
    exact .idle trivial rfl
      ⟨empty.symm, fun i inside => absurd inside (Nat.not_lt_zero i)⟩ rfl
  | bootEnter =>
    obtain ⟨trans, entered, rfl⟩ := map_eq_some_iff.mp applied
    exact .busy rfl trivial rfl rfl fun _ => enterTransLog_logged entered
  | bootN =>
    cases applied
    obtain ⟨before, result, update, leads, snapshot⟩ := own.running rfl
    exact .busy rfl trivial update ⟨leads, rfl⟩ snapshot
  | bootDupN =>
    cases applied
    obtain ⟨before, result, update, ⟨leads, length⟩, snapshot⟩ := own.running rfl
    exact .busy rfl trivial update
      ⟨leads, ⟨length, rfl⟩, fun j inside => absurd inside (Nat.not_lt_zero j)⟩ snapshot
  | bootNext i inside =>
    cases applied
    obtain ⟨before, result, update, progress, snapshot⟩ := own.running rfl
    exact .busy rfl trivial update progress snapshot
  | bootDone i outside =>
    cases applied
    obtain ⟨before, result, update, copying, snapshot⟩ := own.running rfl
    exact .busy rfl trivial update (copying.finish outside) snapshot
  | bootBlock i =>
    cases applied
    obtain ⟨before, result, update, copying, snapshot⟩ := own.running rfl
    have copied := copied_update fun j inside => (copying.copied j inside).1
    exact .busy rfl trivial update
      ⟨⟨copying.leads, copying.lengths, fun j inside =>
        ⟨copied j (Nat.lt_succ_of_lt inside), (copying.copied j inside).2⟩⟩,
        update_self ..⟩ snapshot
  | bootDupBlock i =>
    cases applied
    obtain ⟨before, result, update, ⟨copying, here⟩, snapshot⟩ := own.running rfl
    have copied := copied_update fun j inside => (copying.copied j inside).2
    refine .busy rfl trivial update
      ⟨copying.leads, copying.lengths, fun j inside => ⟨?_, copied j inside⟩⟩ snapshot
    rcases Nat.lt_succ_iff_lt_or_eq.mp inside with below | rfl
    · exact (copying.copied j below).1
    · exact here
  | _ => cases uses

/-! ## The invariant along a run -/

/-- The process that uses the header has the facts of the invariant. -/
theorem Framed.own (framed : Framed pid slot machine) (controlled : Controlled machine)
    (uses : (machine.pc p).usesHeader = true) : OwnFrame machine (machine.pc p) := by
  refine ⟨framed.scanned p, fun outside => ?_, fun updates => ?_⟩
  · have quiet : machine.update = none := by
      cases update : machine.update with
      | none => rfl
      | some pair =>
        obtain ⟨q, busy, -⟩ := framed.busy pair.1 pair.2 update
        have here := controlled.exclusive uses (Pc.usesHeader_of_updates busy)
        rw [← here, outside] at busy
        cases busy
    exact ⟨quiet, (framed.quiet quiet).1⟩
  · cases update : machine.update with
    | none => exact absurd (updates.symm.trans ((framed.quiet update).2 p)) (by decide)
    | some pair =>
      obtain ⟨q, busy, progress⟩ := framed.busy pair.1 pair.2 update
      obtain rfl := controlled.exclusive uses (Pc.usesHeader_of_updates busy)
      refine ⟨pair.1, pair.2, rfl, progress, fun inside => ?_⟩
      obtain ⟨⟨result, snapshot⟩, outstanding⟩ := framed.snapshot p inside
      rw [update] at snapshot
      cases snapshot
      exact ⟨rfl, outstanding⟩

theorem pc_goto (applied : machine.apply pid p change = some next) (q : Fin (others + 1)) :
    (next.goto p after).pc q = if q = p then after else machine.pc q := by
  rw [Machine.goto, (apply_control applied).1]
  simp [update_apply]

theorem Framed.trans (framed : Framed pid slot machine) (controlled : Controlled machine)
    (taken : Transition machine p (machine.pc p) after change)
    (applied : machine.apply pid p change = some next) :
    Seats next.trans pid slot ∧ ∀ q, (next.trans.array (slot q)).logNtrans =
      if ((next.goto p after).pc q).inTrans then 1 else 0 := by
  have live : change.nesting ≠ 0 → p = 0 ∨ machine.trans.nextpid > 2 := by
    intro nests
    refine controlled.live p fun out => ?_
    rw [out] at taken
    cases taken
    exact nests rfl
  obtain ⟨seats, count⟩ := framed.seats.apply live applied
  refine ⟨seats, fun q => ?_⟩
  rw [count q, framed.depth q, pc_goto applied q]
  by_cases same : q = p
  · subst same
    rw [if_pos rfl, if_pos rfl, ← taken.nesting]
    omega
  · rw [if_neg same, if_neg same, add_zero]

/-- A step of the process that uses the header keeps the invariant. -/
theorem Framed.act_user (framed : Framed pid slot machine) (controlled : Controlled machine)
    (taken : Transition machine p (machine.pc p) after change)
    (applied : machine.apply pid p change = some next)
    (uses : (machine.pc p).usesHeader = true) : Framed pid slot (next.goto p after) := by
  obtain ⟨seats, depth⟩ := framed.trans controlled taken applied
  have own := (framed.own controlled uses).step taken uses applied
  have idle : ∀ q, q ≠ p → (machine.pc q).usesHeader = false := by
    intro q other
    by_contra again
    exact other (controlled.exclusive (by simpa using again) uses)
  have settled : next.update = none → after.updates = false := by
    intro quiet
    by_contra updates
    obtain ⟨before, result, update, -⟩ := own.running (by simpa using updates)
    rw [quiet] at update
    cases update
  refine ⟨seats, depth, fun q => ?_, fun q inside => ?_, fun quiet => ⟨?_, fun q => ?_⟩,
    fun before result update => ⟨p, ?_⟩⟩
  · rw [pc_goto applied q]
    split
    · exact own.scanned
    · rename_i other
      exact Pc.scanned_of_idle (idle q other)
  · rw [pc_goto applied q] at inside
    split at inside
    · obtain ⟨before, result, update, -, snapshot⟩ := own.running (Pc.updates_of_inTrans inside)
      obtain ⟨rfl, outstanding⟩ := snapshot inside
      exact ⟨⟨result, update⟩, outstanding⟩
    · rename_i other
      rw [Pc.not_inTrans (idle q other)] at inside
      cases inside
  · exact (own.settled (settled quiet)).2
  · rw [pc_goto applied q]
    split
    · exact settled quiet
    · rename_i other
      exact Pc.not_updates (idle q other)
  · rw [pc_goto applied p, if_pos rfl]
    have updates : after.updates = true := by
      by_contra outside
      have quiet := (own.settled (by simpa using outside)).1
      rw [show next.update = some (before, result) from update] at quiet
      cases quiet
    obtain ⟨_, _, same, progress, -⟩ := own.running updates
    obtain ⟨rfl, rfl⟩ := Prod.mk.inj (Option.some.inj (same.symm.trans update))
    exact ⟨updates, progress⟩

/-- While a process is inside a log transaction, no other one changes the counter. -/
theorem Controlled.steady (controlled : Controlled machine) {q : Fin (others + 1)}
    (inside : (machine.pc q).inTrans = true) (other : q ≠ p)
    (taken : Transition machine p (machine.pc p) after change) : change.outstanding = 0 := by
  by_contra changes
  have holds := taken.locked (.inl changes)
  rcases Pc.inTrans_cases inside with here | boots
  · exact other (controlled.holder here holds)
  · rw [(controlled.boot boots).2 p other.symm] at holds
    cases holds

theorem Framed.act_idle (framed : Framed pid slot machine) (controlled : Controlled machine)
    (taken : Transition machine p (machine.pc p) after change)
    (applied : machine.apply pid p change = some next)
    (idle : (machine.pc p).usesHeader = false) : Framed pid slot (next.goto p after) := by
  obtain ⟨seats, depth⟩ := framed.trans controlled taken applied
  obtain ⟨lh, dup, update, disk, logged, outstanding, outside, scanned⟩ :=
    taken.harmless idle applied
  refine ⟨seats, depth, fun q => ?_, fun q inside => ?_, fun quiet => ⟨?_, fun q => ?_⟩,
    fun before result busy => ?_⟩
  · rw [pc_goto applied q]
    split
    · exact scanned _
    · show Scanned next.log.lh _
      rw [lh]
      exact framed.scanned q
  · rw [pc_goto applied q] at inside
    split at inside
    · exact absurd ((Pc.updates_of_inTrans inside).symm.trans outside) (by decide)
    · rename_i other
      obtain ⟨⟨result, snapshot⟩, count⟩ := framed.snapshot q inside
      have steady := controlled.steady inside other taken
      have kept : next.log.outstanding = machine.log.outstanding := by
        rw [(apply_control applied).2.2.1, steady, add_zero]
      refine ⟨⟨result, ?_⟩, ?_⟩
      · show next.update = some (next.trans.logLogheader, result)
        rw [update, logged]
        exact snapshot
      · show next.trans.logOutstanding = next.log.outstanding
        rw [outstanding, count, kept]
  · show Same next.dup.lhdr next.log.lh
    rw [dup, lh]
    exact (framed.quiet (update.symm.trans quiet)).1
  · rw [pc_goto applied q]
    split
    · exact outside
    · exact (framed.quiet (update.symm.trans quiet)).2 q
  · obtain ⟨q, updates, progress⟩ := framed.busy before result (update.symm.trans busy)
    have other : q ≠ p := by
      rintro rfl
      exact absurd ((Pc.usesHeader_of_updates updates).symm.trans idle) (by decide)
    refine ⟨q, ?_⟩
    rw [pc_goto applied q, if_neg other]
    refine ⟨updates, ?_⟩
    show Progress next.log.lh next.dup.lhdr before result next.disk _
    rw [lh, dup, disk]
    exact progress

theorem Framed.step (framed : Framed pid slot machine) (controlled : Controlled machine)
    {label : Label others} (taken : machine.step pid label = some next) :
    Framed pid slot next := by
  cases label with
  | act p action =>
    obtain ⟨⟨pc, change⟩, moved, result⟩ := Option.bind_eq_some_iff.mp taken
    obtain ⟨after, applied, rfl⟩ := map_eq_some_iff.mp result
    by_cases uses : (machine.pc p).usesHeader = true
    · exact framed.act_user controlled (moves_cases moved) applied uses
    · exact framed.act_idle controlled (moves_cases moved) applied (by simpa using uses)
  | fork =>
    obtain ⟨-, same⟩ := Option.ite_none_right_eq_some.mp taken
    cases same
    exact { framed with
      seats := ⟨framed.seats.found, framed.seats.apart, framed.seats.first⟩ }

end Step

theorem framed_of_runs {pid : Fin (others + 1) → Nat} {labels : List (Label others)}
    {machine : Machine others} (runs : (logSystem pid).Runs labels machine) :
    Controlled machine ∧ ∃ slot, Framed pid slot machine := by
  refine runs.invariant (fun machine => Controlled machine ∧ ∃ slot, Framed pid slot machine)
    ?_ ?_
  · intro machine boots
    exact ⟨controlled_start boots, framed_start boots⟩
  · rintro machine label next ⟨controlled, slot, framed⟩ taken
    exact ⟨controlled.step taken, slot, framed.step controlled taken⟩

end Ev6.Logging
