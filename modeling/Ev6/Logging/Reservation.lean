import Ev6.Logging.Header

/-!
# The reservations of the log

`begin_op` admits an operation only when the log has room for all blocks that the
operations in progress may still write. The state has, beside the machine, the blocks
each operation has passed to `log_write` and those passed since the last commit; no
function reads them.
-/

namespace Ev6.Logging

open Option (ite_none_right_eq_some map_eq_some_iff)
open Finset (card_empty card_le_card card_lt_card empty_subset mem_insert mem_univ notMem_empty
  subset_insert sum_add_distrib sum_ite_eq' sum_le_sum)
open Function (update update_of_ne update_self)
open Support Transactions

variable {others : Nat}

/-- The log, the distinct blocks that the operation of each process has passed to
`log_write`, and the distinct blocks passed since the last commit. -/
structure Ledger (others : Nat) where
  machine : Machine others
  blocks : Fin (others + 1) → Finset Nat
  requested : Finset Nat

/-- The process is about to check the room in the log. -/
def Pc.checks : Pc → Bool
  | .writeSpace _ => true
  | _ => false

namespace Ledger

/-- The blocks of the operations after a step. -/
def blocksAfter (state : Ledger others) : Label others → Fin (others + 1) → Finset Nat
  | .act p .beginOp => update state.blocks p ∅
  | .act p (.logWrite b) => update state.blocks p (insert b (state.blocks p))
  | _ => state.blocks

/-- The blocks since the last commit after a step. -/
def requestedAfter (state : Ledger others) : Label others → Finset Nat
  | .act _ (.logWrite b) => insert b state.requested
  | .act p .step => if state.machine.pc p = .commitClear then ∅ else state.requested
  | _ => state.requested

/-- One step. -/
def step (pid : Fin (others + 1) → Nat) (state : Ledger others) (label : Label others) :
    Option (Ledger others) :=
  (state.machine.step pid label).map fun next =>
    ⟨next, state.blocksAfter label, state.requestedAfter label⟩

/-- The log at boot, on an image with the superblock of `mkfs`: `sb.nlog` is `LOGSIZE`. -/
structure Starts (pid : Fin (others + 1) → Nat) (state : Ledger others) : Prop where
  boots : Boots pid state.machine
  size : state.machine.log.size = logsize
  none : ∀ p, state.blocks p = ∅
  fresh : state.requested = ∅

/-- An operation passes at most `MAXOPBLOCKS` distinct blocks to `log_write`. -/
def Modest (state : Ledger others) : Label others → Prop
  | .act p (.logWrite b) => (insert b (state.blocks p)).card ≤ maxopblocks
  | _ => True

instance (state : Ledger others) (label : Label others) : Decidable (state.Modest label) := by
  unfold Modest
  split <;> infer_instance

/-- Operations of any number of processes, each of which logs at most `MAXOPBLOCKS`
blocks. -/
def operations (pid : Fin (others + 1) → Nat) : LabelledSystem (Ledger others) (Label others) :=
  (LabelledSystem.ofFunction (Starts pid) (step pid)).guarded Modest

/-- A process is about to panic with "too big a transaction". -/
def Panics (state : Ledger others) : Prop :=
  ∃ p b, state.machine.pc p = .writeSpace b ∧
    (state.machine.log.lh.n ≥ logsize ∨ state.machine.log.lh.n + 1 ≥ state.machine.log.size)

/-- A process is about to store to `block[i]` of the header, or of its duplicate, with
`i` out of range. -/
def Spills (state : Ledger others) : Prop :=
  ∃ p b i, (state.machine.pc p = .writeBlock b i ∨ state.machine.pc p = .writeDupBlock b i) ∧
    logsize ≤ i

/-- What a call of `log_write` finds when it is in time: less than `log->size - 1` blocks
have been passed to it since the last commit, and if the block of the call makes it that
many, no other process is about to make the check. -/
def Timely (state : Ledger others) : Label others → Prop
  | .act p (.logWrite b) => state.requested.card + 1 < state.machine.log.size ∧
      ((insert b state.requested).card + 1 = state.machine.log.size →
        ∀ q, q ≠ p → (state.machine.pc q).checks = false)
  | _ => True

instance (state : Ledger others) (label : Label others) : Decidable (state.Timely label) := by
  unfold Timely
  split <;> infer_instance

end Ledger

/-! ## The recorded blocks -/

/-- The block of a process in `log_write`, until it is recorded. -/
def Pc.block? : Pc → Option Nat
  | .writeSpace b | .writeCaller b | .writeTake b | .writeScan b _ | .writeEnter b _
  | .writeBlock b _ | .writeDupBlock b _ | .writeTest b _ | .writePin b _ | .writeGrow b _ => some b
  | _ => none

/-- The process is in `begin_op` and not counted yet. -/
def Pc.starts : Pc → Bool
  | .beginTake | .beginTest | .beginSpace | .beginAsleep | .beginAdd => true
  | _ => false

/-- The process is in `recover_from_log`, before it clears the header. -/
def Pc.replays : Pc → Bool
  | .bootEnter | .bootN | .bootDupN | .bootTest _ | .bootBlock _ | .bootDupBlock _ | .bootExit
  | .bootInstall | .bootClear => true
  | _ => false

/-- The blocks in a header. -/
def recorded (lh : LogHeader) : Finset Nat := (Finset.range lh.n).image lh.block

variable {pc : Pc}

theorem Pc.counted_of_block {b : Nat} (own : pc.block? = some b) : pc.counted = true := by
  cases pc <;> first | rfl | cases own

theorem Pc.inBoot_of_replays (replays : pc.replays = true) : pc.inBoot = true := by
  cases pc <;> first | rfl | cases replays

theorem Pc.not_inBoot_of_counted (counted : pc.counted = true) : pc.inBoot = false := by
  cases pc <;> first | rfl | cases counted

/-- While an operation is counted, nothing is replayed. -/
theorem Controlled.not_replays {machine : Machine others} {p : Fin (others + 1)}
    (controlled : Controlled machine) (counted : (machine.pc p).counted = true)
    (q : Fin (others + 1)) : (machine.pc q).replays = false := by
  by_contra replays
  have boots := Pc.inBoot_of_replays (by simpa using replays)
  by_cases same : p = q
  · rw [← same, Pc.not_inBoot_of_counted counted] at boots
    cases boots
  · rw [(controlled.boot boots).2 p same] at counted
    cases counted

section Recorded

variable {lh : LogHeader} {i b : Nat}

theorem mem_recorded : b ∈ recorded lh ↔ ∃ i < lh.n, lh.block i = b := by
  simp [recorded]

theorem recorded_of_empty (empty : lh.n = 0) : recorded lh = ∅ := by
  simp [recorded, empty]

/-- Storing a block at the end of the header, or once more, records nothing. -/
theorem recorded_setBlock (known : i < lh.n → lh.block i = b) :
    recorded { lh with block := update lh.block i b } = recorded lh := by
  refine Finset.image_congr fun j inside => ?_
  have below : j < lh.n := Finset.mem_range.mp inside
  dsimp only
  by_cases here : j = i
  · subst here
    rw [update_self, known below]
  · rw [update_of_ne here]

theorem recorded_grow :
    recorded { lh with n := lh.n + 1 } = insert (lh.block lh.n) (recorded lh) := by
  rw [recorded, recorded, Finset.range_add_one, Finset.image_insert]

end Recorded

/-- What a process has found out about its block, and how far it has entered it. -/
def Placed (lh : LogHeader) : Pc → Prop
  | .writeScan b i => i ≤ lh.n ∧ ∀ j < i, lh.block j ≠ b
  | .writeEnter b i | .writeBlock b i =>
    i ≤ lh.n ∧ (∀ j < i, lh.block j ≠ b) ∧ (i < lh.n → lh.block i = b)
  | .writeDupBlock b i | .writeTest b i =>
    i ≤ lh.n ∧ (∀ j < i, lh.block j ≠ b) ∧ lh.block i = b
  | .writePin b i | .writeGrow b i => i = lh.n ∧ (∀ j < i, lh.block j ≠ b) ∧ lh.block i = b
  | _ => True

theorem placed_of_idle {lh : LogHeader} (idle : pc.usesHeader = false) : Placed lh pc := by
  cases pc <;> trivial

section Steps

variable {pid : Fin (others + 1) → Nat} {machine next : Machine others} {p : Fin (others + 1)}
  {pc after : Pc} {change : Change}

/-- A step of `begin_op` to the counting has found enough room. -/
theorem control_space (taken : machine.control pc = some (.beginAdd, change)) :
    machine.log.lh.n + (machine.log.outstanding + 1) * maxopblocks ≤ logsize := by
  cases control_cases (0 : Fin (others + 1)) taken
  simp only [Machine.control, Option.some.injEq] at taken
  split at taken
  · cases taken
  · omega

theorem control_admits (taken : machine.control pc = some (.beginAdd, change)) :
    change = .keep := by
  cases control_cases (0 : Fin (others + 1)) taken
  rfl

theorem control_scan {b i : Nat}
    (taken : machine.control (.writeScan b i) = some (.writeScan b (i + 1), change)) :
    machine.log.lh.block i ≠ b := by
  simp only [Machine.control, Option.some.injEq] at taken
  split at taken
  next scan => exact scan.2
  next => cases taken

theorem Placed.step (placed : Placed machine.log.lh pc)
    (taken : Transition machine p pc after change)
    (scan : ∀ b i, pc = .writeScan b i → after = .writeScan b (i + 1) →
      machine.log.lh.block i ≠ b)
    (applied : machine.apply pid p change = some next) : Placed next.log.lh after := by
  cases taken with
  | writeTake b => exact ⟨Nat.zero_le _, fun j below => absurd below (Nat.not_lt_zero j)⟩
  | writeNext b i inside =>
    cases applied
    refine ⟨inside, fun j below => ?_⟩
    rcases Nat.lt_succ_iff_lt_or_eq.mp below with before | rfl
    · exact placed.2 j before
    · exact scan b j rfl rfl
  | writeFound b i found =>
    cases applied
    exact ⟨placed.1, placed.2, found⟩
  | tearWrite b i header outstanding =>
    cases applied
    exact placed
  | writeEnter b i =>
    obtain ⟨trans, -, rfl⟩ := map_eq_some_iff.mp applied
    exact placed
  | writeBlock b i =>
    cases applied
    refine ⟨placed.1, fun j below => ?_, update_self ..⟩
    have other : j ≠ i := Nat.ne_of_lt below
    exact (update_of_ne other _ _).trans_ne (placed.2.1 j below)
  | writeDupBlock b i =>
    cases applied
    exact placed
  | writeNew b i fresh =>
    cases applied
    exact ⟨fresh, placed.2⟩
  | writePin b i =>
    cases applied
    exact placed
  | _ => trivial

/-- What a step outside the replay does to the recorded blocks. -/
theorem Transition.recorded (taken : Transition machine p pc after change)
    (placed : Placed machine.log.lh pc) (settled : pc.replays = false)
    (applied : machine.apply pid p change = some next) :
    (∃ b i, pc = .writeGrow b i ∧ after.block? = none ∧ next.log.lh.n = machine.log.lh.n + 1 ∧
      b ∉ recorded machine.log.lh ∧
      recorded next.log.lh = insert b (recorded machine.log.lh)) ∨
    pc = .commitClear ∧ next.log.lh.n = 0 ∨
    pc ≠ .commitClear ∧ next.log.lh.n = machine.log.lh.n ∧
      Logging.recorded next.log.lh = Logging.recorded machine.log.lh ∧
      ∀ b, pc.block? = some b → after.block? = some b ∨ b ∈ Logging.recorded machine.log.lh := by
  have idle : ∀ {pc after : Pc} {next : Machine others}, pc ≠ .commitClear →
      next.log.lh = machine.log.lh → (∀ b, pc.block? = some b → after.block? = some b) →
      pc ≠ .commitClear ∧ next.log.lh.n = machine.log.lh.n ∧
      Logging.recorded next.log.lh = Logging.recorded machine.log.lh ∧
      ∀ b, pc.block? = some b → after.block? = some b ∨ b ∈ Logging.recorded machine.log.lh := by
    intro pc after next other lh kept
    exact ⟨other, by rw [lh], by rw [lh], fun b own => .inl (kept b own)⟩
  by_cases uses : pc.usesHeader = true
  · cases taken with
    | writeGrow b i =>
      cases applied
      obtain ⟨place, fresh, here⟩ := placed
      subst place
      refine .inl ⟨b, _, rfl, rfl, rfl, ?_, ?_⟩
      · rw [mem_recorded]
        rintro ⟨j, below, same⟩
        exact fresh j below same
      · exact recorded_grow.trans (by rw [here])
    | commitClear =>
      cases applied
      exact .inr (.inl ⟨rfl, rfl⟩)
    | writeBlock b i =>
      cases applied
      refine .inr (.inr ⟨Pc.noConfusion, rfl, recorded_setBlock placed.2.2, fun b own => ?_⟩)
      exact .inl own
    | writeOld b i known =>
      cases applied
      refine .inr (.inr ⟨Pc.noConfusion, rfl, rfl, fun c own => .inr ?_⟩)
      cases own
      exact mem_recorded.mpr ⟨i, by have := placed.1; omega, placed.2.2⟩
    | writeEnter b i | writeExit =>
      obtain ⟨trans, -, rfl⟩ := map_eq_some_iff.mp applied
      exact .inr (.inr (idle Pc.noConfusion rfl fun b own => own))
    | tearWrite | writeNext | writeFound | writeDupBlock | writeNew | writePin | writeDupGrow
    | commitClearDup | bootClearDup =>
      cases applied
      exact .inr (.inr (idle Pc.noConfusion rfl fun b own => own))
    | tearBoot | bootEnter | bootN | bootDupN | bootNext | bootDone | bootBlock | bootDupBlock
    | bootExit | bootClear => cases settled
    | _ => cases uses
  · have lh := (taken.harmless (by simpa using uses) applied).1
    refine .inr (.inr (idle ?_ lh fun b own => ?_))
    · rintro rfl
      exact uses rfl
    · cases taken <;> first | exact own | exact absurd rfl uses | cases own

end Steps

/-! ## Sums over the processes -/

section Sums

variable {ι : Type*} [Fintype ι] [DecidableEq ι] {first second : ι → Nat} (index : ι) {change : Nat}

theorem sum_le_add (le : ∀ i, first i ≤ second i + if i = index then change else 0) :
    ∑ i, first i ≤ (∑ i, second i) + change := by
  refine (sum_le_sum fun i _ => le i).trans ?_
  rw [sum_add_distrib, sum_ite_eq' Finset.univ index, if_pos (mem_univ index)]

theorem sum_add_le (le : ∀ i, (first i + if i = index then change else 0) ≤ second i) :
    (∑ i, first i) + change ≤ ∑ i, second i := by
  have sum := sum_le_sum (s := Finset.univ) fun i _ => le i
  rwa [sum_add_distrib, sum_ite_eq' Finset.univ index,
    if_pos (mem_univ index)] at sum

end Sums

/-! ## The invariant -/

namespace Ledger

/-- What the operation of a process may still log. -/
def room (state : Ledger others) (p : Fin (others + 1)) : Nat :=
  if (state.machine.pc p).counted then maxopblocks - (state.blocks p).card else 0

end Ledger

/-- The blocks passed since the last commit, and those that the operations in progress may
still pass, have room in the log. Each of the former is recorded, or it is the block of
a process in `log_write`. -/
structure Reserved (state : Ledger others) : Prop where
  controlled : Controlled state.machine
  size : state.machine.log.size = logsize
  modest : ∀ p, (state.blocks p).card ≤ maxopblocks
  asked : ∀ p b, (state.machine.pc p).block? = some b → b ∈ state.blocks p
  known : ∀ p, (state.machine.pc p).counted = true → state.blocks p ⊆ state.requested
  starting : ∀ p, (state.machine.pc p).starts = true → state.blocks p = ∅
  admitted : ∀ p, state.machine.pc p = .beginAdd →
    state.machine.log.lh.n + (state.machine.log.outstanding + 1) * maxopblocks ≤ logsize
  placed : ∀ p, Placed state.machine.log.lh (state.machine.pc p)
  booting : ∀ p, (state.machine.pc p).inBoot = true → state.requested = ∅
  settled : (∀ p, (state.machine.pc p).replays = false) →
    (recorded state.machine.log.lh).card = state.machine.log.lh.n ∧
      recorded state.machine.log.lh ⊆ state.requested
  pending : ∀ b ∈ state.requested, b ∈ recorded state.machine.log.lh ∨
    ∃ p, (state.machine.pc p).block? = some b
  reserved : state.requested.card + ∑ p, state.room p ≤ logsize

theorem reserved_start {pid : Fin (others + 1) → Nat} {state : Ledger others}
    (starts : Ledger.Starts pid state) : Reserved state := by
  have pc : ∀ p, state.machine.pc p = if p = 0 then .bootEnter else .out := by
    simp [starts.boots.locations]
  have no : ∀ {α : Type} (test : Pc → α) (value : α), test .bootEnter = value → test .out = value →
      ∀ p, test (state.machine.pc p) = value := by
    intro α test value first outside p
    rw [pc p]
    split
    · exact first
    · exact outside
  refine ⟨controlled_start starts.boots, starts.size, fun p => ?_, fun p b own => ?_,
    fun p _ => ?_, fun p _ => starts.none p, fun p here => ?_, fun p => ?_, fun _ _ => starts.fresh,
    fun settled => ?_, fun b member => ?_, ?_⟩
  · rw [starts.none p]
    exact Nat.zero_le _
  · rw [no Pc.block? none rfl rfl p] at own
    cases own
  · rw [starts.none p]
    exact empty_subset _
  · rw [pc p] at here
    split at here <;> cases here
  · rw [pc p]
    split <;> trivial
  · have replays := settled 0
    rw [pc 0, if_pos rfl] at replays
    cases replays
  · rw [starts.fresh] at member
    exact absurd member (notMem_empty b)
  · have nothing : ∀ p, state.room p = 0 := by
      intro p
      rw [Ledger.room, no Pc.counted false rfl rfl p, if_neg Bool.false_ne_true]
    rw [starts.fresh, Finset.sum_eq_zero fun p _ => nothing p]
    exact Nat.zero_le _

section Act

variable {state : Ledger others} {p : Fin (others + 1)} {pc : Pc}

/-- An operation that begins has room for `MAXOPBLOCKS` blocks. -/
theorem Reserved.admit (reserved : Reserved state) (here : state.machine.pc p = .beginAdd) :
    state.requested.card + ∑ p, state.room p + maxopblocks ≤ logsize := by
  obtain ⟨taken, members⟩ : ∃ taken : Finset (Fin (others + 1)),
      taken = Finset.univ.filter fun q => (state.machine.pc q).counted = true := ⟨_, rfl⟩
  have counted : ∀ q, q ∈ taken ↔ (state.machine.pc q).counted = true := by
    intro q
    rw [members, Finset.mem_filter, and_iff_right (mem_univ q)]
  have cover : state.requested ⊆
      recorded state.machine.log.lh ∪ taken.biUnion state.blocks := by
    intro b member
    rw [Finset.mem_union, Finset.mem_biUnion]
    rcases reserved.pending b member with done | ⟨q, own⟩
    · exact .inl done
    · exact .inr ⟨q, (counted q).mpr (Pc.counted_of_block own), reserved.asked q b own⟩
  have card : state.requested.card ≤
      state.machine.log.lh.n + ∑ q ∈ taken, (state.blocks q).card := by
    refine (card_le_card cover).trans ((Finset.card_union_le _ _).trans ?_)
    refine Nat.add_le_add ?_ Finset.card_biUnion_le
    exact Finset.card_image_le.trans (Finset.card_range _).le
  have room : ∑ q, state.room q + ∑ q ∈ taken, (state.blocks q).card =
      taken.card * maxopblocks := by
    have filtered : ∑ q, state.room q =
        ∑ q ∈ taken, (maxopblocks - (state.blocks q).card) := by
      rw [members, Finset.sum_filter]
      rfl
    rw [filtered, ← sum_add_distrib, ← smul_eq_mul, ← Finset.sum_const]
    refine Finset.sum_congr rfl fun q _ => ?_
    exact Nat.sub_add_cancel (reserved.modest q)
  have outstanding : state.machine.log.outstanding = taken.card := by
    rw [reserved.controlled.counted, tally_eq_card, members]
  have admitted := reserved.admitted p here
  rw [outstanding] at admitted
  have bound : state.machine.log.lh.n + (taken.card + 1) * maxopblocks ≤ logsize := by
    exact_mod_cast admitted
  rw [Nat.add_mul, one_mul] at bound
  omega

variable {change : Change} {after : Pc}

/-- While the header or the counter changes, no other process is being admitted. -/
theorem Reserved.admitted_step {pid : Fin (others + 1) → Nat} {next : Machine others}
    (reserved : Reserved state)
    (taken : Transition state.machine p (state.machine.pc p) after change)
    (applied : state.machine.apply pid p change = some next) {q : Fin (others + 1)}
    (other : q ≠ p) (here : state.machine.pc q = .beginAdd) :
    next.log.lh.n + (next.log.outstanding + 1) * maxopblocks ≤ logsize := by
  have controlled := reserved.controlled
  have holds : (state.machine.pc q).holds = true := by
    rw [here]
    rfl
  have counter : next.log.outstanding = state.machine.log.outstanding := by
    rw [(apply_control applied).2.2.1]
    by_contra changes
    refine other (controlled.holder holds (taken.locked (.inl fun zero => changes ?_)))
    rw [zero, add_zero]
  have running : ∀ r, (state.machine.pc r).replays = false := by
    intro r
    by_contra replays
    have boots : (state.machine.pc r).inBoot = true := by
      cases location : state.machine.pc r <;> rw [location] at replays <;>
        first | rfl | exact absurd rfl replays
    have out := (controlled.boot boots).2 q
    by_cases same : q = r
    · rw [← same, here] at boots
      cases boots
    · rw [out same] at here
      cases here
  rcases taken.recorded (reserved.placed p) (running p) applied with
    ⟨b, i, grow, -⟩ | ⟨clear, -⟩ | ⟨-, length, -⟩
  · refine absurd (controlled.holder holds ?_) other
    rw [grow]
    rfl
  · have calm := controlled.calm q (by rw [here]; rfl)
    rw [(controlled.commit p (by rw [clear]; rfl)).1] at calm
    cases calm
  · rw [length, counter]
    exact reserved.admitted q here

variable {machine : Machine others}

theorem apply_size {pid : Fin (others + 1) → Nat} {next : Machine others}
    (applied : machine.apply pid p change = some next) : next.log.size = machine.log.size := by
  cases change with
  | takeLock =>
    obtain ⟨-, same⟩ := ite_none_right_eq_some.mp applied
    cases same
    rfl
  | enter after =>
    obtain ⟨trans, -, rfl⟩ := map_eq_some_iff.mp applied
    rfl
  | exit =>
    obtain ⟨trans, -, rfl⟩ := map_eq_some_iff.mp applied
    rfl
  | _ =>
    cases applied
    rfl

/-- The counted operations after a step are those before it, and the one that `begin_op`
has just counted. -/
theorem Transition.counted_cases
    (taken : Transition machine p pc after change) (counted : after.counted = true) :
    pc.counted = true ∨ pc = .beginAdd := by
  cases taken <;> first | exact .inl rfl | exact .inr rfl | cases counted

theorem Transition.replays_cases
    (taken : Transition machine p pc after change) (replays : pc.replays = true) :
    after.replays = true ∨ change = .clear := by
  cases taken <;> first | exact .inl rfl | exact .inr rfl | cases replays

/-- The state after a step without a call of `log_write`. -/
def Ledger.moved (state : Ledger others) (p : Fin (others + 1)) (after : Pc)
    (next : Machine others) : Ledger others :=
  ⟨next.goto p after, state.blocks,
    if state.machine.pc p = .commitClear then ∅ else state.requested⟩

/-- A step of a process that does not call `log_write`: it is not before the check, it has
no block it did not have, and what the code has tested holds. -/
structure Quiet (pid : Fin (others + 1) → Nat) (state : Ledger others) (p : Fin (others + 1))
    (after : Pc) (change : Change) (next : Machine others) : Prop where
  taken : Transition state.machine p (state.machine.pc p) after change
  applied : state.machine.apply pid p change = some next
  noCall : ∀ b, after ≠ .writeSpace b
  blocks : ∀ b, after.block? = some b → (state.machine.pc p).block? = some b
  starts : after.starts = true → (state.machine.pc p).starts = true ∨ state.blocks p = ∅
  space : after = .beginAdd → change = .keep ∧
    state.machine.log.lh.n + (state.machine.log.outstanding + 1) * maxopblocks ≤ logsize
  scan : ∀ b i, state.machine.pc p = .writeScan b i → after = .writeScan b (i + 1) →
    state.machine.log.lh.block i ≠ b

section Quiet

variable {pid : Fin (others + 1) → Nat} {next : Machine others} {after : Pc} {change : Change}

theorem Ledger.moved_requested (other : state.machine.pc p ≠ .commitClear) :
    (state.moved p after next).requested = state.requested :=
  if_neg other

/-- Outside a replay, what is recorded stays what has been passed to `log_write`. -/
theorem Reserved.settled_moved (reserved : Reserved state)
    (taken : Transition state.machine p (state.machine.pc p) after change)
    (applied : state.machine.apply pid p change = some next)
    (running : ∀ q, ((state.moved p after next).machine.pc q).replays = false) :
    (recorded next.log.lh).card = next.log.lh.n ∧
      recorded next.log.lh ⊆ (state.moved p after next).requested := by
  have here : after.replays = false := by
    have own := running p
    rwa [Ledger.moved, pc_goto applied p, if_pos rfl] at own
  by_cases replays : (state.machine.pc p).replays = true
  · rcases taken.replays_cases replays with again | rfl
    · rw [again] at here
      cases here
    · cases applied
      rw [recorded_of_empty rfl]
      exact ⟨rfl, empty_subset _⟩
  · have before : ∀ q, (state.machine.pc q).replays = false := by
      intro q
      by_cases same : q = p
      · subst same
        simpa using replays
      · have own := running q
        rwa [Ledger.moved, pc_goto applied q, if_neg same] at own
    obtain ⟨card, subset⟩ := reserved.settled before
    rcases taken.recorded (reserved.placed p) (before p) applied with
      ⟨b, i, grow, -, length, fresh, entries⟩ | ⟨clear, length⟩ | ⟨other, length, entries, -⟩
    · have member : b ∈ state.requested := by
        refine reserved.known p (by rw [grow]; rfl) (reserved.asked p b ?_)
        rw [grow]
        rfl
      rw [entries, length, Finset.card_insert_of_notMem fresh, card,
        Ledger.moved_requested (by rw [grow]; exact Pc.noConfusion)]
      exact ⟨rfl, Finset.insert_subset member subset⟩
    · rw [recorded_of_empty length, length]
      exact ⟨rfl, empty_subset _⟩
    · rw [entries, length, Ledger.moved_requested other]
      exact ⟨card, subset⟩

/-- A block passed to `log_write` is on its way until it is recorded. -/
theorem Reserved.pending_moved (reserved : Reserved state)
    (taken : Transition state.machine p (state.machine.pc p) after change)
    (applied : state.machine.apply pid p change = some next) {b : Nat}
    (member : b ∈ (state.moved p after next).requested) :
    b ∈ recorded next.log.lh ∨
      ∃ q, ((state.moved p after next).machine.pc q).block? = some b := by
  have other : state.machine.pc p ≠ .commitClear := by
    intro clear
    rw [Ledger.moved, if_pos clear] at member
    exact absurd member (notMem_empty b)
  rw [Ledger.moved_requested other] at member
  have running : (state.machine.pc p).replays = false := by
    by_contra replays
    rw [reserved.booting p (Pc.inBoot_of_replays (by simpa using replays))] at member
    exact absurd member (notMem_empty b)
  have elsewhere : ∀ q, q ≠ p → (state.machine.pc q).block? = some b →
      ∃ q, ((state.moved p after next).machine.pc q).block? = some b := by
    intro q different own
    refine ⟨q, ?_⟩
    rwa [Ledger.moved, pc_goto applied q, if_neg different]
  rcases taken.recorded (reserved.placed p) running applied with
    ⟨c, i, grow, -, -, -, entries⟩ | ⟨clear, -⟩ | ⟨-, -, entries, kept⟩
  · rw [entries]
    rcases reserved.pending b member with done | ⟨q, own⟩
    · exact .inl (Finset.mem_insert_of_mem done)
    · by_cases same : q = p
      · subst same
        rw [grow] at own
        cases own
        exact .inl (Finset.mem_insert_self _ _)
      · exact .inr (elsewhere q same own)
  · exact absurd clear other
  · rw [entries]
    rcases reserved.pending b member with done | ⟨q, own⟩
    · exact .inl done
    · by_cases same : q = p
      · subst same
        rcases kept b own with still | done
        · refine .inr ⟨q, ?_⟩
          rwa [Ledger.moved, pc_goto applied q, if_pos rfl]
        · exact .inl done
      · exact .inr (elsewhere q same own)

theorem Reserved.room_moved (reserved : Reserved state)
    (taken : Transition state.machine p (state.machine.pc p) after change)
    (applied : state.machine.apply pid p change = some next) :
    (state.moved p after next).requested.card +
      ∑ q, (state.moved p after next).room q ≤ logsize := by
  have fewer : (state.moved p after next).requested.card ≤ state.requested.card := by
    refine card_le_card ?_
    rw [Ledger.moved]
    split
    · exact empty_subset _
    · exact Finset.Subset.refl _
  have elsewhere : ∀ q, q ≠ p → (state.moved p after next).room q = state.room q := by
    intro q different
    rw [Ledger.room, Ledger.room, Ledger.moved, pc_goto applied q, if_neg different]
  have most : (state.moved p after next).room p ≤ maxopblocks := by
    rw [Ledger.room]
    split
    · exact Nat.sub_le _ _
    · exact Nat.zero_le _
  by_cases admits : state.machine.pc p = .beginAdd
  · have grown : ∑ q, (state.moved p after next).room q ≤ ∑ q, state.room q + maxopblocks := by
      refine sum_le_add p fun q => ?_
      by_cases same : q = p
      · subst same
        rw [if_pos rfl]
        exact most.trans (Nat.le_add_left _ _)
      · rw [elsewhere q same]
        exact Nat.le_add_right _ _
    have admitted := reserved.admit admits
    omega
  · have shrunk : ∑ q, (state.moved p after next).room q ≤ ∑ q, state.room q := by
      refine sum_le_sum fun q _ => ?_
      by_cases same : q = p
      · subst same
        rw [Ledger.room, Ledger.room, Ledger.moved, pc_goto applied q, if_pos rfl]
        split
        next counted =>
          rcases taken.counted_cases counted with before | begins
          · rw [if_pos before]
          · exact absurd begins admits
        next => exact Nat.zero_le _
      · exact (elsewhere q same).le
    have bound := reserved.reserved
    omega

/-- A step without a call of `log_write` keeps the invariant. -/
theorem Reserved.quiet (reserved : Reserved state) (quiet : Quiet pid state p after change next) :
    Reserved (state.moved p after next) := by
  obtain ⟨taken, applied, -, blocks, starts, space, scan⟩ := quiet
  have controlled : Controlled (state.moved p after next).machine :=
    reserved.controlled.act taken applied
  have pcs : ∀ q, (state.moved p after next).machine.pc q =
      if q = p then after else state.machine.pc q := pc_goto applied
  refine ⟨controlled, (apply_size applied).trans reserved.size, reserved.modest,
    fun q b own => ?_, fun q counted => ?_, fun q begins => ?_, fun q here => ?_, fun q => ?_,
    fun q boots => ?_, reserved.settled_moved taken applied,
    fun b => reserved.pending_moved taken applied, reserved.room_moved taken applied⟩
  · rw [pcs] at own
    split at own
    next same =>
      subst same
      exact reserved.asked q b (blocks b own)
    next => exact reserved.asked q b own
  · by_cases clear : state.machine.pc p = .commitClear
    · -- whoever clears the header commits, and no operation is in progress
      have commits : ((state.moved p after next).machine.pc p).commits = true := by
        rw [pcs, if_pos rfl]
        rw [clear] at taken
        cases taken
        rfl
      rw [controlled.uncounted commits q] at counted
      cases counted
    · rw [Ledger.moved_requested clear]
      rw [pcs] at counted
      split at counted
      next same =>
        subst same
        rcases taken.counted_cases counted with before | begins
        · exact reserved.known q before
        · have none := reserved.starting q (by rw [begins]; rfl)
          rw [show (state.moved q after next).blocks q = ∅ from none]
          exact empty_subset _
      next => exact reserved.known q counted
  · rw [pcs] at begins
    split at begins
    next same =>
      subst same
      exact (starts begins).elim (reserved.starting q) id
    next => exact reserved.starting q begins
  · rw [pcs] at here
    split at here
    next same =>
      obtain ⟨rfl, room⟩ := space here
      cases applied
      exact room
    next other =>
      have room := reserved.admitted_step taken applied other here
      exact room
  · rw [pcs]
    split
    next same =>
      subst same
      have placed := (reserved.placed q).step taken scan applied
      exact placed
    next other =>
      by_cases uses : (state.machine.pc p).usesHeader = true
      · refine placed_of_idle ?_
        by_contra again
        exact other (reserved.controlled.exclusive (by simpa using again) uses)
      · have lh := (taken.harmless (by simpa using uses) applied).1
        have placed := reserved.placed q
        rw [← lh] at placed
        exact placed
  · rw [pcs] at boots
    have before : state.requested = ∅ := by
      split at boots
      next same =>
        subst same
        rcases taken.inBoot with ⟨-, out, -⟩ | ⟨-, same⟩
        · rw [out] at boots
          cases boots
        · exact reserved.booting q (same.symm.trans boots)
      next => exact reserved.booting q boots
    change (if state.machine.pc p = .commitClear then ∅ else state.requested) = ∅
    rw [before, ite_self]

end Quiet

/-- The state when a process forgets the blocks of its last operation. -/
def Ledger.forget (state : Ledger others) (p : Fin (others + 1)) : Ledger others :=
  { state with blocks := update state.blocks p ∅ }

/-- The state after a call of `log_write`. -/
def Ledger.call (state : Ledger others) (p : Fin (others + 1)) (b : Nat) : Ledger others :=
  ⟨state.machine.goto p (.writeSpace b),
    update state.blocks p (insert b (state.blocks p)), insert b state.requested⟩

section Calls

variable {q : Fin (others + 1)} {b : Nat}

theorem Ledger.forget_self : (state.forget p).blocks p = ∅ := update_self ..

theorem Ledger.forget_of_ne (other : q ≠ p) : (state.forget p).blocks q = state.blocks q :=
  update_of_ne other _ _

theorem Ledger.call_self : (state.call p b).blocks p = insert b (state.blocks p) :=
  update_self ..

theorem Ledger.call_of_ne (other : q ≠ p) : (state.call p b).blocks q = state.blocks q :=
  update_of_ne other _ _

theorem Ledger.call_pc (q : Fin (others + 1)) : (state.call p b).machine.pc q =
    if q = p then .writeSpace b else state.machine.pc q := by
  have applied : state.machine.apply (fun _ => 0) p .keep = some state.machine := rfl
  exact pc_goto applied q

/-- Outside its operations a process has no use for the blocks of its last one. -/
theorem Reserved.forget (reserved : Reserved state) (out : state.machine.pc p = .out) :
    Reserved (state.forget p) := by
  refine ⟨reserved.controlled, reserved.size, fun q => ?_, fun q b own => ?_,
    fun q counted => ?_, fun q begins => ?_, reserved.admitted, reserved.placed,
    reserved.booting, reserved.settled, reserved.pending, ?_⟩
  · by_cases same : q = p
    · rw [same, Ledger.forget_self]
      exact Nat.zero_le _
    · rw [Ledger.forget_of_ne same]
      exact reserved.modest q
  · have other : q ≠ p := by
      rintro rfl
      rw [show (state.forget q).machine.pc q = .out from out] at own
      cases own
    rw [Ledger.forget_of_ne other]
    exact reserved.asked q b own
  · by_cases same : q = p
    · rw [same, Ledger.forget_self]
      exact empty_subset _
    · rw [Ledger.forget_of_ne same]
      exact reserved.known q counted
  · by_cases same : q = p
    · rw [same, Ledger.forget_self]
    · rw [Ledger.forget_of_ne same]
      exact reserved.starting q begins
  · refine (Nat.add_le_add_left (sum_le_sum fun q _ => ?_) _).trans reserved.reserved
    rw [Ledger.room, Ledger.room]
    by_cases same : q = p
    · rw [same, show (state.forget p).machine.pc p = .out from out, out]
      exact le_rfl
    · rw [Ledger.forget_of_ne same]
      exact le_rfl

/-- A call of `log_write` uses up a part of the reservation only for a new block. -/
theorem Reserved.room_call (reserved : Reserved state) (op : state.machine.pc p = .op)
    (modest : (insert b (state.blocks p)).card ≤ maxopblocks) :
    (state.call p b).requested.card + ∑ q, (state.call p b).room q ≤ logsize := by
  have counted : (state.machine.pc p).counted = true := by
    rw [op]
    rfl
  have bound := reserved.reserved
  have sum : ∑ q, (state.call p b).room q + (if b ∈ state.requested then 0 else 1) ≤
      ∑ q, state.room q := by
    refine sum_add_le p fun q => ?_
    rw [Ledger.room, Ledger.room, Ledger.call_pc]
    by_cases same : q = p
    · subst same
      have calls : (Pc.writeSpace b).counted = true := rfl
      rw [if_pos rfl, if_pos rfl, Ledger.call_self, if_pos counted, if_pos calls]
      have grown := card_le_card (subset_insert b (state.blocks q))
      split
      next => omega
      next fresh =>
        have absent : b ∉ state.blocks q := fun member =>
          fresh (reserved.known q counted member)
        rw [Finset.card_insert_of_notMem absent] at modest ⊢
        omega
    · rw [if_neg same, if_neg same, Ledger.call_of_ne same, add_zero]
  have card : (state.call p b).requested.card =
      state.requested.card + if b ∈ state.requested then 0 else 1 := by
    change (insert b state.requested).card = _
    split
    next member => rw [Finset.insert_eq_of_mem member, add_zero]
    next fresh => exact Finset.card_insert_of_notMem fresh
  rw [card]
  omega

/-- A call of `log_write` with a modest operation keeps the invariant. -/
theorem Reserved.call (reserved : Reserved state) (op : state.machine.pc p = .op)
    (modest : (insert b (state.blocks p)).card ≤ maxopblocks) :
    Reserved (state.call p b) := by
  have applied : state.machine.apply (fun _ => 0) p .keep = some state.machine := rfl
  have taken : Transition state.machine p (state.machine.pc p) (.writeSpace b) .keep := by
    rw [op]
    exact .callWrite b
  refine ⟨reserved.controlled.act taken applied, reserved.size, fun q => ?_,
    fun q c asks => ?_, fun q counted => ?_, fun q begins => ?_, fun q here => ?_, fun q => ?_,
    fun q boots => ?_, fun running => ?_, fun c member => ?_, reserved.room_call op modest⟩
  · by_cases same : q = p
    · rw [same, Ledger.call_self]
      exact modest
    · rw [Ledger.call_of_ne same]
      exact reserved.modest q
  · rw [Ledger.call_pc] at asks
    split at asks
    next same =>
      cases asks
      rw [same, Ledger.call_self]
      exact Finset.mem_insert_self _ _
    next other =>
      rw [Ledger.call_of_ne other]
      exact reserved.asked q c asks
  · rw [Ledger.call_pc] at counted
    split at counted
    next same =>
      have known := reserved.known p (by rw [op]; rfl)
      rw [same, Ledger.call_self]
      exact Finset.insert_subset_insert b known
    next other =>
      rw [Ledger.call_of_ne other]
      exact (reserved.known q counted).trans (subset_insert _ _)
  · rw [Ledger.call_pc] at begins
    split at begins
    next => cases begins
    next other =>
      rw [Ledger.call_of_ne other]
      exact reserved.starting q begins
  · rw [Ledger.call_pc] at here
    split at here
    next => cases here
    next => exact reserved.admitted q here
  · rw [Ledger.call_pc]
    split
    next => trivial
    next => exact reserved.placed q
  · rw [Ledger.call_pc] at boots
    split at boots
    next => cases boots
    next other =>
      have out := (reserved.controlled.boot boots).2 p fun same => other same.symm
      rw [out] at op
      cases op
  · have before : ∀ q, (state.machine.pc q).replays = false := by
      intro q
      by_cases same : q = p
      · rw [same, op]
        rfl
      · have elsewhere := running q
        rwa [Ledger.call_pc, if_neg same] at elsewhere
    obtain ⟨card, subset⟩ := reserved.settled before
    exact ⟨card, subset.trans (subset_insert _ _)⟩
  · rcases mem_insert.mp member with rfl | member
    · refine .inr ⟨p, ?_⟩
      rw [Ledger.call_pc, if_pos rfl]
      rfl
    · rcases reserved.pending c member with done | ⟨q, asks⟩
      · exact .inl done
      · refine .inr ⟨q, ?_⟩
        have other : q ≠ p := by
          rintro rfl
          rw [op] at asks
          cases asks
        rwa [Ledger.call_pc, if_neg other]

end Calls

end Act

/-! ## Room for the last block -/

/-- With timely calls, less than `log->size` blocks are passed between two commits, and
once `log->size - 1` have been, only the last one is still to be checked. -/
structure Spare (state : Ledger others) : Prop where
  few : state.requested.card < logsize
  last : state.requested.card + 1 = logsize → ∀ p b, state.machine.pc p = .writeSpace b →
    b ∉ recorded state.machine.log.lh ∧ ∀ q, q ≠ p → (state.machine.pc q).block? ≠ some b

section Spare

variable {state : Ledger others} {p : Fin (others + 1)}

theorem spare_start {pid : Fin (others + 1) → Nat} (starts : Ledger.Starts pid state) :
    Spare state := by
  have room : 1 < logsize := by decide
  refine ⟨?_, fun last => ?_⟩
  · rw [starts.fresh]
    exact Nat.zero_lt_of_lt room
  · rw [starts.fresh, card_empty] at last
    omega

theorem Spare.quiet {pid : Fin (others + 1) → Nat} {next : Machine others} {after : Pc}
    {change : Change} (spare : Spare state) (reserved : Reserved state)
    (quiet : Quiet pid state p after change next) : Spare (state.moved p after next) := by
  obtain ⟨taken, applied, noCall, blocks, -⟩ := quiet
  have room : 1 < logsize := by decide
  have pcs : ∀ q, (state.moved p after next).machine.pc q =
      if q = p then after else state.machine.pc q := pc_goto applied
  by_cases clear : state.machine.pc p = .commitClear
  · have none : (state.moved p after next).requested = ∅ := if_pos clear
    refine ⟨?_, fun last => ?_⟩
    · rw [none]
      exact Nat.zero_lt_of_lt room
    · rw [none, card_empty] at last
      omega
  · have same : (state.moved p after next).requested = state.requested :=
      Ledger.moved_requested clear
    refine ⟨same ▸ spare.few, fun last q b here => ?_⟩
    rw [same] at last
    rw [pcs] at here
    split at here
    next => exact absurd here (noCall b)
    next other =>
      obtain ⟨fresh, alone⟩ := spare.last last q b here
      have running : (state.machine.pc p).replays = false := by
        by_contra replays
        rw [reserved.booting p (Pc.inBoot_of_replays (by simpa using replays)),
          card_empty] at last
        omega
      refine ⟨?_, fun r different own => ?_⟩
      · change b ∉ recorded next.log.lh
        rcases taken.recorded (reserved.placed p) running applied with
          ⟨c, i, grow, -, -, -, entries⟩ | ⟨commits, -⟩ | ⟨-, -, entries, -⟩
        · rw [entries, mem_insert]
          rintro (rfl | member)
          · exact alone p (fun same => other same.symm) (by rw [grow]; rfl)
          · exact fresh member
        · exact absurd commits clear
        · rwa [entries]
      · rw [pcs] at own
        split at own
        next same =>
          subst same
          exact alone r different (blocks b own)
        next => exact alone r different own

theorem Reserved.spare_call (reserved : Reserved state) {b : Nat}
    (op : state.machine.pc p = .op) (timely : state.Timely (.act p (.logWrite b))) :
    Spare (state.call p b) := by
  obtain ⟨few, alone⟩ := timely
  rw [reserved.size] at few alone
  have card := Finset.card_insert_le b state.requested
  refine ⟨?_, fun last q c here => ?_⟩
  · change (insert b state.requested).card < logsize
    omega
  · have fresh : b ∉ state.requested := by
      intro member
      have same : (insert b state.requested).card + 1 = logsize := last
      rw [Finset.insert_eq_of_mem member] at same
      omega
    rw [Ledger.call_pc] at here
    split at here
    next same =>
      subst same
      obtain rfl := Pc.writeSpace.inj here
      have running := reserved.controlled.not_replays (p := q) (by rw [op]; rfl)
      refine ⟨fun member => fresh ((reserved.settled running).2 member), fun r other own => ?_⟩
      rw [Ledger.call_pc, if_neg other] at own
      have counted := Pc.counted_of_block own
      exact fresh (reserved.known r counted (reserved.asked r b own))
    next other =>
      have passed := alone last q other
      rw [here] at passed
      cases passed

end Spare

/-! ## Runs -/

section Runs

variable {pid : Fin (others + 1) → Nat} {state next : Ledger others} {label : Label others}

variable {change : Change} {machine : Machine others} {after pc : Pc}

theorem control_block {b : Nat}
    (taken : machine.control pc = some (after, change)) (own : after.block? = some b) :
    pc.block? = some b := by
  have steps := control_cases (0 : Fin (others + 1)) taken
  cases steps with
  | callWrite => cases taken
  | _ => first | exact own | cases own

theorem control_starts
    (taken : machine.control pc = some (after, change)) (starts : after.starts = true) :
    pc.starts = true := by
  have steps := control_cases (0 : Fin (others + 1)) taken
  cases steps with
  | callBegin => cases taken
  | _ => first | rfl | cases starts

theorem control_noCall
    (taken : machine.control pc = some (after, change)) (b : Nat) : after ≠ .writeSpace b := by
  rintro rfl
  cases control_cases (0 : Fin (others + 1)) taken
  cases taken

/-- A step is a fork, a call of `log_write` by a process in an operation, or a quiet step;
a process that begins an operation forgets the blocks of the last one. -/
theorem Ledger.step_cases (taken : state.step pid label = some next) :
    (∃ trans, trans.nextpid = state.machine.trans.nextpid + 1 ∧
      state.machine.step pid label = some { state.machine with trans := trans } ∧
      next = { state with machine := { state.machine with trans := trans } }) ∨
    (∃ p b, label = .act p (.logWrite b) ∧ state.machine.pc p = .op ∧ next = state.call p b) ∨
    ∃ base p after change machine,
      (base = state ∨ state.machine.pc p = .out ∧ base = state.forget p) ∧
      Quiet pid base p after change machine ∧ next = base.moved p after machine := by
  obtain ⟨machine, stepped, rfl⟩ := map_eq_some_iff.mp taken
  cases label with
  | fork =>
    obtain ⟨-, same⟩ := ite_none_right_eq_some.mp stepped
    cases same
    exact .inl ⟨_, rfl, stepped, rfl⟩
  | act p action =>
    obtain ⟨⟨after, change⟩, moved, result⟩ := Option.bind_eq_some_iff.mp stepped
    obtain ⟨reached, applied, rfl⟩ := map_eq_some_iff.mp result
    right
    cases action with
    | step =>
      refine .inr ⟨state, p, after, change, reached, .inl rfl, ?_, rfl⟩
      refine ⟨control_cases p moved, applied, control_noCall moved,
        fun b => control_block moved, fun starts => .inl (control_starts moved starts),
        fun begins => ?_, fun b i here scans => ?_⟩
      · subst begins
        exact ⟨control_admits moved, control_space moved⟩
      · subst scans
        change state.machine.control (state.machine.pc p) = _ at moved
        rw [here] at moved
        exact control_scan moved
    | beginOp =>
      obtain ⟨⟨out, booted, live⟩, same⟩ := ite_none_right_eq_some.mp moved
      cases same
      cases applied
      have before : (state.forget p).machine.pc p = .out := out
      refine .inr ⟨state.forget p, p, .beginTake, .keep, state.machine, .inr ⟨out, rfl⟩, ?_, ?_⟩
      · refine ⟨?_, rfl, fun b => Pc.noConfusion, fun b own => ?_,
          fun _ => .inr Ledger.forget_self, Pc.noConfusion, fun b i _ scans => ?_⟩
        · rw [before]
          exact .callBegin booted live
        · cases own
        · cases scans
      · rw [Ledger.moved, before, if_neg Pc.noConfusion]
        rfl
    | logWrite b =>
      obtain ⟨op, same⟩ := ite_none_right_eq_some.mp moved
      cases same
      cases applied
      exact .inl ⟨p, b, rfl, op, rfl⟩
    | endOp =>
      obtain ⟨op, same⟩ := ite_none_right_eq_some.mp moved
      cases same
      refine .inr ⟨state, p, .endTake, .keep, reached, .inl rfl, ?_, ?_⟩
      · refine ⟨moves_cases moved, applied, fun b => Pc.noConfusion, fun b own => ?_,
          fun starts => ?_, Pc.noConfusion, fun b i _ scans => ?_⟩
        · cases own
        · cases starts
        · cases scans
      · rw [Ledger.moved, op, if_neg Pc.noConfusion]
        rfl
    | tear header outstanding =>
      have taken := moves_cases moved
      refine .inr ⟨state, p, after, change, reached, .inl rfl, ?_, ?_⟩
      all_goals
        cases location : state.machine.pc p <;>
          simp only [Machine.moves, location, reduceCtorEq] at moved
      all_goals obtain ⟨rfl, rfl⟩ := Prod.mk.inj (Option.some.inj moved)
      · refine ⟨taken, applied, fun b => Pc.noConfusion, fun b own => ?_, fun starts => ?_,
          Pc.noConfusion, fun b i _ scans => ?_⟩
        · rw [location]
          exact own
        · cases starts
        · cases scans
      · refine ⟨taken, applied, fun b => Pc.noConfusion, fun b own => ?_, fun starts => ?_,
          Pc.noConfusion, fun b i _ scans => ?_⟩
        · cases own
        · cases starts
        · cases scans
      · rw [Ledger.moved, location, if_neg Pc.noConfusion]
        rfl
      · rw [Ledger.moved, location, if_neg Pc.noConfusion]
        rfl

theorem Reserved.step (reserved : Reserved state) (modest : state.Modest label)
    (taken : state.step pid label = some next) : Reserved next := by
  rcases Ledger.step_cases taken with ⟨trans, -, stepped, rfl⟩ | ⟨p, b, rfl, op, rfl⟩ |
    ⟨base, p, after, change, machine, origin, quiet, rfl⟩
  · exact { reserved with controlled := reserved.controlled.step stepped }
  · exact reserved.call op modest
  · rcases origin with rfl | ⟨out, rfl⟩
    · exact reserved.quiet quiet
    · exact (reserved.forget out).quiet quiet

theorem Spare.step (spare : Spare state) (reserved : Reserved state) (timely : state.Timely label)
    (taken : state.step pid label = some next) : Spare next := by
  rcases Ledger.step_cases taken with ⟨trans, -, -, rfl⟩ | ⟨p, b, rfl, op, rfl⟩ |
    ⟨base, p, after, change, machine, origin, quiet, rfl⟩
  · exact ⟨spare.few, spare.last⟩
  · exact reserved.spare_call op timely
  · rcases origin with rfl | ⟨out, rfl⟩
    · exact spare.quiet reserved quiet
    · have same : Spare (state.forget p) := ⟨spare.few, spare.last⟩
      exact same.quiet (reserved.forget out) quiet

theorem reserved_of_runs {labels : List (Label others)}
    (runs : (Ledger.operations pid).Runs labels state) : Reserved state := by
  refine runs.invariant Reserved (fun _ starts => reserved_start starts) ?_
  rintro before label after reserved ⟨modest, taken⟩
  exact reserved.step modest taken

theorem spare_of_runs {labels : List (Label others)}
    (runs : ((Ledger.operations pid).guarded Ledger.Timely).Runs labels state) :
    Reserved state ∧ Spare state := by
  refine runs.invariant (fun state => Reserved state ∧ Spare state)
    (fun _ starts => ⟨reserved_start starts, spare_start starts⟩) ?_
  rintro before label after ⟨reserved, spare⟩ ⟨timely, modest, taken⟩
  exact ⟨reserved.step modest taken, spare.step reserved timely taken⟩

/-- Somebody in an operation sees the header as the operations have left it. -/
theorem Reserved.entries (reserved : Reserved state) {p : Fin (others + 1)} {b : Nat}
    (own : (state.machine.pc p).block? = some b) :
    (recorded state.machine.log.lh).card = state.machine.log.lh.n ∧
      recorded state.machine.log.lh ⊆ state.requested ∧ b ∈ state.requested := by
  have counted := Pc.counted_of_block own
  obtain ⟨card, subset⟩ := reserved.settled (reserved.controlled.not_replays counted)
  exact ⟨card, subset, reserved.known p counted (reserved.asked p b own)⟩

/-- While the operations keep to their share, the header has room for every block. -/
theorem Reserved.not_spills (reserved : Reserved state) : ¬state.Spills := by
  rintro ⟨p, b, i, here, outside⟩
  have own : (state.machine.pc p).block? = some b := by
    rcases here with here | here <;> rw [here] <;> rfl
  obtain ⟨card, subset, member⟩ := reserved.entries own
  have placed := reserved.placed p
  have place : i ≤ state.machine.log.lh.n := by
    rcases here with here | here <;> rw [here] at placed <;> exact placed.1
  have fresh : i = state.machine.log.lh.n → b ∉ recorded state.machine.log.lh := by
    rintro rfl found
    obtain ⟨j, below, same⟩ := mem_recorded.mp found
    rcases here with here | here <;> rw [here] at placed <;> exact placed.2.1 j below same
  have bound := reserved.reserved
  have fits : (recorded state.machine.log.lh).card ≤ state.requested.card :=
    card_le_card subset
  have last : i = state.machine.log.lh.n := by omega
  have more : (recorded state.machine.log.lh).card < state.requested.card :=
    card_lt_card ⟨subset, fun all => fresh last (all member)⟩
  omega

/-- Where the calls are timely as well, the check finds room. -/
theorem Spare.not_panics (spare : Spare state) (reserved : Reserved state) : ¬state.Panics := by
  rintro ⟨p, b, here, full⟩
  have own : (state.machine.pc p).block? = some b := by
    rw [here]
    rfl
  obtain ⟨card, subset, member⟩ := reserved.entries own
  have few := spare.few
  have fits : (recorded state.machine.log.lh).card ≤ state.requested.card :=
    card_le_card subset
  rw [reserved.size] at full
  have last : state.requested.card + 1 = logsize := by omega
  have more : (recorded state.machine.log.lh).card < state.requested.card :=
    card_lt_card ⟨subset, fun all => (spare.last last p b here).1 (all member)⟩
  omega

/-- When each operation passes at most `MAXOPBLOCKS` distinct blocks to `log_write`, no
block is stored behind the end of the header. When moreover each call finds less than
`log->size - 1` blocks passed since the last commit, and the one that makes it that many
finds no other process before the check, "too big a transaction" is never reached. -/
theorem log_write_fits (pid : Fin (others + 1) → Nat) :
    (∀ labels state, (Ledger.operations pid).Runs labels state → ¬state.Spills) ∧
    ∀ labels state, ((Ledger.operations pid).guarded Ledger.Timely).Runs labels state →
      ¬state.Panics := by
  refine ⟨fun labels state runs => (reserved_of_runs runs).not_spills,
    fun labels state runs => ?_⟩
  obtain ⟨reserved, spare⟩ := spare_of_runs runs
  exact spare.not_panics reserved

end Runs

end Ev6.Logging
