import Ev6.BufferCache.Ring

/-!
# Buffers shared between processes

Each critical section of `bcache.lock` is one step, and so are the returns of
`acquiresleep` and `releasesleep`. A process that `bget` has given a buffer may have to
wait for its sleeplock. `bpin` and `bunpin` change the reference count only.
-/

namespace Ev6.BufferCache

open Option (ite_none_right_eq_some)
open List (countP_cons mem_cons mem_of_mem_erase)
open Function (update update_of_ne update_self)
open Support

/-- How far a process has come with a buffer: it waits for the sleeplock, it holds the
sleeplock, or it has released the sleeplock in `brelse`. -/
inductive Stage where
  | waiting
  | holding
  | leaving
deriving DecidableEq

/-- A reference that `bget` has counted: whose it is, on which buffer, and the block that
was asked for. -/
structure Hold where
  proc : Nat
  buf : Node
  dev : UInt32
  blockno : UInt32
  stage : Stage
deriving DecidableEq

/-- The buffers, the references of the processes, and for each `bpin` without its
`bunpin` the buffer. -/
structure Shared where
  mem : Memory
  holds : List Hold
  pins : List Node

/-- The steps of the processes. -/
inductive Access where
  | bget (proc : Nat) (dev blockno : UInt32)
  | acquiresleep (hold : Hold)
  | releasesleep (hold : Hold)
  | brelse (hold : Hold)
  | bpin (index : Fin nbuf)
  | bunpin (index : Fin nbuf)
deriving DecidableEq

/-- `b->refcnt = value`. -/
def setRefcnt (mem : Memory) (b : Node) (value : UInt32) : Memory :=
  update mem b { mem b with refcnt := value }

/-- The sleeplock of a buffer is held. -/
def Locked (shared : Shared) (b : Node) : Prop :=
  ∃ hold ∈ shared.holds, hold.buf = b ∧ hold.stage = .holding

instance (shared : Shared) (b : Node) : Decidable (Locked shared b) := by
  unfold Locked
  infer_instance

namespace Shared

/-- A hold goes on to another stage. -/
def moveTo (shared : Shared) (hold : Hold) (stage : Stage) : Shared :=
  { shared with holds := { hold with stage := stage } :: shared.holds.erase hold }

/-- One step. `bread` sets `valid` when it has the sleeplock, and `bget` panics without an
unused buffer. Only who holds the sleeplock may call `brelse`. -/
def access (shared : Shared) : Access → Option Shared
  | .bget proc dev blockno =>
    match BufferCache.bget (nbuf + 1) shared.mem dev blockno with
    | some (some b, mem) =>
      some { shared with mem := mem, holds := ⟨proc, b, dev, blockno, .waiting⟩ :: shared.holds }
    | _ => none
  | .acquiresleep hold =>
    if hold ∈ shared.holds ∧ hold.stage = .waiting ∧ ¬Locked shared hold.buf then
      some { shared.moveTo hold .holding with
        mem := update shared.mem hold.buf { shared.mem hold.buf with valid := 1 } }
    else none
  | .releasesleep hold =>
    if hold ∈ shared.holds ∧ hold.stage = .holding then some (shared.moveTo hold .leaving)
    else none
  | .brelse hold =>
    if hold ∈ shared.holds ∧ hold.stage = .leaving then
      some { shared with
        mem := BufferCache.brelse shared.mem hold.buf, holds := shared.holds.erase hold }
    else none
  | .bpin index =>
    some { shared with
      mem := setRefcnt shared.mem (.buf index) ((shared.mem (.buf index)).refcnt + 1)
      pins := .buf index :: shared.pins }
  | .bunpin index =>
    some { shared with
      mem := setRefcnt shared.mem (.buf index) ((shared.mem (.buf index)).refcnt - 1)
      pins := shared.pins.erase (.buf index) }

/-- The references to a buffer: the holds and the pins. -/
def references (shared : Shared) (b : Node) : Nat :=
  shared.holds.countP (fun hold => hold.buf = b) + shared.pins.count b

end Shared

/-- The buffer cache as `binit` leaves it. -/
def sharedStart : Shared where
  mem := binit fun _ => Buf.zero
  holds := []
  pins := []

def sharedSystem : LabelledSystem Shared Access := .ofFunction (· = sharedStart) Shared.access

/-- What a run keeps: a buffer for every block once, the ring of all buffers, and the
block that each holder has asked for. -/
structure Consistent (shared : Shared) : Prop where
  single : ∀ i j : Fin nbuf, (shared.mem (.buf i)).dev ≠ 0 →
    (shared.mem (.buf i)).dev = (shared.mem (.buf j)).dev →
    (shared.mem (.buf i)).blockno = (shared.mem (.buf j)).blockno → i = j
  ring : ∃ nodes, Ringed shared.mem nodes ∧ nodes.Perm ((List.finRange nbuf).map Node.buf)
  named : ∀ hold ∈ shared.holds, (shared.mem hold.buf).dev = hold.dev ∧
    (shared.mem hold.buf).blockno = hold.blockno

/-- A step renames a buffer only when its reference count is 0. -/
def RenamesUnused (shared next : Shared) : Prop :=
  ∀ b, (next.mem b).dev ≠ (shared.mem b).dev ∨ (next.mem b).blockno ≠ (shared.mem b).blockno →
    (shared.mem b).refcnt = 0

/-- The condition on a step: `bunpin` drops the pin of a `bpin`, and no count of
references reaches the end of the 32-bit field. -/
def Paired (shared : Shared) (access : Access) : Prop :=
  (∀ index : Fin nbuf, shared.references (.buf index) + 1 < 2 ^ 32) ∧
    match access with
    | .bunpin index => .buf index ∈ shared.pins
    | _ => True

/-! ## What the operations leave as it is -/

/-- Every buffer has the same block in two memories. -/
def SameBlocks (mem after : Memory) : Prop :=
  ∀ b, (after b).dev = (mem b).dev ∧ (after b).blockno = (mem b).blockno

/-- Two memories hold the same blocks under the same counts. -/
def SameBufs (mem after : Memory) : Prop :=
  ∀ b, (after b).dev = (mem b).dev ∧ (after b).blockno = (mem b).blockno ∧
    (after b).refcnt = (mem b).refcnt

theorem SameBufs.trans {first second third : Memory} (left : SameBufs first second)
    (right : SameBufs second third) : SameBufs first third := fun b =>
  ⟨(right b).1.trans (left b).1, (right b).2.1.trans (left b).2.1,
    (right b).2.2.trans (left b).2.2⟩

theorem same_setNext (mem : Memory) (node value : Node) :
    SameBufs mem (setNext mem node value) := by
  intro b
  by_cases same : b = node
  · subst same
    simp [setNext]
  · simp [setNext, same]

theorem same_setPrev (mem : Memory) (node value : Node) :
    SameBufs mem (setPrev mem node value) := by
  intro b
  by_cases same : b = node
  · subst same
    simp [setPrev]
  · simp [setPrev, same]

theorem same_insertFront (mem : Memory) (b : Node) : SameBufs mem (insertFront mem b) :=
  (same_setNext _ _ _).trans ((same_setPrev _ _ _).trans
    ((same_setPrev _ _ _).trans (same_setNext _ _ _)))

theorem same_unlink (mem : Memory) (b : Node) : SameBufs mem (unlink mem b) :=
  (same_setPrev _ _ _).trans (same_setNext _ _ _)

theorem same_binit (mem : Memory) : SameBufs mem (binit mem) := by
  have along : ∀ (entries : List (Fin nbuf)) (mem : Memory),
      SameBufs mem (entries.foldl (fun mem i => insertFront mem (.buf i)) mem) := by
    intro entries
    induction entries with
    | nil => exact fun mem b => ⟨rfl, rfl, rfl⟩
    | cons i rest ih => exact fun mem => (same_insertFront mem _).trans (ih _)
  exact ((same_setPrev _ _ _).trans (same_setNext _ _ _)).trans (along _ _)

@[simp] theorem setRefcnt_dev (mem : Memory) (b c : Node) (value : UInt32) :
    (setRefcnt mem b value c).dev = (mem c).dev := by
  by_cases same : c = b
  · subst same
    simp [setRefcnt]
  · simp [setRefcnt, same]

@[simp] theorem setRefcnt_blockno (mem : Memory) (b c : Node) (value : UInt32) :
    (setRefcnt mem b value c).blockno = (mem c).blockno := by
  by_cases same : c = b
  · subst same
    simp [setRefcnt]
  · simp [setRefcnt, same]

theorem setRefcnt_refcnt (mem : Memory) (b c : Node) (value : UInt32) :
    (setRefcnt mem b value c).refcnt = if c = b then value else (mem c).refcnt := by
  by_cases same : c = b
  · subst same
    simp [setRefcnt]
  · simp [setRefcnt, same]

/-- `brelse` decrements one count, and changes no other count and no block. -/
theorem brelse_bufs (mem : Memory) (b : Node) :
    SameBufs (setRefcnt mem b ((mem b).refcnt - 1)) (brelse mem b) := by
  unfold brelse
  simp only
  split
  · exact (same_unlink _ b).trans (same_insertFront _ b)
  · exact fun c => ⟨rfl, rfl, rfl⟩

/-! ## References -/

section References

variable {shared : Shared} {hold : Hold}

/-- A hold that goes on to another stage remains a reference to its buffer. -/
theorem references_moveTo (member : hold ∈ shared.holds) (stage : Stage) (b : Node) :
    (shared.moveTo hold stage).references b = shared.references b := by
  have split := (List.perm_cons_erase member).countP_eq fun hold => decide (hold.buf = b)
  simp only [Shared.references, Shared.moveTo]
  rw [split, countP_cons, countP_cons]

theorem references_erase (member : hold ∈ shared.holds) (mem : Memory) (b : Node) :
    (⟨mem, shared.holds.erase hold, shared.pins⟩ : Shared).references b +
      (if hold.buf = b then 1 else 0) = shared.references b := by
  have split := (List.perm_cons_erase member).countP_eq fun hold => decide (hold.buf = b)
  simp only [Shared.references]
  rw [split, countP_cons]
  by_cases same : hold.buf = b
  · simp only [same, decide_true, if_true]
    omega
  · simp [same]

theorem references_pos (member : hold ∈ shared.holds) : 0 < shared.references hold.buf := by
  have counted : 0 < shared.holds.countP fun other => decide (other.buf = hold.buf) :=
    List.countP_pos_iff.mpr ⟨hold, member, by simp⟩
  rw [Shared.references]
  omega

end References

/-- What a run keeps: the counts are those of the references. -/
structure Counted (shared : Shared) : Prop where
  consistent : Consistent shared
  count : ∀ i : Fin nbuf, (shared.mem (.buf i)).refcnt.toNat = shared.references (.buf i)
  buffers : ∀ hold ∈ shared.holds, ∃ i, hold.buf = .buf i

theorem counted_start : Counted sharedStart where
  consistent :=
    { single := by
        intro i j filled
        exact absurd (same_binit _ (.buf i)).1 filled
      ring := ⟨_, ringed_binit _, List.reverse_perm _⟩
      named := by
        intro hold member
        cases member }
  count i := by
    change ((binit fun _ => Buf.zero) (.buf i)).refcnt.toNat = 0
    rw [(same_binit _ (.buf i)).2.2]
    rfl
  buffers hold member := by cases member

section Steps

variable {shared next : Shared}

/-- A change that keeps the blocks and the ring keeps what the holders have asked for. -/
theorem Consistent.congr (consistent : Consistent shared) (same : SameBlocks shared.mem next.mem)
    (ring : ∃ nodes, Ringed next.mem nodes ∧ nodes.Perm ((List.finRange nbuf).map Node.buf))
    (named : ∀ hold ∈ next.holds, (shared.mem hold.buf).dev = hold.dev ∧
      (shared.mem hold.buf).blockno = hold.blockno) : Consistent next where
  single i j := by
    rw [(same _).1, (same _).1, (same _).2, (same _).2]
    exact consistent.single i j
  ring := ring
  named hold member := by
    rw [(same _).1, (same _).2]
    exact named hold member

variable {hold : Hold}

/-- A hold that goes on has asked for the same block. -/
theorem Consistent.moveTo (consistent : Consistent shared)
    (member : hold ∈ shared.holds) (stage : Stage) :
    ∀ other ∈ (shared.moveTo hold stage).holds, (shared.mem other.buf).dev = other.dev ∧
      (shared.mem other.buf).blockno = other.blockno := by
  intro other inside
  rcases mem_cons.mp inside with rfl | old
  · exact consistent.named hold member
  · exact consistent.named other (mem_of_mem_erase old)

theorem Counted.moveTo (counted : Counted shared) (member : hold ∈ shared.holds)
    (stage : Stage) : ∀ other ∈ (shared.moveTo hold stage).holds, ∃ i, other.buf = .buf i := by
  intro other inside
  rcases mem_cons.mp inside with rfl | old
  · exact counted.buffers hold member
  · exact counted.buffers other (mem_of_mem_erase old)

/-- A ring of all buffers has every one of them, and no more than a walk can pass. -/
theorem Consistent.around (consistent : Consistent shared) :
    ∃ nodes, Ringed shared.mem nodes ∧ nodes.Perm ((List.finRange nbuf).map Node.buf) ∧
      nodes.length < nbuf + 1 ∧ ∀ b, b ∈ nodes ↔ ∃ i, b = .buf i := by
  obtain ⟨nodes, ring, all⟩ := consistent.ring
  refine ⟨nodes, ring, all, ?_, fun b => ?_⟩
  · rw [all.length_eq]
    simp
  · rw [all.mem_iff]
    simp [eq_comm]

/-- A count below the end of the field goes up by one. -/
theorem toNat_add_one {count : UInt32} (small : count.toNat + 1 < 2 ^ 32) :
    (count + 1).toNat = count.toNat + 1 := by
  rw [UInt32.toNat_add]
  exact Nat.mod_eq_of_lt small

theorem toNat_sub_one {count : UInt32} (positive : 0 < count.toNat) :
    (count - 1).toNat + 1 = count.toNat := by
  have one : (1 : UInt32) ≤ count := positive
  rw [UInt32.toNat_sub_of_le _ _ one]
  exact Nat.sub_add_cancel positive

theorem counted_bget (counted : Counted shared) {proc : Nat} {dev blockno : UInt32}
    (small : ∀ i : Fin nbuf, shared.references (.buf i) + 1 < 2 ^ 32)
    (taken : shared.access (.bget proc dev blockno) = some next) : Counted next := by
  have consistent := counted.consistent
  obtain ⟨nodes, ring, all, enough, member_iff⟩ := consistent.around
  rcases ring.bget_cases enough dev blockno with
    ⟨b, member, ⟨sameDev, sameBlock⟩, done⟩ | ⟨missed, ⟨b, member, zero, done⟩ | done⟩
  · simp only [Shared.access, done, Option.some.injEq] at taken
    subst taken
    obtain ⟨i, rfl⟩ := (member_iff b).mp member
    refine ⟨consistent.congr ?_ ⟨nodes, ring.written rfl rfl, all⟩ ?_, fun j => ?_, ?_⟩
    · exact fun c => ⟨setRefcnt_dev _ _ c _, setRefcnt_blockno _ _ c _⟩
    · intro hold inside
      rcases mem_cons.mp inside with rfl | old
      · exact ⟨sameDev, sameBlock⟩
      · exact consistent.named hold old
    · have old := counted.count j
      have short := small j
      change (setRefcnt shared.mem (.buf i) _ (.buf j)).refcnt.toNat = _
      simp only [Shared.references, countP_cons] at old short ⊢
      rw [setRefcnt_refcnt]
      by_cases same : j = i
      · subst same
        simp only [if_true, decide_true]
        rw [toNat_add_one (by omega)]
        omega
      · have apart : Node.buf i ≠ .buf j := fun equal => same (Node.buf.inj equal).symm
        simp only [apart, Ne.symm apart, decide_false, if_false, Bool.false_eq_true]
        omega
    · intro hold inside
      rcases mem_cons.mp inside with rfl | old
      · exact ⟨i, rfl⟩
      · exact counted.buffers hold old
  · simp only [Shared.access, done, Option.some.injEq] at taken
    subst taken
    obtain ⟨i, rfl⟩ := (member_iff b).mp member
    have none := counted.count i
    rw [zero] at none
    have unheld : ∀ hold ∈ shared.holds, hold.buf ≠ .buf i := by
      intro hold inside same
      have some := references_pos inside
      rw [same, ← none] at some
      exact absurd some (by decide)
    have others : ∀ j, j ≠ i → ¬((shared.mem (.buf j)).dev = dev ∧
        (shared.mem (.buf j)).blockno = blockno) := fun j _ =>
      missed _ ((member_iff _).mpr ⟨j, rfl⟩)
    have apart : ∀ {j}, j ≠ i → Node.buf j ≠ .buf i := fun different equal =>
      different (Node.buf.inj equal)
    refine ⟨⟨?_, ⟨nodes, ring.written rfl rfl, all⟩, ?_⟩, fun j => ?_, ?_⟩
    · intro j k filled sameDev sameBlock
      dsimp only at filled sameDev sameBlock
      by_cases first : j = i
      · by_cases second : k = i
        · rw [first, second]
        · rw [first, update_self, update_of_ne (apart second)]
            at sameDev sameBlock
          exact absurd ⟨sameDev.symm, sameBlock.symm⟩ (others k second)
      · rw [update_of_ne (apart first)] at filled sameDev sameBlock
        by_cases second : k = i
        · rw [second, update_self] at sameDev sameBlock
          exact absurd ⟨sameDev, sameBlock⟩ (others j first)
        · rw [update_of_ne (apart second)] at sameDev sameBlock
          exact consistent.single j k filled sameDev sameBlock
    · intro hold inside
      rcases mem_cons.mp inside with rfl | old
      · simp
      · dsimp only
        rw [update_of_ne (unheld hold old)]
        exact consistent.named hold old
    · have old := counted.count j
      change (update shared.mem (.buf i) _ (.buf j)).refcnt.toNat = _
      simp only [Shared.references, countP_cons] at old none ⊢
      by_cases same : j = i
      · subst same
        rw [update_self]
        simp only [if_true, decide_true]
        rw [UInt32.toNat_zero] at none
        rw [UInt32.toNat_one]
        omega
      · have different : Node.buf i ≠ .buf j := Ne.symm (apart same)
        rw [update_of_ne (apart same)]
        simp only [different, decide_false, if_false, Bool.false_eq_true]
        omega
    · intro hold inside
      rcases mem_cons.mp inside with rfl | old
      · exact ⟨i, rfl⟩
      · exact counted.buffers hold old
  · simp [Shared.access, done] at taken

theorem counted_acquiresleep (counted : Counted shared)
    (taken : shared.access (.acquiresleep hold) = some next) : Counted next := by
  have consistent := counted.consistent
  obtain ⟨⟨member, -, -⟩, result⟩ := ite_none_right_eq_some.mp taken
  cases result
  have same : SameBufs shared.mem
      (update shared.mem hold.buf { shared.mem hold.buf with valid := 1 }) := by
    intro c
    by_cases here : c = hold.buf
    · subst here
      simp
    · simp [here]
  obtain ⟨nodes, ring, all⟩ := consistent.ring
  refine ⟨consistent.congr (fun b => ⟨(same b).1, (same b).2.1⟩) ?_ ?_, fun i => ?_, ?_⟩
  · exact ⟨nodes, ring.written rfl rfl, all⟩
  · exact consistent.moveTo member .holding
  · rw [(same _).2.2, counted.count i, ← references_moveTo member .holding]
    rfl
  · exact counted.moveTo member .holding

theorem counted_releasesleep (counted : Counted shared)
    (taken : shared.access (.releasesleep hold) = some next) : Counted next := by
  have consistent := counted.consistent
  obtain ⟨⟨member, -⟩, result⟩ := ite_none_right_eq_some.mp taken
  cases result
  refine ⟨consistent.congr (fun _ => ⟨rfl, rfl⟩) consistent.ring ?_, fun i => ?_, ?_⟩
  · exact consistent.moveTo member .leaving
  · rw [references_moveTo member]
    exact counted.count i
  · exact counted.moveTo member .leaving

theorem counted_brelse (counted : Counted shared)
    (taken : shared.access (.brelse hold) = some next) : Counted next := by
  have consistent := counted.consistent
  obtain ⟨⟨member, -⟩, result⟩ := ite_none_right_eq_some.mp taken
  cases result
  obtain ⟨nodes, ring, all, -, member_iff⟩ := consistent.around
  have inside := (member_iff hold.buf).mpr (counted.buffers hold member)
  obtain ⟨moved, kept, perm⟩ := ring.brelse inside
  have bufs := brelse_bufs shared.mem hold.buf
  refine ⟨consistent.congr (fun c => ⟨?_, ?_⟩) ⟨moved, kept, perm.trans all⟩ ?_, fun i => ?_, ?_⟩
  · exact (bufs c).1.trans (setRefcnt_dev _ _ c _)
  · exact (bufs c).2.1.trans (setRefcnt_blockno _ _ c _)
  · exact fun other old => consistent.named other (mem_of_mem_erase old)
  · have before := counted.count i
    have fewer := references_erase member (brelse shared.mem hold.buf) (.buf i)
    have positive := references_pos member
    change (brelse shared.mem hold.buf (.buf i)).refcnt.toNat = _
    rw [(bufs _).2.2, setRefcnt_refcnt]
    by_cases same : Node.buf i = hold.buf
    · rw [← same] at positive fewer ⊢
      rw [if_pos rfl] at fewer ⊢
      have less := toNat_sub_one (before ▸ positive)
      omega
    · rw [if_neg (Ne.symm same)] at fewer
      rw [if_neg same]
      omega
  · exact fun other old => counted.buffers other (mem_of_mem_erase old)

theorem counted_bpin (counted : Counted shared) {index : Fin nbuf}
    (small : shared.references (.buf index) + 1 < 2 ^ 32)
    (taken : shared.access (.bpin index) = some next) : Counted next := by
  have consistent := counted.consistent
  cases taken
  obtain ⟨nodes, ring, all⟩ := consistent.ring
  refine ⟨consistent.congr (fun c => ?_) ⟨nodes, ring.written rfl rfl, all⟩ consistent.named,
    fun i => ?_, counted.buffers⟩
  · exact ⟨setRefcnt_dev _ _ c _, setRefcnt_blockno _ _ c _⟩
  · have old := counted.count i
    dsimp only
    rw [setRefcnt_refcnt]
    simp only [Shared.references, List.count_cons] at old small ⊢
    by_cases same : i = index
    · subst same
      simp only [if_true, beq_self_eq_true]
      rw [toNat_add_one (by omega)]
      omega
    · have apart : Node.buf i ≠ .buf index := fun equal => same (Node.buf.inj equal)
      simp only [apart, Ne.symm apart, beq_eq_false_iff_ne.mpr, if_false, Bool.false_eq_true, ne_eq,
        not_false_eq_true]
      omega

theorem counted_bunpin (counted : Counted shared) {index : Fin nbuf}
    (pinned : .buf index ∈ shared.pins)
    (taken : shared.access (.bunpin index) = some next) : Counted next := by
  have consistent := counted.consistent
  cases taken
  obtain ⟨nodes, ring, all⟩ := consistent.ring
  refine ⟨consistent.congr (fun c => ?_) ⟨nodes, ring.written rfl rfl, all⟩ consistent.named,
    fun i => ?_, counted.buffers⟩
  · exact ⟨setRefcnt_dev _ _ c _, setRefcnt_blockno _ _ c _⟩
  · have old := counted.count i
    dsimp only
    rw [setRefcnt_refcnt]
    simp only [Shared.references] at old ⊢
    by_cases same : i = index
    · subst same
      have some := List.count_pos_iff.mpr pinned
      rw [if_pos rfl, List.count_erase_self]
      have less := toNat_sub_one (show 0 < (shared.mem (.buf i)).refcnt.toNat by omega)
      omega
    · have apart : Node.buf i ≠ .buf index := fun equal => same (Node.buf.inj equal)
      rw [if_neg apart, List.count_erase_of_ne apart]
      exact old

variable {access : Access}

/-- Every step that meets the condition keeps the counts. -/
theorem counted_step (counted : Counted shared) (paired : Paired shared access)
    (taken : shared.access access = some next) : Counted next := by
  obtain ⟨small, pinned⟩ := paired
  cases access with
  | bget proc dev blockno => exact counted_bget counted small taken
  | acquiresleep hold => exact counted_acquiresleep counted taken
  | releasesleep hold => exact counted_releasesleep counted taken
  | brelse hold => exact counted_brelse counted taken
  | bpin index => exact counted_bpin counted (small index) taken
  | bunpin index => exact counted_bunpin counted pinned taken

/-- `bget` counts a reference of the process. It leaves every block where it is, or gives
an unused buffer to a block that had none. -/
theorem bget_effect {proc : Nat} {dev blockno : UInt32} (consistent : Consistent shared)
    (taken : shared.access (.bget proc dev blockno) = some next) :
    next.pins = shared.pins ∧
      ∃ i, next.holds = ⟨proc, .buf i, dev, blockno, .waiting⟩ :: shared.holds ∧
        (SameBlocks shared.mem next.mem ∨
          (shared.mem (.buf i)).refcnt = 0 ∧
          (∀ j, ¬((shared.mem (.buf j)).dev = dev ∧ (shared.mem (.buf j)).blockno = blockno)) ∧
          (next.mem (.buf i)).dev = dev ∧ (next.mem (.buf i)).blockno = blockno ∧
          ∀ b, b ≠ .buf i → next.mem b = shared.mem b) := by
  obtain ⟨nodes, ring, all, enough, member_iff⟩ := consistent.around
  rcases ring.bget_cases enough dev blockno with
    ⟨b, member, -, done⟩ | ⟨missed, ⟨b, member, zero, done⟩ | done⟩
  · simp only [Shared.access, done, Option.some.injEq] at taken
    subst taken
    obtain ⟨i, rfl⟩ := (member_iff b).mp member
    refine ⟨rfl, i, rfl, .inl fun c => ⟨?_, ?_⟩⟩
    · exact setRefcnt_dev _ _ c _
    · exact setRefcnt_blockno _ _ c _
  · simp only [Shared.access, done, Option.some.injEq] at taken
    subst taken
    obtain ⟨i, rfl⟩ := (member_iff b).mp member
    refine ⟨rfl, i, rfl, .inr ⟨zero, fun j => missed _ ((member_iff _).mpr ⟨j, rfl⟩), ?_, ?_, ?_⟩⟩
    · simp
    · simp
    · exact fun c different => update_of_ne different _ _
  · simp [Shared.access, done] at taken

theorem sameBlocks_access (other : ∀ proc dev blockno, access ≠ .bget proc dev blockno)
    (taken : shared.access access = some next) : SameBlocks shared.mem next.mem := by
  cases access with
  | bget proc dev blockno => exact absurd rfl (other proc dev blockno)
  | acquiresleep hold =>
    obtain ⟨-, result⟩ := ite_none_right_eq_some.mp taken
    cases result
    intro c
    by_cases here : c = hold.buf
    · subst here
      simp
    · simp [here]
  | releasesleep hold =>
    obtain ⟨-, result⟩ := ite_none_right_eq_some.mp taken
    cases result
    exact fun _ => ⟨rfl, rfl⟩
  | brelse hold =>
    obtain ⟨-, result⟩ := ite_none_right_eq_some.mp taken
    cases result
    have bufs := brelse_bufs shared.mem hold.buf
    exact fun c =>
      ⟨(bufs c).1.trans (setRefcnt_dev _ _ c _), (bufs c).2.1.trans (setRefcnt_blockno _ _ c _)⟩
  | bpin index =>
    cases taken
    exact fun c => ⟨setRefcnt_dev _ _ c _, setRefcnt_blockno _ _ c _⟩
  | bunpin index =>
    cases taken
    exact fun c => ⟨setRefcnt_dev _ _ c _, setRefcnt_blockno _ _ c _⟩

/-- Only `bget` gives a buffer to another block, and only one without references. -/
theorem renamesUnused_step (consistent : Consistent shared)
    (taken : shared.access access = some next) : RenamesUnused shared next := by
  have kept : SameBlocks shared.mem next.mem → RenamesUnused shared next := by
    rintro same b (renamed | renamed)
    · exact absurd (same b).1 renamed
    · exact absurd (same b).2 renamed
  cases access with
  | bget proc dev blockno =>
    obtain ⟨-, i, -, same | ⟨zero, -, -, -, others⟩⟩ := bget_effect consistent taken
    · exact kept same
    · intro b renamed
      by_cases here : b = .buf i
      · rw [here]
        exact zero
      · simp [others b here] at renamed
  | acquiresleep hold => exact kept (sameBlocks_access (by simp) taken)
  | releasesleep hold => exact kept (sameBlocks_access (by simp) taken)
  | brelse hold => exact kept (sameBlocks_access (by simp) taken)
  | bpin index => exact kept (sameBlocks_access (by simp) taken)
  | bunpin index => exact kept (sameBlocks_access (by simp) taken)

end Steps

/-- In a run whose steps all meet the condition, the counts are those of the references. -/
theorem counted_of_run {accesses : List Access} {shared : Shared}
    (run : (sharedSystem.guarded Paired).Runs accesses shared) : Counted shared := by
  refine run.invariant Counted ?_ ?_
  · rintro shared rfl
    exact counted_start
  · rintro shared access next counted ⟨paired, taken⟩
    exact counted_step counted paired taken

/-- When every `bunpin` drops an outstanding pin and fewer than `2 ^ 32` references to a
buffer are outstanding, no block has two buffers, the ring has each buffer once in both
directions, every holder's buffer has the block that it has asked for, and the next step
gives another block only to a buffer whose count is 0. -/
theorem blocks_kept {accesses : List Access} {shared : Shared}
    (run : (sharedSystem.guarded Paired).Runs accesses shared) :
    Consistent shared ∧
      ∀ access next, shared.access access = some next → RenamesUnused shared next := by
  have consistent := (counted_of_run run).consistent
  exact ⟨consistent, fun _ _ taken => renamesUnused_step consistent taken⟩

/-- Two processes read the same block, and it is pinned and unpinned. -/
def pairedAccesses : List Access :=
  [.bget 1 1 7, .acquiresleep ⟨1, .buf 0, 1, 7, .waiting⟩, .bpin 0, .bget 2 1 7, .bunpin 0,
    .releasesleep ⟨1, .buf 0, 1, 7, .holding⟩, .brelse ⟨1, .buf 0, 1, 7, .leaving⟩]

instance (shared : Shared) (access : Access) : Decidable (Paired shared access) := by
  cases access <;> unfold Paired <;> infer_instance

theorem blocks_kept_paired : ∃ shared,
    (sharedSystem.guarded Paired).Runs pairedAccesses shared ∧ Consistent shared ∧
      ∀ access next, shared.access access = some next → RenamesUnused shared next := by
  have found : (LabelledSystem.exec (LabelledSystem.checked Paired Shared.access) sharedStart
      pairedAccesses).isSome = true := by decide +kernel
  obtain ⟨shared, result⟩ := Option.isSome_iff_exists.mp found
  have run : (sharedSystem.guarded Paired).Runs pairedAccesses shared :=
    .of_checked_exec rfl result
  exact ⟨shared, run, blocks_kept run⟩

/-- A buffer that is held is unpinned without having been pinned, and another process is
given it for another block. -/
def unpairedAccesses : List Access :=
  [.bget 1 1 7, .acquiresleep ⟨1, .buf 0, 1, 7, .waiting⟩, .bunpin 0, .bget 2 1 8]

theorem holder_renamed : ¬ ∀ accesses shared, sharedSystem.Runs accesses shared →
    Consistent shared ∧
      ∀ access next, shared.access access = some next → RenamesUnused shared next := by
  intro claimed
  have found : (LabelledSystem.exec Shared.access sharedStart unpairedAccesses).any (fun shared =>
      decide (∃ hold ∈ shared.holds, (shared.mem hold.buf).blockno ≠ hold.blockno)) = true := by
    decide +kernel
  obtain ⟨shared, result, facts⟩ := (Option.any_eq_true _ _).mp found
  obtain ⟨hold, member, renamed⟩ := of_decide_eq_true facts
  have run : sharedSystem.Runs unpairedAccesses shared := .of_exec rfl result
  exact renamed ((claimed _ shared run).1.named hold member).2

end Ev6.BufferCache
