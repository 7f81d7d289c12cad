import Ev6.BufferCache.Sharing

/-!
# Pins of the log

`log_write` pins a buffer when it adds its block to the log header, and `install_trans`
unpins it. `recover_from_log` runs `install_trans` as well, on a header that has been
read from the disk and whose blocks nobody has pinned.

`commit` and `recover_from_log` are run by one process, as a script of operations. The
writes to the disk are left out, since they change no buffer and no reference.
-/

namespace Ev6.BufferCache

open Option (bind_eq_some_iff ite_none_left_eq_some ite_none_right_eq_some map_eq_some_iff)
open List (countP_cons drop_zero mem_append mem_cons mem_cons_of_mem mem_cons_self mem_map
  mem_singleton nodup_cons nodup_nil)
open Support

/-- `ROOTDEV`, the device of the log and of every inode. -/
def rootdev : UInt32 := 1

/-- What `commit` and `recover_from_log` do. -/
inductive Action where
  | bget (blockno : UInt32)
  | acquiresleep (blockno : UInt32)
  | readHeader
  | bunpin (blockno : UInt32)
  | releasesleep (blockno : UInt32)
  | brelse (blockno : UInt32)
  /-- `log->lh.n = 0`. -/
  | clear
deriving DecidableEq

/-- `bread`. -/
def bread (blockno : UInt32) : List Action := [.bget blockno, .acquiresleep blockno]

/-- `brelse`, with `releasesleep`. -/
def release (blockno : UInt32) : List Action := [.releasesleep blockno, .brelse blockno]

/-- `install_trans`, from log block `lbuf` on. -/
def installTrans : UInt32 → List UInt32 → List Action
  | _, [] => []
  | lbuf, block :: rest =>
    bread lbuf ++ bread block ++ .bunpin block :: release lbuf ++ release block ++
      installTrans (lbuf + 1) rest

/-- `write_log`, from log block `log` on. -/
def writeLog : UInt32 → List UInt32 → List Action
  | _, [] => []
  | log, block :: rest =>
    bread log ++ bread block ++ release block ++ release log ++ writeLog (log + 1) rest

/-- `read_head`. -/
def readHead (start : UInt32) : List Action := bread start ++ .readHeader :: release start

/-- `write_head`. -/
def writeHead (start : UInt32) : List Action := bread start ++ release start

/-- `recover_from_log`, with the blocks of the header on the disk. -/
def recoverFromLog (start : UInt32) (disk : List UInt32) : List Action :=
  readHead start ++ installTrans (start + 1) disk ++ .clear :: writeHead start

/-- `commit`. -/
def commit (start : UInt32) (header : List UInt32) : List Action :=
  if header = [] then []
  else
    writeLog (start + 1) header ++ writeHead start ++ installTrans (start + 1) header ++
      .clear :: writeHead start

/-- The log on the disk: its first block, its size, and the blocks of its header. -/
structure DiskLog where
  start : UInt32
  size : Nat
  header : List UInt32

/-- The buffer cache and `struct log`. `header` holds `lh.block[0]` up to
`lh.block[lh.n - 1]`, `installed` counts those that `install_trans` has unpinned, and
`script` is what the process `runner` has still to do in `commit` or in
`recover_from_log`. -/
structure Logged where
  cache : Shared
  header : List UInt32
  installed : Nat
  outstanding : Nat
  committing : Bool
  booted : Bool
  runner : Nat
  script : List Action

/-- The steps of the processes. -/
inductive Event where
  | bget (proc : Nat) (blockno : UInt32)
  | acquiresleep (hold : Hold)
  | releasesleep (hold : Hold)
  | brelse (hold : Hold)
  | beginOp (proc : Nat)
  | logWrite (hold : Hold)
  | endOp (proc : Nat)
  /-- The next action of `commit` or of `recover_from_log`. -/
  | run
  /-- `commit` or `recover_from_log` returns. -/
  | done
deriving DecidableEq

namespace Shared

/-- The process waits for a sleeplock, or is inside `brelse`. -/
def Busy (shared : Shared) (proc : Nat) : Prop :=
  ∃ hold ∈ shared.holds, hold.proc = proc ∧ hold.stage ≠ .holding

instance (shared : Shared) (proc : Nat) : Decidable (shared.Busy proc) := by
  unfold Busy
  infer_instance

/-- The hold of a process on a block. -/
def own (shared : Shared) (proc : Nat) (blockno : UInt32) (stage : Stage) : Option Hold :=
  shared.holds.find? fun hold =>
    hold.proc = proc ∧ hold.blockno = blockno ∧ hold.stage = stage

end Shared

namespace Logged

/-- The process exists, and runs neither `commit` nor `recover_from_log`. -/
def Free (state : Logged) (proc : Nat) : Prop :=
  proc < nproc ∧ state.booted = true ∧ (state.committing = true → proc ≠ state.runner)

instance (state : Logged) (proc : Nat) : Decidable (state.Free proc) := by
  unfold Free
  infer_instance

/-- One action of the script. -/
def act (disk : DiskLog) (state : Logged) : Action → Option Logged
  | .bget blockno =>
    if state.cache.Busy state.runner then none
    else (state.cache.access (.bget state.runner rootdev blockno)).map fun cache =>
      { state with cache := cache }
  | .acquiresleep blockno =>
    (state.cache.own state.runner blockno .waiting).bind fun hold =>
      (state.cache.access (.acquiresleep hold)).map fun cache => { state with cache := cache }
  | .readHeader => some { state with header := disk.header, installed := 0 }
  | .bunpin blockno =>
    (state.cache.own state.runner blockno .holding).bind fun hold =>
      match hold.buf with
      | .buf index => (state.cache.access (.bunpin index)).map fun cache =>
        { state with cache := cache, installed := state.installed + 1 }
      | _ => none
  | .releasesleep blockno =>
    if state.cache.Busy state.runner then none
    else (state.cache.own state.runner blockno .holding).bind fun hold =>
      (state.cache.access (.releasesleep hold)).map fun cache => { state with cache := cache }
  | .brelse blockno =>
    (state.cache.own state.runner blockno .leaving).bind fun hold =>
      (state.cache.access (.brelse hold)).map fun cache => { state with cache := cache }
  | .clear => some { state with header := [], installed := 0 }

/-- `log_write` of a buffer that the caller holds, from its panics on. -/
def logWrite (disk : DiskLog) (state : Logged) (hold : Hold) : Option Logged :=
  if state.header.length ≥ logsize ∨ state.header.length + 1 ≥ disk.size then none
  else if state.outstanding < 1 then none
  else if hold.blockno ∈ state.header then some state
  else
    match hold.buf with
    | .buf index => (state.cache.access (.bpin index)).map fun cache =>
      { state with cache := cache, header := state.header ++ [hold.blockno] }
    | _ => none

/-- `end_op`, up to `commit`. -/
def endOp (disk : DiskLog) (state : Logged) (proc : Nat) : Option Logged :=
  if state.committing = true then none
  else if state.outstanding - 1 = 0 then
    some { state with
      outstanding := state.outstanding - 1, committing := true, runner := proc,
      script := commit disk.start state.header }
  else some { state with outstanding := state.outstanding - 1 }

/-- One step. -/
def step (disk : DiskLog) (state : Logged) : Event → Option Logged
  | .bget proc blockno =>
    if state.Free proc ∧ ¬state.cache.Busy proc then
      (state.cache.access (.bget proc rootdev blockno)).map fun cache =>
        { state with cache := cache }
    else none
  | .acquiresleep hold =>
    if state.Free hold.proc then
      (state.cache.access (.acquiresleep hold)).map fun cache => { state with cache := cache }
    else none
  | .releasesleep hold =>
    if state.Free hold.proc ∧ ¬state.cache.Busy hold.proc then
      (state.cache.access (.releasesleep hold)).map fun cache => { state with cache := cache }
    else none
  | .brelse hold =>
    if state.Free hold.proc then
      (state.cache.access (.brelse hold)).map fun cache => { state with cache := cache }
    else none
  | .beginOp proc =>
    if state.Free proc ∧ ¬state.cache.Busy proc ∧ state.committing = false ∧
        state.header.length + (state.outstanding + 1) * maxopblocks ≤ logsize then
      some { state with outstanding := state.outstanding + 1 }
    else none
  | .logWrite hold =>
    if state.Free hold.proc ∧ ¬state.cache.Busy hold.proc ∧ hold ∈ state.cache.holds ∧
        hold.stage = .holding then state.logWrite disk hold
    else none
  | .endOp proc =>
    if state.Free proc ∧ ¬state.cache.Busy proc ∧ 0 < state.outstanding then
      state.endOp disk proc
    else none
  | .run =>
    match state.script with
    | [] => none
    | action :: rest => (state.act disk action).map fun next => { next with script := rest }
  | .done =>
    if state.script = [] ∧ (state.committing = true ∨ state.booted = false) then
      some { state with committing := false, booted := true }
    else none

/-- The block of the buffer is pinned by the log header. -/
def Pinned (state : Logged) (b : Node) : Prop :=
  (state.cache.mem b).dev = rootdev ∧
    (state.cache.mem b).blockno ∈ state.header.drop state.installed

instance (state : Logged) (b : Node) : Decidable (state.Pinned b) := by
  unfold Pinned
  infer_instance

end Logged

/-- The first process calls `recover_from_log`. -/
def bootLog (disk : DiskLog) : Logged where
  cache := sharedStart
  header := []
  installed := 0
  outstanding := 0
  committing := false
  booted := false
  runner := 0
  script := recoverFromLog disk.start disk.header

def logSystem (disk : DiskLog) : LabelledSystem Logged Event :=
  .ofFunction (· = bootLog disk) (Logged.step disk)

/-- Each count is that of the holds, and one more if the log header pins the block. -/
def Accounted (state : Logged) : Prop :=
  ∀ i : Fin nbuf, (state.cache.mem (.buf i)).refcnt.toNat =
    state.cache.holds.countP (fun hold => hold.buf = .buf i) +
      (if state.Pinned (.buf i) then 1 else 0)

instance (state : Logged) : Decidable (Accounted state) := by
  unfold Accounted
  infer_instance

/-- The step decrements no count that is 0. -/
def NoUnderflow (state next : Logged) : Prop :=
  ∀ i : Fin nbuf, (state.cache.mem (.buf i)).refcnt = 0 →
    (next.cache.mem (.buf i)).refcnt = 0 ∨ (next.cache.mem (.buf i)).refcnt = 1

/-! ## Every process is in one place -/

/-- At most one process has each sleeplock, each process waits for one buffer or releases
one, and all of it happens on the device of the log. -/
structure Disciplined (holds : List Hold) : Prop where
  locked : ∀ b, holds.countP (fun hold => hold.buf = b ∧ hold.stage = .holding) ≤ 1
  busy : ((holds.filter fun hold => hold.stage ≠ .holding).map Hold.proc).Nodup
  procs : ∀ hold ∈ holds, hold.proc < nproc
  devs : ∀ hold ∈ holds, hold.dev = rootdev

section Disciplined

variable {holds others : List Hold} {hold : Hold}

theorem Disciplined.perm (disciplined : Disciplined holds) (same : holds.Perm others) :
    Disciplined others where
  locked b := by
    rw [← same.countP_eq]
    exact disciplined.locked b
  busy := ((same.filter _).map _).nodup_iff.mp disciplined.busy
  procs hold member := disciplined.procs hold (same.mem_iff.mpr member)
  devs hold member := disciplined.devs hold (same.mem_iff.mpr member)

theorem Disciplined.tail (disciplined : Disciplined (hold :: holds)) : Disciplined holds where
  locked b := (List.sublist_cons_self hold holds).countP_le.trans (disciplined.locked b)
  busy := disciplined.busy.sublist (((List.sublist_cons_self hold holds).filter _).map _)
  procs other member := disciplined.procs other (mem_cons_of_mem hold member)
  devs other member := disciplined.devs other (mem_cons_of_mem hold member)

/-- A process that is not busy waits for a buffer, or begins to release one. -/
theorem Disciplined.cons (disciplined : Disciplined holds) (other : hold.stage ≠ .holding)
    (proc : hold.proc < nproc) (dev : hold.dev = rootdev)
    (idle : ∀ other ∈ holds, other.proc = hold.proc → other.stage = .holding) :
    Disciplined (hold :: holds) where
  locked b := by
    rw [List.countP_cons_of_neg (by simp [other])]
    exact disciplined.locked b
  busy := by
    rw [List.filter_cons_of_pos (by simpa using other), List.map_cons]
    refine nodup_cons.mpr ⟨fun inside => ?_, disciplined.busy⟩
    obtain ⟨busy, member, same⟩ := mem_map.mp inside
    obtain ⟨member, notHolding⟩ := List.mem_filter.mp member
    exact absurd (idle busy member same) (by simpa using notHolding)
  procs other member := by
    rcases mem_cons.mp member with rfl | old
    · exact proc
    · exact disciplined.procs other old
  devs other member := by
    rcases mem_cons.mp member with rfl | old
    · exact dev
    · exact disciplined.devs other old

theorem Disciplined.lock (disciplined : Disciplined (hold :: holds))
    (free : ∀ other ∈ holds, other.buf = hold.buf → other.stage ≠ .holding) :
    Disciplined ({ hold with stage := .holding } :: holds) where
  locked b := by
    have rest := disciplined.tail.locked b
    by_cases same : hold.buf = b
    · have none : holds.countP (fun hold => hold.buf = b ∧ hold.stage = .holding) = 0 := by
        refine List.countP_eq_zero.mpr fun other member holding => ?_
        obtain ⟨buf, stage⟩ := of_decide_eq_true holding
        exact free other member (buf.trans same.symm) stage
      rw [countP_cons, none]
      simp [same]
    · rw [List.countP_cons_of_neg (by simp [same])]
      exact rest
  busy := by
    rw [List.filter_cons_of_neg (by simp)]
    exact disciplined.tail.busy
  procs other member := by
    rcases mem_cons.mp member with rfl | old
    · exact disciplined.procs hold mem_cons_self
    · exact disciplined.procs other (mem_cons_of_mem hold old)
  devs other member := by
    rcases mem_cons.mp member with rfl | old
    · exact disciplined.devs hold mem_cons_self
    · exact disciplined.devs other (mem_cons_of_mem hold old)

/-- One process has the sleeplock of a buffer, and the others wait for it or have just
released it. -/
theorem Disciplined.few (disciplined : Disciplined holds) (b : Node) :
    holds.countP (fun hold => hold.buf = b) ≤ nproc + 1 := by
  have split : holds.countP (fun hold => hold.buf = b) ≤
      holds.countP (fun hold => hold.buf = b ∧ hold.stage = .holding) +
        (holds.filter fun hold => hold.stage ≠ .holding).length := by
    rw [← List.countP_eq_length_filter]
    clear disciplined
    induction holds with
    | nil => simp
    | cons hold holds ih =>
      simp only [countP_cons, ne_eq] at ih ⊢
      by_cases same : hold.buf = b
      · by_cases holding : hold.stage = .holding
        · simp only [same, holding, decide_true, and_self, not_true_eq_false, decide_false,
            if_true, Bool.false_eq_true, if_false]
          omega
        · simp only [same, holding, decide_true, and_false, not_false_eq_true, decide_false,
            if_true, Bool.false_eq_true, if_false]
          omega
      · simp only [same, decide_false, Bool.false_eq_true, if_false]
        omega
  have most : (holds.filter fun hold => hold.stage ≠ .holding).length ≤ nproc := by
    have below : (holds.filter fun hold => hold.stage ≠ .holding).map Hold.proc ⊆
        List.range nproc := by
      intro proc member
      obtain ⟨hold, inside, rfl⟩ := mem_map.mp member
      exact List.mem_range.mpr (disciplined.procs hold (List.mem_of_mem_filter inside))
    have short := (List.subperm_of_subset disciplined.busy below).length_le
    rwa [List.length_map, List.length_range] at short
  have one := disciplined.locked b
  omega

end Disciplined

/-! ## Pins and the log header -/

/-- The pins are those of the pending blocks of the log header, each of which has a
buffer. -/
structure PinsKept (cache : Shared) (pending : List UInt32) : Prop where
  counted : Counted cache
  disciplined : Disciplined cache.holds
  once : cache.pins.Nodup
  buffers : ∀ b ∈ cache.pins, ∃ i, b = .buf i
  pinned : ∀ i : Fin nbuf, .buf i ∈ cache.pins ↔
    (cache.mem (.buf i)).dev = rootdev ∧ (cache.mem (.buf i)).blockno ∈ pending
  present : ∀ block ∈ pending, ∃ i : Fin nbuf,
    (cache.mem (.buf i)).dev = rootdev ∧ (cache.mem (.buf i)).blockno = block

section PinsKept

variable {cache next : Shared} {pending : List UInt32}

/-- Far fewer references than the field of the count can hold. -/
theorem PinsKept.small (kept : PinsKept cache pending) (b : Node) :
    cache.references b + 1 < 2 ^ 32 := by
  have holds := kept.disciplined.few b
  have pin := List.nodup_iff_count_le_one.mp kept.once b
  have procs : nproc = 64 := rfl
  rw [Shared.references]
  omega

/-- A step that leaves every block where it is and no pin taken or dropped. -/
theorem PinsKept.congr (kept : PinsKept cache pending) (counted : Counted next)
    (disciplined : Disciplined next.holds) (pins : next.pins = cache.pins)
    (same : SameBlocks cache.mem next.mem) : PinsKept next pending where
  counted := counted
  disciplined := disciplined
  once := pins ▸ kept.once
  buffers := pins ▸ kept.buffers
  pinned i := by
    rw [pins, (same _).1, (same _).2]
    exact kept.pinned i
  present block member := by
    obtain ⟨i, dev, blockno⟩ := kept.present block member
    exact ⟨i, (same _).1.trans dev, (same _).2.trans blockno⟩

/-- `bget` never gives a pinned buffer to another block. -/
theorem PinsKept.bget (kept : PinsKept cache pending) {proc : Nat} {blockno : UInt32}
    (exists_ : proc < nproc) (idle : ¬cache.Busy proc)
    (taken : cache.access (.bget proc rootdev blockno) = some next) : PinsKept next pending := by
  have counted := counted_bget kept.counted (fun i => kept.small _) taken
  obtain ⟨pins, i, holds, effect⟩ := bget_effect kept.counted.consistent taken
  have disciplined : Disciplined next.holds := by
    rw [holds]
    refine kept.disciplined.cons (by simp) exists_ rfl fun other member same => ?_
    by_contra busy
    exact idle ⟨other, member, same, busy⟩
  rcases effect with same | ⟨zero, missed, dev, block, others⟩
  · exact kept.congr counted disciplined pins same
  · have unpinned : Node.buf i ∉ cache.pins := by
      intro inside
      have some := List.count_pos_iff.mpr inside
      have none := kept.counted.count i
      rw [zero, Shared.references] at none
      have zero : (0 : UInt32).toNat = 0 := rfl
      omega
    have apart : ∀ {j}, j ≠ i → Node.buf j ≠ .buf i := fun different equal =>
      different (Node.buf.inj equal)
    refine ⟨counted, disciplined, pins ▸ kept.once, pins ▸ kept.buffers, fun j => ?_, ?_⟩
    · rw [pins]
      by_cases here : j = i
      · subst here
        refine iff_of_false unpinned fun both => ?_
        rw [block] at both
        obtain ⟨k, sameDev, sameBlock⟩ := kept.present blockno both.2
        exact missed k ⟨sameDev, sameBlock⟩
      · rw [others _ (apart here)]
        exact kept.pinned j
    · intro pendingBlock member
      obtain ⟨j, sameDev, sameBlock⟩ := kept.present pendingBlock member
      have different : j ≠ i := by
        rintro rfl
        exact unpinned ((kept.pinned j).mpr ⟨sameDev, sameBlock ▸ member⟩)
      refine ⟨j, ?_⟩
      rw [others _ (apart different)]
      exact ⟨sameDev, sameBlock⟩

theorem PinsKept.acquiresleep (kept : PinsKept cache pending) {hold : Hold}
    (taken : cache.access (.acquiresleep hold) = some next) : PinsKept next pending := by
  have counted := counted_acquiresleep kept.counted taken
  have same := sameBlocks_access (by simp) taken
  obtain ⟨⟨member, waiting, free⟩, result⟩ := ite_none_right_eq_some.mp taken
  cases result
  refine kept.congr counted ?_ rfl same
  refine (kept.disciplined.perm (List.perm_cons_erase member)).lock fun other inside buf => ?_
  exact fun holding => free ⟨other, List.mem_of_mem_erase inside, buf, holding⟩

theorem PinsKept.releasesleep (kept : PinsKept cache pending) {hold : Hold}
    (idle : ¬cache.Busy hold.proc)
    (taken : cache.access (.releasesleep hold) = some next) : PinsKept next pending := by
  have counted := counted_releasesleep kept.counted taken
  have same := sameBlocks_access (by simp) taken
  obtain ⟨⟨member, -⟩, result⟩ := ite_none_right_eq_some.mp taken
  cases result
  refine kept.congr counted ?_ rfl same
  have rest := (kept.disciplined.perm (List.perm_cons_erase member)).tail
  refine rest.cons (by simp) (kept.disciplined.procs hold member)
    (kept.disciplined.devs hold member) fun other inside same => ?_
  by_contra busy
  exact idle ⟨other, List.mem_of_mem_erase inside, same, busy⟩

theorem PinsKept.brelse (kept : PinsKept cache pending) {hold : Hold}
    (taken : cache.access (.brelse hold) = some next) : PinsKept next pending := by
  have counted := counted_brelse kept.counted taken
  have same := sameBlocks_access (by simp) taken
  obtain ⟨⟨member, -⟩, result⟩ := ite_none_right_eq_some.mp taken
  cases result
  exact kept.congr counted (kept.disciplined.perm (List.perm_cons_erase member)).tail rfl same

theorem PinsKept.unique (kept : PinsKept cache pending) {i j : Fin nbuf}
    (left : (cache.mem (.buf i)).dev = rootdev) (right : (cache.mem (.buf j)).dev = rootdev)
    (same : (cache.mem (.buf i)).blockno = (cache.mem (.buf j)).blockno) : i = j := by
  refine kept.counted.consistent.single i j ?_ (left.trans right.symm) same
  rw [left]
  decide

/-- `bunpin` of the first pending block drops its pin. -/
theorem PinsKept.bunpin {block : UInt32} (kept : PinsKept cache (block :: pending))
    (fresh : block ∉ pending) {index : Fin nbuf} (dev : (cache.mem (.buf index)).dev = rootdev)
    (blockno : (cache.mem (.buf index)).blockno = block)
    (taken : cache.access (.bunpin index) = some next) : PinsKept next pending := by
  have here : Node.buf index ∈ cache.pins :=
    (kept.pinned index).mpr ⟨dev, blockno ▸ mem_cons_self⟩
  have counted := counted_bunpin kept.counted here taken
  have same := sameBlocks_access (by simp) taken
  cases taken
  refine ⟨counted, kept.disciplined, kept.once.erase _,
    fun b member => kept.buffers b (List.mem_of_mem_erase member), fun i => ?_, fun other member => ?_⟩
  · rw [(same _).1, (same _).2, kept.once.mem_erase_iff, kept.pinned i]
    constructor
    · rintro ⟨different, onDev, inside⟩
      refine ⟨onDev, (mem_cons.mp inside).resolve_left fun hit => different ?_⟩
      rw [kept.unique onDev dev (hit.trans blockno.symm)]
    · rintro ⟨onDev, inside⟩
      refine ⟨fun hit => fresh ?_, onDev, mem_cons_of_mem block inside⟩
      rwa [← blockno, ← Node.buf.inj hit]
  · obtain ⟨i, onDev, hit⟩ := kept.present other (mem_cons_of_mem block member)
    exact ⟨i, (same _).1.trans onDev, (same _).2.trans hit⟩

/-- `bpin` in `log_write` pins a block that the header did not have. -/
theorem PinsKept.bpin (kept : PinsKept cache pending) {index : Fin nbuf} {block : UInt32}
    (fresh : block ∉ pending) (dev : (cache.mem (.buf index)).dev = rootdev)
    (blockno : (cache.mem (.buf index)).blockno = block)
    (taken : cache.access (.bpin index) = some next) : PinsKept next (pending ++ [block]) := by
  have absent : Node.buf index ∉ cache.pins := fun inside =>
    fresh (blockno ▸ ((kept.pinned index).mp inside).2)
  have counted := counted_bpin kept.counted (kept.small _) taken
  have same := sameBlocks_access (by simp) taken
  cases taken
  refine ⟨counted, kept.disciplined, nodup_cons.mpr ⟨absent, kept.once⟩, ?_,
    fun i => ?_, ?_⟩
  · intro b member
    rcases mem_cons.mp member with rfl | old
    · exact ⟨index, rfl⟩
    · exact kept.buffers b old
  · rw [(same _).1, (same _).2, mem_cons, kept.pinned i, mem_append,
      mem_singleton]
    constructor
    · rintro (hit | ⟨onDev, inside⟩)
      · rw [Node.buf.inj hit]
        exact ⟨dev, .inr blockno⟩
      · exact ⟨onDev, .inl inside⟩
    · rintro ⟨onDev, inside | hit⟩
      · exact .inr ⟨onDev, inside⟩
      · rw [kept.unique onDev dev (hit.trans blockno.symm)]
        exact .inl rfl
  · intro other member
    rcases mem_append.mp member with old | new
    · obtain ⟨i, onDev, hit⟩ := kept.present other old
      exact ⟨i, (same _).1.trans onDev, (same _).2.trans hit⟩
    · rw [mem_singleton.mp new]
      exact ⟨index, (same _).1.trans dev, (same _).2.trans blockno⟩

end PinsKept

/-! ## The script of `commit` and `recover_from_log` -/

/-- The block that an action unpins. -/
def Action.unpinned : Action → Option UInt32
  | .bunpin blockno => some blockno
  | _ => none

/-- The blocks that a script unpins. -/
def unpins (script : List Action) : List UInt32 := script.filterMap Action.unpinned

/-- What follows the first `log->lh.n = 0` of a script, and that itself. -/
def fromClear (script : List Action) : List Action := script.dropWhile (· ≠ .clear)

@[simp] theorem unpins_append (first second : List Action) :
    unpins (first ++ second) = unpins first ++ unpins second := List.filterMap_append

@[simp] theorem unpins_bread (blockno : UInt32) : unpins (bread blockno) = [] := rfl

@[simp] theorem unpins_release (blockno : UInt32) : unpins (release blockno) = [] := rfl

theorem unpins_cons_of_none {action : Action} (other : action.unpinned = none)
    (script : List Action) : unpins (action :: script) = unpins script :=
  List.filterMap_cons_none other

theorem unpins_bunpin (blockno : UInt32) (script : List Action) :
    unpins (.bunpin blockno :: script) = blockno :: unpins script := rfl

@[simp] theorem unpins_writeHead (start : UInt32) : unpins (writeHead start) = [] := rfl

/-- `install_trans` unpins the blocks of the header in their order. -/
theorem unpins_installTrans (lbuf : UInt32) (header : List UInt32) :
    unpins (installTrans lbuf header) = header := by
  induction header generalizing lbuf with
  | nil => rfl
  | cons block rest ih =>
    simp only [installTrans, unpins_append, unpins_bread, unpins_release, unpins_bunpin,
      List.cons_append, List.nil_append, ih]

theorem unpins_writeLog (log : UInt32) (header : List UInt32) :
    unpins (writeLog log header) = [] := by
  induction header generalizing log with
  | nil => rfl
  | cons block rest ih => simp [writeLog, ih]

/-- The action neither clears the header in memory nor reads it from the disk. -/
def Action.plain : Action → Bool
  | .clear => false
  | .readHeader => false
  | _ => true

theorem plain_installTrans (lbuf : UInt32) (header : List UInt32) :
    (installTrans lbuf header).all Action.plain = true := by
  induction header generalizing lbuf with
  | nil => rfl
  | cons block rest ih => simp [installTrans, bread, release, Action.plain, ih]

theorem plain_writeLog (log : UInt32) (header : List UInt32) :
    (writeLog log header).all Action.plain = true := by
  induction header generalizing log with
  | nil => rfl
  | cons block rest ih => simp [writeLog, bread, release, Action.plain, ih]

/-- What the script does from the first `log->lh.n = 0` on. -/
theorem fromClear_append {front : List Action} (plain : front.all Action.plain = true)
    (back : List Action) : fromClear (front ++ .clear :: back) = .clear :: back := by
  have passed : ∀ action ∈ front, decide (action ≠ .clear) = true := by
    intro action member
    have holds := List.all_eq_true.mp plain action member
    refine decide_eq_true ?_
    rintro rfl
    cases holds
  rw [fromClear, List.dropWhile_append_of_pos passed]
  rfl

theorem fromClear_cons {action : Action} (other : action ≠ .clear) (script : List Action) :
    fromClear (action :: script) = fromClear script :=
  List.dropWhile_cons_of_pos (decide_eq_true other)

theorem unpins_commit (start : UInt32) (header : List UInt32) :
    unpins (commit start header) = header := by
  unfold commit
  split
  · next empty =>
     rw [empty]
     rfl
  · rw [unpins_append, unpins_append, unpins_append, unpins_writeLog, unpins_installTrans,
      unpins_cons_of_none rfl, unpins_writeHead, List.append_nil]
    rfl

/-- `commit` does not read the header from the disk, and unpins nothing after it has
cleared it. -/
theorem commit_cleared (start : UInt32) (header : List UInt32) :
    unpins (fromClear (commit start header)) = [] ∧ .readHeader ∉ commit start header ∧
      (.clear ∉ commit start header → header = []) := by
  unfold commit
  split
  · next empty => exact ⟨rfl, List.not_mem_nil, fun _ => empty⟩
  · have plain : (writeLog (start + 1) header ++ writeHead start ++
        installTrans (start + 1) header).all Action.plain = true := by
      rw [List.all_append, List.all_append, plain_writeLog, plain_installTrans]
      rfl
    refine ⟨?_, ?_, fun absent => ?_⟩
    · rw [fromClear_append plain]
      rfl
    · intro inside
      rcases mem_append.mp inside with before | behind
      · exact absurd (List.all_eq_true.mp plain _ before) (by decide)
      · simp [writeHead, bread, release] at behind
    · simp at absent

/-! ## Runs -/

/-- What a run on a log that was empty at boot keeps. -/
structure Ordered (state : Logged) : Prop where
  kept : PinsKept state.cache (state.header.drop state.installed)
  once : state.header.Nodup
  runner : state.runner < nproc
  outstanding : state.committing = true → state.outstanding = 0
  quiet : state.committing = false → state.booted = true → state.script = []
  unpinned : state.committing = true ∨ state.booted = false →
    unpins state.script = state.header.drop state.installed
  cleared : unpins (fromClear state.script) = []
  unread : .readHeader ∈ state.script → state.header = []
  reset : .clear ∉ state.script → state.installed = 0 ∧ unpins state.script = []

theorem ordered_boot {disk : DiskLog} (empty : disk.header = []) : Ordered (bootLog disk) where
  kept :=
    { counted := counted_start
      disciplined :=
        { locked := fun _ => Nat.zero_le 1
          busy := nodup_nil
          procs := List.forall_mem_nil _
          devs := List.forall_mem_nil _ }
      once := nodup_nil
      buffers := List.forall_mem_nil _
      pinned := by simp [bootLog, sharedStart]
      present := by simp [bootLog] }
  once := nodup_nil
  runner := Nat.lt_of_sub_eq_succ rfl
  outstanding _ := rfl
  quiet := by simp [bootLog]
  unpinned _ := by
    change unpins (recoverFromLog disk.start disk.header) = _
    rw [empty]
    rfl
  cleared := by
    change unpins (fromClear (recoverFromLog disk.start disk.header)) = _
    rw [empty]
    rfl
  unread _ := rfl
  reset _ := by
    change _ ∧ unpins (recoverFromLog disk.start disk.header) = _
    rw [empty]
    exact ⟨rfl, rfl⟩

section Steps

variable {disk : DiskLog} {state next : Logged}

theorem Ordered.withCache (ordered : Ordered state) {cache : Shared}
    (kept : PinsKept cache (state.header.drop state.installed)) :
    Ordered { state with cache := cache } :=
  { ordered with kept := kept }

/-- The next action of a script that neither unpins nor clears nor reads the header. -/
theorem Ordered.advance (ordered : Ordered state) {action : Action} {rest : List Action}
    (script : state.script = action :: rest) (other : action.unpinned = none)
    (plain : action.plain = true) : Ordered { state with script := rest } := by
  obtain ⟨kept, once, runner, outstanding, quiet, unpinned, cleared, unread, reset⟩ := ordered
  rw [script] at unpinned cleared unread reset
  have notClear : action ≠ .clear := by
    rintro rfl
    cases plain
  rw [unpins_cons_of_none other] at unpinned reset
  refine ⟨kept, once, runner, outstanding, fun idle booted => ?_, unpinned, ?_,
    fun inside => unread (mem_cons_of_mem action inside), fun absent => reset ?_⟩
  · have none := quiet idle booted
    rw [script] at none
    cases none
  · rwa [fromClear_cons notClear] at cleared
  · simpa [Ne.symm notClear] using absent

/-- The hold that an action of the script is about. -/
theorem mem_of_own {shared : Shared} {proc : Nat} {blockno : UInt32} {stage : Stage} {hold : Hold}
    (own : shared.own proc blockno stage = some hold) :
    hold ∈ shared.holds ∧ hold.proc = proc ∧ hold.blockno = blockno ∧ hold.stage = stage := by
  have found := List.find?_some own
  exact ⟨List.mem_of_find?_eq_some own, of_decide_eq_true found⟩

/-- A script is run in `commit` or in `recover_from_log`. -/
theorem Ordered.running (ordered : Ordered state) {action : Action} {rest : List Action}
    (script : state.script = action :: rest) :
    state.committing = true ∨ state.booted = false := by
  by_contra neither
  obtain ⟨idle, booted⟩ := not_or.mp neither
  have none := ordered.quiet (by simpa using idle) (by simpa using booted)
  rw [script] at none
  cases none

/-- `bunpin` in `install_trans` unpins the next block of the header. -/
theorem ordered_bunpin (ordered : Ordered state) {blockno : UInt32} {rest : List Action}
    (script : state.script = .bunpin blockno :: rest)
    (did : state.act disk (.bunpin blockno) = some next) :
    Ordered { next with script := rest } := by
  have running := ordered.running script
  have kept := ordered.kept
  obtain ⟨hold, own, result⟩ := bind_eq_some_iff.mp did
  obtain ⟨member, -, block, -⟩ := mem_of_own own
  obtain ⟨index, place⟩ := kept.counted.buffers hold member
  rw [place] at result
  obtain ⟨cache, accessed, rfl⟩ := map_eq_some_iff.mp result
  obtain ⟨dev, named⟩ := kept.counted.consistent.named hold member
  rw [place] at dev named
  have onDev := dev.trans (kept.disciplined.devs hold member)
  obtain ⟨-, once, runner, outstanding, quiet, unpinned, cleared, unread, reset⟩ := ordered
  have pending := unpinned running
  rw [script, unpins_bunpin] at pending
  have later : state.header.drop (state.installed + 1) = unpins rest := by
    rw [← List.tail_drop, ← pending]
    rfl
  have distinct := once.sublist (List.drop_sublist state.installed state.header)
  rw [← pending] at kept distinct
  rw [script] at cleared unread reset
  refine ⟨?_, once, runner, outstanding, fun idle booted => ?_, fun _ => later.symm, ?_,
    fun inside => unread (mem_cons_of_mem _ inside), fun absent => ?_⟩
  · dsimp only
    rw [later]
    exact kept.bunpin (nodup_cons.mp distinct).1 onDev (named.trans block) accessed
  · have none := quiet idle booted
    rw [script] at none
    cases none
  · rwa [fromClear_cons (by simp)] at cleared
  · -- the header is cleared after the last block has been unpinned
    have nothing := (reset (by simpa using absent)).2
    rw [unpins_bunpin] at nothing
    cases nothing

/-- The header is cleared when all of its blocks have been unpinned. -/
theorem ordered_clear (ordered : Ordered state) {rest : List Action}
    (script : state.script = .clear :: rest) :
    Ordered { state with header := [], installed := 0, script := rest } := by
  have running := ordered.running script
  obtain ⟨kept, -, runner, outstanding, quiet, unpinned, cleared, -, -⟩ := ordered
  rw [script] at unpinned cleared
  have nothing : unpins rest = [] := cleared
  have pending : state.header.drop state.installed = [] := by
    rw [← unpinned running]
    exact nothing
  rw [pending] at kept
  refine ⟨kept, nodup_nil, runner, outstanding, fun idle booted => ?_, fun _ => nothing, ?_,
    fun _ => rfl, fun _ => ⟨rfl, nothing⟩⟩
  · have none := quiet idle booted
    rw [script] at none
    cases none
  · have shorter : (unpins (fromClear rest)).Sublist (unpins rest) :=
      (List.dropWhile_sublist _).filterMap _
    rw [nothing] at shorter
    exact List.sublist_nil.mp shorter

/-- At boot the header is read from the disk, and empty. -/
theorem ordered_readHeader (empty : disk.header = []) (ordered : Ordered state)
    {rest : List Action} (script : state.script = .readHeader :: rest) :
    Ordered { state with header := disk.header, installed := 0, script := rest } := by
  have none := ordered.unread (by simp [script])
  obtain ⟨kept, once, runner, outstanding, quiet, unpinned, cleared, unread, reset⟩ := ordered
  rw [script] at unpinned cleared reset
  rw [none, List.drop_nil] at kept unpinned
  rw [empty]
  refine ⟨kept, nodup_nil, runner, outstanding, fun idle booted => ?_, unpinned, ?_,
    fun _ => rfl, fun absent => ⟨rfl, (reset (by simpa using absent)).2⟩⟩
  · have none := quiet idle booted
    rw [script] at none
    cases none
  · rwa [fromClear_cons (by simp)] at cleared

theorem ordered_run (empty : disk.header = []) (ordered : Ordered state)
    (taken : state.step disk .run = some next) : Ordered next := by
  cases script : state.script with
  | nil => simp [Logged.step, script] at taken
  | cons action rest =>
    simp only [Logged.step, script] at taken
    obtain ⟨acted, did, rfl⟩ := map_eq_some_iff.mp taken
    have kept := ordered.kept
    cases action with
    | bget blockno =>
      obtain ⟨idle, result⟩ := ite_none_left_eq_some.mp did
      obtain ⟨cache, accessed, rfl⟩ := map_eq_some_iff.mp result
      exact (ordered.advance script rfl rfl).withCache (kept.bget ordered.runner idle accessed)
    | acquiresleep blockno =>
      obtain ⟨hold, own, result⟩ := bind_eq_some_iff.mp did
      obtain ⟨cache, accessed, rfl⟩ := map_eq_some_iff.mp result
      exact (ordered.advance script rfl rfl).withCache (kept.acquiresleep accessed)
    | releasesleep blockno =>
      obtain ⟨idle, result⟩ := ite_none_left_eq_some.mp did
      obtain ⟨hold, own, result⟩ := bind_eq_some_iff.mp result
      obtain ⟨cache, accessed, rfl⟩ := map_eq_some_iff.mp result
      obtain ⟨-, proc, -, -⟩ := mem_of_own own
      exact (ordered.advance script rfl rfl).withCache
        (kept.releasesleep (proc.symm ▸ idle) accessed)
    | brelse blockno =>
      obtain ⟨hold, own, result⟩ := bind_eq_some_iff.mp did
      obtain ⟨cache, accessed, rfl⟩ := map_eq_some_iff.mp result
      exact (ordered.advance script rfl rfl).withCache (kept.brelse accessed)
    | bunpin blockno => exact ordered_bunpin ordered script did
    | readHeader =>
      cases did
      exact ordered_readHeader empty ordered script
    | clear =>
      cases did
      exact ordered_clear ordered script

theorem ordered_logWrite (ordered : Ordered state) {hold : Hold}
    (taken : state.step disk (.logWrite hold) = some next) : Ordered next := by
  obtain ⟨⟨⟨-, booted, -⟩, -, member, -⟩, result⟩ := ite_none_right_eq_some.mp taken
  obtain ⟨-, result⟩ := ite_none_left_eq_some.mp result
  obtain ⟨operating, result⟩ := ite_none_left_eq_some.mp result
  have idle : state.committing = false := by
    by_contra committing
    have none := ordered.outstanding (by simpa using committing)
    omega
  split at result
  · cases result
    exact ordered
  · next fresh =>
    obtain ⟨kept, once, runner, outstanding, quiet, unpinned, cleared, unread, reset⟩ := ordered
    obtain ⟨index, place⟩ := kept.counted.buffers hold member
    rw [place] at result
    obtain ⟨cache, accessed, rfl⟩ := map_eq_some_iff.mp result
    obtain ⟨dev, named⟩ := kept.counted.consistent.named hold member
    rw [place] at dev named
    have script := quiet idle booted
    have start := (reset (by simp [script])).1
    have onDev := dev.trans (kept.disciplined.devs hold member)
    rw [start, drop_zero] at kept
    refine ⟨?_, ?_, runner, outstanding, quiet, fun running => ?_, cleared, ?_, reset⟩
    · dsimp only
      rw [start, drop_zero]
      exact kept.bpin fresh onDev named accessed
    · exact List.nodup_append.mpr ⟨once, List.nodup_singleton _, fun block inside other single same =>
        fresh (by rwa [← mem_singleton.mp single, ← same])⟩
    · rcases running with committing | booting
      · rw [idle] at committing
        cases committing
      · rw [booted] at booting
        cases booting
    · intro inside
      simp [script] at inside

theorem ordered_endOp (ordered : Ordered state) {proc : Nat}
    (taken : state.step disk (.endOp proc) = some next) : Ordered next := by
  obtain ⟨⟨⟨inside, booted, -⟩, -, some⟩, result⟩ := ite_none_right_eq_some.mp taken
  obtain ⟨kept, once, runner, outstanding, quiet, unpinned, cleared, unread, reset⟩ := ordered
  obtain ⟨notCommitting, result⟩ := ite_none_left_eq_some.mp result
  have idle : state.committing = false := by simpa using notCommitting
  have script := quiet idle booted
  have start := (reset (by simp [script])).1
  split at result
  · next last =>
    cases result
    obtain ⟨cleared, unread, header⟩ := commit_cleared disk.start state.header
    refine ⟨kept, once, inside, fun _ => last, fun idle => ?_, fun _ => ?_, cleared, ?_, ?_⟩
    · cases idle
    · dsimp only
      rw [unpins_commit, start, drop_zero]
    · exact fun reads => absurd reads unread
    · intro absent
      refine ⟨start, ?_⟩
      dsimp only
      rw [unpins_commit]
      exact header absent
  · cases result
    refine ⟨kept, once, runner, fun committing => ?_, quiet, unpinned, cleared, unread, reset⟩
    rw [idle] at committing
    cases committing

theorem ordered_step (empty : disk.header = []) {event : Event} (ordered : Ordered state)
    (taken : state.step disk event = some next) : Ordered next := by
  have kept := ordered.kept
  cases event with
  | bget proc blockno =>
    obtain ⟨⟨free, idle⟩, result⟩ := ite_none_right_eq_some.mp taken
    obtain ⟨cache, accessed, rfl⟩ := map_eq_some_iff.mp result
    exact ordered.withCache (kept.bget free.1 idle accessed)
  | acquiresleep hold =>
    obtain ⟨free, result⟩ := ite_none_right_eq_some.mp taken
    obtain ⟨cache, accessed, rfl⟩ := map_eq_some_iff.mp result
    exact ordered.withCache (kept.acquiresleep accessed)
  | releasesleep hold =>
    obtain ⟨⟨free, idle⟩, result⟩ := ite_none_right_eq_some.mp taken
    obtain ⟨cache, accessed, rfl⟩ := map_eq_some_iff.mp result
    exact ordered.withCache (kept.releasesleep idle accessed)
  | brelse hold =>
    obtain ⟨free, result⟩ := ite_none_right_eq_some.mp taken
    obtain ⟨cache, accessed, rfl⟩ := map_eq_some_iff.mp result
    exact ordered.withCache (kept.brelse accessed)
  | beginOp proc =>
    obtain ⟨⟨-, -, idle, -⟩, result⟩ := ite_none_right_eq_some.mp taken
    cases result
    refine { ordered with outstanding := fun committing => ?_ }
    rw [idle] at committing
    cases committing
  | logWrite hold => exact ordered_logWrite ordered taken
  | endOp proc => exact ordered_endOp ordered taken
  | run => exact ordered_run empty ordered taken
  | done =>
    obtain ⟨⟨script, -⟩, result⟩ := ite_none_right_eq_some.mp taken
    cases result
    obtain ⟨-, once, runner, -, -, -, cleared, unread, reset⟩ := ordered
    refine ⟨kept, once, runner, fun committing => ?_, fun _ _ => script, fun running => ?_,
      cleared, unread, reset⟩
    · cases committing
    · rcases running with committing | booting
      · cases committing
      · cases booting

end Steps

/-! ## Counts -/

/-- The pins are those of the log header, so that the counts are as they should be. -/
theorem Ordered.accounted {state : Logged} (ordered : Ordered state) : Accounted state := by
  intro i
  have kept := ordered.kept
  rw [kept.counted.count i, Shared.references, kept.once.count]
  exact congrArg _ (if_congr (kept.pinned i) rfl rfl)

/-- A step takes at most one reference to a buffer. -/
theorem references_access {shared next : Shared} {access : Access} {b : Node}
    (consistent : Consistent shared) (taken : shared.access access = some next) :
    next.references b ≤ shared.references b + 1 := by
  cases access with
  | bget proc dev blockno =>
    obtain ⟨pins, i, holds, -⟩ := bget_effect consistent taken
    rw [Shared.references, Shared.references, pins, holds, countP_cons]
    split <;> omega
  | acquiresleep hold =>
    obtain ⟨⟨member, -⟩, result⟩ := ite_none_right_eq_some.mp taken
    cases result
    have same := references_moveTo member .holding b
    exact (Nat.le_of_eq same).trans (Nat.le_succ _)
  | releasesleep hold =>
    obtain ⟨⟨member, -⟩, result⟩ := ite_none_right_eq_some.mp taken
    cases result
    have same := references_moveTo member .leaving b
    exact (Nat.le_of_eq same).trans (Nat.le_succ _)
  | brelse hold =>
    obtain ⟨⟨member, -⟩, result⟩ := ite_none_right_eq_some.mp taken
    cases result
    have fewer := references_erase member (BufferCache.brelse shared.mem hold.buf) b
    omega
  | bpin index =>
    cases taken
    simp only [Shared.references, List.count_cons]
    split <;> omega
  | bunpin index =>
    cases taken
    have fewer : (shared.pins.erase (.buf index)).count b ≤ shared.pins.count b :=
      List.erase_sublist.count_le b
    simp only [Shared.references]
    omega

theorem access_of_map {cache : Shared} {access : Access} {make : Shared → Logged} {next : Logged}
    (same : ∀ cache, (make cache).cache = cache)
    (result : (cache.access access).map make = some next) :
    ∃ access, cache.access access = some next.cache := by
  obtain ⟨after, accessed, rfl⟩ := map_eq_some_iff.mp result
  exact ⟨access, by rw [same, accessed]⟩

/-- An action is at most one step on the buffer cache. -/
theorem act_access {disk : DiskLog} {state next : Logged} {action : Action}
    (did : state.act disk action = some next) :
    next.cache = state.cache ∨ ∃ access, state.cache.access access = some next.cache := by
  cases action with
  | bget blockno =>
    obtain ⟨-, result⟩ := ite_none_left_eq_some.mp did
    exact .inr (access_of_map (fun _ => rfl) result)
  | acquiresleep blockno =>
    obtain ⟨hold, -, result⟩ := bind_eq_some_iff.mp did
    exact .inr (access_of_map (fun _ => rfl) result)
  | releasesleep blockno =>
    obtain ⟨-, result⟩ := ite_none_left_eq_some.mp did
    obtain ⟨hold, -, result⟩ := bind_eq_some_iff.mp result
    exact .inr (access_of_map (fun _ => rfl) result)
  | brelse blockno =>
    obtain ⟨hold, -, result⟩ := bind_eq_some_iff.mp did
    exact .inr (access_of_map (fun _ => rfl) result)
  | bunpin blockno =>
    obtain ⟨hold, -, result⟩ := bind_eq_some_iff.mp did
    split at result
    · exact .inr (access_of_map (fun _ => rfl) result)
    · cases result
  | readHeader =>
    cases did
    exact .inl rfl
  | clear =>
    cases did
    exact .inl rfl

/-- A step of the system is at most one step on the buffer cache. -/
theorem step_access {disk : DiskLog} {state next : Logged} {event : Event}
    (taken : state.step disk event = some next) :
    next.cache = state.cache ∨ ∃ access, state.cache.access access = some next.cache := by
  cases event with
  | bget proc blockno =>
    obtain ⟨-, result⟩ := ite_none_right_eq_some.mp taken
    exact .inr (access_of_map (fun _ => rfl) result)
  | acquiresleep hold =>
    obtain ⟨-, result⟩ := ite_none_right_eq_some.mp taken
    exact .inr (access_of_map (fun _ => rfl) result)
  | releasesleep hold =>
    obtain ⟨-, result⟩ := ite_none_right_eq_some.mp taken
    exact .inr (access_of_map (fun _ => rfl) result)
  | brelse hold =>
    obtain ⟨-, result⟩ := ite_none_right_eq_some.mp taken
    exact .inr (access_of_map (fun _ => rfl) result)
  | beginOp proc =>
    obtain ⟨-, result⟩ := ite_none_right_eq_some.mp taken
    cases result
    exact .inl rfl
  | logWrite hold =>
    obtain ⟨-, result⟩ := ite_none_right_eq_some.mp taken
    obtain ⟨-, result⟩ := ite_none_left_eq_some.mp result
    obtain ⟨-, result⟩ := ite_none_left_eq_some.mp result
    split at result
    · cases result
      exact .inl rfl
    · split at result
      · exact .inr (access_of_map (fun _ => rfl) result)
      · cases result
  | endOp proc =>
    obtain ⟨-, result⟩ := ite_none_right_eq_some.mp taken
    obtain ⟨-, result⟩ := ite_none_left_eq_some.mp result
    split at result
    all_goals
      cases result
      exact .inl rfl
  | done =>
    obtain ⟨-, result⟩ := ite_none_right_eq_some.mp taken
    cases result
    exact .inl rfl
  | run =>
    cases script : state.script with
    | nil => simp [Logged.step, script] at taken
    | cons action rest =>
      simp only [Logged.step, script] at taken
      obtain ⟨acted, did, rfl⟩ := map_eq_some_iff.mp taken
      have accessed := act_access did
      exact accessed

/-- A count that is 0 is not decremented, when both states count right. -/
theorem noUnderflow_of_counted {state next : Logged} (before : Counted state.cache)
    (after : Counted next.cache)
    (accessed : next.cache = state.cache ∨ ∃ access, state.cache.access access = some next.cache) :
    NoUnderflow state next := by
  intro i zero
  have some : next.cache.references (.buf i) ≤ state.cache.references (.buf i) + 1 := by
    rcases accessed with same | ⟨access, taken⟩
    · rw [same]
      exact Nat.le_succ _
    · exact references_access before.consistent taken
  rw [← before.count i, ← after.count i, zero] at some
  have one : (next.cache.mem (.buf i)).refcnt.toNat ≤ 1 := some
  rcases Nat.le_one_iff_eq_zero_or_eq_one.mp one with none | single
  · exact .inl (UInt32.toNat_inj.mp none)
  · exact .inr (UInt32.toNat_inj.mp single)

/-- In every run from a boot whose log header on the disk is empty, each count is that of
the holds, and one more if the log header pins the block, and the next step decrements
no count that is 0. -/
theorem counts_of_empty_log {disk : DiskLog} (empty : disk.header = []) {events : List Event}
    {state : Logged} (run : (logSystem disk).Runs events state) :
    Accounted state ∧
      ∀ event next, state.step disk event = some next → NoUnderflow state next := by
  have ordered : Ordered state := by
    refine run.invariant Ordered ?_ ?_
    · rintro state rfl
      exact ordered_boot empty
    · exact fun state event next ordered taken => ordered_step empty ordered taken
  refine ⟨ordered.accounted, fun event next taken => ?_⟩
  exact noUnderflow_of_counted ordered.kept.counted (ordered_step empty ordered taken).kept.counted
    (step_access taken)

/-- The log is empty at boot, a block is written in an operation, and it is committed. -/
def committed : List Event :=
  List.replicate 10 .run ++ [.done, .beginOp 3, .bget 3 46,
    .acquiresleep ⟨3, .buf 1, 1, 46, .waiting⟩, .logWrite ⟨3, .buf 1, 1, 46, .holding⟩,
    .releasesleep ⟨3, .buf 1, 1, 46, .holding⟩, .brelse ⟨3, .buf 1, 1, 46, .leaving⟩, .endOp 3] ++
    List.replicate 26 .run

theorem counts_of_empty_log_committed : ∃ state,
    (logSystem ⟨2, 30, []⟩).Runs committed state ∧ Accounted state ∧
      ∀ event next, state.step ⟨2, 30, []⟩ event = some next → NoUnderflow state next := by
  have found : (LabelledSystem.exec (Logged.step ⟨2, 30, []⟩) (bootLog ⟨2, 30, []⟩)
      committed).isSome = true := by decide +kernel
  obtain ⟨state, result⟩ := Option.isSome_iff_exists.mp found
  have run : (logSystem ⟨2, 30, []⟩).Runs committed state := .of_exec rfl result
  exact ⟨state, run, counts_of_empty_log rfl run⟩

/-- A log with one committed block. -/
def oneBlock : DiskLog := ⟨2, 30, [46]⟩

/-- The log is replayed. -/
def replayed : List Event := List.replicate 19 .run ++ [.done]

theorem replay_underflows : ¬ ∀ disk events state, (logSystem disk).Runs events state →
    Accounted state ∧
      ∀ event next, state.step disk event = some next → NoUnderflow state next := by
  intro claimed
  have found : (LabelledSystem.exec (Logged.step oneBlock) (bootLog oneBlock)
      replayed).any (fun state => decide (¬Accounted state)) = true := by
    decide +kernel
  obtain ⟨state, result, facts⟩ := (Option.any_eq_true _ _).mp found
  have run : (logSystem oneBlock).Runs replayed state := .of_exec rfl result
  exact of_decide_eq_true facts (claimed _ _ state run).1

end Ev6.BufferCache
