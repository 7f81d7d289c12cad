import Ev6.RecoveryLocking.Basic
import Ev6.Support.LabelledSystem
import Mathlib.Data.Multiset.AddSub
import Mathlib.Data.Multiset.Filter

/-!
# The section history of a process

`rcs_infos` records the sections a process is inside in an array of
`rcsInfoHistorySize` slots. The record is exact as long as an entry finds an
empty slot and an exit names a recorded flag or leaves an empty slot: `Fits`
states this, and `history_of_fitting_run` proves the record and its use by
`exit_recovery_critical_section_all` along every run whose steps all meet it.
`history_overflows` is a run of the kernel's own nesting that does not.
-/

namespace Ev6.RecoveryLocking

open Option (map_eq_some_iff)
open Support

/-! ## Histories without holes -/

/-- The live flags in front, the empty slots behind. -/
def pad (live : List Nat) : List Nat :=
  live ++ List.replicate (rcsInfoHistorySize - live.length) 0

/-- Flags that a history array can hold. -/
structure Live (live : List Nat) : Prop where
  flags : ∀ flag ∈ live, flag ≠ 0
  fits : live.length ≤ rcsInfoHistorySize

theorem Live.nil : Live [] := ⟨by simp, by simp⟩

variable {after before : List Nat} {flag : Nat}

theorem Live.remove (live : Live (before ++ flag :: after)) : Live (before ++ after) where
  flags := fun other member => live.flags other (by
    rcases List.mem_append.mp member with left | right
    · exact List.mem_append_left _ left
    · exact List.mem_append_right _ (List.mem_cons_of_mem _ right))
  fits := by
    have fits := live.fits
    simp only [List.length_append, List.length_cons] at fits ⊢
    omega

@[simp] theorem pad_nil : pad [] = emptyHistory := rfl

variable {live : List Nat}

/-- An empty slot is left exactly when the live flags do not fill the array. -/
theorem zero_mem_pad (valid : Live live) : 0 ∈ pad live ↔ live.length < rcsInfoHistorySize := by
  have noZero : 0 ∉ live := fun member => valid.flags 0 member rfl
  simp [pad, noZero, List.mem_replicate, Nat.sub_ne_zero_iff_lt]

/-- Apart from empty slots, the array holds exactly the live flags. -/
theorem mem_pad (nonzero : flag ≠ 0) : flag ∈ pad live ↔ flag ∈ live := by
  simp [pad, List.mem_replicate, nonzero]

/-- Dropping the empty slots of a padded array gives the live flags back. -/
theorem filter_pad (valid : Live live) : (pad live).filter (· ≠ 0) = live := by
  have kept : live.filter (· ≠ 0) = live :=
    List.filter_eq_self.mpr fun flag member => by simpa using valid.flags flag member
  simp only [pad, List.filter_append, kept]
  simp

theorem addHistory_append {rest : List Nat} (nonzero : ∀ slot ∈ live, slot ≠ 0) :
    addHistory flag (live ++ rest) = live ++ addHistory flag rest := by
  induction live with
  | nil => rfl
  | cons slot live ih =>
    have filled : slot ≠ 0 := nonzero slot List.mem_cons_self
    have tail := ih fun other member => nonzero other (List.mem_cons_of_mem _ member)
    simp [addHistory, filled, tail]

/-- `add_rcs_history` appends at the first free slot. -/
theorem addHistory_pad (valid : Live live) (flag : Nat) (room : live.length < rcsInfoHistorySize) :
    addHistory flag (pad live) = pad (live ++ [flag]) := by
  obtain ⟨free, spare⟩ : ∃ free, rcsInfoHistorySize - live.length = free + 1 :=
    ⟨rcsInfoHistorySize - live.length - 1, by omega⟩
  have left : rcsInfoHistorySize - (live ++ [flag]).length = free := by
    simp only [List.length_append, List.length_singleton]
    omega
  rw [pad, pad, addHistory_append valid.flags, left, spare, List.replicate_succ]
  simp [addHistory]

theorem clearLast_append (flag : Nat) (front back : List Nat) :
    clearLast flag (front ++ back) =
      match clearLast flag back with
      | some cleared => some (front ++ cleared)
      | none => (clearLast flag front).map (· ++ back) := by
  induction front with
  | nil =>
    cases found : clearLast flag back with
    | none => simp [found, clearLast]
    | some cleared => simp [found]
  | cons slot front ih =>
    cases found : clearLast flag back with
    | some cleared => simp [clearLast, ih, found]
    | none =>
      cases inFront : clearLast flag front with
      | some cleared => simp [clearLast, ih, found, inFront]
      | none => by_cases same : slot = flag <;> simp [clearLast, ih, found, inFront, same]

/-- The downward scan finds nothing when the flag is not there. -/
theorem clearLast_eq_none {slots : List Nat} (absent : flag ∉ slots) :
    clearLast flag slots = none := by
  induction slots with
  | nil => rfl
  | cons slot rest ih =>
    obtain ⟨other, behind⟩ : flag ≠ slot ∧ flag ∉ rest := by simpa using absent
    simp [clearLast, ih behind, Ne.symm other]

/-- The downward scan empties the last occurrence of the flag. -/
theorem clearLast_last (last : flag ∉ after) :
    clearLast flag (before ++ flag :: after) = some (before ++ 0 :: after) := by
  rw [clearLast_append]
  simp [clearLast, clearLast_eq_none last]

theorem compactFrom_filled {slot : Nat} (filled : slot ≠ 0)
    (nonzero : ∀ flag ∈ live, flag ≠ 0) (hole : Nat) (rest : List Nat) :
    compactFrom slot (live ++ hole :: rest) = slot :: live ++ compactFrom hole rest := by
  induction live generalizing slot with
  | nil => simp [compactFrom, filled]
  | cons next live ih =>
    have nextFilled : next ≠ 0 := nonzero next List.mem_cons_self
    have tail := ih nextFilled fun flag member => nonzero flag (List.mem_cons_of_mem _ member)
    simp [compactFrom, filled, tail]

/-- The hole moves behind the live flags that follow it. -/
theorem compactFrom_hole (nonzero : ∀ flag ∈ live, flag ≠ 0) (spare : Nat) :
    compactFrom 0 (live ++ List.replicate spare 0) = live ++ List.replicate (spare + 1) 0 := by
  induction live with
  | nil => cases spare <;> simp [compactFrom, List.replicate_succ]
  | cons next live ih =>
    have filled : next ≠ 0 := nonzero next List.mem_cons_self
    have tail := ih fun flag member => nonzero flag (List.mem_cons_of_mem _ member)
    simp [compactFrom, filled, tail]

/-- The compaction loop closes the hole that the exit left. -/
theorem compact_hole (nonzero : ∀ flag ∈ before ++ after, flag ≠ 0) (spare : Nat) :
    compact (before ++ 0 :: (after ++ List.replicate spare 0)) =
      before ++ after ++ List.replicate (spare + 1) 0 := by
  have behind : ∀ flag ∈ after, flag ≠ 0 := fun flag member =>
    nonzero flag (List.mem_append_right _ member)
  have closed := compactFrom_hole behind spare
  cases before with
  | nil => simpa [compact] using closed
  | cons slot before =>
    have filled : slot ≠ 0 := nonzero slot (by simp)
    have front : ∀ flag ∈ before, flag ≠ 0 := fun flag member =>
      nonzero flag (by simp [member])
    have moved := compactFrom_filled filled front 0 (after ++ List.replicate spare 0)
    simp [compact, moved, closed]

/-- The compaction loop leaves a history without holes alone, as long as it has
an empty slot. -/
theorem compact_pad (valid : Live live)
    (room : live.length < rcsInfoHistorySize) : compact (pad live) = pad live := by
  obtain ⟨spare, free⟩ : ∃ spare, rcsInfoHistorySize - live.length = spare + 1 :=
    ⟨rcsInfoHistorySize - live.length - 1, by omega⟩
  have nonzero : ∀ flag ∈ live ++ [], flag ≠ 0 := by simpa using valid.flags
  have closed := compact_hole nonzero spare
  rw [pad, free]
  simpa [List.replicate_succ] using closed

/-- `del_rcs_history` removes the last occurrence of a recorded flag. -/
theorem delHistory_pad (valid : Live (before ++ flag :: after)) (last : flag ∉ after) :
    delHistory flag (pad (before ++ flag :: after)) = pad (before ++ after) := by
  have nonzero : flag ≠ 0 := valid.flags flag (by simp)
  have fits := valid.fits
  simp only [List.length_append, List.length_cons] at fits
  have kept : ∀ other ∈ before ++ after, other ≠ 0 := valid.remove.flags
  have found : clearLast flag (pad (before ++ flag :: after)) = some (before ++ 0 ::
      (after ++ List.replicate (rcsInfoHistorySize - (before ++ flag :: after).length) 0)) := by
    rw [pad, List.append_assoc, List.cons_append]
    exact clearLast_last (by simp [last, List.mem_replicate, nonzero])
  have spare : rcsInfoHistorySize - (before ++ flag :: after).length + 1 =
      rcsInfoHistorySize - (before ++ after).length := by
    simp only [List.length_append, List.length_cons]
    omega
  rw [delHistory, found, Option.getD_some, compact_hole kept, spare, pad]

/-- `del_rcs_history` changes nothing for a flag that is not recorded, when an
empty slot is left. -/
theorem delHistory_absent (valid : Live live)
    (nonzero : flag ≠ 0) (absent : flag ∉ live) (room : live.length < rcsInfoHistorySize) :
    delHistory flag (pad live) = pad live := by
  have missing : flag ∉ pad live := fun member => absent ((mem_pad nonzero).mp member)
  rw [delHistory, clearLast_eq_none missing, Option.getD_none, compact_pad valid room]

/-! ## Runs of section calls -/

/-- Process identifiers and section flags are numbered from one; zero marks an
unused slot. -/
abbrev Numbered := { number : Nat // number ≠ 0 }

/-- The calls that touch the section history, by any number of processes. -/
inductive RcsCall where
  | alloc
  | free (pid : Numbered)
  | enter (pid flag : Numbered) (exception : Nat)
  | exit (pid flag : Numbered) (exception : Nat)
  | exitAll (pid : Numbered)
  | acquire (pid flag : Numbered)
  | release (pid flag : Numbered)

/-- A completed call; `none` is a panic or a process that waits. -/
def rcsStep (state : RcsState) : RcsCall → Option RcsState
  | .alloc => some (allocRcs state)
  | .free pid => some (freeRcsHistory state pid)
  | .enter pid flag exception => enterRecoveryCriticalSection state pid flag exception
  | .exit pid flag exception => exitRecoveryCriticalSection state pid flag exception
  | .exitAll pid => exitRecoveryCriticalSectionAll state pid
  | .acquire pid flag => acquireRecoveryLock state pid flag
  | .release pid flag => releaseRecoveryLock state pid flag

/-- The state after `init_recovery_locks`, with no process yet. -/
def bootState : RcsState where
  rcsInfos _ := .unused
  recoveryLocks _ := ⟨0, 0, none⟩
  nextpid := 1

/-- The section calls as a transition system. -/
def rcsSystem : LabelledSystem RcsState RcsCall :=
  .ofFunction (· = bootState) rcsStep

/-- The effect of a call on the sections each process is inside. -/
def insideAfter (inside : Nat → Multiset Nat) : RcsCall → Nat → Multiset Nat
  | .enter pid flag _ => Function.update inside pid (flag.val ::ₘ inside pid)
  | .exit pid flag _ => Function.update inside pid ((inside pid).erase flag)
  | .free pid | .exitAll pid => Function.update inside pid 0
  | .alloc | .acquire _ _ | .release _ _ => inside

/-- The flags each process has entered and not yet exited. -/
def inside (events : List RcsCall) : Nat → Multiset Nat :=
  events.foldl insideAfter fun _ => 0

@[simp] theorem inside_snoc (events : List RcsCall) (call : RcsCall) :
    inside (events ++ [call]) = insideAfter (inside events) call := by
  simp [inside]

/-- The history array of a process, if it has one. -/
def RcsState.history (state : RcsState) (pid : Nat) : List Nat :=
  match state.slotOf pid with
  | some index => (state.rcsInfos index).historyIdx
  | none => []

/-- The non-zero entries of a history array. -/
def recorded (slots : List Nat) : Multiset Nat := ↑(slots.filter (· ≠ 0))

/-- The condition under which the history stays exact: an entry finds an empty
slot, and an exit names a recorded flag or leaves an empty slot. -/
def Fits (state : RcsState) : RcsCall → Prop
  | .enter pid _ _ => 0 ∈ state.history pid
  | .exit pid flag _ => flag.val ∈ state.history pid ∨ 0 ∈ state.history pid
  | _ => True

instance (state : RcsState) (call : RcsCall) : Decidable (Fits state call) := by
  cases call <;> unfold Fits <;> infer_instance

/-! ## The invariant -/

/-- Each slot of `rcs_infos` holds the sections of its process without holes,
and no two slots belong to one process. -/
structure Tracks (inside : Nat → Multiset Nat) (infos : Nat → ProcRcsInfo) (nextpid : Nat) :
    Prop where
  exact : ∀ index, ∃ live, Live live ∧ (infos index).historyIdx = pad live ∧
    (live : Multiset Nat) = inside (infos index).pid
  unique : ∀ first second, (infos first).pid = (infos second).pid →
    (infos first).pid ≠ 0 → first = second
  below : ∀ index, (infos index).pid < nextpid
  absent : ∀ pid, (∀ index < nproc, (infos index).pid ≠ pid) → inside pid = 0
  unused : inside 0 = 0

variable {nextpid pid : Nat} {infos : Nat → ProcRcsInfo}

theorem Tracks.fresh {inside : Nat → Multiset Nat}
    (tracks : Tracks inside infos nextpid) (high : nextpid ≤ pid) : inside pid = 0 :=
  tracks.absent pid fun index _ => by
    have low := tracks.below index
    omega

theorem tracks_boot : Tracks (inside []) bootState.rcsInfos bootState.nextpid where
  exact _ := ⟨[], .nil, rfl, rfl⟩
  unique _ _ _ used := absurd rfl used
  below _ := Nat.zero_lt_one
  absent _ _ := rfl
  unused := rfl

variable {index : Nat}

theorem update_pid {info : ProcRcsInfo} (same : info.pid = (infos index).pid) (slot : Nat) :
    (Function.update infos index info slot).pid = (infos slot).pid := by
  by_cases here : slot = index
  · subst here
    simpa using same
  · simp [here]

/-- Replacing the history of one process by one that holds its new sections
keeps the invariant. -/
theorem Tracks.update {inside after : Nat → Multiset Nat} {info : ProcRcsInfo}
    (tracks : Tracks inside infos nextpid) (range : index < nproc) (process : (infos index).pid ≠ 0)
    (others : ∀ pid, pid ≠ (infos index).pid → after pid = inside pid)
    (same : info.pid = (infos index).pid) (valid : Live live)
    (slots : info.historyIdx = pad live) (sections : (live : Multiset Nat) = after info.pid) :
    Tracks after (Function.update infos index info) nextpid where
  exact := by
    intro slot
    by_cases here : slot = index
    · subst here
      exact ⟨live, valid, by simpa using slots, by simpa using sections⟩
    · obtain ⟨old, oldValid, oldSlots, oldSections⟩ := tracks.exact slot
      refine ⟨old, oldValid, by simpa [here] using oldSlots, ?_⟩
      have different : (infos slot).pid ≠ (infos index).pid := by
        intro equal
        exact here (tracks.unique slot index equal (equal ▸ process))
      simpa [here, others _ different] using oldSections
  unique := by
    intro first second equal used
    rw [update_pid same, update_pid same] at equal
    rw [update_pid same] at used
    exact tracks.unique first second equal used
  below := by
    intro slot
    rw [update_pid same]
    exact tracks.below slot
  absent := by
    intro pid none
    simp only [update_pid same] at none
    rw [others pid (Ne.symm (none index range))]
    exact tracks.absent pid none
  unused := by
    rw [others 0 (Ne.symm process)]
    exact tracks.unused

/-- Giving an unused slot to the next process keeps the invariant. -/
theorem Tracks.claim {inside : Nat → Multiset Nat} (tracks : Tracks inside infos nextpid)
    (free : (infos index).pid = 0) :
    Tracks inside (Function.update infos index { infos index with pid := nextpid })
      (nextpid + 1) where
  exact := by
    intro slot
    obtain ⟨live, valid, slots, sections⟩ := tracks.exact slot
    by_cases here : slot = index
    · subst here
      refine ⟨live, valid, by simpa using slots, ?_⟩
      rw [sections, free, tracks.unused]
      simpa using (tracks.fresh le_rfl).symm
    · exact ⟨live, valid, by simpa [here] using slots, by simpa [here] using sections⟩
  unique := by
    intro first second equal used
    have firstLow := tracks.below first
    have secondLow := tracks.below second
    by_cases atFirst : first = index <;> by_cases atSecond : second = index
    · rw [atFirst, atSecond]
    · simp only [atFirst, Function.update_self, Function.update_of_ne atSecond] at equal
      omega
    · simp only [atSecond, Function.update_self, Function.update_of_ne atFirst] at equal
      omega
    · simp only [Function.update_of_ne atFirst, Function.update_of_ne atSecond] at equal used
      exact tracks.unique first second equal used
  below := by
    intro slot
    have low := tracks.below slot
    by_cases here : slot = index
    · subst here
      simp
    · simp only [Function.update_of_ne here]
      omega
  absent := by
    intro pid none
    by_cases zero : pid = 0
    · rw [zero]
      exact tracks.unused
    · refine tracks.absent pid fun slot inRange => ?_
      by_cases here : slot = index
      · rw [here, free]
        exact Ne.symm zero
      · simpa [here] using none slot inRange
  unused := tracks.unused

theorem Tracks.discard {inside : Nat → Multiset Nat} (tracks : Tracks inside infos nextpid) :
    Tracks (Function.update inside (infos index).pid 0)
      (Function.update infos index .unused) nextpid where
  exact := by
    intro slot
    by_cases here : slot = index
    · subst here
      refine ⟨[], .nil, by simp [ProcRcsInfo.unused], ?_⟩
      by_cases free : (infos slot).pid = 0
      · simp [ProcRcsInfo.unused, free]
      · simp [ProcRcsInfo.unused, Ne.symm free, tracks.unused]
    · obtain ⟨live, valid, slots, sections⟩ := tracks.exact slot
      refine ⟨live, valid, by simpa [here] using slots, ?_⟩
      by_cases equal : (infos slot).pid = (infos index).pid
      · by_cases free : (infos slot).pid = 0
        · simp [here, ← equal, free, sections, tracks.unused]
        · exact absurd (tracks.unique slot index equal free) here
      · simpa [here, equal] using sections
  unique := by
    intro first second equal used
    by_cases atFirst : first = index
    · simp [atFirst, ProcRcsInfo.unused] at used
    · by_cases atSecond : second = index
      · simp only [atSecond, Function.update_self, Function.update_of_ne atFirst] at equal used
        exact absurd equal used
      · simp only [Function.update_of_ne atFirst, Function.update_of_ne atSecond] at equal used
        exact tracks.unique first second equal used
  below := by
    intro slot
    have low := tracks.below slot
    by_cases here : slot = index
    · simp only [here, Function.update_self, ProcRcsInfo.unused]
      omega
    · simpa [here] using low
  absent := by
    intro pid none
    by_cases freed : pid = (infos index).pid
    · simp [freed]
    · rw [Function.update_of_ne freed]
      refine tracks.absent pid fun slot inRange => ?_
      by_cases here : slot = index
      · rw [here]
        exact Ne.symm freed
      · simpa [here] using none slot inRange
  unused := by
    by_cases free : (infos index).pid = 0
    · simp [free]
    · simpa [Ne.symm free] using tracks.unused

/-! ## What a completed call does to `rcs_infos` -/

variable {state : RcsState}

theorem slotOf_lt (found : state.slotOf pid = some index) : index < nproc :=
  (firstSlot_eq_some.mp found).1

/-- The slot that a scan finds belongs to the process it looks for. -/
theorem slotOf_pid (found : state.slotOf pid = some index) : (state.rcsInfos index).pid = pid := by
  simpa using (firstSlot_eq_some.mp found).2.1

theorem history_eq (found : state.slotOf pid = some index) :
    state.history pid = (state.rcsInfos index).historyIdx := by
  simp [RcsState.history, found]

variable {exception : Nat} {next : RcsState}

/-- A completed entry records the flag in the slot of the process. -/
theorem enter_effect (taken : enterRecoveryCriticalSection state pid flag exception = some next) :
    ∃ index, state.slotOf pid = some index ∧ next.nextpid = state.nextpid ∧ next.rcsInfos =
        Function.update state.rcsInfos index ((state.rcsInfos index).add flag) := by
  unfold enterRecoveryCriticalSection at taken
  by_cases range : rlFlagMax < flag
  · simp [range] at taken
  cases lock : (state.recoveryLocks flag).lock with
  | none =>
    simp only [range, lock, if_false, addRcsHistory, map_eq_some_iff] at taken
    obtain ⟨index, found, rfl⟩ := taken
    exact ⟨index, found, rfl, rfl⟩
  | some holder =>
    simp only [range, lock, if_false] at taken
    by_cases own : holder = pid
    · simp only [own, if_true, addRcsHistory, map_eq_some_iff] at taken
      obtain ⟨index, found, rfl⟩ := taken
      exact ⟨index, found, rfl, rfl⟩
    · simp [own] at taken

/-- A completed exit removes the flag from the slot of the process. -/
theorem exit_effect (taken : exitRecoveryCriticalSection state pid flag exception = some next) :
    ∃ index, state.slotOf pid = some index ∧ next.nextpid = state.nextpid ∧ next.rcsInfos =
        Function.update state.rcsInfos index ((state.rcsInfos index).del flag) := by
  unfold exitRecoveryCriticalSection at taken
  by_cases range : rlFlagMax < flag
  · simp [range] at taken
  simp only [range, if_false, delRcsHistory, map_eq_some_iff] at taken
  obtain ⟨index, found, rfl⟩ := taken
  exact ⟨index, found, rfl, rfl⟩

/-- A completed `exit_recovery_critical_section_all` empties the slot. -/
theorem exitAll_effect (taken : exitRecoveryCriticalSectionAll state pid = some next) :
    ∃ index, state.slotOf pid = some index ∧ next.nextpid = state.nextpid ∧
      next.rcsInfos = Function.update state.rcsInfos index (state.rcsInfos index).clear := by
  obtain ⟨index, found, rfl⟩ := map_eq_some_iff.mp taken
  exact ⟨index, found, rfl, rfl⟩

/-- The recovery locks are not part of the history. -/
theorem acquire_effect (taken : acquireRecoveryLock state pid flag = some next) :
    next.rcsInfos = state.rcsInfos ∧ next.nextpid = state.nextpid := by
  unfold acquireRecoveryLock at taken
  by_cases range : rlFlagMax < flag
  · simp [range] at taken
  cases lock : (state.recoveryLocks flag).lock with
  | some holder => simp [range, lock] at taken
  | none =>
    simp only [range, lock, if_false, Option.some.injEq] at taken
    subst taken
    exact ⟨rfl, rfl⟩

theorem release_effect (taken : releaseRecoveryLock state pid flag = some next) :
    next.rcsInfos = state.rcsInfos ∧ next.nextpid = state.nextpid := by
  unfold releaseRecoveryLock at taken
  by_cases range : rlFlagMax < flag
  · simp [range] at taken
  by_cases own : (state.recoveryLocks flag).lock = some pid
  · simp only [range, own, if_false, if_true, Option.some.injEq] at taken
    subst taken
    exact ⟨rfl, rfl⟩
  · simp [range, own] at taken

/-! ## Every fitting run keeps the record exact -/

theorem tracks_enter {inside : Nat → Multiset Nat} {pid flag : Numbered}
    (tracks : Tracks inside state.rcsInfos state.nextpid) (room : 0 ∈ state.history pid)
    (taken : enterRecoveryCriticalSection state pid flag exception = some next) :
    Tracks (Function.update inside pid (flag.val ::ₘ inside pid)) next.rcsInfos next.nextpid := by
  obtain ⟨index, found, samePid, infos⟩ := enter_effect taken
  have owner := slotOf_pid found
  obtain ⟨live, valid, slots, sections⟩ := tracks.exact index
  have short : live.length < rcsInfoHistorySize := by
    rwa [history_eq found, slots, zero_mem_pad valid] at room
  have longer : Live (live ++ [flag.val]) := by
    refine ⟨fun other member => ?_, by simpa using Nat.succ_le_of_lt short⟩
    rcases List.mem_append.mp member with old | new
    · exact valid.flags other old
    · rw [List.mem_singleton.mp new]
      exact flag.property
  rw [infos, samePid]
  refine tracks.update (slotOf_lt found) (owner ▸ pid.property) ?_ rfl longer ?_ ?_
  · intro other different
    rw [owner] at different
    simp [different]
  · simp [ProcRcsInfo.add, slots, addHistory_pad valid flag.val short]
  · have entered : ((live ++ [flag.val] : List Nat) : Multiset Nat) =
        flag.val ::ₘ (live : Multiset Nat) := by
      rw [Multiset.cons_coe, Multiset.coe_eq_coe]
      exact List.perm_append_singleton flag.val live
    simp [ProcRcsInfo.add, owner, entered, sections]

/-- A list splits at the last occurrence of a member. -/
theorem exists_last (member : flag ∈ live) :
    ∃ before after, live = before ++ flag :: after ∧ flag ∉ after := by
  obtain ⟨after, before, reversed, first⟩ :=
    List.eq_append_cons_of_mem (List.mem_reverse.mpr member)
  refine ⟨before.reverse, after.reverse, ?_, by simpa using first⟩
  have restored := congrArg List.reverse reversed
  simpa using restored

theorem tracks_exit {inside : Nat → Multiset Nat} {pid flag : Numbered}
    (tracks : Tracks inside state.rcsInfos state.nextpid)
    (room : flag.val ∈ state.history pid ∨ 0 ∈ state.history pid)
    (taken : exitRecoveryCriticalSection state pid flag exception = some next) :
    Tracks (Function.update inside pid ((inside pid).erase flag)) next.rcsInfos next.nextpid := by
  obtain ⟨index, found, samePid, infos⟩ := exit_effect taken
  have owner := slotOf_pid found
  obtain ⟨live, valid, slots, sections⟩ := tracks.exact index
  rw [history_eq found, slots, mem_pad flag.property, zero_mem_pad valid] at room
  rw [owner] at sections
  have others : ∀ other, other ≠ (state.rcsInfos index).pid →
      Function.update inside pid ((inside pid).erase flag) other = inside other := by
    intro other different
    rw [owner] at different
    simp [different]
  rw [infos, samePid]
  by_cases member : flag.val ∈ live
  · -- The last occurrence goes; as a multiset that is any occurrence.
    obtain ⟨before, after, rfl, last⟩ := exists_last member
    refine tracks.update (slotOf_lt found) (owner ▸ pid.property) others rfl valid.remove ?_ ?_
    · simp [ProcRcsInfo.del, slots, delHistory_pad valid last]
    · have removed : (before ++ flag.val :: after).Perm (flag.val :: (before ++ after)) :=
        List.perm_middle
      simp [ProcRcsInfo.del, owner, ← sections, Multiset.coe_eq_coe.mpr removed]
  · have short := room.resolve_left member
    refine tracks.update (slotOf_lt found) (owner ▸ pid.property) others rfl valid ?_ ?_
    · simp [ProcRcsInfo.del, slots, delHistory_absent valid flag.property member short]
    · simp [ProcRcsInfo.del, owner, ← sections, List.erase_of_not_mem member]

theorem tracks_exitAll {inside : Nat → Multiset Nat} {pid : Numbered}
    (tracks : Tracks inside state.rcsInfos state.nextpid)
    (taken : exitRecoveryCriticalSectionAll state pid = some next) :
    Tracks (Function.update inside pid 0) next.rcsInfos next.nextpid := by
  obtain ⟨index, found, samePid, infos⟩ := exitAll_effect taken
  have owner := slotOf_pid found
  rw [infos, samePid]
  refine tracks.update (slotOf_lt found) (owner ▸ pid.property) ?_ rfl .nil rfl ?_
  · intro other different
    rw [owner] at different
    simp [different]
  · simp [ProcRcsInfo.clear, owner]

theorem tracks_alloc {inside : Nat → Multiset Nat}
    (tracks : Tracks inside state.rcsInfos state.nextpid) :
    Tracks inside (allocRcs state).rcsInfos (allocRcs state).nextpid := by
  unfold allocRcs initRcsInfos
  cases found : state.slotOf 0 with
  | some index => exact tracks.claim (slotOf_pid found)
  | none =>
    exact {
      exact := tracks.exact
      unique := tracks.unique
      below := fun index => Nat.lt_succ_of_lt (tracks.below index)
      absent := tracks.absent
      unused := tracks.unused }

theorem tracks_free {inside : Nat → Multiset Nat} {pid : Numbered}
    (tracks : Tracks inside state.rcsInfos state.nextpid) :
    Tracks (Function.update inside pid 0) (freeRcsHistory state pid).rcsInfos
      (freeRcsHistory state pid).nextpid := by
  unfold freeRcsHistory
  cases found : state.slotOf pid with
  | some index =>
    rw [← slotOf_pid found]
    exact tracks.discard
  | none =>
    have nowhere := firstSlot_eq_none.mp found
    have outside : inside pid = 0 :=
      tracks.absent pid fun index range => by simpa using nowhere index range
    rw [← outside, Function.update_eq_self]
    exact tracks

/-- Every step that meets `Fits` keeps the histories exact. -/
theorem tracks_step {events : List RcsCall} {call : RcsCall}
    (tracks : Tracks (inside events) state.rcsInfos state.nextpid) (fits : Fits state call)
    (taken : rcsStep state call = some next) :
    Tracks (inside (events ++ [call])) next.rcsInfos next.nextpid := by
  rw [inside_snoc]
  cases call with
  | alloc =>
    cases taken
    exact tracks_alloc tracks
  | free pid =>
    cases taken
    exact tracks_free tracks
  | enter pid flag exception => exact tracks_enter tracks fits taken
  | exit pid flag exception => exact tracks_exit tracks fits taken
  | exitAll pid => exact tracks_exitAll tracks taken
  | acquire pid flag =>
    obtain ⟨infos, nextpid⟩ := acquire_effect taken
    rw [infos, nextpid]
    exact tracks
  | release pid flag =>
    obtain ⟨infos, nextpid⟩ := release_effect taken
    rw [infos, nextpid]
    exact tracks

/-- The histories are exact at the end of every run whose steps all meet `Fits`. -/
theorem tracks_run {events : List RcsCall} (run : (rcsSystem.guarded Fits).Runs events state) :
    Tracks (inside events) state.rcsInfos state.nextpid := by
  refine run.history_invariant
    (fun events state => Tracks (inside events) state.rcsInfos state.nextpid) ?_ ?_
  · rintro state rfl
    exact tracks_boot
  · intro events state call next tracks transition
    exact tracks_step tracks transition.1 transition.2

/-- Lowering the counters along a history array lowers each by its number of
occurrences. -/
theorem foldl_lowerNum (slots : List Nat) (locks : Nat → RecoveryLock) (flag : Nat) :
    (slots.foldl lowerNum locks flag).num = (locks flag).num - slots.count flag := by
  induction slots generalizing locks with
  | nil => simp
  | cons slot rest ih =>
    rw [List.foldl_cons, ih]
    by_cases same : slot = flag
    · subst same
      simp only [lowerNum, Function.update_self, List.count_cons_self]
      omega
    · simp [lowerNum, Ne.symm same, same]

theorem count_pad (nonzero : flag ≠ 0) : (pad live).count flag = live.count flag := by
  simp [pad, List.count_replicate, Ne.symm nonzero]

/-- In every run whose steps all meet `Fits`, and for every process with a slot
in `rcs_infos`, the non-zero entries of its history are the flags it has entered
and not yet exited, and `exit_recovery_critical_section_all` lowers the counter
of each of them by the number of times the process is inside it. -/
theorem history_of_fitting_run {events : List RcsCall} {state : RcsState}
    (run : (rcsSystem.guarded Fits).Runs events state)
    (pid : Nat) {index : Nat} (slot : state.slotOf pid = some index) :
    recorded (state.history pid) = inside events pid ∧
    ∃ after, exitRecoveryCriticalSectionAll state pid = some after ∧
      ∀ flag ≠ 0, (after.recoveryLocks flag).num =
        (state.recoveryLocks flag).num - (inside events pid).count flag := by
  obtain ⟨live, valid, slots, sections⟩ := (tracks_run run).exact index
  rw [slotOf_pid slot] at sections
  rw [history_eq slot, slots]
  refine ⟨by rw [recorded, filter_pad valid, sections], ?_⟩
  refine ⟨_, by rw [exitRecoveryCriticalSectionAll, slot, Option.map_some], ?_⟩
  intro flag nonzero
  rw [foldl_lowerNum, slots, count_pad nonzero, ← sections, Multiset.coe_count]

/-- `sys_write`, `filewrite`, `writei` and `bread` by process 1, as far as the
giant section of the buffer cache in `bget`. -/
def writeCalls : List RcsCall :=
  let pid : Numbered := ⟨1, by decide⟩
  [.alloc,
    .enter pid ⟨rlFlagFtable, by decide⟩ 0,
    .enter pid ⟨lastFlagWoIdx + nbuf, by decide⟩ 0,
    .enter pid ⟨rlFlagIcache, by decide⟩ 0,
    .enter pid ⟨lastFlagWoIdx + nbuf + nfile, by decide⟩ 0,
    .enter pid ⟨rlFlagBcache, by decide⟩ 0]

/-- Five nested sections still fit. -/
theorem history_of_fitting_run_write :
    ∃ state index, (rcsSystem.guarded Fits).Runs writeCalls state ∧
      state.slotOf 1 = some index ∧
      recorded (state.history 1) = inside writeCalls 1 ∧
      ∃ after, exitRecoveryCriticalSectionAll state 1 = some after ∧
        ∀ flag ≠ 0, (after.recoveryLocks flag).num =
          (state.recoveryLocks flag).num - (inside writeCalls 1).count flag := by
  have found : (LabelledSystem.exec (LabelledSystem.checked Fits rcsStep) bootState
      writeCalls).bind (fun state => state.slotOf 1) = some 0 := by decide
  obtain ⟨state, result, slot⟩ := Option.bind_eq_some_iff.mp found
  have run : (rcsSystem.guarded Fits).Runs writeCalls state :=
    .of_checked_exec rfl result
  exact ⟨state, 0, run, slot, history_of_fitting_run run 1 slot⟩

/-- The entry to the buffer's own section that `bget` makes next is not
recorded: the array of five slots is full. -/
theorem history_overflows :
    ¬ ∀ events state, rcsSystem.Runs events state → ∀ pid index,
      state.slotOf pid = some index →
        recorded (state.history pid) = inside events pid := by
  intro claimed
  let events := writeCalls ++ [.enter ⟨1, by decide⟩ ⟨lastFlagWoIdx + 1, by decide⟩ 0]
  have found : (LabelledSystem.exec rcsStep bootState events).bind
      (fun state => (state.slotOf 1).map fun index => (index, recorded (state.history 1))) =
        some (0, ↑[rlFlagFtable, lastFlagWoIdx + nbuf, rlFlagIcache,
          lastFlagWoIdx + nbuf + nfile, rlFlagBcache]) := by decide
  obtain ⟨state, result, entry⟩ := Option.bind_eq_some_iff.mp found
  obtain ⟨index, slot, pair⟩ := map_eq_some_iff.mp entry
  have run : rcsSystem.Runs events state :=
    .of_exec rfl result
  have exact := claimed events state run 1 index slot
  have held : recorded (state.history 1) = _ := (Prod.ext_iff.mp pair).2
  rw [held] at exact
  exact absurd exact (by decide)

end Ev6.RecoveryLocking
