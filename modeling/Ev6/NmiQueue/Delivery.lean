import Ev6.NmiQueue.Basic
import Mathlib.Data.List.GetD
import Mathlib.Data.List.Nodup
import Mathlib.Tactic.SplitIfs

/-!
# Delivery of the results

`Session` relates the queue to the errors that wait, the result that is due and
the followers. Every step that meets `Sound` keeps it, and every step of the
leader or of the owner of the first slot brings the session nearer to its end.
-/

namespace Ev6.NmiQueue

open List (getD_eq_default getElem_mem length_cons length_nil mem_cons mem_singleton nodup_cons)
open Function (update update_apply update_of_ne update_self)
open Support

/-! ## The layout of the queue -/

/-- The queue with a first slot and the entries behind it. -/
def layout (head : NmiInfo) (rest : List NmiInfo) : Queue
  | 0 => head
  | i + 1 => rest.getD i .zero

section Layout

variable {head info : NmiInfo} {rest : List NmiInfo}

@[simp] theorem layout_zero : layout head rest 0 = head := rfl

@[simp] theorem layout_succ (i : Nat) : layout head rest (i + 1) = rest.getD i .zero := rfl

theorem update_head (head other : NmiInfo) (rest : List NmiInfo) :
    update (layout head rest) 0 other = layout other rest := by
  funext i
  cases i with
  | zero => rfl
  | succ i => rfl

theorem update_behind : update (layout head rest) (rest.length + 1) info =
    layout head (rest ++ [info]) := by
  funext i
  cases i with
  | zero => rfl
  | succ i =>
    rw [layout_succ, update_apply]
    by_cases same : i = rest.length
    · subst same
      simp
    · rw [if_neg (by omega), layout_succ]
      by_cases inside : i < rest.length
      · rw [List.getD_append _ _ _ _ inside]
      · rw [getD_eq_default _ _ (by omega), getD_eq_default]
        rw [List.length_append, List.length_singleton]
        omega

/-- The slots from one on, when those behind it hold the rest of the entries. -/
theorem shiftFrom_apply (queue : Queue) {count first : Nat}
    (behind : ∀ i, first ≤ i → queue (i + 1) = rest.getD i .zero) (inside : first ≤ rest.length)
    (enough : rest.length < first + count) (filled : ∀ info ∈ rest, info.addr ≠ 0) (i : Nat) :
    shiftFrom count first queue i = if i < first then queue i else rest.getD i .zero := by
  induction count generalizing first queue with
  | zero => omega
  | succ count ih =>
    have here := behind first (Nat.le_refl first)
    have moved : ∀ i, first < i →
        update queue first (queue (first + 1)) i = queue i := fun i later =>
      update_of_ne (Nat.ne_of_gt later) _ _
    have source := moved (first + 1) (Nat.lt_succ_self first)
    by_cases last : first = rest.length
    · have empty : rest.getD first .zero = .zero := getD_eq_default _ _ (by omega)
      have stop : (queue (first + 1)).addr = 0 ∧ (queue (first + 1)).pid = 0 := by
        rw [here, empty]
        exact ⟨rfl, rfl⟩
      simp only [shiftFrom, source, if_pos stop]
      rcases Nat.lt_trichotomy i first with before | rfl | after
      · rw [if_pos before, update_of_ne (Nat.ne_of_lt before)]
      · rw [update_self, if_neg (Nat.lt_irrefl i), here]
      · obtain ⟨j, rfl⟩ : ∃ j, i = j + 1 := ⟨i - 1, by omega⟩
        rw [moved _ after, behind j (by omega), if_neg (by omega),
          getD_eq_default _ _ (by omega), getD_eq_default _ _ (by omega)]
    · have within : first < rest.length := by omega
      have entry : rest.getD first .zero ∈ rest := by
        rw [List.getD_eq_getElem _ _ within]
        exact getElem_mem within
      have stays : ¬((queue (first + 1)).addr = 0 ∧ (queue (first + 1)).pid = 0) := by
        rw [here]
        exact fun zero => filled _ entry zero.1
      simp only [shiftFrom, source, if_neg stays]
      rw [ih _ (fun j later => (moved _ (by omega)).trans (behind j (by omega))) within (by omega)]
      rcases Nat.lt_trichotomy i first with before | rfl | after
      · rw [if_pos (by omega), if_pos before, update_of_ne (Nat.ne_of_lt before)]
      · rw [if_pos (by omega), update_self, if_neg (Nat.lt_irrefl i), here]
      · rw [if_neg (by omega), if_neg (by omega)]

/-- Unless the queue is full, the entries move up by one. -/
theorem shiftQueue_layout (head : NmiInfo) (short : rest.length < nmiQueueSize - 1)
    (filled : ∀ info ∈ rest, info.addr ≠ 0) :
    shiftQueue (layout head rest) = layout (rest.headD .zero) rest.tail := by
  funext i
  have moved := shiftFrom_apply (layout head rest) (fun i _ => layout_succ i)
    (Nat.zero_le _) (by simpa using short) filled i
  rw [shiftQueue, moved, if_neg (Nat.not_lt_zero i)]
  cases rest with
  | nil => cases i <;> rfl
  | cons info rest => cases i <;> rfl

theorem freeSlot_layout (short : rest.length < nmiQueueSize - 1)
    (filled : ∀ info ∈ rest, info.addr ≠ 0) :
    freeSlot (layout head rest) = some (rest.length + 1) := by
  have bound : rest.length < 4 := short
  have split : List.range' 1 (nmiQueueSize - 1) =
      List.range' 1 rest.length ++ List.range' (rest.length + 1) (4 - rest.length) := by
    have all : nmiQueueSize - 1 = rest.length + (4 - rest.length) := by
      change 4 = _
      omega
    rw [all, ← List.range'_append_1, Nat.add_comm 1]
  have used : ∀ i ∈ List.range' 1 rest.length, ¬(layout head rest i).addr = 0 := by
    intro i member
    obtain ⟨low, high⟩ := List.mem_range'_1.mp member
    obtain ⟨j, rfl⟩ : ∃ j, i = j + 1 := ⟨i - 1, by omega⟩
    have within : j < rest.length := by omega
    rw [layout_succ, List.getD_eq_getElem _ _ within]
    exact filled _ (getElem_mem within)
  obtain ⟨more, count⟩ : ∃ more, 4 - rest.length = more + 1 := ⟨3 - rest.length, by omega⟩
  have free : (layout head rest (rest.length + 1)).addr = 0 := by
    rw [layout_succ, getD_eq_default _ _ (Nat.le_refl _)]
    rfl
  rw [freeSlot, split, List.find?_append, List.find?_eq_none.mpr (by simpa using used), count,
    List.range'_succ, List.find?_cons_of_pos (by simpa using free)]
  rfl

end Layout

/-! ## A session of a leader -/

/-- A slot that a process has filled. -/
def Fresh (info : NmiInfo) : Prop :=
  info.addr ≠ 0 ∧ info.pid ≠ 0 ∧ returnToKernel < info.sp

/-- The processes that wait for a result, with the leader when its own error waits. -/
def owners (pending : List Error) (due : List Handled) (rest : List NmiInfo) : List Nat :=
  pending.map Error.pid ++ due.map (·.error.pid) ++ rest.map NmiInfo.pid

/-- What the first slot holds where the leader stands: an error that waits, a result
that is due, a result that its owner has received, or nothing any more. -/
inductive Stage (leader : Nat) (head : NmiInfo) :
    Leading → List Error → List Handled → List Nat → Prop where
  | load (fresh : Fresh head) : Stage leader head .load [head.error] [] []
  | handle (fresh : Fresh head) : Stage leader head (.handle head.error) [head.error] [] []
  | ownTest (own : head.pid = leader) : Stage leader head .test [] [] []
  | dueTest (other : head.pid ≠ leader) (filled : head.addr ≠ 0)
      (result : syscallSuccess ≤ head.sp ∧ head.sp ≤ returnToKernel) :
      Stage leader head .test [] [⟨head.error, head.sp, head.s0⟩] []
  | dueWait (other : head.pid ≠ leader) (filled : head.addr ≠ 0)
      (result : syscallSuccess ≤ head.sp ∧ head.sp ≤ returnToKernel) :
      Stage leader head .wait [] [⟨head.error, head.sp, head.s0⟩] []
  | takenTest (other : head.pid ≠ leader) (filled : head.addr ≠ 0) :
      Stage leader head .test [] [] [head.pid]
  | takenWait (filled : head.addr ≠ 0) : Stage leader head .wait [] [] [head.pid]
  | clearedTest (cleared : head = .zero) : Stage leader head .test [] [] []
  | clearedWait (cleared : head = .zero) : Stage leader head .wait [] [] []
  | shift (old : head.pid = leader ∨ head = .zero) : Stage leader head .shift [] [] []
  | lookNext (fresh : Fresh head) : Stage leader head .look [head.error] [] []
  | lookLast (cleared : head = .zero) : Stage leader head .look [] [] []
  | cleanup (cleared : head = .zero) : Stage leader head .cleanup [] [] []

/-- The queue exists. `pending` is the error in the first slot that waits, `due` its
result that waits, and `clearing` the process that has received its result but
not cleared the slot. -/
structure Session (state : State) (head : NmiInfo) (rest : List NmiInfo) (pending : List Error)
    (due : List Handled) (clearing : List Nat) : Prop where
  queue : state.queue = some (layout head rest)
  short : rest.length < nmiQueueSize - 1
  fresh : ∀ info ∈ rest, Fresh info
  stage : Stage state.leader head state.phase pending due clearing
  last : state.phase = .look ∨ state.phase = .cleanup → head.addr = 0 → rest = []
  polling : ∀ pid, state.following pid = some .polling ↔
    pid ≠ state.leader ∧ pid ∈ owners pending due rest
  clears : ∀ pid, state.following pid = some .clearing ↔ pid ∈ clearing
  distinct : (clearing ++ owners pending due rest).Nodup
  leads : state.leader ≠ 0
  apart : state.leader ∉ rest.map NmiInfo.pid
  order : state.accepted = state.handled.map Handled.error ++ (pending ++ rest.map NmiInfo.error)
  results : state.handled.map Handled.receipt = state.received ++ due.map Handled.receipt

/-- Nobody leads, and nothing is left to do. -/
structure Idle (state : State) : Prop where
  queue : state.queue = none
  following : ∀ pid, state.following pid = none
  order : state.accepted = state.handled.map Handled.error
  results : state.handled.map Handled.receipt = state.received

/-- How far the leader is from the next recovery handler. -/
def rank : Leading → Nat
  | .test => 6
  | .wait => 5
  | .shift => 4
  | .look => 3
  | .load => 2
  | .handle _ => 1
  | .cleanup => 0

/-- A bound on the steps to the end of the session. -/
def work (phase : Leading) (pending : List Error) (due : List Handled) (rest : List NmiInfo)
    (clearing : List Nat) : Nat :=
  20 * (pending.length + rest.length) + 3 * rank phase + 2 * due.length + clearing.length

/-- A step of the session: it ends it, brings its end nearer, or changes nothing. -/
def Advances (state : State) (amount : Nat) (next : State) : Prop :=
  next.stopped = state.stopped ∧
  (Idle next ∨ ∃ head rest pending due clearing,
    Session next head rest pending due clearing ∧
      (work next.phase pending due rest clearing < amount ∨ next = state))

section Steps

variable {state next : State} {head : NmiInfo} {rest : List NmiInfo} {pending : List Error}
  {due : List Handled} {clearing : List Nat}

theorem Session.move (session : Session state head rest pending due clearing) (phase : Leading)
    (stage : Stage state.leader head phase pending due clearing)
    (last : phase = .look ∨ phase = .cleanup → head.addr = 0 → rest = []) :
    Session { state with phase := phase } head rest pending due clearing :=
  { session with stage := stage, last := last }

/-- The entries move up when the first slot is no longer needed. -/
theorem Session.shift (session : Session state head rest [] [] []) :
    ∃ pending, Session
        { state with queue := some (shiftQueue (layout head rest)), phase := .look }
        (rest.headD .zero) rest.tail pending [] [] ∧
      pending.length + rest.tail.length = rest.length := by
  have moved := shiftQueue_layout head session.short fun info member =>
    (session.fresh info member).1
  have polling := session.polling
  have distinct := session.distinct
  have apart := session.apart
  have order := session.order
  cases rest with
  | nil =>
    refine ⟨[], ⟨congrArg some moved, session.short, session.fresh, .lookLast rfl,
      fun _ _ => rfl, polling, session.clears, distinct, session.leads, apart, order,
      session.results⟩, rfl⟩
  | cons info rest =>
    have fresh := session.fresh info List.mem_cons_self
    refine ⟨[info.error], ⟨congrArg some moved, ?_, ?_, .lookNext fresh, ?_, ?_, session.clears,
      distinct, session.leads, ?_, order, session.results⟩, ?_⟩
    · exact Nat.lt_of_succ_lt session.short
    · exact fun other member => session.fresh other (List.mem_cons_of_mem info member)
    · exact fun _ zero => absurd zero fresh.1
    · exact polling
    · exact fun member => apart (List.mem_cons_of_mem _ member)
    · rw [List.length_singleton, List.tail_cons, length_cons, Nat.add_comm]

theorem Session.finish_idle (session : Session state head [] [] [] []) :
    Idle { state with queue := none } where
  queue := rfl
  following := by
    intro pid
    have polling := session.polling pid
    have clears := session.clears pid
    change state.following pid = none
    cases found : state.following pid with
    | none => rfl
    | some place =>
      rw [found] at polling clears
      cases place with
      | polling => simp [owners] at polling
      | clearing => simp at clears
  order := by simpa using session.order
  results := by simpa using session.results

theorem Session.lead (session : Session state head rest pending due clearing)
    (result : leadStep state (layout head rest) = some next) :
    Advances state (work state.phase pending due rest clearing) next := by
  have stage := session.stage
  have empty := session.last
  have moves : ∀ phase, Stage state.leader head phase pending due clearing →
      (phase = .look ∨ phase = .cleanup → head.addr = 0 → rest = []) →
      rank phase < rank state.phase →
      Advances state (work state.phase pending due rest clearing) { state with phase := phase } := by
    intro phase stage last lower
    refine ⟨rfl, .inr ⟨_, _, _, _, _, session.move phase stage last, .inl ?_⟩⟩
    simp only [work]
    omega
  have stays : ∀ phase, phase = state.phase →
      Advances state (work state.phase pending due rest clearing) { state with phase := phase } := by
    rintro phase rfl
    exact ⟨rfl, .inr ⟨_, _, _, _, _, session, .inr rfl⟩⟩
  obtain ⟨phase, standing⟩ : ∃ phase, state.phase = phase := ⟨_, rfl⟩
  rw [standing] at stage
  simp only [leadStep, standing] at result
  cases stage with
  | load fresh =>
    cases result
    exact moves _ (.handle fresh) (by simp) (by simp [standing, rank])
  | handle fresh => cases result
  | ownTest own =>
    rw [if_neg (show ¬(layout head rest 0).pid ≠ state.leader from fun other => other own)] at result
    cases result
    exact moves _ (.shift (.inl own)) (by simp) (by simp [standing, rank])
  | dueTest other filled range =>
    rw [if_pos (show (layout head rest 0).pid ≠ state.leader from other)] at result
    cases result
    exact moves _ (.dueWait other filled range) (by simp) (by simp [standing, rank])
  | dueWait different filled range =>
    rw [if_neg (show ¬(layout head rest 0).addr = 0 from filled)] at result
    cases result
    exact stays _ standing.symm
  | takenTest other filled =>
    rw [if_pos (show (layout head rest 0).pid ≠ state.leader from other)] at result
    cases result
    exact moves _ (.takenWait filled) (by simp) (by simp [standing, rank])
  | takenWait filled =>
    rw [if_neg (show ¬(layout head rest 0).addr = 0 from filled)] at result
    cases result
    exact stays _ standing.symm
  | clearedTest cleared =>
    have other : head.pid ≠ state.leader := by
      rw [cleared]
      exact Ne.symm session.leads
    rw [if_pos (show (layout head rest 0).pid ≠ state.leader from other)] at result
    cases result
    exact moves _ (.clearedWait cleared) (by simp) (by simp [standing, rank])
  | clearedWait cleared =>
    rw [if_pos (show (layout head rest 0).addr = 0 from congrArg NmiInfo.addr cleared)] at result
    cases result
    exact moves _ (.shift (.inr cleared)) (by simp) (by simp [standing, rank])
  | shift old =>
    cases result
    obtain ⟨pending, shifted, count⟩ := session.shift
    refine ⟨rfl, .inr ⟨_, _, _, _, _, shifted, .inl ?_⟩⟩
    simp only [work, rank, standing, length_nil]
    omega
  | lookNext fresh =>
    rw [if_pos (show (layout head rest 0).addr ≠ 0 from fresh.1)] at result
    cases result
    exact moves _ (.load fresh) (by simp) (by simp [standing, rank])
  | lookLast cleared =>
    have zero := congrArg NmiInfo.addr cleared
    rw [if_neg (show ¬(layout head rest 0).addr ≠ 0 from fun other => other zero)] at result
    cases result
    exact moves _ (.cleanup cleared) (fun _ => empty (.inl standing))
      (by simp [standing, rank])
  | cleanup cleared =>
    cases result
    obtain rfl := empty (.inr standing) (congrArg NmiInfo.addr cleared)
    have idle := session.finish_idle
    rw [standing] at idle
    exact ⟨rfl, .inl idle⟩

theorem Session.finish (session : Session state head rest pending due clearing) {code irq : Nat}
    (range : syscallSuccess ≤ code ∧ code ≤ returnToKernel)
    (result : finishStep state (layout head rest) code irq = some next) :
    Advances state (work state.phase pending due rest clearing) next := by
  have stage := session.stage
  have results := session.results
  obtain ⟨phase, standing⟩ : ∃ phase, state.phase = phase := ⟨_, rfl⟩
  rw [standing] at stage
  simp only [finishStep, standing] at result
  cases stage with
  | handle fresh =>
    cases result
    have queue := congrArg some (update_head head { head with sp := code, s0 := irq } rest)
    let done : Handled := ⟨head.error, code, irq⟩
    have handled : state.accepted = (state.handled ++ [done]).map Handled.error ++
        ([] ++ rest.map NmiInfo.error) := by
      simpa using session.order
    have polling : ∀ pid, state.following pid = some .polling ↔
        pid ≠ state.leader ∧ pid ∈ head.pid :: rest.map NmiInfo.pid := session.polling
    have distinct : (head.pid :: rest.map NmiInfo.pid).Nodup := session.distinct
    have sum : state.handled.map Handled.receipt = state.received := by simpa using results
    by_cases own : head.pid = state.leader
    · refine ⟨rfl, .inr ⟨{ head with sp := code, s0 := irq }, rest, [], [], [],
        ⟨queue, session.short, session.fresh, .ownTest own, by simp, fun pid => ?_,
          session.clears, (nodup_cons.mp distinct).2, session.leads, session.apart, handled,
          ?_⟩, .inl ?_⟩⟩
      · change state.following pid = some .polling ↔
          pid ≠ state.leader ∧ pid ∈ rest.map NmiInfo.pid
        rw [polling pid, own, mem_cons]
        exact and_congr_right fun other => or_iff_right other
      · rw [if_pos (show (layout head rest 0).pid = state.leader from own), List.map_append, sum,
          ← own]
        simp [Handled.receipt, NmiInfo.error]
      · simp only [work, rank, standing, length_cons, length_nil]
        omega
    · refine ⟨rfl, .inr ⟨{ head with sp := code, s0 := irq }, rest, [],
        [⟨head.error, code, irq⟩], [],
        ⟨queue, session.short, session.fresh, .dueTest own fresh.1 range, by simp, polling,
          session.clears, distinct, session.leads, session.apart, handled, ?_⟩, .inl ?_⟩⟩
      · rw [if_neg (show ¬(layout head rest 0).pid = state.leader from own), List.map_append, sum]
      · simp only [work, rank, standing, length_cons, length_nil]
        omega
  | _ => cases result

/-- The owner of the result in the first slot receives it. -/
theorem Session.receive (session : Session state head rest [] [⟨head.error, head.sp, head.s0⟩] [])
    (stage : Stage state.leader head state.phase [] [] [head.pid]) :
    Session
      { state with
        following := update state.following head.pid (some .clearing)
        received := state.received ++ [⟨head.pid, head.sp, head.s0⟩] } head rest [] []
      [head.pid] := by
  have distinct : (head.pid :: rest.map NmiInfo.pid).Nodup := session.distinct
  have polling : ∀ pid, state.following pid = some .polling ↔
      pid ≠ state.leader ∧ pid ∈ head.pid :: rest.map NmiInfo.pid := session.polling
  refine ⟨session.queue, session.short, session.fresh, stage, session.last, fun pid => ?_,
    fun pid => ?_, distinct, session.leads, session.apart, session.order, ?_⟩
  · change update state.following head.pid _ pid = _ ↔
      pid ≠ state.leader ∧ pid ∈ rest.map NmiInfo.pid
    by_cases same : pid = head.pid
    · subst same
      simp [(nodup_cons.mp distinct).1]
    · rw [update_of_ne same, polling pid, mem_cons]
      exact and_congr_right fun _ => or_iff_right same
  · change update state.following head.pid _ pid = _ ↔ pid ∈ [head.pid]
    have clears := session.clears pid
    by_cases same : pid = head.pid
    · simp [same]
    · rw [update_of_ne same, clears]
      simp [same]
  · simpa [Handled.receipt, NmiInfo.error] using session.results

theorem Session.poll (session : Session state head rest pending due clearing) {pid : Nat}
    (result : pollStep state (layout head rest) pid = some next) :
    Advances state (work state.phase pending due rest clearing) next := by
  have stage := session.stage
  obtain ⟨phase, standing⟩ : ∃ phase, state.phase = phase := ⟨_, rfl⟩
  rw [standing] at stage
  simp only [pollStep] at result
  split_ifs at result with polling found
  · obtain ⟨rfl, low, high⟩ : head.pid = pid ∧ syscallSuccess ≤ head.sp ∧ head.sp ≤ returnToKernel :=
      found
    cases result
    have other := ((session.polling head.pid).mp polling).1
    cases stage with
    | load fresh => exact absurd high (Nat.not_le_of_lt fresh.2.2)
    | handle fresh => exact absurd high (Nat.not_le_of_lt fresh.2.2)
    | lookNext fresh => exact absurd high (Nat.not_le_of_lt fresh.2.2)
    | ownTest own => exact absurd own other
    | dueTest different filled range =>
      have received := session.receive (standing ▸ .takenTest different filled)
      exact ⟨rfl, .inr ⟨_, _, _, _, _, received, .inl (by simp [work])⟩⟩
    | dueWait different filled range =>
      have received := session.receive (standing ▸ .takenWait filled)
      exact ⟨rfl, .inr ⟨_, _, _, _, _, received, .inl (by simp [work])⟩⟩
    | takenTest different filled =>
      have clears := (session.clears head.pid).mpr (List.mem_singleton_self _)
      rw [polling] at clears
      cases clears
    | takenWait filled =>
      have clears := (session.clears head.pid).mpr (List.mem_singleton_self _)
      rw [polling] at clears
      cases clears
    | shift old =>
      rcases old with own | cleared
      · exact absurd own other
      · rw [cleared] at low
        exact absurd low (by decide)
    | clearedTest cleared | clearedWait cleared | lookLast cleared | cleanup cleared =>
      rw [cleared] at low
      exact absurd low (by decide)
  · cases result
    exact ⟨rfl, .inr ⟨_, _, _, _, _, session, .inr rfl⟩⟩

/-- The owner of the result in the first slot clears it. -/
theorem Session.empty (session : Session state head rest [] [] [head.pid])
    (stage : Stage state.leader .zero state.phase [] [] [])
    (waits : ¬(state.phase = .look ∨ state.phase = .cleanup)) :
    Session
      { state with
        queue := some (layout .zero rest)
        following := update state.following head.pid none } .zero rest [] [] [] := by
  have distinct : (head.pid :: rest.map NmiInfo.pid).Nodup := session.distinct
  obtain ⟨outside, once⟩ := nodup_cons.mp distinct
  have polling : ∀ pid, state.following pid = some .polling ↔
      pid ≠ state.leader ∧ pid ∈ rest.map NmiInfo.pid := session.polling
  refine ⟨rfl, session.short, session.fresh, stage, fun there => absurd there waits,
    fun pid => ?_, fun pid => ?_, once, session.leads, session.apart, session.order,
    session.results⟩
  · change update state.following head.pid _ pid = _ ↔
      pid ≠ state.leader ∧ pid ∈ rest.map NmiInfo.pid
    by_cases same : pid = head.pid
    · subst same
      simp [outside]
    · rw [update_of_ne same, polling pid]
  · change update state.following head.pid _ pid = _ ↔ pid ∈ []
    have clears := session.clears pid
    by_cases same : pid = head.pid
    · simp [same]
    · rw [update_of_ne same, clears]
      simp [same]

theorem Session.clear (session : Session state head rest pending due clearing) {pid : Nat}
    (result : clearStep state (layout head rest) pid = some next) :
    Advances state (work state.phase pending due rest clearing) next := by
  have stage := session.stage
  obtain ⟨phase, standing⟩ : ∃ phase, state.phase = phase := ⟨_, rfl⟩
  rw [standing] at stage
  simp only [clearStep, update_head] at result
  split_ifs at result with held
  cases result
  have member := (session.clears pid).mp held
  cases stage with
  | takenTest other filled =>
    obtain rfl := mem_singleton.mp member
    have emptied := session.empty (standing ▸ .clearedTest rfl) (by simp [standing])
    exact ⟨rfl, .inr ⟨_, _, _, _, _, emptied, .inl (by simp [work])⟩⟩
  | takenWait filled =>
    obtain rfl := mem_singleton.mp member
    have emptied := session.empty (standing ▸ .clearedWait rfl) (by simp [standing])
    exact ⟨rfl, .inr ⟨_, _, _, _, _, emptied, .inl (by simp [work])⟩⟩
  | _ => simp at member

/-- A process meets an error while the leader works. -/
theorem Session.arrive (session : Session state head rest pending due clearing) {info : NmiInfo}
    (given : Given state (.arrive info)) (sound : Sound state (.arrive info)) :
    Session (arriveStep state info) head (rest ++ [info]) pending due clearing := by
  obtain ⟨filled, nonzero, stack, idle, apart⟩ := given
  obtain ⟨⟨i, low, high, free⟩, waits⟩ := sound _ session.queue
  have used : ∀ info ∈ rest, info.addr ≠ 0 := fun info member => (session.fresh info member).1
  have room : rest.length + 1 < nmiQueueSize - 1 := by
    obtain ⟨j, rfl⟩ : ∃ j, i = j + 1 := ⟨i - 1, by omega⟩
    by_contra full
    have within : j < rest.length := by omega
    rw [layout_succ, List.getD_eq_getElem _ _ within] at free
    exact used _ (getElem_mem within) free
  have different : info.pid ≠ state.leader := by
    rcases apart with none | different
    · rw [session.queue] at none
      cases none
    · exact different
  have absent : info.pid ∉ clearing ++ owners pending due rest := by
    intro member
    rcases List.mem_append.mp member with clears | waiting
    · have held := (session.clears info.pid).mpr clears
      rw [idle] at held
      cases held
    · have held := (session.polling info.pid).mpr ⟨different, waiting⟩
      rw [idle] at held
      cases held
  have longer : owners pending due (rest ++ [info]) = owners pending due rest ++ [info.pid] := by
    simp [owners]
  have arrived : arriveStep state info =
      { state with
        queue := some (layout head (rest ++ [info]))
        following := update state.following info.pid (some .polling)
        accepted := state.accepted ++ [info.error] } := by
    simp only [arriveStep, session.queue, freeSlot_layout session.short used, update_behind]
  rw [arrived]
  refine ⟨rfl, ?_, ?_, session.stage, ?_, fun pid => ?_, fun pid => ?_, ?_, session.leads, ?_, ?_,
    session.results⟩
  · rw [List.length_append, List.length_singleton]
    exact room
  · intro other member
    rcases List.mem_append.mp member with old | new
    · exact session.fresh other old
    · exact mem_singleton.mp new ▸ ⟨filled, nonzero, stack⟩
  · exact fun there zero => absurd ⟨zero, there⟩ waits
  · change update state.following info.pid _ pid = _ ↔ pid ≠ state.leader ∧ _
    rw [longer]
    by_cases same : pid = info.pid
    · subst same
      simp [different]
    · rw [update_of_ne same, session.polling pid]
      simp [same]
  · change update state.following info.pid _ pid = _ ↔ _
    by_cases same : pid = info.pid
    · subst same
      have outside : info.pid ∉ clearing := fun member => absent (List.mem_append_left _ member)
      simp [outside]
    · rw [update_of_ne same, session.clears pid]
  · rw [longer, ← List.append_assoc, ← List.concat_eq_append]
    exact List.Nodup.concat absent session.distinct
  · intro member
    have both : state.leader ∈ rest.map NmiInfo.pid ∨ state.leader = info.pid := by
      simpa using member
    exact both.elim session.apart (Ne.symm different)
  · change state.accepted ++ [info.error] = _
    rw [session.order]
    simp

theorem Idle.arrive (idle : Idle state) {info : NmiInfo} (given : Given state (.arrive info)) :
    Session (arriveStep state info) info [] [info.error] [] [] := by
  obtain ⟨filled, nonzero, stack, -, -⟩ := given
  have first : update (fun _ => NmiInfo.zero) 0 info = layout info [] := by
    funext i
    cases i <;> rfl
  have arrived : arriveStep state info =
      { state with
        queue := some (layout info [])
        leader := info.pid
        phase := .load
        accepted := state.accepted ++ [info.error] } := by
    simp only [arriveStep, idle.queue, first]
  have following := idle.following
  rw [arrived]
  refine ⟨rfl, by decide, by simp, .load ⟨filled, nonzero, stack⟩, by simp, fun pid => ?_,
    fun pid => ?_, by simp [owners], nonzero, by simp, ?_, ?_⟩
  · simp [following, owners, NmiInfo.error]
  · simp [following]
  · simp [idle.order]
  · simpa using idle.results

end Steps

end Ev6.NmiQueue
