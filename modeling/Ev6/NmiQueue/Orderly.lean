import Ev6.NmiQueue.Delivery

/-!
# Errors are handled in order

`orderly_of_sound_run` states what the queue is for along every run whose steps
all meet `Sound`: every accepted error is handled once and in order, its owner
alone receives the result, and whatever waits can be finished.
-/

namespace Ev6.NmiQueue

open List (mem_append mem_map)
open Support

section Session

variable {state next : State} {head : NmiInfo} {rest : List NmiInfo} {pending : List Error}
  {due : List Handled} {clearing : List Nat}

/-- A step of the leader or of a follower, with the queue as it is laid out. -/
theorem Session.advance (session : Session state head rest pending due clearing) {label : Label}
    (running : state.stopped = false) (silent : ∀ info, label ≠ .arrive info)
    (able : label ≠ .fail) (given : Given state label) (result : nmiStep state label = some next) :
    Advances state (work state.phase pending due rest clearing) next := by
  simp only [nmiStep, running, session.queue] at result
  cases label with
  | arrive info => exact absurd rfl (silent info)
  | lead => exact session.lead result
  | finish code irq => exact session.finish given result
  | fail => exact absurd rfl able
  | poll pid => exact session.poll result
  | clear pid => exact session.clear result

/-- Outside the handlers the leader goes on, unless it waits for a follower. -/
theorem leadStep_moves {queue : Queue} (exists_queue : state.queue = some queue)
    (free : ∀ broken, state.phase ≠ .handle broken)
    (ready : state.phase = .wait → (queue 0).addr = 0) :
    ∃ next, leadStep state queue = some next ∧ next ≠ state := by
  have step : (leadStep state queue).isSome := by
    cases standing : state.phase with
    | handle broken => exact absurd standing (free broken)
    | _ => simp [leadStep, standing]
  obtain ⟨next, result⟩ := Option.isSome_iff_exists.mp step
  refine ⟨next, result, ?_⟩
  rintro rfl
  cases standing : next.phase with
  | handle broken => exact absurd standing (free broken)
  | wait =>
    simp only [leadStep, standing, ready standing] at result
    have moved := congrArg State.phase (Option.some.inj result)
    simp [standing] at moved
  | cleanup =>
    simp only [leadStep, standing] at result
    have moved := congrArg State.queue (Option.some.inj result)
    simp [exists_queue] at moved
  | test | look =>
    simp only [leadStep, standing] at result
    have moved := congrArg State.phase (Option.some.inj result)
    split_ifs at moved <;> simp [standing] at moved
  | load | shift =>
    simp only [leadStep, standing] at result
    have moved := congrArg State.phase (Option.some.inj result)
    simp [standing] at moved

/-- Somebody can go on, and what it does is not in vain. -/
theorem Session.progress (session : Session state head rest pending due clearing)
    (running : state.stopped = false) :
    ∃ label next, (∀ info, label ≠ .arrive info) ∧ label ≠ .fail ∧ Given state label ∧
      nmiStep state label = some next ∧ next ≠ state := by
  have stage := session.stage
  have lead : (∀ broken, state.phase ≠ .handle broken) →
      (state.phase = .wait → head.addr = 0) →
      ∃ label next, (∀ info, label ≠ .arrive info) ∧ label ≠ .fail ∧ Given state label ∧
        nmiStep state label = some next ∧ next ≠ state := by
    intro free ready
    obtain ⟨next, result, moved⟩ := leadStep_moves session.queue free ready
    refine ⟨.lead, next, by simp, by simp, trivial, ?_, moved⟩
    simp only [nmiStep, running, session.queue]
    exact result
  obtain ⟨phase, standing⟩ : ∃ phase, state.phase = phase := ⟨_, rfl⟩
  rw [standing] at stage lead
  cases stage with
  | handle fresh =>
    have step : (finishStep state (layout head rest) syscallSuccess 0).isSome := by
      simp [finishStep, standing]
    obtain ⟨next, result⟩ := Option.isSome_iff_exists.mp step
    refine ⟨.finish syscallSuccess 0, next, by simp, by simp, ⟨Nat.le_refl _, by decide⟩, ?_, ?_⟩
    · simp only [nmiStep, running, session.queue]
      exact result
    · rintro rfl
      simp only [finishStep, standing] at result
      have moved := congrArg State.phase (Option.some.inj result)
      simp [standing] at moved
  | dueWait other filled range =>
    have polling := (session.polling head.pid).mpr ⟨other, by simp [owners, NmiInfo.error]⟩
    have found : (layout head rest 0).pid = head.pid ∧ syscallSuccess ≤ (layout head rest 0).sp ∧
        (layout head rest 0).sp ≤ returnToKernel := ⟨rfl, range⟩
    have step : (pollStep state (layout head rest) head.pid).isSome := by
      rw [pollStep, if_pos polling, if_pos found]
      rfl
    obtain ⟨next, result⟩ := Option.isSome_iff_exists.mp step
    refine ⟨.poll head.pid, next, by simp, by simp, trivial, ?_, ?_⟩
    · simp only [nmiStep, running, session.queue]
      exact result
    · rintro rfl
      rw [pollStep, if_pos polling, if_pos found] at result
      have moved := congrFun (congrArg State.following (Option.some.inj result)) head.pid
      simp [polling] at moved
  | takenWait filled =>
    have clears := (session.clears head.pid).mpr (List.mem_singleton_self _)
    have step : (clearStep state (layout head rest) head.pid).isSome := by
      rw [clearStep, if_pos clears]
      rfl
    obtain ⟨next, result⟩ := Option.isSome_iff_exists.mp step
    refine ⟨.clear head.pid, next, by simp, by simp, trivial, ?_, ?_⟩
    · simp only [nmiStep, running, session.queue]
      exact result
    · rintro rfl
      rw [clearStep, if_pos clears] at result
      have moved := congrFun (congrArg State.following (Option.some.inj result)) head.pid
      simp [clears] at moved
  | clearedWait cleared => exact lead (by simp) fun _ => congrArg NmiInfo.addr cleared
  | _ => exact lead (by simp) (by simp)

theorem Session.orderly (session : Session state head rest pending due clearing) :
    Orderly state (pending ++ rest.map NmiInfo.error) due where
  order := session.order
  results := session.results
  single := by
    have stage := session.stage
    generalize state.phase = phase at stage
    cases stage <;> simp
  owners := by
    intro error member
    by_cases leads : error.pid = state.leader
    · exact .inl leads
    · refine .inr ((session.polling error.pid).mpr ⟨leads, ?_⟩)
      rcases mem_append.mp member with first | later
      · simp only [owners, mem_append, mem_map]
        exact .inl (.inl ⟨error, first, rfl⟩)
      · obtain ⟨info, inside, rfl⟩ := mem_map.mp later
        simp only [owners, mem_append, mem_map]
        exact .inr ⟨info, inside, rfl⟩
  owner := by
    intro result member
    refine (session.polling result.error.pid).mpr ⟨?_, ?_⟩
    · have stage := session.stage
      generalize state.phase = phase at stage
      cases stage with
      | dueTest other filled range =>
        obtain rfl := List.mem_singleton.mp member
        exact other
      | dueWait other filled range =>
        obtain rfl := List.mem_singleton.mp member
        exact other
      | _ => cases member
    · simp only [owners, mem_append, mem_map]
      exact .inl (.inr ⟨result, member, rfl⟩)
  polling := by
    intro pid polls
    have waits := ((session.polling pid).mp polls).2
    simp only [owners, List.map_append, List.map_map, mem_append] at waits ⊢
    rcases waits with (first | result) | later
    · exact .inl (.inl first)
    · exact .inr result
    · exact .inl (.inr later)
  complete := by
    intro none
    rw [session.queue] at none
    cases none

end Session

theorem Idle.orderly {state : State} (idle : Idle state) : Orderly state [] [] where
  order := by simpa using idle.order
  results := by simpa using idle.results
  single := Nat.zero_le 1
  owners := by simp
  owner := by simp
  polling := by simp [idle.following]
  complete := by simp

/-- The state of the queue in every run whose steps meet `Sound`. -/
def Sessions (state : State) : Prop :=
  Idle state ∨ ∃ head rest pending due clearing, Session state head rest pending due clearing

theorem sessions_step {state next : State} {label : Label} (sessions : Sessions state)
    (sound : Sound state label) (given : Given state label)
    (result : nmiStep state label = some next) : Sessions next := by
  have running : state.stopped = false := by
    cases stopped : state.stopped with
    | false => rfl
    | true => simp [nmiStep, stopped] at result
  rcases sessions with idle | ⟨head, rest, pending, due, clearing, session⟩
  · cases label with
    | arrive info =>
      simp only [nmiStep, running] at result
      cases result
      exact .inr ⟨_, _, _, _, _, idle.arrive given⟩
    | _ => simp [nmiStep, running, idle.queue] at result
  · cases label with
    | arrive info =>
      simp only [nmiStep, running] at result
      cases result
      exact .inr ⟨_, _, _, _, _, session.arrive given sound⟩
    | fail =>
      simp only [nmiStep, running, session.queue] at result
      have failed : failStep state = some next := result
      rw [failStep] at failed
      split at failed
      · cases failed
        exact .inr ⟨_, _, _, _, _, { session with }⟩
      · cases failed
    | _ =>
      obtain ⟨-, advanced⟩ := session.advance running (by simp) (by simp) given result
      rcases advanced with idle | ⟨_, _, _, _, _, after, -⟩
      · exact .inl idle
      · exact .inr ⟨_, _, _, _, _, after⟩

/-- The leader and the followers can finish the session. -/
theorem Session.can_finish {state : State} {head : NmiInfo} {rest : List NmiInfo}
    {pending : List Error} {due : List Handled} {clearing : List Nat}
    (session : Session state head rest pending due clearing) (running : state.stopped = false) :
    CanFinish state := by
  induction amount : work state.phase pending due rest clearing using Nat.strongRecOn
    generalizing state head rest pending due clearing with
  | _ amount ih =>
    subst amount
    obtain ⟨label, next, silent, able, given, result, moved⟩ := session.progress running
    obtain ⟨kept, advanced⟩ := session.advance running silent able given result
    have finish : CanFinish next := by
      rcases advanced with idle | ⟨_, _, _, _, _, after, less | same⟩
      · exact ⟨[], next, by simp, rfl, idle.queue, idle.orderly⟩
      · exact ih _ less after (kept.trans running) rfl
      · exact absurd same moved
    obtain ⟨labels, final, quiet, executed, ended, orderly⟩ := finish
    have steady : ∀ other, (∀ info, other ≠ .arrive info) → Given next other →
        Given state other := by
      intro other away given
      cases other with
      | arrive info => exact absurd rfl (away info)
      | _ => exact given
    refine ⟨label :: labels, final, ?_, ?_, ended, orderly⟩
    · intro other member
      rcases List.mem_cons.mp member with rfl | later
      · exact ⟨silent, given⟩
      · exact ⟨(quiet other later).1, steady other (quiet other later).1 (quiet other later).2⟩
    · rw [LabelledSystem.exec, result]
      exact executed

/-- No process has met an error. -/
def quietState : State where
  queue := none
  leader := 0
  phase := .load
  following _ := none
  stopped := false
  accepted := []
  handled := []
  received := []

theorem quiet_quietState : Quiet quietState := ⟨rfl, fun _ => rfl, rfl, rfl, rfl, rfl⟩

/-- An error of a process. -/
def sampleInfo (pid : Nat) : NmiInfo := ⟨0x100 + pid, pid, 0x1000, 0x1010⟩

/-- The leader handles the error of a follower, which receives its result. -/
def followerTurn (pid : Nat) : List Label :=
  [.lead, .finish syscallSuccess 0, .lead, .poll pid, .clear pid, .lead, .lead, .lead]

end Ev6.NmiQueue
