import Ev6.VirtioDisk.Ownership

/-!
# Completions

While a recovering process polls, `virtio_disk_intr` wakes nobody, also when the request it
acknowledges is not that of the polling process. A recovering process that finds too few
descriptors free tries again without letting the lock go. In every run without such steps
the descriptors are in order and a request that has been acknowledged is not slept on.
-/

namespace Ev6.VirtioDisk

open Option (any_eq_true ite_none_right_eq_some)
open List (length_append mem_cons not_mem_nil perm_middle)
open Function (update update_apply update_of_ne update_self)
open Support

namespace State

/-- The request of a process that waits for the device. -/
def request (state : State) (p : Fin nproc) : Option Request := (state.stage p).request

/-- The call of a process. -/
def call (state : State) (p : Fin nproc) : Option Call := (state.stage p).call

/-- The heads that the driver has handed out and not acknowledged. -/
def outstanding (state : State) : List Nat :=
  state.submitted.drop state.taken.length ++ state.pending ++
    state.completed.drop state.acknowledged.length

end State

/-- A recovering process is about to take the lock. -/
def Stage.recovers : Stage → Bool
  | .starting call => call.recovering
  | _ => false

/-- The buffer that a process sleeps on. -/
def Stage.sleepsOn : Stage → Option Nat
  | .asleep request => some request.call.b
  | _ => none

/-- A recovering process takes the lock only when three descriptors are free, and no process
sleeps on a buffer that is acknowledged while a recovering process polls. -/
def Heeded (state : State) : Label → Prop
  | .start p => (state.stage p).recovers = true → 3 ≤ countSlots state.free num
  | .acknowledge =>
    state.continuePolling = true → ∀ p, (state.stage p).sleepsOn = none ∨
      (state.stage p).sleepsOn ≠ (state.info (state.elems state.usedIdx)).b
  | _ => True

instance (state : State) (label : Label) : Decidable (Heeded state label) := by
  cases label <;> unfold Heeded <;> infer_instance

/-- What holds in every state of a run whose steps are heeded. -/
structure Sound (state : State) : Prop where
  owned : Owned state.desc state.free state.request
  calls : ∀ p call, state.call p = some call → state.holder call.b = some p
  info : ∀ p request, state.request p = some request →
    state.info request.head = ⟨some request.call.b, 0⟩
  avail : Queue state.avail state.availIdx state.submitted state.taken
  used : Queue state.elems state.usedId state.completed state.acknowledged
  lastAvail : state.lastAvail = UInt16.ofNat state.taken.length
  usedIdx : state.usedIdx = state.acknowledged.length % num
  out : Outstanding state.outstanding state.disk state.request
  asleep : ∀ p request, state.stage p = .asleep request → state.disk request.call.b = true
  unlocked : ∀ p, state.lock ≠ some (.process p)
  runs : state.fault = none

theorem Stage.call_of_request {stage : Stage} {request : Request}
    (flies : stage.request = some request) : stage.call = some request.call := by
  cases stage <;> simp_all [Stage.request, Stage.call]

namespace Sound

variable {state next : State} {p q : Fin nproc} {request other : Request}

/-! ## Consequences -/

theorem buffers (sound : Sound state) {call other : Call} (flies : state.call p = some call)
    (otherFlies : state.call q = some other) (different : q ≠ p) : other.b ≠ call.b := by
  intro same
  have one := sound.calls p call flies
  have two := sound.calls q other otherFlies
  rw [same, one] at two
  exact different (Option.some.inj two).symm

theorem heads (sound : Sound state) (flies : state.request p = some request)
    (otherFlies : state.request q = some other) (different : q ≠ p) :
    other.head ≠ request.head := by
  intro same
  exact sound.owned.apart q p other request otherFlies flies different other.head other.head_mem
    (same ▸ request.head_mem)

theorem unread (sound : Sound state) : (state.submitted.drop state.taken.length).length < num := by
  have low := sound.out.length_lt sound.owned
  simp only [State.outstanding, length_append] at low
  omega

theorem unacknowledged (sound : Sound state) :
    (state.completed.drop state.acknowledged.length).length < num := by
  have low := sound.out.length_lt sound.owned
  simp only [State.outstanding, length_append] at low
  omega

/-! ## Steps of the processes -/

/-- The requests and the calls are as before, and everybody asleep waits for the disk. -/
theorem restage (sound : Sound state) {desc : Nat → VRingDesc} {stage : Fin nproc → Stage}
    {polls : Bool} {lock : Option Holder} (kept : ∀ i, state.free i = false → desc i = state.desc i)
    (requests : ∀ p, (stage p).request = state.request p)
    (calls : ∀ p, (stage p).call = state.call p)
    (asleep : ∀ p request, stage p = .asleep request → state.disk request.call.b = true)
    (unlocked : ∀ p, lock ≠ some (.process p)) :
    Sound { state with desc := desc, stage := stage, continuePolling := polls, lock := lock } := by
  have same : (fun p => (stage p).request) = state.request := funext requests
  refine ⟨?_, ?_, ?_, sound.avail, sound.used, sound.lastAvail, sound.usedIdx, ?_, asleep, unlocked,
    sound.runs⟩
  · change Owned desc state.free fun p => (stage p).request
    rw [same]
    exact sound.owned.congr kept
  · intro p call flies
    exact sound.calls p call ((calls p).symm.trans flies)
  · intro p request flies
    exact sound.info p request ((requests p).symm.trans flies)
  · change Outstanding state.outstanding state.disk fun p => (stage p).request
    rw [same]
    exact sound.out

/-- One process goes on with the same request and call. -/
theorem setStage (sound : Sound state) {stage : Stage} {polls : Bool} {lock : Option Holder}
    (requests : stage.request = state.request p) (calls : stage.call = state.call p)
    (asleep : ∀ request, stage = .asleep request → state.disk request.call.b = true)
    (unlocked : ∀ p, lock ≠ some (.process p)) :
    Sound { state.setStage p stage with continuePolling := polls, lock := lock } := by
  refine sound.restage (fun _ _ => rfl) ?_ ?_ ?_ unlocked
  · intro q
    by_cases same : q = p
    · rw [same, State.stage_setStage_self, requests]
    · rw [State.stage_setStage_of_ne same]
      rfl
  · intro q
    by_cases same : q = p
    · rw [same, State.stage_setStage_self, calls]
    · rw [State.stage_setStage_of_ne same]
      rfl
  · intro q request sleeps
    by_cases same : q = p
    · rw [same, State.stage_setStage_self] at sleeps
      exact asleep request sleeps
    · rw [State.stage_setStage_of_ne same] at sleeps
      exact sound.asleep q request sleeps

/-- A process begins a call with the lock of a buffer. -/
theorem begin (sound : Sound state) {call : Call} (idle : state.stage p = .idle)
    (released : state.holder call.b = none) :
    Sound { state.setStage p (.starting call) with
      holder := update state.holder call.b (some p) } := by
  have same : (fun q => ((state.setStage p (.starting call)).stage q).request) = state.request := by
    funext q
    by_cases here : q = p
    · rw [here, State.stage_setStage_self, State.request, idle]
      rfl
    · rw [State.stage_setStage_of_ne here]
      rfl
  refine ⟨?_, ?_, ?_, sound.avail, sound.used, sound.lastAvail, sound.usedIdx, ?_, ?_,
    sound.unlocked, sound.runs⟩
  · change Owned state.desc state.free
      fun q => ((state.setStage p (.starting call)).stage q).request
    rw [same]
    exact sound.owned
  · intro q other flies
    change ((state.setStage p (.starting call)).stage q).call = some other at flies
    change update state.holder call.b (some p) other.b = some q
    by_cases here : q = p
    · rw [here, State.stage_setStage_self] at flies
      cases flies
      rw [update_self, here]
    · rw [State.stage_setStage_of_ne here] at flies
      have held := sound.calls q other flies
      have different : other.b ≠ call.b := by
        intro clash
        rw [clash, released] at held
        cases held
      rwa [update_of_ne different]
  · intro q request flies
    exact sound.info q request ((congrFun same q).symm.trans flies)
  · change Outstanding state.outstanding state.disk
      fun q => ((state.setStage p (.starting call)).stage q).request
    rw [same]
    exact sound.out
  · intro q request sleeps
    change (state.setStage p (.starting call)).stage q = .asleep request at sleeps
    by_cases here : q = p
    · rw [here, State.stage_setStage_self] at sleeps
      cases sleeps
    · rw [State.stage_setStage_of_ne here] at sleeps
      exact sound.asleep q request sleeps

/-! ## A request is handed to the device -/

/-- Three free descriptors are no descriptors of a request in flight. -/
theorem fresh_head (sound : Sound state) {request : Request}
    (idle : ∀ i ∈ request.indices, state.free i = true) (flies : state.request q = some other) :
    other.head ≠ request.head := by
  intro same
  have taken := (sound.owned.chained q other flies).taken other.head other.head_mem
  rw [idle other.head (same ▸ request.head_mem)] at taken
  cases taken

/-- The words of a request that has been submitted. -/
theorem chained_submit (desc : Nat → VRingDesc) (free : Nat → Bool)
    (three : State.Three state request.head request.data request.status) :
    Chained
      (update (update (update desc request.head (request.headDesc p))
        request.data request.dataDesc) request.status request.statusDesc)
      (update (update (update free request.head false)
        request.data false) request.status false) p request where
  low := three.low
  distinct := three.distinct
  taken i member := by
    simp only [Request.indices, mem_cons, not_mem_nil, or_false] at member
    rcases member with rfl | rfl | rfl <;> simp [update_apply]
  head := by
    have distinct := three.distinct
    simp only [List.nodup_cons, mem_cons, not_mem_nil, or_false, not_or] at distinct
    rw [update_of_ne distinct.1.2, update_of_ne distinct.1.1,
      update_self]
  data := by
    have distinct := three.distinct
    simp only [List.nodup_cons, mem_cons, not_mem_nil, or_false, not_or] at distinct
    rw [update_of_ne distinct.2.1, update_self]
  status := update_self ..

/-- The request of a call that has got three descriptors. -/
theorem submit (sound : Sound state) {stage : Stage} {polls : Bool}
    (starting : state.stage p = .starting request.call)
    (three : State.Three state request.head request.data request.status)
    (flies : stage.request = some request) :
    Sound { (State.submit { state with
        free := update (update (update state.free request.head false)
          request.data false) request.status false } p request).setStage p stage with
      lock := none, continuePolling := polls } := by
  have none : state.request p = none := by rw [State.request, starting]; rfl
  have mine : state.call p = some request.call := by rw [State.call, starting]; rfl
  have requests : (fun q => (update state.stage p stage q).request) =
      update state.request p (some request) := by
    funext q
    by_cases here : q = p
    · rw [here, update_self, update_self, flies]
    · rw [update_of_ne here, update_of_ne here]
      rfl
  have buffers : ∀ q other, state.request q = some other → other.call.b ≠ request.call.b := by
    intro q other otherFlies
    refine sound.buffers mine (Stage.call_of_request otherFlies) ?_
    rintro rfl
    rw [none] at otherFlies
    cases otherFlies
  have idle : ∀ i ∈ request.indices, state.free i = true := three.free
  refine ⟨?_, ?_, ?_, ?_, sound.used, sound.lastAvail, sound.usedIdx, ?_, ?_, ?_, sound.runs⟩
  · change Owned _ _ fun q => (update state.stage p stage q).request
    rw [requests]
    refine sound.owned.add none (chained_submit state.desc state.free three) idle ?_
    intro i outside
    simp only [Request.indices, mem_cons, not_mem_nil, or_false, not_or] at outside
    obtain ⟨notHead, notData, notStatus⟩ := outside
    simp [State.submit, State.setStage, notHead, notData, notStatus]
  · intro q call otherCall
    change (update state.stage p stage q).call = some call at otherCall
    by_cases here : q = p
    · rw [here, update_self, Stage.call_of_request flies] at otherCall
      cases otherCall
      rw [here]
      exact sound.calls p request.call mine
    · rw [update_of_ne here] at otherCall
      exact sound.calls q call otherCall
  · intro q other otherFlies
    have otherFlies : update state.request p (some request) q = some other :=
      (congrFun requests q).symm.trans otherFlies
    change update state.info request.head ⟨some request.call.b, 0⟩ other.head = _
    by_cases here : q = p
    · rw [here, update_self] at otherFlies
      cases otherFlies
      rw [update_self]
    · rw [update_of_ne here] at otherFlies
      rw [update_of_ne (sound.fresh_head idle otherFlies)]
      exact sound.info q other otherFlies
  · exact sound.avail.push sound.unread request.head
  · have low := sound.avail.window.low
    have order : (State.outstanding (State.submit state p request)).Perm
        (request.head :: state.outstanding) := by
      simp only [State.outstanding, State.submit, List.drop_append_of_le_length low,
        List.append_assoc, List.singleton_append]
      exact perm_middle
    change Outstanding _ _ fun q => (update state.stage p stage q).request
    rw [requests]
    refine (sound.out.add none ?_ buffers).perm order
    intro member
    obtain ⟨q, other, otherFlies, same, -⟩ := (sound.out.active request.head).mp member
    exact sound.fresh_head idle otherFlies same
  · intro q other sleeps
    change update state.stage p stage q = .asleep other at sleeps
    change update state.disk request.call.b true other.call.b = true
    by_cases here : q = p
    · rw [here, update_self] at sleeps
      rw [sleeps] at flies
      cases flies
      rw [update_self]
    · rw [update_of_ne here] at sleeps
      have otherFlies : state.request q = some other := by rw [State.request, sleeps]; rfl
      rw [update_of_ne (buffers q other otherFlies)]
      exact sound.asleep q other sleeps
  · intro q held
    cases held

theorem start (sound : Sound state) {call : Call} (starting : state.stage p = .starting call)
    (enough : call.recovering = true → 3 ≤ countSlots state.free num) :
    ∃ next, state.start p call = .ok next ∧ Sound next := by
  have unlocked : ∀ q, (none : Option Holder) ≠ some (.process q) := by simp
  rw [State.start]
  rcases state.alloc3Desc_spec call.recovering with
    ⟨head, data, status, three, result⟩ | ⟨next, result, nothing, few⟩
  · have submitted := @submit state p ⟨call, head, data, status⟩ sound
    rw [result]
    refine ⟨_, rfl, ?_⟩
    dsimp only
    rw [State.await]
    split
    · exact submitted starting three rfl
    · exact submitted starting three rfl
  · have normal : ¬call.recovering = true := fun recovers => by
      have enough := enough recovers
      omega
    rw [result]
    refine ⟨_, rfl, ?_⟩
    dsimp only
    rw [if_neg normal, nothing.frame]
    have stages : ∀ q, (next.stage q).request = state.request q ∧
        (next.stage q).call = state.call q ∧
        ∀ request, next.stage q = .asleep request → state.stage q = .asleep request := by
      intro q
      rcases nothing.stage q with same | woken
      · rw [same]
        exact ⟨rfl, rfl, fun _ => id⟩
      · rw [woken]
        exact ⟨Stage.request_wakeFree _, Stage.call_wakeFree _,
          fun _ => Stage.wakeFree_eq_asleep.mp⟩
    have kept : Sound { state with
        desc := next.desc, stage := next.stage, continuePolling := next.continuePolling
        lock := state.lock } :=
      sound.restage nothing.desc (fun q => (stages q).1) (fun q => (stages q).2.1)
        (fun q request sleeps => sound.asleep q request ((stages q).2.2 request sleeps))
        sound.unlocked
    refine kept.setStage ?_ ?_ (fun request asleep => by cases asleep) unlocked
    · refine Eq.trans ?_ (stages p).1.symm
      rw [State.request, starting]
      rfl
    · refine Eq.trans ?_ (stages p).2.1.symm
      rw [State.call, starting]
      rfl

/-! ## A request returns -/

/-- A request whose buffer is back gives its descriptors back. -/
theorem finish (sound : Sound state) (flies : state.request p = some request)
    (done : state.disk request.call.b = false) :
    ∃ next, state.finish p request = .ok next ∧ Sound next := by
  let cleared : State :=
    { state with
      info := update state.info request.head { state.info request.head with b := none } }
  have chained : Chained cleared.desc cleared.free p request := sound.owned.chained p request flies
  have freed : State.freeChain (num + 1) cleared request.call.recovering request.head = _ :=
    State.freeChain_chained chained 6
  obtain ⟨desc, free, polls, result, given, others⟩ :=
    cleared.freed_indices request.call.recovering request
  let stages := update (fun q => (state.stage q).wakeFree) p .idle
  have requests : (fun q => (stages q).request) = update state.request p none := by
    funext q
    by_cases here : q = p
    · rw [here, update_self]
      simp only [stages, update_self]
      rfl
    · rw [update_of_ne here]
      simp only [stages, update_of_ne here]
      exact Stage.request_wakeFree _
  rw [State.finish]
  change ∃ next, Except.map _ (State.freeChain (num + 1) cleared request.call.recovering
    request.head) = .ok next ∧ Sound next
  rw [freed, result]
  refine ⟨_, rfl, ?_, ?_, ?_, sound.avail, sound.used, sound.lastAvail, sound.usedIdx, ?_, ?_, ?_,
    sound.runs⟩
  · change Owned desc free fun q => (stages q).request
    rw [requests]
    exact sound.owned.remove flies given others
  · intro q call calls
    change (stages q).call = some call at calls
    change update state.holder request.call.b none call.b = some q
    have different : q ≠ p := by
      rintro rfl
      simp [stages, Stage.call] at calls
    have before : state.call q = some call := by
      simpa [stages, different, State.call] using calls
    rw [update_of_ne (sound.buffers (Stage.call_of_request flies) before different)]
    exact sound.calls q call before
  · intro q other otherFlies
    have otherFlies : update state.request p none q = some other :=
      (congrFun requests q).symm.trans otherFlies
    have different : q ≠ p := by
      rintro rfl
      simp at otherFlies
    rw [update_of_ne different] at otherFlies
    change cleared.info other.head = _
    simp only [cleared]
    rw [update_of_ne (sound.heads flies otherFlies different)]
    exact sound.info q other otherFlies
  · change Outstanding state.outstanding state.disk fun q => (stages q).request
    rw [requests]
    exact sound.out.remove flies done
  · intro q other sleeps
    change stages q = .asleep other at sleeps
    have different : q ≠ p := by
      rintro rfl
      simp [stages] at sleeps
    refine sound.asleep q other (Stage.wakeFree_eq_asleep.mp ?_)
    simpa [stages, different] using sleeps
  · intro q held
    cases held

/-! ## The handler -/

/-- What the handler finds is the request of one process, whose buffer still belongs to the
disk. -/
theorem completion (sound : Sound state) (found : state.Completion) :
    ∃ p request, state.request p = some request ∧ state.elems state.usedIdx = request.head ∧
      state.disk request.call.b = true ∧ state.info request.head = ⟨some request.call.b, 0⟩ ∧
      Queue state.elems state.usedId state.completed (state.acknowledged ++ [request.head]) ∧
      state.outstanding.Perm (request.head :: (state.submitted.drop state.taken.length ++
        state.pending ++ state.completed.drop (state.acknowledged ++ [request.head]).length)) := by
  have unread : state.acknowledged.length < state.completed.length := by
    refine Nat.lt_of_le_of_ne sound.used.window.low fun same => ?_
    refine found ?_
    rw [sound.usedIdx, Nat.mod_mod]
    exact (sound.used.mod_eq_iff sound.unacknowledged).mpr same
  obtain ⟨popped, order⟩ := sound.used.pop unread
  rw [← sound.usedIdx] at popped order
  have member : state.elems state.usedIdx ∈ state.outstanding := by
    rw [State.outstanding, order]
    simp
  obtain ⟨p, request, flies, same, held⟩ := (sound.out.active _).mp member
  rw [← same] at popped order
  refine ⟨p, request, flies, same.symm, held, sound.info p request flies, popped, ?_⟩
  rw [State.outstanding, order]
  exact perm_middle

/-- A turn of the loop acknowledges the request of one process. -/
theorem acknowledge_eq (sound : Sound state) (found : state.Completion) :
    ∃ p request, state.request p = some request ∧ state.elems state.usedIdx = request.head ∧
      state.disk request.call.b = true ∧
      state.acknowledge = .ok { state with
        disk := update state.disk request.call.b false
        stage :=
          if state.continuePolling then state.stage
          else fun q => (state.stage q).wakeBuf request.call.b
        usedIdx := (state.usedIdx + 1) % num
        acknowledged := state.acknowledged ++ [request.head] } := by
  obtain ⟨p, request, flies, same, held, info, -, -⟩ := sound.completion found
  refine ⟨p, request, flies, same, held, ?_⟩
  simp [State.acknowledge, same, info]

/-- Nobody sleeps on the buffer afterwards, if the process is woken or not asleep. -/
theorem acknowledge (sound : Sound state) (found : state.Completion)
    (heeded : Heeded state .acknowledge) :
    ∃ next, state.acknowledge = .ok next ∧ Sound next := by
  obtain ⟨p, request, flies, same, held, info, popped, order⟩ := sound.completion found
  let stages : Fin nproc → Stage :=
    if state.continuePolling then state.stage
    else fun q => (state.stage q).wakeBuf request.call.b
  have requests : (fun q => (stages q).request) = state.request := by
    funext q
    simp only [stages]
    split
    · rfl
    · exact Stage.request_wakeBuf _ _
  have result : state.acknowledge = .ok { state with
      disk := update state.disk request.call.b false
      stage := stages
      usedIdx := (state.usedIdx + 1) % num
      acknowledged := state.acknowledged ++ [request.head] } := by
    simp [State.acknowledge, same, info, stages]
  rw [result]
  refine ⟨_, rfl, ?_, ?_, ?_, sound.avail, popped, sound.lastAvail, ?_, ?_, ?_, sound.unlocked,
    sound.runs⟩
  · change Owned state.desc state.free fun q => (stages q).request
    rw [requests]
    exact sound.owned
  · intro q call calls
    refine sound.calls q call (Eq.trans ?_ calls)
    change state.call q = (stages q).call
    simp only [stages]
    split
    · rfl
    · exact (Stage.call_wakeBuf _ _).symm
  · intro q other otherFlies
    exact sound.info q other ((congrFun requests q).symm.trans otherFlies)
  · change (state.usedIdx + 1) % num = _
    rw [sound.usedIdx, length_append, List.length_singleton, Nat.mod_add_mod]
  · change Outstanding _ _ fun q => (stages q).request
    rw [requests]
    refine (sound.out.perm order.symm).acknowledge sound.owned flies ?_
    intro q other otherFlies different
    exact sound.buffers (Stage.call_of_request flies) (Stage.call_of_request otherFlies) different
  · intro q other sleeps
    change stages q = .asleep other at sleeps
    have apart : state.stage q = .asleep other ∧ other.call.b ≠ request.call.b := by
      simp only [stages] at sleeps
      split at sleeps
      next polls =>
        rcases heeded polls q with awake | outside
        · rw [sleeps] at awake
          cases awake
        · rw [sleeps, same, info] at outside
          exact ⟨sleeps, fun clash => outside (congrArg some clash)⟩
      next => exact Stage.wakeBuf_eq_asleep.mp sleeps
    change update state.disk request.call.b false other.call.b = true
    rw [update_of_ne apart.2]
    exact sound.asleep q other apart.1

/-! ## The device -/

theorem take (sound : Sound state) (filled : state.lastAvail ≠ state.availIdx) :
    Sound state.take := by
  have unread : state.taken.length < state.submitted.length := by
    refine Nat.lt_of_le_of_ne sound.avail.window.low fun same => filled ?_
    rw [sound.lastAvail, sound.avail.count, same]
  obtain ⟨popped, order⟩ := sound.avail.pop unread
  have cell : state.lastAvail.toNat % num = state.taken.length % num := by
    rw [sound.lastAvail, ofNat16_mod num_dvd]
  refine ⟨sound.owned, sound.calls, sound.info, ?_, sound.used, ?_, sound.usedIdx, ?_, sound.asleep,
    sound.unlocked, sound.runs⟩
  · simp only [State.take, cell]
    exact popped
  · simp only [State.take]
    rw [sound.lastAvail, ofNat16_succ, length_append, List.length_singleton]
  · refine sound.out.perm ?_
    simp only [State.take, State.outstanding, cell]
    rw [order, List.append_assoc, List.append_assoc, List.cons_append]
    exact perm_middle

theorem complete (sound : Sound state) {head : Nat} (member : head ∈ state.pending) :
    Sound (state.complete head) := by
  have order : (state.complete head).outstanding.Perm state.outstanding := by
    have low := sound.used.window.low
    simp only [State.complete, State.outstanding, List.drop_append_of_le_length low]
    have back : ((state.pending.erase head) ++ (state.completed.drop state.acknowledged.length ++
        [head])).Perm (state.pending ++ state.completed.drop state.acknowledged.length) := by
      have moved := List.perm_append_singleton head
        (state.pending.erase head ++ state.completed.drop state.acknowledged.length)
      rw [List.append_assoc] at moved
      refine moved.trans ?_
      rw [← List.cons_append]
      exact (List.perm_cons_erase member).symm.append_right _
    rw [List.append_assoc, List.append_assoc]
    exact back.append_left _
  have status : ∀ id, (state.complete head).info id = state.info id ∨
      (state.complete head).info id = { state.info id with status := 0 } := by
    intro id
    cases last : (state.desc (state.desc (state.desc head).next).next).addr with
    | status written =>
      simp only [State.complete, last]
      by_cases same : id = written
      · rw [same, update_self]
        exact .inr rfl
      · rw [update_of_ne same]
        exact .inl rfl
    | _ =>
      simp only [State.complete, last]
      exact .inl trivial
  refine ⟨sound.owned, sound.calls, ?_, sound.avail, ?_, sound.lastAvail, sound.usedIdx,
    sound.out.perm order, sound.asleep, sound.unlocked, sound.runs⟩
  · intro p request flies
    have info := sound.info p request flies
    rcases status request.head with same | same
    · rw [same, info]
    · rw [same, info]
  · exact sound.used.push sound.unacknowledged head

/-! ## Steps -/

theorem booted : Sound booted := by
  have none : ∀ p, State.request VirtioDisk.booted p = none := fun _ => rfl
  refine ⟨⟨?_, ?_, ?_⟩, ?_, ?_, ⟨.empty num _, rfl, rfl⟩, ⟨.empty num _, rfl, rfl⟩, rfl, rfl,
    ⟨List.nodup_nil, ?_⟩, ?_, ?_, rfl⟩
  · intro p request flies
    cases flies
  · intro p q request other flies
    cases flies
  · intro i low taken
    cases taken
  · intro p call calls
    cases calls
  · intro p request flies
    cases flies
  · intro head
    constructor
    · intro member
      cases member
    · rintro ⟨p, request, flies, -⟩
      cases flies
  · intro p request sleeps
    cases sleeps
  · intro p held
    cases held

theorem step (sound : Sound state) {label : Label} (heeded : Heeded state label)
    (taken : step state label = some next) : Sound next := by
  obtain ⟨-, taken⟩ := Option.ite_none_left_eq_some.mp taken
  have free : ∀ q, (none : Option Holder) ≠ some (.process q) := by simp
  cases label with
  | call p call =>
    obtain ⟨⟨idle, released⟩, result⟩ := ite_none_right_eq_some.mp taken
    cases result
    exact sound.begin idle released
  | start p =>
    cases stage : state.stage p with
    | starting call =>
      simp only [stage] at taken
      obtain ⟨-, result⟩ := ite_none_right_eq_some.mp taken
      have enough : call.recovering = true → 3 ≤ countSlots state.free num := by
        simpa [Heeded, stage, Stage.recovers] using heeded
      obtain ⟨after, started, kept⟩ := sound.start stage enough
      rw [started] at result
      exact Option.some.inj result ▸ kept
    | stuck call =>
      simp only [stage] at taken
      obtain ⟨held, -⟩ := ite_none_right_eq_some.mp taken
      exact absurd held (sound.unlocked p)
    | _ =>
      simp only [stage] at taken
      cases taken
  | kill p =>
    cases taken
    exact sound.setStage (Stage.request_kill _) (Stage.call_kill _)
      (fun request sleeps => absurd sleeps (Stage.kill_ne_asleep _ request)) sound.unlocked
  | resume p =>
    cases stage : state.stage p with
    | awake request =>
      simp only [stage] at taken
      obtain ⟨-, taken⟩ := Option.ite_none_left_eq_some.mp taken
      have flies : state.request p = some request := by rw [State.request, stage]; rfl
      have calls : state.call p = some request.call := Stage.call_of_request flies
      by_cases held : state.disk request.call.b = true
      · rw [if_pos held] at taken
        cases taken
        rw [State.await]
        split
        · exact sound.setStage flies.symm calls.symm (fun _ sleeps => by cases sleeps) free
        · refine sound.setStage flies.symm calls.symm (fun other sleeps => ?_) free
          cases sleeps
          exact held
      · rw [if_neg held] at taken
        obtain ⟨after, finished, kept⟩ := sound.finish flies (by simpa using held)
        rw [finished] at taken
        exact Option.some.inj taken ▸ kept
    | _ =>
      simp only [stage] at taken
      cases taken
  | poll p =>
    cases stage : state.stage p with
    | polling request =>
      simp only [stage] at taken
      have flies : state.request p = some request := by rw [State.request, stage]; rfl
      have polls : ∀ polls, Sound { state with continuePolling := polls } := fun polls =>
        sound.restage (fun _ _ => rfl) (fun _ => rfl) (fun _ => rfl) sound.asleep sound.unlocked
      by_cases held : state.disk request.call.b = true
      · rw [if_pos held] at taken
        exact Option.some.inj taken ▸ polls true
      · rw [if_neg held] at taken
        obtain ⟨-, taken⟩ := Option.ite_none_left_eq_some.mp taken
        obtain ⟨after, finished, kept⟩ := (polls false).finish flies (by simpa using held)
        rw [finished] at taken
        exact Option.some.inj taken ▸ kept
    | _ =>
      simp only [stage] at taken
      cases taken
  | take =>
    obtain ⟨filled, result⟩ := ite_none_right_eq_some.mp taken
    exact Option.some.inj result ▸ sound.take filled
  | complete head =>
    obtain ⟨member, result⟩ := ite_none_right_eq_some.mp taken
    exact Option.some.inj result ▸ sound.complete member
  | interrupt =>
    obtain ⟨-, result⟩ := ite_none_right_eq_some.mp taken
    cases result
    refine sound.restage (fun _ _ => rfl) (fun _ => rfl) (fun _ => rfl) sound.asleep ?_
    simp
  | acknowledge =>
    obtain ⟨⟨-, found⟩, result⟩ := ite_none_right_eq_some.mp taken
    obtain ⟨after, acknowledged, kept⟩ := sound.acknowledge found heeded
    rw [acknowledged] at result
    exact Option.some.inj result ▸ kept
  | handled =>
    obtain ⟨-, result⟩ := ite_none_right_eq_some.mp taken
    cases result
    exact sound.restage (fun _ _ => rfl) (fun _ => rfl) (fun _ => rfl) sound.asleep free

end Sound

/-! ## The driver in order -/

/-- What the driver promises in a state. -/
structure Orderly (state : State) : Prop where
  chained : ∀ p request, state.request p = some request → Chained state.desc state.free p request
  apart : ∀ p q request other, state.request p = some request → state.request q = some other →
    p ≠ q → ∀ i ∈ request.indices, i ∉ other.indices
  owned : ∀ i < num, state.free i = false ↔
    ∃ p request, state.request p = some request ∧ i ∈ request.indices
  threeOrNone : ∀ recovering,
    (∃ first second third next, State.Three state first second third ∧
      state.alloc3Desc recovering = .ok (next, some (first, second, third)) ∧
      ∀ i, next.free i = false ↔ state.free i = false ∨ i ∈ [first, second, third]) ∨
    ∃ next, state.alloc3Desc recovering = .ok (next, none) ∧ next.free = state.free
  runs : state.fault = none
  inOrder : state.acknowledged <+: state.completed
  allDone : ¬state.Completion ↔ state.acknowledged = state.completed
  acknowledges : state.Completion → ∃ p request next,
    state.request p = some request ∧ state.elems state.usedIdx = request.head ∧
      state.disk request.call.b = true ∧ state.acknowledge = .ok next ∧
      next.disk request.call.b = false ∧
      next.acknowledged = state.acknowledged ++ [request.head] ∧
      ∀ q ≠ p, next.stage q = state.stage q
  woken : ∀ p request, state.stage p = .asleep request → state.disk request.call.b = true
  unlocked : ∀ p, state.lock ≠ some (.process p)

/-- A process that waits for another buffer is not woken. -/
theorem Stage.wakeBuf_of_ne {stage : Stage} {b : Nat}
    (different : ∀ request, stage.request = some request → request.call.b ≠ b) :
    stage.wakeBuf b = stage := by
  cases stage with
  | asleep request => exact if_neg (different request rfl)
  | _ => rfl

theorem Sound.orderly {state : State} (sound : Sound state) : Orderly state where
  chained := sound.owned.chained
  apart := sound.owned.apart
  owned i low := by
    refine ⟨sound.owned.owner i low, ?_⟩
    rintro ⟨p, request, flies, member⟩
    exact (sound.owned.chained p request flies).taken i member
  threeOrNone recovering := by
    rcases state.alloc3Desc_spec recovering with
      ⟨first, second, third, three, result⟩ | ⟨next, result, nothing, -⟩
    · refine .inl ⟨first, second, third, _, three, result, fun i => ?_⟩
      simp only [update_apply, mem_cons, not_mem_nil, or_false]
      by_cases isThird : i = third
      · simp [isThird]
      · by_cases isSecond : i = second
        · simp [isSecond]
        · by_cases isFirst : i = first
          · simp [isFirst]
          · simp [isThird, isSecond, isFirst]
    · refine .inr ⟨next, result, ?_⟩
      rw [nothing.frame]
  runs := sound.runs
  inOrder := by
    rw [sound.used.order]
    exact List.take_prefix _ _
  allDone := by
    rw [sound.used.read_eq, ← sound.used.mod_eq_iff sound.unacknowledged, State.Completion,
      sound.usedIdx, Nat.mod_mod, not_not]
  acknowledges found := by
    obtain ⟨p, request, flies, same, held, result⟩ := sound.acknowledge_eq found
    refine ⟨p, request, _, flies, same, held, result, update_self .., rfl, ?_⟩
    intro q different
    dsimp only
    split
    · rfl
    · refine Stage.wakeBuf_of_ne fun other otherFlies => ?_
      exact sound.buffers (Stage.call_of_request flies) (Stage.call_of_request otherFlies) different
  woken := sound.asleep
  unlocked := sound.unlocked

/-- In every run whose steps are heeded the driver is in order. -/
theorem orderly_of_heeded {events : List Label} {state : State}
    (runs : (system.guarded Heeded).Runs events state) : Orderly state := by
  have sound : Sound state := by
    refine runs.invariant Sound ?_ ?_
    · rintro state rfl
      exact Sound.booted
    · intro state label next sound taken
      exact sound.step taken.1 taken.2
  exact sound.orderly

/-- Process 0 reads a buffer and process 1 writes one, and the device is done with the second
request first. -/
def reading : List Label :=
  [.call 0 ⟨1, false, false⟩, .start 0, .call 1 ⟨2, true, false⟩, .start 1, .take, .take,
    .complete 3, .complete 0, .interrupt, .acknowledge, .acknowledge, .handled, .resume 0, .resume 1]

theorem orderly_of_heeded_reading : ∃ state, (system.guarded Heeded).Runs reading state ∧
    Orderly state ∧ state.acknowledged = [3, 0] ∧ state.stage 0 = .idle ∧ state.stage 1 = .idle := by
  have found : (LabelledSystem.exec (LabelledSystem.checked Heeded step) booted reading).any
      (fun state => state.acknowledged = [3, 0] ∧ state.stage 0 = .idle ∧ state.stage 1 = .idle) =
        true := by
    decide +kernel
  obtain ⟨state, result, facts⟩ := (any_eq_true _ _).mp found
  have runs : (system.guarded Heeded).Runs reading state :=
    .of_checked_exec rfl result
  exact ⟨state, runs, orderly_of_heeded runs, of_decide_eq_true facts⟩

/-- Process 1 is recovering and polls when the request of process 0 is acknowledged. -/
def polledAway : List Label :=
  [.call 0 ⟨1, false, false⟩, .start 0, .call 1 ⟨2, false, true⟩, .start 1, .take, .complete 0,
    .interrupt, .acknowledge]

/-- Process 0 sleeps on although its request has been acknowledged. -/
theorem issuer_not_woken : ¬∀ events state, system.Runs events state → Orderly state := by
  intro always
  have found : (LabelledSystem.exec step booted polledAway).any (fun state =>
      (state.stage 0).sleepsOn = some 1 ∧ state.disk 1 = false) = true := by
    decide +kernel
  obtain ⟨state, result, facts⟩ := (any_eq_true _ _).mp found
  obtain ⟨sleeps, done⟩ := of_decide_eq_true facts
  have orderly := always polledAway state (.of_exec rfl result)
  cases stage : state.stage 0 with
  | asleep request =>
    rw [stage] at sleeps
    have held := orderly.woken 0 request stage
    rw [Option.some.inj sleeps, done] at held
    cases held
  | _ =>
    rw [stage] at sleeps
    cases sleeps

end Ev6.VirtioDisk
