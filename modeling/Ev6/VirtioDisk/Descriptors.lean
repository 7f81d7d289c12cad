import Ev6.VirtioDisk.Driver

/-!
# Descriptors of the disk

What `alloc3_desc` and `free_chain` do. `alloc3_desc` takes three descriptors or leaves
them as they are, and fails only if fewer than three are free.
-/

namespace Ev6.VirtioDisk

open Function (update update_apply update_eq_self update_idem update_of_ne update_self)
open Support

/-! ## Wakeups -/

namespace Stage

/-- The request that waits for the device. -/
def request : Stage → Option Request
  | .asleep request | .awake request | .polling request => some request
  | _ => none

/-- The call that is under way. -/
def call : Stage → Option Call
  | .idle => none
  | .starting call | .short call | .stuck call => some call
  | .asleep request | .awake request | .polling request => some request.call

@[simp] theorem wakeFree_wakeFree (stage : Stage) : stage.wakeFree.wakeFree = stage.wakeFree := by
  cases stage <;> rfl

@[simp] theorem request_wakeFree (stage : Stage) : stage.wakeFree.request = stage.request := by
  cases stage <;> rfl

@[simp] theorem call_wakeFree (stage : Stage) : stage.wakeFree.call = stage.call := by
  cases stage <;> rfl

@[simp] theorem request_wakeBuf (stage : Stage) (b : Nat) :
    (stage.wakeBuf b).request = stage.request := by
  cases stage with
  | asleep request =>
    rw [wakeBuf]
    split <;> rfl
  | _ => rfl

@[simp] theorem call_wakeBuf (stage : Stage) (b : Nat) : (stage.wakeBuf b).call = stage.call := by
  cases stage with
  | asleep request =>
    rw [wakeBuf]
    split <;> rfl
  | _ => rfl

@[simp] theorem request_kill (stage : Stage) : stage.kill.request = stage.request := by
  cases stage <;> rfl

@[simp] theorem call_kill (stage : Stage) : stage.kill.call = stage.call := by
  cases stage <;> rfl

/-- Freeing a descriptor wakes nobody who waits for the device. -/
@[simp] theorem wakeFree_eq_asleep {stage : Stage} {request : Request} :
    stage.wakeFree = .asleep request ↔ stage = .asleep request := by
  cases stage <;> simp [wakeFree]

/-- A process still asleep waits for another buffer. -/
theorem wakeBuf_eq_asleep {stage : Stage} {b : Nat} {request : Request} :
    stage.wakeBuf b = .asleep request ↔ stage = .asleep request ∧ request.call.b ≠ b := by
  cases stage with
  | asleep other =>
    rw [wakeBuf]
    split
    next same =>
      constructor
      · intro asleep
        cases asleep
      · rintro ⟨asleep, different⟩
        cases asleep
        exact absurd same different
    next different =>
      constructor
      · intro asleep
        cases asleep
        exact ⟨rfl, different⟩
      · exact And.left
  | _ => simp [wakeBuf]

theorem kill_ne_asleep (stage : Stage) (request : Request) : stage.kill ≠ .asleep request := by
  cases stage <;> simp [kill]

end Stage

namespace State

variable {state next : State} {recovering : Bool}

@[simp] theorem stage_setStage_self (state : State) (p : Fin nproc) (stage : Stage) :
    (state.setStage p stage).stage p = stage :=
  update_self ..

@[simp] theorem stage_setStage_of_ne {p q : Fin nproc} (different : q ≠ p) (stage : Stage) :
    (state.setStage p stage).stage q = state.stage q :=
  update_of_ne different ..

/-! ## Freeing -/

theorem freed_eq (state : State) (recovering : Bool) (i : Nat) :
    state.freed recovering i =
      { state with
        desc := update state.desc i { state.desc i with addr := .zero }
        free := update state.free i true
        stage := fun p => (state.stage p).wakeFree
        continuePolling := if recovering then false else state.continuePolling } := by
  cases recovering with
  | false => simp [freed, wakeupFree]
  | true =>
    cases polls : state.continuePolling <;> simp [freed, wakeupFree, polls]

theorem freeDesc_taken {i : Nat} (low : i < num) (taken : state.free i = false) :
    state.freeDesc recovering i = .ok (state.freed recovering i) := by
  simp [freeDesc, Nat.not_le.mpr low, taken]

theorem freeChain_next {i count : Nat} (low : i < num) (taken : state.free i = false)
    (goes : (state.desc i).flags &&& vringDescFNext ≠ 0) :
    freeChain (count + 1) state recovering i =
      freeChain count (state.freed recovering i) recovering (state.desc i).next := by
  have kept : (state.freed recovering i).desc i = { state.desc i with addr := .zero } := by
    simp [freed_eq]
  rw [freeChain, freeDesc_taken low taken, Except.bind, kept, if_pos goes]

theorem freeChain_last {i count : Nat} (low : i < num) (taken : state.free i = false)
    (ends : (state.desc i).flags &&& vringDescFNext = 0) :
    freeChain (count + 1) state recovering i = .ok (state.freed recovering i) := by
  have kept : (state.freed recovering i).desc i = { state.desc i with addr := .zero } := by
    simp [freed_eq]
  rw [freeChain, freeDesc_taken low taken, Except.bind, kept, if_neg (not_not.mpr ends)]

end State

/-- The indices of the descriptors of a request. -/
def Request.indices (request : Request) : List Nat := [request.head, request.data, request.status]

/-- The descriptors of a request: the first one leads to the data and this to the status. -/
structure Chained (desc : Nat → VRingDesc) (free : Nat → Bool) (p : Fin nproc)
    (request : Request) : Prop where
  low : ∀ i ∈ request.indices, i < num
  distinct : request.indices.Nodup
  taken : ∀ i ∈ request.indices, free i = false
  head : desc request.head = request.headDesc p
  data : desc request.data = request.dataDesc
  status : desc request.status = request.statusDesc

namespace State

variable {state next : State} {recovering : Bool}

/-- `free_chain` on the descriptors of a request. -/
theorem freeChain_chained {p : Fin nproc} {request : Request}
    (chained : Chained state.desc state.free p request) (count : Nat) :
    freeChain (count + 3) state recovering request.head =
      .ok (((state.freed recovering request.head).freed recovering request.data).freed
        recovering request.status) := by
  obtain ⟨⟨headData, headStatus⟩, dataStatus⟩ :
      (request.head ≠ request.data ∧ request.head ≠ request.status) ∧
        request.data ≠ request.status := by
    simpa [Request.indices] using chained.distinct
  obtain ⟨lowHead, lowData, lowStatus⟩ :
      request.head < num ∧ request.data < num ∧ request.status < num := by
    simpa [Request.indices] using chained.low
  obtain ⟨takenHead, takenData, takenStatus⟩ :
      state.free request.head = false ∧ state.free request.data = false ∧
        state.free request.status = false := by
    simpa [Request.indices] using chained.taken
  have second : (state.freed recovering request.head).desc request.data = request.dataDesc := by
    simp [freed_eq, headData.symm, chained.data]
  have third : ((state.freed recovering request.head).freed recovering request.data).desc
      request.status = request.statusDesc := by
    simp [freed_eq, headStatus.symm, dataStatus.symm, chained.status]
  have goes : (state.desc request.head).flags &&& vringDescFNext ≠ 0 := by
    rw [chained.head]
    simp [Request.headDesc, vringDescFNext]
  have goesOn : request.dataDesc.flags &&& vringDescFNext ≠ 0 := by
    simp only [Request.dataDesc]
    cases request.call.write <;> decide
  rw [freeChain_next lowHead takenHead goes, chained.head, Request.headDesc,
    freeChain_next lowData (by simp [freed_eq, headData.symm, takenData]) (by rwa [second]),
    second, Request.dataDesc,
    freeChain_last lowStatus (by simp [freed_eq, headStatus.symm, dataStatus.symm, takenStatus])]
  have ends : vringDescFWrite &&& vringDescFNext = 0 := by decide
  rw [third]
  exact ends

/-- Freeing the descriptors of a request wakes the processes that wait for descriptors. -/
theorem freed_indices (state : State) (recovering : Bool) (request : Request) :
    ∃ desc free polls, ((state.freed recovering request.head).freed recovering request.data).freed
        recovering request.status =
        { state with
          desc := desc, free := free, stage := fun p => (state.stage p).wakeFree
          continuePolling := polls } ∧
      (∀ i ∈ request.indices, free i = true) ∧
      ∀ i, i ∉ request.indices → desc i = state.desc i ∧ free i = state.free i := by
  let freed := ((state.freed recovering request.head).freed recovering request.data).freed
    recovering request.status
  refine ⟨freed.desc, freed.free, freed.continuePolling, ?_, ?_, ?_⟩
  · simp only [freed, freed_eq, Stage.wakeFree_wakeFree]
  · intro i member
    simp only [freed, freed_eq]
    simp only [Request.indices, List.mem_cons, List.not_mem_nil, or_false] at member
    rcases member with rfl | rfl | rfl <;> simp [update_apply]
  · intro i outside
    obtain ⟨notHead, notData, notStatus⟩ :
        i ≠ request.head ∧ i ≠ request.data ∧ i ≠ request.status := by
      simpa [Request.indices] using outside
    simp [freed, freed_eq, notHead, notData, notStatus]

/-! ## Taking -/

/-- Three descriptors that can be taken. -/
structure Three (state : State) (first second third : Nat) : Prop where
  low : ∀ i ∈ [first, second, third], i < num
  distinct : [first, second, third].Nodup
  free : ∀ i ∈ [first, second, third], state.free i = true

/-- The state in which nothing has been taken: sleepers may have been woken, and the
addresses of free descriptors have been cleared. -/
structure TakesNone (state next : State) : Prop where
  frame : next = { state with
    desc := next.desc, stage := next.stage, continuePolling := next.continuePolling }
  desc : ∀ i, state.free i = false → next.desc i = state.desc i
  stage : ∀ p, next.stage p = state.stage p ∨ next.stage p = (state.stage p).wakeFree

theorem allocDesc_none (none : state.allocDesc = none) : countSlots state.free num = 0 := by
  have missed := firstSlot_eq_none.mp (Option.map_eq_none_iff.mp none)
  refine List.countP_eq_zero.mpr fun i member => ?_
  simp [missed i (List.mem_range.mp member)]

theorem allocDesc_some {i : Nat} (found : state.allocDesc = some (i, next)) :
    i < num ∧ state.free i = true ∧
      next = { state with free := update state.free i false } ∧
      countSlots next.free num + 1 = countSlots state.free num := by
  obtain ⟨slot, first, same⟩ := Option.map_eq_some_iff.mp found
  cases same
  obtain ⟨low, free, -⟩ := firstSlot_eq_some.mp first
  exact ⟨low, free, rfl, countSlots_update low free⟩

/-- `alloc3_desc` takes three free descriptors, or fewer than three are free and it takes
none. -/
theorem alloc3Desc_spec (state : State) (recovering : Bool) :
    (∃ first second third, Three state first second third ∧
      state.alloc3Desc recovering = .ok ({ state with
        free := update (update (update state.free
          first false) second false) third false }, some (first, second, third))) ∨
    ∃ next, state.alloc3Desc recovering = .ok (next, none) ∧ TakesNone state next ∧
      countSlots state.free num < 3 := by
  rw [alloc3Desc]
  cases one : state.allocDesc with
  | none =>
    refine .inr ⟨state, rfl, ⟨rfl, fun _ _ => rfl, fun _ => .inl rfl⟩, ?_⟩
    rw [allocDesc_none one]
    decide
  | some found =>
    obtain ⟨first, afterOne⟩ := found
    obtain ⟨lowFirst, freeFirst, rfl, countFirst⟩ := allocDesc_some one
    dsimp only
    cases two : State.allocDesc { state with free := update state.free first false } with
    | none =>
      -- The first one goes back.
      have back : update (update state.free first false) first true =
          state.free := by
        rw [update_idem, ← freeFirst, update_eq_self]
      have few := allocDesc_none two
      dsimp only at few countFirst ⊢
      rw [freeDesc_taken lowFirst (by simp)]
      refine .inr ⟨_, rfl, ⟨?_, ?_, ?_⟩, by omega⟩
      · simp [freed_eq, back]
      · intro i taken
        have other : i ≠ first := by
          rintro rfl
          simp [freeFirst] at taken
        simp [freed_eq, other]
      · intro p
        exact .inr (by simp [freed_eq])
    | some found =>
      obtain ⟨second, afterTwo⟩ := found
      obtain ⟨lowSecond, freeSecond, rfl, countSecond⟩ := allocDesc_some two
      dsimp only at freeSecond countFirst countSecond ⊢
      have apart : second ≠ first := by
        rintro rfl
        simp at freeSecond
      rw [update_of_ne apart] at freeSecond
      cases three : State.allocDesc { state with
          free := update (update state.free first false) second false } with
      | none =>
        -- Both go back, in the order in which they were taken.
        have back : update (update (update (update
            state.free first false) second false) first true) second true = state.free := by
          funext i
          by_cases isSecond : i = second
          · rw [isSecond, update_self, freeSecond]
          · by_cases isFirst : i = first
            · rw [update_of_ne isSecond, isFirst, update_self, freeFirst]
            · simp [isSecond, isFirst]
        have few := allocDesc_none three
        dsimp only at few countFirst countSecond ⊢
        rw [freeDesc_taken lowFirst (by simp [apart.symm])]
        dsimp only [Except.bind]
        rw [freeDesc_taken lowSecond (by simp [freed_eq, apart])]
        refine .inr ⟨_, rfl, ⟨?_, ?_, ?_⟩, by omega⟩
        · simp [freed_eq, back]
        · intro i taken
          have notFirst : i ≠ first := by
            rintro rfl
            simp [freeFirst] at taken
          have notSecond : i ≠ second := by
            rintro rfl
            simp [freeSecond] at taken
          simp [freed_eq, notFirst, notSecond]
        · intro p
          exact .inr (by simp [freed_eq])
      | some found =>
        obtain ⟨third, afterThree⟩ := found
        obtain ⟨lowThird, freeThird, rfl, -⟩ := allocDesc_some three
        dsimp only at freeThird ⊢
        have notSecond : third ≠ second := by
          rintro rfl
          simp at freeThird
        have notFirst : third ≠ first := by
          rintro rfl
          simp [notSecond] at freeThird
        rw [update_of_ne notSecond, update_of_ne notFirst] at freeThird
        refine .inl ⟨first, second, third, ⟨?_, ?_, ?_⟩, rfl⟩
        · simp [lowFirst, lowSecond, lowThird]
        · simp [apart.symm, notFirst.symm, notSecond.symm]
        · simp [freeFirst, freeSecond, freeThird]

end State

end Ev6.VirtioDisk
