/-!
# Loops that leave with a result

A loop body either leaves the loop or goes round again with a new state. `loop`
runs a body for at most the given number of passes; `none` means that this
number was too small.
-/

namespace Ev6.Support

universe u v

/-- The outcome of one pass through a loop body. -/
inductive Pass (State : Type u) (Result : Type v) where
  | leave (result : Result)
  | again (state : State)

variable {State : Type u} {Result : Type v}

/-- Run a loop body for at most `fuel` passes. -/
def loop (body : State → Pass State Result) : Nat → State → Option Result
  | 0, _ => none
  | fuel + 1, state =>
    match body state with
    | .leave result => some result
    | .again next => loop body fuel next

variable {result : Result} {state : State} {body : State → Pass State Result}

/-- A pass that leaves the loop gives its result. -/
theorem loop_leave (left : body state = .leave result) (fuel : Nat) :
    loop body (fuel + 1) state = some result := by
  simp [loop, left]

/-- A pass that goes round again continues with its state. -/
theorem loop_again {next : State} (again : body state = .again next) (fuel : Nat) :
    loop body (fuel + 1) state = loop body fuel next := by
  simp [loop, again]

variable {fuel : Nat}

/-- More passes than needed change nothing. -/
theorem loop_mono {more : Nat} (enough : fuel ≤ more) (left : loop body fuel state = some result) :
    loop body more state = some result := by
  induction fuel generalizing more state with
  | zero => cases left
  | succ fuel ih =>
    obtain ⟨rest, rfl⟩ : ∃ rest, more = rest + 1 := ⟨more - 1, by omega⟩
    cases pass : body state with
    | leave early =>
      rw [loop_leave pass] at left ⊢
      exact left
    | again next =>
      rw [loop_again pass] at left ⊢
      exact ih (Nat.le_of_succ_le_succ enough) left

/-- The result does not depend on the number of passes allowed. -/
theorem loop_unique {more : Nat} {first second : Result} (left : loop body fuel state = some first)
    (right : loop body more state = some second) : first = second := by
  have one := loop_mono (Nat.le_max_left fuel more) left
  have two := loop_mono (Nat.le_max_right fuel more) right
  exact Option.some.inj (one.symm.trans two)

/-- What every pass keeps, or leaves with, the result has. -/
theorem loop_invariant (Inv : State → Prop) (good : Result → Prop)
    (pass : ∀ state, Inv state → (∃ result, body state = .leave result ∧ good result) ∨
      ∃ next, body state = .again next ∧ Inv next) (start : Inv state)
    (left : loop body fuel state = some result) : good result := by
  induction fuel generalizing state with
  | zero => cases left
  | succ fuel ih =>
    rcases pass state start with ⟨early, leaves, fine⟩ | ⟨next, again, kept⟩
    · rw [loop_leave leaves] at left
      exact Option.some.inj left ▸ fine
    · rw [loop_again again] at left
      exact ih kept left

/-- The states through which a loop goes. -/
inductive Reached (body : State → Pass State Result) (first : State) : State → Prop where
  | start : Reached body first first
  | again {state next : State} (before : Reached body first state)
      (pass : body state = .again next) : Reached body first next

/-- What every pass keeps that a loop reaches, or leaves with, the result has. -/
theorem loop_invariant_reached (Inv : State → Prop) (good : Result → Prop) {first : State}
    (pass : ∀ state, Reached body first state → Inv state →
      (∃ result, body state = .leave result ∧ good result) ∨
        ∃ next, body state = .again next ∧ Inv next)
    (start : Inv first) (left : loop body fuel first = some result) : good result := by
  refine loop_invariant (fun state => Reached body first state ∧ Inv state) good ?_
    ⟨.start, start⟩ left
  rintro state ⟨reached, holds⟩
  refine (pass state reached holds).imp_right ?_
  rintro ⟨next, again, kept⟩
  exact ⟨next, again, reached.again again, kept⟩

/-- A stretch of passes that goes through a sequence of states. -/
theorem loop_advance (along : Nat → State) {count : Nat}
    (passes : ∀ index < count, body (along index) = .again (along (index + 1))) (fuel : Nat) :
    loop body (fuel + count) (along 0) = loop body fuel (along count) := by
  induction count generalizing along with
  | zero => rfl
  | succ count ih =>
    have first := loop_again (passes 0 (Nat.succ_pos count)) (fuel + count)
    have rest := ih (fun index => along (index + 1))
      fun index low => passes (index + 1) (Nat.succ_lt_succ low)
    rw [← Nat.add_assoc, first]
    exact rest

/-- Two states that the body treats alike run alike. -/
theorem loop_congr {first second : State} (same : body first = body second) (fuel : Nat) :
    loop body fuel first = loop body fuel second := by
  cases fuel with
  | zero => rfl
  | succ fuel => simp [loop, same]

/-- How a loop passes through a list of states to `stop`: at a hit it leaves with
`result`, and otherwise it goes on in a state that its body treats like the next
one of the list. -/
def Route (body : State → Pass State Result) (hit : State → Bool) (result : State → Result) :
    List State → State → Prop
  | [], _ => True
  | state :: rest, stop =>
    (if hit state then body state = .leave (result state)
      else ∃ next, body state = .again next ∧ body next = body (rest.headD stop)) ∧
    Route body hit result rest stop

section Route

variable {body : State → Pass State Result} {hit : State → Bool} {result : State → Result}

variable {stop : State}

/-- Routes may be joined where the body treats their ends alike. -/
theorem Route.append {front back : List State} {middle : State}
    (first : Route body hit result front middle) (second : Route body hit result back stop)
    (join : body middle = body (back.headD stop)) : Route body hit result (front ++ back) stop := by
  induction front with
  | nil => exact second
  | cons state front ih =>
    obtain ⟨here, rest⟩ := first
    refine ⟨?_, ih rest⟩
    cases front with
    | nil => simpa [join] using here
    | cons next front => exact here

/-- A loop leaves at the first hit of its route. -/
theorem loop_route_hit {states : List State} {state : State}
    (route : Route body hit result states stop) (found : states.find? hit = some state)
    {fuel : Nat} (enough : states.length ≤ fuel) :
    loop body fuel (states.headD stop) = some (result state) := by
  induction states generalizing fuel with
  | nil => cases found
  | cons first rest ih =>
    obtain ⟨here, behind⟩ := route
    obtain ⟨more, rfl⟩ : ∃ more, fuel = more + 1 := by
      cases fuel with
      | zero => cases enough
      | succ more => exact ⟨more, rfl⟩
    by_cases holds : hit first = true
    · rw [List.find?_cons_of_pos holds] at found
      cases found
      rw [if_pos holds] at here
      exact loop_leave here more
    · rw [List.find?_cons_of_neg holds] at found
      rw [if_neg holds] at here
      obtain ⟨next, again, same⟩ := here
      rw [List.headD_cons, loop_again again, loop_congr same]
      exact ih behind found (Nat.le_of_succ_le_succ enough)

/-- A loop whose route has no hit arrives at its end. -/
theorem loop_route_none {states : List State}
    (route : Route body hit result states stop) (missed : ∀ state ∈ states, hit state = false)
    (fuel : Nat) : loop body (fuel + states.length) (states.headD stop) = loop body fuel stop := by
  induction states with
  | nil => rfl
  | cons first rest ih =>
    obtain ⟨here, behind⟩ := route
    have other : ¬hit first = true := by simp [missed first List.mem_cons_self]
    rw [if_neg other] at here
    obtain ⟨next, again, same⟩ := here
    have later := ih behind fun state member => missed state (List.mem_cons_of_mem first member)
    rw [List.headD_cons, List.length_cons, ← Nat.add_assoc, loop_again again, loop_congr same]
    exact later

end Route

/-! ## Counted loops that may fail -/

section Counted

variable {body : State → Nat → Option State} {Inv : Nat → State → Prop} {count : Nat}
  {state : State}

/-- What every round of a counted loop keeps holds at its end. -/
theorem foldlM_range_invariant {after : State} (start : Inv 0 state)
    (round : ∀ index < count, ∀ here next, Inv index here → body here index = some next →
      Inv (index + 1) next)
    (done : (List.range count).foldlM body state = some after) : Inv count after := by
  induction count generalizing after with
  | zero =>
    cases done
    exact start
  | succ count ih =>
    rw [List.range_succ, List.foldlM_append] at done
    obtain ⟨here, before, last⟩ := Option.bind_eq_some_iff.mp done
    have held := ih (fun index low => round index (Nat.lt_succ_of_lt low)) before
    refine round count (Nat.lt_succ_self count) here after held ?_
    simpa using last

/-- A counted loop none of whose rounds fails comes to its end. -/
theorem foldlM_range_total (start : Inv 0 state) (round : ∀ index < count, ∀ here, Inv index here →
      ∃ next, body here index = some next ∧ Inv (index + 1) next) :
    ∃ after, (List.range count).foldlM body state = some after ∧ Inv count after := by
  induction count with
  | zero => exact ⟨state, rfl, start⟩
  | succ count ih =>
    obtain ⟨here, before, held⟩ := ih fun index low => round index (Nat.lt_succ_of_lt low)
    obtain ⟨next, last, holds⟩ := round count (Nat.lt_succ_self count) here held
    refine ⟨next, ?_, holds⟩
    rw [List.range_succ, List.foldlM_append, before]
    simpa using last

end Counted

end Ev6.Support
