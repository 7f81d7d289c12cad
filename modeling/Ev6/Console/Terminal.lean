import Ev6.FileSystem.Streams
import Mathlib.Algebra.Ring.Int.Defs
import Ev6.Support.LabelledSystem

/-!
# Reading lines

What the console is for, without its ring: the bytes that have been committed, the line
that is still being edited, and how many of the committed bytes have been taken. The
readers are the same for the terminal and for the console: a reader holds the lock, makes
one pass after the other through the loop of `consoleread`, and lets the lock go while it
sleeps. A step takes the input side as a parameter.
-/

namespace Ev6.Console

open List (not_mem_nil prefix_rfl)
open Function (update update_of_ne update_self)
open Support FileSystem

/-! ## The characters -/

/-- `C('P')`: print the process list. -/
def controlP : UInt8 := 16

/-- `C('U')`: kill the line. -/
def controlU : UInt8 := 21

/-- `C('H')`. -/
def controlH : UInt8 := 8

/-- `'\x7f'`. -/
def delete : UInt8 := 127

/-- `'\r'`. -/
def carriageReturn : UInt8 := 13

/-- The character that is stored for a key. -/
def stored (c : UInt8) : UInt8 := if c = carriageReturn then newline else c

/-! ## The readers -/

/-- What a reader is doing. -/
inductive Phase where
  | running
  | asleep
  | woken
deriving DecidableEq

/-- A call of `consoleread`: what it was asked for, what is still to come, and where the
next byte goes. -/
structure Call where
  target : Int
  n : Int
  dst : Nat
  phase : Phase
deriving DecidableEq

/-- The call after one more byte. -/
def Call.next (call : Call) : Call := { call with dst := call.dst + 1, n := call.n - 1 }

/-- What one pass through the loop of `consoleread` does: sleep, copy a byte out and go
on, or leave the loop, with a last byte or without. -/
inductive Reading (Side : Type) where
  | sleep
  | more (side : Side) (call : Call) (c : UInt8)
  | leave (side : Side) (call : Call) (last : Option UInt8)

/-- The input side, the lock, the calls under way, the bytes copied out with their
addresses, and the values returned. -/
structure State (Side : Type) where
  side : Side
  lock : Option (Fin nproc)
  calls : Fin nproc → Option Call
  copied : List (Fin nproc × Nat × UInt8)
  answers : List (Fin nproc × Int)

/-- A step of the system. -/
inductive Label where
  /-- The process calls `consoleread` and gets the lock. -/
  | call (p : Fin nproc) (dst : Nat) (n : Int)
  /-- One pass through the loop. -/
  | pass (p : Fin nproc)
  /-- `sleep` returns with the lock. -/
  | resume (p : Fin nproc)
  /-- `consoleintr`. -/
  | intr (c : UInt8)
deriving DecidableEq

/-- `wakeup(&cons->r)`. -/
def wake (calls : Fin nproc → Option Call) (p : Fin nproc) : Option Call :=
  (calls p).map fun call => if call.phase = .asleep then { call with phase := .woken } else call

section Step

variable {Side : Type} (key : UInt8 → Side → Side × Bool) (read : Side → Call → Reading Side)

/-- What a pass of the call changes. -/
def finish (state : State Side) (p : Fin nproc) (call : Call) : Reading Side → State Side
  | .sleep =>
    { state with
      lock := none
      calls := update state.calls p (some { call with phase := .asleep }) }
  | .more side later c =>
    { state with
      side := side
      calls := update state.calls p (some later)
      copied := state.copied ++ [(p, call.dst, c)] }
  | .leave side later last =>
    { side := side
      lock := none
      calls := update state.calls p none
      copied := state.copied ++ (last.map fun c => (p, call.dst, c)).toList
      answers := state.answers ++ [(p, later.target - later.n)] }

/-- One step, if it can be taken. `key` handles a key and says whether it wakes the
readers, `read` is a pass through the loop. -/
def step (state : State Side) : Label → Option (State Side)
  | .call p dst n =>
    if state.lock = none ∧ state.calls p = none then
      some { state with
        lock := some p
        calls := update state.calls p (some ⟨n, n, dst, .running⟩) }
    else none
  | .pass p =>
    if state.lock = some p then
      (state.calls p).map fun call => finish state p call (read state.side call)
    else none
  | .resume p =>
    if state.lock = none then
      (state.calls p).bind fun call =>
        if call.phase = .woken then
          some { state with
            lock := some p
            calls := update state.calls p (some { call with phase := .running }) }
        else none
    else none
  | .intr c =>
    if state.lock = none then
      some { state with
        side := (key c state.side).1
        calls := if (key c state.side).2 then wake state.calls else state.calls }
    else none

/-- Nothing has been read. -/
def fresh (side : Side) : State Side := ⟨side, none, fun _ => none, [], []⟩

/-- Every order of keys and passes. -/
def system (start : Side → Prop) : LabelledSystem (State Side) Label :=
  .ofFunction (fun state => ∃ side, start side ∧ state = fresh side) (step key read)

end Step

/-! ## The terminal -/

/-- The bytes committed so far, the line that is edited, and how many bytes are taken. -/
structure Terminal where
  committed : List UInt8
  line : List UInt8
  taken : Nat

namespace Terminal

/-- The committed bytes that have not been taken. -/
def pending (terminal : Terminal) : List UInt8 := terminal.committed.drop terminal.taken

/-- The bytes that the ring has to hold. -/
def held (terminal : Terminal) : Nat := terminal.pending.length + terminal.line.length

/-- A byte is put at the end of the line, and the line is committed when it is complete or
when there is no room for more. -/
def put (terminal : Terminal) (c : UInt8) : Terminal × Bool :=
  if c = newline ∨ c = controlD ∨ terminal.held + 1 = inputBuf then
    ({ terminal with committed := terminal.committed ++ (terminal.line ++ [c]), line := [] }, true)
  else
    ({ terminal with line := terminal.line ++ [c] }, false)

/-- A key. Only the line is edited. -/
def key (c : UInt8) (terminal : Terminal) : Terminal × Bool :=
  if c = controlP then (terminal, false)
  else if c = controlU then ({ terminal with line := [] }, false)
  else if c = controlH ∨ c = delete then ({ terminal with line := terminal.line.dropLast }, false)
  else if c ≠ 0 ∧ terminal.held < inputBuf then terminal.put (stored c)
  else (terminal, false)

/-- A byte is taken. -/
def take (terminal : Terminal) : Terminal := { terminal with taken := terminal.taken + 1 }

/-- A pass of a reader. An end of file is taken by a call that has read nothing, and left
for the next call by one that has. -/
def read (terminal : Terminal) (call : Call) : Reading Terminal :=
  if call.n ≤ 0 then .leave terminal call none
  else
    match terminal.pending with
    | [] => .sleep
    | c :: _ =>
      if c = controlD then
        .leave (if call.n < call.target then terminal else terminal.take) call none
      else if c = newline then .leave terminal.take call.next (some c)
      else .more terminal.take call.next c

/-- Nothing has been typed. -/
def start : Terminal := ⟨[], [], 0⟩

/-- Every order of keys and passes. -/
def system : LabelledSystem (State Terminal) Label := Console.system key read (· = start)

end Terminal

/-! ## What the terminal delivers -/

/-- How many bytes have been copied out for a process. -/
def copies {Side : Type} (state : State Side) (p : Fin nproc) : Int :=
  (state.copied.filter (·.1 = p)).length

/-- The sum of the values returned to a process. -/
def returned {Side : Type} (state : State Side) (p : Fin nproc) : Int :=
  ((state.answers.filter (·.1 = p)).map Prod.snd).sum

/-- How many bytes the call under way has copied out. -/
def progress : Option Call → Int
  | none => 0
  | some call => call.target - call.n

/-- A pass counts the byte that it copies out. -/
def Reading.Counts {Side : Type} (call : Call) : Reading Side → Prop
  | .sleep => True
  | .more _ later _ => later.target - later.n = call.target - call.n + 1
  | .leave _ later last =>
    later.target - later.n = call.target - call.n + last.toList.length

/-- No byte is taken that has not been committed, the line has no end of line in it, the
bytes copied out are the bytes taken without the ends of file, and each process is told
how many it got. -/
structure Fair (state : State Terminal) : Prop where
  low : state.side.taken ≤ state.side.committed.length
  open_line : newline ∉ state.side.line
  delivered : state.copied.map (·.2.2) =
    (state.side.committed.take state.side.taken).filter (· ≠ controlD)
  counted : ∀ p, copies state p = returned state p + progress (state.calls p)

section Facts

variable {terminal : Terminal} {call : Call}

theorem Terminal.take_succ {c : UInt8} {rest : List UInt8} (first : terminal.pending = c :: rest) :
    terminal.taken < terminal.committed.length ∧
      terminal.committed.take (terminal.taken + 1) =
        terminal.committed.take terminal.taken ++ [c] := by
  have below : terminal.taken < terminal.committed.length := by
    by_contra over_end
    have none_left : terminal.pending = [] := List.drop_eq_nil_of_le (Nat.le_of_not_lt over_end)
    rw [none_left] at first
    cases first
  have same : terminal.committed[terminal.taken] = c := by
    rw [Terminal.pending, List.drop_eq_getElem_cons below] at first
    exact (List.cons.inj first).1
  exact ⟨below, by rw [List.take_succ_eq_append_getElem below, same]⟩

theorem Terminal.read_cases (terminal : Terminal) (call : Call) :
    terminal.read call = .leave terminal call none ∨
      terminal.read call = .sleep ∨
      ∃ c rest, terminal.pending = c :: rest ∧
        ((c = controlD ∧ terminal.read call = .leave terminal.take call none) ∨
          (c ≠ controlD ∧ terminal.read call = .leave terminal.take call.next (some c)) ∨
          (c ≠ controlD ∧ terminal.read call = .more terminal.take call.next c)) := by
  unfold read
  by_cases done : call.n ≤ 0
  · exact .inl (if_pos done)
  rw [if_neg done]
  cases first : terminal.pending with
  | nil => exact .inr (.inl rfl)
  | cons c rest =>
    dsimp only
    by_cases eof : c = controlD
    · by_cases started : call.n < call.target
      · exact .inl (by rw [if_pos eof, if_pos started])
      · exact .inr (.inr ⟨c, rest, rfl, .inl ⟨eof, by rw [if_pos eof, if_neg started]⟩⟩)
    · by_cases complete : c = newline
      · exact .inr (.inr ⟨c, rest, rfl,
          .inr (.inl ⟨eof, by rw [if_neg eof, if_pos complete]⟩)⟩)
      · exact .inr (.inr ⟨c, rest, rfl,
          .inr (.inr ⟨eof, by rw [if_neg eof, if_neg complete]⟩)⟩)

/-- A key adds to the committed bytes and leaves the rest of them alone. -/
theorem Terminal.key_spec (terminal : Terminal) (c : UInt8) :
    terminal.committed <+: (key c terminal).1.committed ∧
      (key c terminal).1.taken = terminal.taken ∧
      (newline ∉ terminal.line → newline ∉ (key c terminal).1.line) := by
  unfold key put
  split_ifs with print kill erase typed complete
  · exact ⟨prefix_rfl, rfl, id⟩
  · exact ⟨prefix_rfl, rfl, fun _ => not_mem_nil⟩
  · exact ⟨prefix_rfl, rfl, fun absent kept => absent (List.dropLast_subset _ kept)⟩
  · exact ⟨List.prefix_append _ _, rfl, fun _ => not_mem_nil⟩
  · refine ⟨prefix_rfl, rfl, fun absent member => ?_⟩
    rcases List.mem_append.mp member with member | member
    · exact absent member
    · exact complete (.inl (List.mem_singleton.mp member).symm)
  · exact ⟨prefix_rfl, rfl, id⟩

/-- What a call that has left the loop adds to the counts. -/
theorem counted_finish {Side : Type} {state : State Side} {p : Fin nproc}
    (here : state.calls p = some call)
    (counted : ∀ q, copies state q = returned state q + progress (state.calls q))
    {reading : Reading Side} (counts : reading.Counts call) (q : Fin nproc) :
    copies (finish state p call reading) q =
      returned (finish state p call reading) q + progress ((finish state p call reading).calls q) := by
  have before := counted q
  by_cases same : q = p
  · subst same
    rw [here] at before
    cases reading with
    | sleep => simpa [finish, copies, returned, progress] using before
    | more side later c =>
      simp [finish, copies, returned, progress, Reading.Counts] at before counts ⊢
      omega
    | leave side later last =>
      cases last <;>
        simp [finish, copies, returned, progress, Reading.Counts] at before counts ⊢ <;> omega
  · have other : ¬p = q := fun equal => same equal.symm
    cases reading with
    | sleep => simpa [finish, copies, returned, same] using before
    | more side later c => simpa [finish, copies, returned, same, other] using before
    | leave side later last =>
      cases last <;> simpa [finish, copies, returned, same, other] using before

/-- What the steps of the readers outside the loop leave alone. -/
theorem Fair.calls_only {state : State Terminal} (fair : Fair state) {side : Terminal}
    {lock : Option (Fin nproc)} {calls : Fin nproc → Option Call}
    (low : side.taken ≤ side.committed.length) (open_line : newline ∉ side.line)
    (taken : side.committed.take side.taken = state.side.committed.take state.side.taken)
    (same : ∀ q, progress (calls q) = progress (state.calls q)) :
    Fair { state with side := side, lock := lock, calls := calls } where
  low := low
  open_line := open_line
  delivered := by rw [taken]; exact fair.delivered
  counted := fun q => (fair.counted q).trans (by rw [same q]; rfl)

theorem progress_wake (calls : Fin nproc → Option Call) (q : Fin nproc) :
    progress (wake calls q) = progress (calls q) := by
  unfold wake
  cases calls q with
  | none => rfl
  | some call =>
    by_cases asleep : call.phase = .asleep
    · simp [asleep, progress]
    · simp [asleep]

theorem progress_update {calls : Fin nproc → Option Call} {p : Fin nproc} {later : Option Call}
    (same : progress later = progress (calls p)) (q : Fin nproc) :
    progress (update calls p later q) = progress (calls q) := by
  by_cases here : q = p
  · subst here
    rw [update_self, same]
  · rw [update_of_ne here]

theorem Fair.pass {state : State Terminal} (fair : Fair state) {p : Fin nproc}
    (here : state.calls p = some call) :
    Fair (finish state p call (state.side.read call)) := by
  have counted := @counted_finish call Terminal state p here fair.counted
  rcases state.side.read_cases call with kept | slept | ⟨c, rest, first, taken⟩
  · rw [kept]
    exact ⟨fair.low, fair.open_line, by simpa [finish] using fair.delivered,
      counted (by simp [Reading.Counts])⟩
  · rw [slept]
    exact ⟨fair.low, fair.open_line, fair.delivered, counted trivial⟩
  · obtain ⟨below, more⟩ := Terminal.take_succ first
    have delivered := fair.delivered
    rcases taken with ⟨rfl, leaves⟩ | ⟨byte, leaves⟩ | ⟨byte, goes⟩
    · rw [leaves]
      refine ⟨below, fair.open_line, ?_, counted (by simp [Reading.Counts])⟩
      simpa [finish, Terminal.take, more] using delivered
    · rw [leaves]
      refine ⟨below, fair.open_line, ?_, counted ?_⟩
      · simpa [finish, Terminal.take, more, byte] using delivered
      · simp only [Reading.Counts, Call.next, Option.toList_some, List.length_singleton]
        omega
    · rw [goes]
      refine ⟨below, fair.open_line, ?_, counted ?_⟩
      · simpa [finish, Terminal.take, more, byte] using delivered
      · simp only [Reading.Counts, Call.next]
        omega

theorem Fair.step {state next : State Terminal} {label : Label} (fair : Fair state)
    (taken : Console.step Terminal.key Terminal.read state label = some next) : Fair next := by
  cases label with
  | call p dst n =>
    obtain ⟨⟨_, idle⟩, rfl⟩ := Option.ite_some_none_eq_some.mp taken
    have none_yet : progress (some ⟨n, n, dst, .running⟩) = progress (state.calls p) := by
      rw [idle]
      exact Int.sub_self n
    exact fair.calls_only fair.low fair.open_line rfl (progress_update none_yet)
  | pass p =>
    obtain ⟨_, moved⟩ := Option.ite_none_right_eq_some.mp taken
    obtain ⟨call, here, rfl⟩ := Option.map_eq_some_iff.mp moved
    exact fair.pass here
  | resume p =>
    obtain ⟨_, woken⟩ := Option.ite_none_right_eq_some.mp taken
    obtain ⟨call, here, resumed⟩ := Option.bind_eq_some_iff.mp woken
    obtain ⟨_, rfl⟩ := Option.ite_some_none_eq_some.mp resumed
    have same : progress (some { call with phase := .running }) = progress (state.calls p) := by
      rw [here]
      rfl
    exact fair.calls_only fair.low fair.open_line rfl (progress_update same)
  | intr c =>
    obtain ⟨_, rfl⟩ := Option.ite_some_none_eq_some.mp taken
    obtain ⟨grown, same, open_line⟩ := state.side.key_spec c
    apply fair.calls_only
    · rw [same]
      exact Nat.le_trans fair.low grown.length_le
    · exact open_line fair.open_line
    · obtain ⟨more, committed⟩ := grown
      rw [same, ← committed, List.take_append_of_le_length fair.low]
    · intro q
      split
      · exact progress_wake state.calls q
      · rfl

/-- In every run of the terminal the bytes copied out are the bytes taken. -/
theorem fair_of_runs {labels : List Label} {state : State Terminal}
    (runs : Terminal.system.Runs labels state) : Fair state := by
  apply runs.invariant Fair
  · rintro _ ⟨_, rfl, rfl⟩
    exact ⟨Nat.le_refl 0, not_mem_nil, rfl, fun _ => rfl⟩
  · intro state label next fair taken
    exact fair.step taken

end Facts

end Ev6.Console
