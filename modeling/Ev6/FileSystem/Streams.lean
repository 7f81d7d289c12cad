import Ev6.FileSystem.UserCopy

/-!
# Pipes and the console

`pipewrite`, `piperead`, `consolewrite` and `consoleread` move one byte at a time.
A call that has to sleep looks again when it is woken; a `Turn` is what such a
look finds. The counters of the pipe are `uint`s.
-/

namespace Ev6.FileSystem

open Support

/-- `PIPESIZE`. -/
def pipesize : Nat := 512

/-- `INPUT_BUF`. -/
def inputBuf : Nat := 128

/-- `struct pipe`. -/
structure Pipe where
  data : Nat → UInt8
  nread : UInt32
  nwrite : UInt32
  readopen : Bool
  writeopen : Bool

/-- The input side of `struct cons`. -/
structure Cons where
  buf : Nat → UInt8
  r : UInt32
  w : UInt32

/-- What a call finds when it cannot go on at once: whether its process has been
killed and, if it goes to sleep, the shared state at the time it is woken. -/
structure Turn (State : Type) where
  killed : Bool
  next : State

/-- How waiting for the other side ends. Without a further turn the call sleeps on. -/
inductive Wait (State : Type) where
  | asleep
  | gaveUp (state : State)
  | ready (state : State) (turns : List (Turn State))

/-- The loop that waits while the pipe is full. -/
def waitRoom (pipe : Pipe) (turns : List (Turn Pipe)) : Wait Pipe :=
  if pipe.nwrite = pipe.nread + UInt32.ofNat pipesize then
    match turns with
    | [] => .asleep
    | turn :: rest =>
      if pipe.readopen = false ∨ turn.killed = true then .gaveUp pipe
      else waitRoom turn.next rest
  else
    .ready pipe turns

/-- The loop that waits while the pipe is empty and has a writer. -/
def waitData (pipe : Pipe) (turns : List (Turn Pipe)) : Wait Pipe :=
  if pipe.nread = pipe.nwrite ∧ pipe.writeopen = true then
    match turns with
    | [] => .asleep
    | turn :: rest => if turn.killed then .gaveUp pipe else waitData turn.next rest
  else
    .ready pipe turns

/-- What a call on a pipe or the console leaves: the value returned, the shared
state and the memory, the bytes moved, and how often it has advanced the counter
of its end of the pipe. -/
structure Stream (State : Type) where
  returned : Int
  state : State
  memory : Nat → UInt8
  moved : Nat
  advanced : Nat

/-- The pipe with one more byte. -/
def Pipe.push (pipe : Pipe) (ch : UInt8) : Pipe :=
  { pipe with
    data := Function.update pipe.data (pipe.nwrite.toNat % pipesize) ch
    nwrite := pipe.nwrite + 1 }

/-- The loop of `pipewrite` from byte `i` on, with `left` bytes to go. -/
def pipewriteLoop (pagetable : UserPages) (memory : Nat → UInt8) (addr : Nat) (n : Int) :
    Nat → Nat → Pipe → List (Turn Pipe) → Option (Stream Pipe)
  | 0, i, pipe, _ => some ⟨n, pipe, memory, i, i⟩
  | left + 1, i, pipe, turns =>
    match waitRoom pipe turns with
    | .asleep => none
    | .gaveUp pipe => some ⟨-1, pipe, memory, i, i⟩
    | .ready pipe turns =>
      let copy := copyin pagetable memory (addr + i) 1
      if copy.ok then
        pipewriteLoop pagetable memory addr n left (i + 1)
          (pipe.push (copy.bytes.headD 0)) turns
      else
        some ⟨n, pipe, memory, i, i⟩

/-- `pipewrite`; `none` while it sleeps. -/
def pipewrite (pagetable : UserPages) (memory : Nat → UInt8) (pipe : Pipe) (addr : Nat)
    (n : Int32) (turns : List (Turn Pipe)) : Option (Stream Pipe) :=
  pipewriteLoop pagetable memory addr n.toInt n.toInt.toNat 0 pipe turns

/-- The loop of `piperead` from byte `i` on, with `left` bytes to go. `nread` is
advanced before the copy. -/
def pipereadLoop (pagetable : UserPages) (addr : Nat) :
    Nat → Nat → Pipe → (Nat → UInt8) → Stream Pipe
  | 0, i, pipe, memory => ⟨i, pipe, memory, i, i⟩
  | left + 1, i, pipe, memory =>
    if pipe.nread = pipe.nwrite then ⟨i, pipe, memory, i, i⟩
    else
      let ch := pipe.data (pipe.nread.toNat % pipesize)
      let pipe := { pipe with nread := pipe.nread + 1 }
      let copy := copyout pagetable memory (addr + i) [ch]
      if copy.ok then pipereadLoop pagetable addr left (i + 1) pipe copy.memory
      else ⟨i, pipe, copy.memory, i, i + 1⟩

/-- `piperead`; `none` while it sleeps. -/
def piperead (pagetable : UserPages) (memory : Nat → UInt8) (pipe : Pipe) (addr : Nat)
    (n : Int32) (turns : List (Turn Pipe)) : Option (Stream Pipe) :=
  match waitData pipe turns with
  | .asleep => none
  | .gaveUp pipe => some ⟨-1, pipe, memory, 0, 0⟩
  | .ready pipe _ => some (pipereadLoop pagetable addr n.toInt.toNat 0 pipe memory)

/-- The loop of `consolewrite`: the bytes sent to the uart. -/
def consolewriteLoop (pagetable : UserPages) (memory : Nat → UInt8) (user_src : Bool)
    (src : Nat) : Nat → Nat → List UInt8 → List UInt8
  | 0, _, sent => sent
  | left + 1, i, sent =>
    let copy := eitherCopyin pagetable memory user_src (src + i) 1
    if copy.ok then
      consolewriteLoop pagetable memory user_src src left (i + 1) (sent ++ copy.bytes)
    else sent

/-- `consolewrite`: the value returned and the bytes sent. -/
def consolewrite (pagetable : UserPages) (memory : Nat → UInt8) (user_src : Bool) (src : Nat)
    (n : Int32) : Int × List UInt8 :=
  (n.toInt, consolewriteLoop pagetable memory user_src src n.toInt.toNat 0 [])

/-- The loop that waits for a line of input. -/
def waitInput (cons : Cons) (turns : List (Turn Cons)) : Wait Cons :=
  if cons.r = cons.w then
    match turns with
    | [] => .asleep
    | turn :: rest => if turn.killed then .gaveUp cons else waitInput turn.next rest
  else
    .ready cons turns

/-- `C('D')`: end of file. -/
def controlD : UInt8 := 4

/-- `'\n'`. -/
def newline : UInt8 := 10

/-- The loop of `consoleread` with `n` bytes of the `target` to go. -/
def consolereadLoop (pagetable : UserPages) (user_dst : Bool) (target : Nat) :
    Nat → Nat → Cons → (Nat → UInt8) → List (Turn Cons) → Option (Stream Cons)
  | 0, _, cons, memory, _ => some ⟨target, cons, memory, target, 0⟩
  | n + 1, dst, cons, memory, turns =>
    match waitInput cons turns with
    | .asleep => none
    | .gaveUp cons => some ⟨-1, cons, memory, target - (n + 1), 0⟩
    | .ready cons turns =>
      let c := cons.buf (cons.r.toNat % inputBuf)
      let here : Int := target - (n + 1)
      if c = controlD then
        let r := if n + 1 < target then cons.r else cons.r + 1
        some ⟨here, { cons with r := r }, memory, target - (n + 1), 0⟩
      else
        let cons := { cons with r := cons.r + 1 }
        let copy := eitherCopyout pagetable memory user_dst dst [c]
        if copy.ok then
          if c = newline then
            some ⟨here + 1, cons, copy.memory, target - n, 0⟩
          else
            consolereadLoop pagetable user_dst target n (dst + 1) cons copy.memory turns
        else
          some ⟨here, cons, copy.memory, target - (n + 1), 0⟩

/-- `consoleread`; `none` while it sleeps. -/
def consoleread (pagetable : UserPages) (memory : Nat → UInt8) (cons : Cons) (user_dst : Bool)
    (dst : Nat) (n : Int32) (turns : List (Turn Cons)) : Option (Stream Cons) :=
  consolereadLoop pagetable user_dst n.toInt.toNat n.toInt.toNat dst cons memory turns

/-! ## How far a call comes -/

/-- How many of `left` bytes the other processes let a writer put into the pipe. -/
def Pipe.takes : Nat → Pipe → List (Turn Pipe) → Nat
  | 0, _, _ => 0
  | left + 1, pipe, turns =>
    match waitRoom pipe turns with
    | .asleep => 0
    | .gaveUp _ => 0
    | .ready pipe turns => takes left (pipe.push 0) turns + 1

/-- How many bytes a reader finds in the pipe when it has waited for data. -/
def Pipe.gives (pipe : Pipe) (turns : List (Turn Pipe)) : Nat :=
  match waitData pipe turns with
  | .asleep => 0
  | .gaveUp _ => 0
  | .ready pipe _ => (pipe.nwrite - pipe.nread).toNat

/-! ## What the calls move -/

section Moving

variable {pagetable : UserPages} {memory : Nat → UInt8}

/-- A writer does not wait for a pipe that has room. -/
theorem waitRoom_of_room {pipe : Pipe} {turns : List (Turn Pipe)}
    (room : ¬pipe.nwrite = pipe.nread + UInt32.ofNat pipesize) :
    waitRoom pipe turns = .ready pipe turns := by
  cases turns <;> exact if_neg room

/-- The data in the pipe does not matter for how much it takes. -/
theorem Pipe.takes_data (pipe : Pipe) (data : Nat → UInt8) (left : Nat) (turns : List (Turn Pipe)) :
    Pipe.takes left { pipe with data := data } turns = Pipe.takes left pipe turns := by
  induction left generalizing pipe data turns with
  | zero => rfl
  | succ left ih =>
    rw [takes, takes]
    by_cases full : pipe.nwrite = pipe.nread + UInt32.ofNat pipesize
    · cases turns with
      | nil => simp only [waitRoom, full, if_true]
      | cons turn rest =>
        by_cases gone : pipe.readopen = false ∨ turn.killed = true
        · simp only [waitRoom, full, gone, if_true]
        · simp only [waitRoom, full, gone, if_true, if_false]
    · have other := @waitRoom_of_room { pipe with data := data } turns full
      rw [waitRoom_of_room full, other]
      exact congrArg (· + 1) ((ih (pipe.push 0) _ turns).trans rfl)

theorem Pipe.takes_push (pipe : Pipe) (ch : UInt8) (left : Nat) (turns : List (Turn Pipe)) :
    Pipe.takes left (pipe.push ch) turns = Pipe.takes left (pipe.push 0) turns :=
  Pipe.takes_data (pipe.push 0) (pipe.push ch).data left turns

theorem MappedRange.head {va left : Nat} :
    MappedRange pagetable va (left + 1) ↔
      MappedRange pagetable va 1 ∧ MappedRange pagetable (va + 1) left := by
  rw [Nat.add_comm, MappedRange.add]

/-- A write to a pipe counts what it moves. It gives up or moves all it was asked for
when the bytes that the pipe takes are mapped; otherwise it returns what it was asked
for and has moved less. -/
theorem pipewriteLoop_moves {addr left i : Nat} {n : Int} {pipe : Pipe}
    {turns : List (Turn Pipe)} {done : Stream Pipe}
    (run : pipewriteLoop pagetable memory addr n left i pipe turns = some done) :
    done.advanced = done.moved ∧
      (MappedRange pagetable (addr + i) (Pipe.takes left pipe turns) →
        done.returned = -1 ∨ done.returned = n ∧ done.moved = i + left) ∧
      (¬MappedRange pagetable (addr + i) (Pipe.takes left pipe turns) →
        done.returned = n ∧ done.moved < i + left) := by
  induction left generalizing i pipe turns with
  | zero =>
    cases run
    exact ⟨rfl, fun _ => .inr ⟨rfl, rfl⟩, fun unmapped => absurd (.zero _ _) unmapped⟩
  | succ left ih =>
    rw [pipewriteLoop] at run
    rw [Pipe.takes]
    cases wait : waitRoom pipe turns with
    | asleep =>
      rw [wait] at run
      cases run
    | gaveUp state =>
      rw [wait] at run
      cases run
      exact ⟨rfl, fun _ => .inl rfl, fun unmapped => absurd (.zero _ _) unmapped⟩
    | ready state rest =>
      simp only [wait] at run
      dsimp only
      have mapped := copyin_ok pagetable memory (addr + i) 1
      split at run
      next ok =>
        obtain ⟨counted, whole, part⟩ := ih run
        rw [Pipe.takes_push, Nat.add_right_comm] at whole part
        have here := mapped.mp ok
        refine ⟨counted, fun all => whole (MappedRange.head.mp all).2, fun unmapped => ?_⟩
        exact part fun behind => unmapped (MappedRange.head.mpr ⟨here, behind⟩)
      next failed =>
        cases run
        have here : ¬MappedRange pagetable (addr + i) 1 := fun all => failed (mapped.mpr all)
        exact ⟨rfl, fun all => absurd (MappedRange.head.mp all).1 here,
          fun _ => ⟨rfl, Nat.lt_add_of_pos_right (Nat.succ_pos left)⟩⟩

/-- A read from a pipe returns what it moves. It advances the counter once too often
exactly when one of the bytes it comes to is not mapped. -/
theorem pipereadLoop_moves (pagetable : UserPages) (addr left i : Nat) (pipe : Pipe)
    (memory : Nat → UInt8) : (pipereadLoop pagetable addr left i pipe memory).returned =
        (pipereadLoop pagetable addr left i pipe memory).moved ∧
      ((pipereadLoop pagetable addr left i pipe memory).advanced =
          (pipereadLoop pagetable addr left i pipe memory).moved ↔
        MappedRange pagetable (addr + i) (min left (pipe.nwrite - pipe.nread).toNat)) := by
  induction left generalizing i pipe memory with
  | zero =>
    rw [Nat.zero_min]
    exact ⟨rfl, iff_of_true rfl (.zero _ _)⟩
  | succ left ih =>
    rw [pipereadLoop]
    split
    next empty =>
      rw [empty]
      simp [MappedRange.zero]
    next filled =>
      have more : (pipe.nwrite - pipe.nread).toNat ≠ 0 := by
        intro none
        apply filled
        have first := pipe.nwrite.toNat_lt
        have second := pipe.nread.toNat_lt
        rw [UInt32.toNat_sub] at none
        apply UInt32.toNat_inj.mp
        omega
      have fewer : (pipe.nwrite - (pipe.nread + 1)).toNat =
          (pipe.nwrite - pipe.nread).toNat - 1 := by
        have first := pipe.nwrite.toNat_lt
        have second := pipe.nread.toNat_lt
        rw [UInt32.toNat_sub] at more
        rw [UInt32.toNat_sub, UInt32.toNat_sub, UInt32.toNat_add, UInt32.toNat_one]
        omega
      have count : min (left + 1) (pipe.nwrite - pipe.nread).toNat =
          min left ((pipe.nwrite - pipe.nread).toNat - 1) + 1 := by omega
      rw [count, MappedRange.head]
      have mapped := copyout_ok pagetable memory (addr + i)
        [pipe.data (pipe.nread.toNat % pipesize)]
      simp only [List.length_singleton] at mapped
      dsimp only
      split
      next ok =>
        obtain ⟨returned, advanced⟩ := ih (i + 1) { pipe with nread := pipe.nread + 1 }
          (copyout pagetable memory (addr + i) [pipe.data (pipe.nread.toNat % pipesize)]).memory
        rw [fewer, ← Nat.add_assoc] at advanced
        exact ⟨returned, advanced.trans (and_iff_right (mapped.mp ok)).symm⟩
      next failed =>
        refine ⟨rfl, iff_of_false (Nat.succ_ne_self i) fun all => ?_⟩
        exact failed (mapped.mpr all.1)

/-- A write to the console sends all it was asked for exactly when the range is
within reach. -/
theorem consolewriteLoop_moves (pagetable : UserPages) (memory : Nat → UInt8) (user : Bool)
    (src left i : Nat) (sent : List UInt8) :
    (consolewriteLoop pagetable memory user src left i sent).length ≤ sent.length + left ∧
      ((consolewriteLoop pagetable memory user src left i sent).length = sent.length + left ↔
        Reachable pagetable user (src + i) left) := by
  induction left generalizing i sent with
  | zero => exact ⟨Nat.le_refl _, iff_of_true rfl (.zero _ _ _)⟩
  | succ left ih =>
    rw [consolewriteLoop]
    have reached := eitherCopyin_ok pagetable memory user (src + i) 1
    have length := (eitherCopyin_length pagetable memory user (src + i) 1).2
    rw [Nat.add_comm left 1, Reachable.add]
    split
    next ok =>
      obtain ⟨most, whole⟩ := ih (i + 1)
        (sent ++ (eitherCopyin pagetable memory user (src + i) 1).bytes)
      rw [List.length_append, length.mpr ok, Nat.add_assoc] at most whole
      exact ⟨most, whole.trans (and_iff_right (reached.mp ok)).symm⟩
    next failed =>
      refine ⟨by omega, iff_of_false (by omega) fun all => ?_⟩
      exact failed (reached.mpr all.1)

/-- A read from the console returns what it moves, or fails. -/
theorem consolereadLoop_moves {user : Bool} {target n dst : Nat} {cons : Cons}
    {turns : List (Turn Cons)} {done : Stream Cons} (low : n ≤ target)
    (run : consolereadLoop pagetable user target n dst cons memory turns = some done) :
    done.returned = -1 ∨ done.returned = done.moved := by
  induction n generalizing dst cons memory turns with
  | zero =>
    cases run
    exact .inr rfl
  | succ n ih =>
    have here : ((target : Int) - (n + 1)) = ((target - (n + 1) : Nat) : Int) := by omega
    have there : ((target : Int) - (n + 1)) + 1 = ((target - n : Nat) : Int) := by omega
    rw [consolereadLoop] at run
    split at run
    · cases run
    · cases run
      exact .inl rfl
    · dsimp only at run
      split at run
      · cases run
        exact .inr here
      · split at run
        · split at run
          · cases run
            exact .inr there
          · exact ih (by omega) run
        · cases run
          exact .inr here

end Moving

end Ev6.FileSystem
