import Ev6.Console.Terminal
import Ev6.Support.RingBuffer

/-!
# The input ring of the console

`struct cons` keeps the typed bytes in a ring of `INPUT_BUF` cells: `r` is the next byte to
read, `w` the end of what is committed, `e` the end of what is typed. The counters wrap.
`console_refines` says that the ring does what the terminal does, key by key and pass by
pass.
-/

namespace Ev6.Console

open List (length_append)
open Support FileSystem

/-! ## The model -/

/-- `struct cons`, without its lock. -/
structure Cons where
  buf : Nat → UInt8
  r : UInt32
  w : UInt32
  e : UInt32

namespace Cons

/-- The loop of `C('U')`. It makes at most one pass for each byte of the line. -/
def killLine : Nat → Cons → Cons
  | 0, cons => cons
  | fuel + 1, cons =>
    if cons.e ≠ cons.w ∧ cons.buf ((cons.e - 1).toNat % inputBuf) ≠ newline then
      killLine fuel { cons with e := cons.e - 1 }
    else cons

/-- The character is stored, and a complete line is committed. -/
def store (cons : Cons) (c : UInt8) : Cons × Bool :=
  let cons := { cons with
    buf := Function.update cons.buf (cons.e.toNat % inputBuf) c
    e := cons.e + 1 }
  if c = newline ∨ c = controlD ∨ cons.e = cons.r + UInt32.ofNat inputBuf then
    ({ cons with w := cons.e }, true)
  else
    (cons, false)

end Cons

/-- `consoleintr`: the ring after a key, and whether it wakes the readers. -/
def consoleintr (c : UInt8) (cons : Cons) : Cons × Bool :=
  if c = controlP then (cons, false)
  else if c = controlU then (cons.killLine (cons.e - cons.w).toNat, false)
  else if c = controlH ∨ c = delete then
    (if cons.e ≠ cons.w then { cons with e := cons.e - 1 } else cons, false)
  else if c ≠ 0 ∧ (cons.e - cons.r).toNat < inputBuf then cons.store (stored c)
  else (cons, false)

/-- A pass through the loop of `consoleread`. -/
def consoleread (cons : Cons) (call : Call) : Reading Cons :=
  if call.n ≤ 0 then .leave cons call none
  else if cons.r = cons.w then .sleep
  else
    let c := cons.buf (cons.r.toNat % inputBuf)
    let cons := { cons with r := cons.r + 1 }
    if c = controlD then
      .leave (if call.n < call.target then { cons with r := cons.r - 1 } else cons) call none
    else if c = newline then .leave cons call.next (some c)
    else .more cons call.next c

/-- The console at boot. -/
def Cons.Cleared (cons : Cons) : Prop := cons.r = 0 ∧ cons.w = 0 ∧ cons.e = 0

/-- Every order of keys and passes. -/
def consoleSystem : LabelledSystem (State Cons) Label := system consoleintr consoleread Cons.Cleared

/-! ## What is asked for -/

/-- `count` bytes of the ring from a counter on. -/
def Cons.bytes (cons : Cons) (first : UInt32) (count : Nat) : List UInt8 :=
  (List.range count).map fun i => cons.buf ((first + UInt32.ofNat i).toNat % inputBuf)

/-- The committed bytes that have not been read. -/
def Cons.pending (cons : Cons) : List UInt8 := cons.bytes cons.r (cons.w - cons.r).toNat

/-- `r ≤ w ≤ e ≤ r + INPUT_BUF`, as counters that wrap. -/
structure Cons.Ordered (cons : Cons) : Prop where
  committed : (cons.w - cons.r).toNat ≤ (cons.e - cons.r).toNat
  room : (cons.e - cons.r).toNat ≤ inputBuf

/-! ## The ring and the terminal -/

theorem inputBuf_dvd : inputBuf ∣ 2 ^ 32 := ⟨33554432, rfl⟩

/-- The ring holds the committed bytes that have not been taken, and the line. -/
structure Tracks (cons : Cons) (terminal : Terminal) : Prop where
  ring : Window inputBuf cons.buf (terminal.committed ++ terminal.line) terminal.taken
  low : terminal.taken ≤ terminal.committed.length
  open_line : newline ∉ terminal.line
  r : cons.r = UInt32.ofNat terminal.taken
  w : cons.w = UInt32.ofNat terminal.committed.length
  e : cons.e = UInt32.ofNat (terminal.committed ++ terminal.line).length

namespace Tracks

variable {cons : Cons} {terminal : Terminal}

theorem near (tracks : Tracks cons terminal) :
    terminal.committed.length ≤ (terminal.committed ++ terminal.line).length ∧
      (terminal.committed ++ terminal.line).length ≤ terminal.taken + 128 := by
  have short := tracks.ring.high
  refine ⟨?_, short⟩
  rw [length_append]
  exact Nat.le_add_right _ _

theorem e_sub_r (tracks : Tracks cons terminal) :
    (cons.e - cons.r).toNat = (terminal.committed ++ terminal.line).length - terminal.taken := by
  obtain ⟨behind, short⟩ := tracks.near
  rw [tracks.e, tracks.r]
  exact toNat_ofNat_sub (Nat.le_trans tracks.low behind) (by omega)

theorem w_sub_r (tracks : Tracks cons terminal) :
    (cons.w - cons.r).toNat = terminal.committed.length - terminal.taken := by
  obtain ⟨behind, short⟩ := tracks.near
  rw [tracks.w, tracks.r]
  exact toNat_ofNat_sub tracks.low (by omega)

theorem e_sub_w (tracks : Tracks cons terminal) :
    (cons.e - cons.w).toNat = terminal.line.length := by
  obtain ⟨behind, short⟩ := tracks.near
  have low := tracks.low
  rw [tracks.w, tracks.e, toNat_ofNat_sub behind (by omega), length_append,
    Nat.add_sub_cancel_left]

theorem held (tracks : Tracks cons terminal) : (cons.e - cons.r).toNat = terminal.held := by
  have low := tracks.low
  rw [tracks.e_sub_r, Terminal.held, Terminal.pending, length_append, List.length_drop]
  omega

theorem ordered (tracks : Tracks cons terminal) : cons.Ordered := by
  obtain ⟨behind, short⟩ := tracks.near
  constructor
  · rw [tracks.w_sub_r, tracks.e_sub_r]
    omega
  · rw [tracks.e_sub_r]
    exact Nat.sub_le_of_le_add (Nat.add_comm _ _ ▸ short)

theorem cell (cons : Cons) (k : Nat) :
    cons.buf ((UInt32.ofNat k).toNat % inputBuf) = cons.buf (k % inputBuf) := by
  rw [ofNat_mod inputBuf_dvd]

/-- The reader finds the ring empty exactly when nothing is pending. -/
theorem empty_iff (tracks : Tracks cons terminal) : cons.r = cons.w ↔ terminal.pending = [] := by
  obtain ⟨behind, short⟩ := tracks.near
  rw [tracks.r, tracks.w, ofNat_inj_of_near tracks.low (by omega), Terminal.pending,
    List.drop_eq_nil_iff]
  constructor
  · exact fun same => same.ge
  · exact fun all => Nat.le_antisymm tracks.low all

variable {c : UInt8}

/-- The byte that the reader finds is the first one that is pending. -/
theorem first {rest : List UInt8} (tracks : Tracks cons terminal)
    (pending : terminal.pending = c :: rest) : cons.buf (cons.r.toNat % inputBuf) = c := by
  have below := (Terminal.take_succ pending).1
  have filled := Nat.lt_of_lt_of_le below tracks.near.1
  have next := tracks.ring.next filled
  rw [List.drop_append_of_le_length tracks.low, ← Terminal.pending, pending, List.cons_append]
    at next
  rw [tracks.r, cell]
  exact (List.cons.inj next).1.symm

theorem pending_eq (tracks : Tracks cons terminal) : cons.pending = terminal.pending := by
  apply List.ext_getElem
  · simp [Cons.pending, Cons.bytes, tracks.w_sub_r, Terminal.pending]
  · intro i short long
    simp only [Terminal.pending, List.length_drop] at long
    have below : terminal.taken + i < terminal.committed.length := by omega
    have within : terminal.taken + i < (terminal.committed ++ terminal.line).length :=
      Nat.lt_of_lt_of_le below tracks.near.1
    have holds := tracks.ring.holds (terminal.taken + i) (Nat.le_add_right _ _) within
    rw [getElem!_pos (terminal.committed ++ terminal.line) _ within,
      List.getElem_append_left below] at holds
    simp only [Cons.pending, Cons.bytes, List.getElem_map, List.getElem_range, Terminal.pending,
      List.getElem_drop, tracks.r, ← UInt32.ofNat_add, cell]
    exact holds.symm

theorem erase (tracks : Tracks cons terminal) {front : List UInt8}
    (line : terminal.line = front ++ [c]) :
    cons.buf ((cons.e - 1).toNat % inputBuf) = c ∧ cons.e ≠ cons.w ∧
      Tracks { cons with e := cons.e - 1 } { terminal with line := front } := by
  obtain ⟨behind, short⟩ := tracks.near
  have whole : terminal.committed ++ terminal.line = terminal.committed ++ front ++ [c] := by
    rw [line, List.append_assoc]
  have length : (terminal.committed ++ terminal.line).length =
      (terminal.committed ++ front).length + 1 := by
    rw [whole, length_append, List.length_singleton]
  have back : cons.e - 1 = UInt32.ofNat (terminal.committed ++ front).length := by
    rw [tracks.e, length, ofNat_pred (Nat.succ_pos _), Nat.succ_sub_one]
  have low : terminal.taken ≤ (terminal.committed ++ front).length := by
    rw [length_append]
    exact Nat.le_trans tracks.low (Nat.le_add_right _ _)
  refine ⟨?_, ?_, ?_⟩
  · have inside : (terminal.committed ++ front).length <
        (terminal.committed ++ terminal.line).length := by omega
    rw [back, cell, ← tracks.ring.holds _ low inside,
      getElem!_pos (terminal.committed ++ terminal.line) _ inside]
    simp [whole]
  · intro same
    have none_left := tracks.e_sub_w
    rw [same, UInt32.sub_self, line, length_append] at none_left
    simp at none_left
  · have part : terminal.committed ++ front <+: terminal.committed ++ terminal.line :=
      ⟨[c], whole.symm⟩
    refine ⟨tracks.ring.truncate part low, tracks.low, ?_, tracks.r, tracks.w, back⟩
    intro member
    exact tracks.open_line (line ▸ List.mem_append_left _ member)

/-- The loop of `C('U')` takes the whole line back. -/
theorem killLine (tracks : Tracks cons terminal) :
    Tracks (cons.killLine terminal.line.length) { terminal with line := [] } := by
  obtain ⟨committed, line, taken⟩ := terminal
  induction line using List.reverseRecOn generalizing cons with
  | nil => exact tracks
  | append_singleton front c ih =>
    obtain ⟨last, more, shorter⟩ := tracks.erase rfl
    have inner : c ≠ newline := by
      rintro rfl
      exact tracks.open_line (by simp)
    have length : (front ++ [c]).length = front.length + 1 := by simp
    simp only [length, Cons.killLine]
    rw [if_pos ⟨more, by rw [last]; exact inner⟩]
    exact ih shorter

theorem store (tracks : Tracks cons terminal) (room : terminal.held < inputBuf) (c : UInt8) :
    Tracks (cons.store c).1 (terminal.put c).1 ∧ (cons.store c).2 = (terminal.put c).2 := by
  obtain ⟨behind, short⟩ := tracks.near
  have low := tracks.low
  have space : (terminal.committed ++ terminal.line).length < terminal.taken + inputBuf := by
    have held := tracks.held
    rw [tracks.e_sub_r] at held
    omega
  have pushed := tracks.ring.push space c
  have length : (terminal.committed ++ (terminal.line ++ [c])).length =
      (terminal.committed ++ terminal.line).length + 1 := by
    rw [← List.append_assoc, length_append, List.length_singleton]
  have further : cons.e + 1 = UInt32.ofNat (terminal.committed ++ (terminal.line ++ [c])).length := by
    rw [tracks.e, ofNat_succ, length]
  have full : cons.e + 1 = cons.r + UInt32.ofNat inputBuf ↔ terminal.held + 1 = inputBuf := by
    have held := tracks.held
    rw [tracks.e_sub_r] at held
    rw [further, tracks.r, ← UInt32.ofNat_add, ofNat_inj_of_near, length]
    · simp only [inputBuf] at space ⊢
      omega
    · rw [length]
      exact space
    · simp only [inputBuf]
      omega
  have place : cons.e.toNat % inputBuf =
      (terminal.committed ++ terminal.line).length % inputBuf := by
    rw [tracks.e, ofNat_mod inputBuf_dvd]
  unfold Cons.store Terminal.put
  simp only [place, full]
  by_cases complete : c = newline ∨ c = controlD ∨ terminal.held + 1 = inputBuf
  · rw [if_pos complete, if_pos complete]
    refine ⟨⟨?_, ?_, List.not_mem_nil, tracks.r, further, ?_⟩, rfl⟩
    · simpa using pushed
    · rw [length_append]
      exact Nat.le_trans low (Nat.le_add_right _ _)
    · simpa using further
  · rw [if_neg complete, if_neg complete]
    refine ⟨⟨?_, low, ?_, tracks.r, tracks.w, further⟩, rfl⟩
    · simpa using pushed
    · intro member
      rcases List.mem_append.mp member with member | member
      · exact tracks.open_line member
      · exact complete (.inl (List.mem_singleton.mp member).symm)

/-- A key does to the ring what it does to the terminal. -/
theorem key (tracks : Tracks cons terminal) (c : UInt8) :
    Tracks (consoleintr c cons).1 (Terminal.key c terminal).1 ∧
      (consoleintr c cons).2 = (Terminal.key c terminal).2 := by
  unfold consoleintr Terminal.key
  rw [tracks.held]
  by_cases print : c = controlP
  · rw [if_pos print, if_pos print]
    exact ⟨tracks, rfl⟩
  rw [if_neg print, if_neg print]
  by_cases kill : c = controlU
  · rw [if_pos kill, if_pos kill, tracks.e_sub_w]
    exact ⟨tracks.killLine, rfl⟩
  rw [if_neg kill, if_neg kill]
  by_cases erases : c = controlH ∨ c = delete
  · rw [if_pos erases, if_pos erases]
    refine ⟨?_, rfl⟩
    rcases List.eq_nil_or_concat' terminal.line with empty | ⟨front, last, line⟩
    · have same : cons.e = cons.w := by
        rw [tracks.e, tracks.w, empty, List.append_nil]
      have stays : terminal.line.dropLast = terminal.line := by
        rw [empty]
        rfl
      rw [if_neg (not_not_intro same), stays]
      exact tracks
    · obtain ⟨_, more, shorter⟩ := tracks.erase line
      rw [if_pos more]
      simpa [line] using shorter
  rw [if_neg erases, if_neg erases]
  by_cases typed : c ≠ 0 ∧ terminal.held < inputBuf
  · rw [if_pos typed, if_pos typed]
    exact tracks.store typed.2 (stored c)
  · rw [if_neg typed, if_neg typed]
    exact ⟨tracks, rfl⟩

theorem take (tracks : Tracks cons terminal) {rest : List UInt8}
    (pending : terminal.pending = c :: rest) :
    Tracks { cons with r := cons.r + 1 } terminal.take := by
  have below := (Terminal.take_succ pending).1
  have filled := Nat.lt_of_lt_of_le below tracks.near.1
  refine ⟨tracks.ring.pop filled, below, tracks.open_line, ?_, tracks.w, tracks.e⟩
  rw [tracks.r, ofNat_succ]
  rfl

end Tracks

/-- Two passes do the same to the call and to the input sides. -/
inductive Alike : Reading Cons → Reading Terminal → Prop where
  | sleep : Alike .sleep .sleep
  | more {cons terminal call c} (tracks : Tracks cons terminal) :
      Alike (.more cons call c) (.more terminal call c)
  | leave {cons terminal call last} (tracks : Tracks cons terminal) :
      Alike (.leave cons call last) (.leave terminal call last)

variable {terminal : Terminal}

/-- A pass does to the ring what it does to the terminal. -/
theorem Tracks.read {cons : Cons} (tracks : Tracks cons terminal)
    (call : Call) : Alike (consoleread cons call) (terminal.read call) := by
  unfold consoleread Terminal.read
  by_cases done : call.n ≤ 0
  · rw [if_pos done, if_pos done]
    exact .leave tracks
  rw [if_neg done, if_neg done]
  cases pending : terminal.pending with
  | nil =>
    rw [if_pos (tracks.empty_iff.mpr pending)]
    exact .sleep
  | cons c rest =>
    have more : cons.r ≠ cons.w := by
      intro same
      rw [tracks.empty_iff.mp same] at pending
      cases pending
    have taken := tracks.take pending
    rw [if_neg more, tracks.first pending]
    dsimp only
    by_cases eof : c = controlD
    · rw [if_pos eof, if_pos eof]
      by_cases started : call.n < call.target
      · rw [if_pos started, if_pos started, UInt32.add_sub_cancel]
        exact .leave tracks
      · rw [if_neg started, if_neg started]
        exact .leave taken
    rw [if_neg eof, if_neg eof]
    by_cases complete : c = newline
    · rw [if_pos complete, if_pos complete]
      exact .leave taken
    · rw [if_neg complete, if_neg complete]
      exact .more taken

/-- The console and the terminal differ in the input side only. -/
structure Refines (state : State Cons) (abstract : State Terminal) : Prop where
  side : Tracks state.side abstract.side
  lock : state.lock = abstract.lock
  calls : state.calls = abstract.calls
  copied : state.copied = abstract.copied
  answers : state.answers = abstract.answers

variable {state : State Cons}

/-- Passes that are alike change the rest of the state in the same way. -/
theorem Refines.finish {abstract : State Terminal}
    (refines : Refines state abstract) (p : Fin nproc) (call : Call) {left : Reading Cons}
    {right : Reading Terminal} (alike : Alike left right) :
    Refines (Console.finish state p call left) (Console.finish abstract p call right) := by
  cases alike with
  | sleep =>
    constructor <;> simp [Console.finish, refines.calls, refines.copied, refines.answers,
      refines.side]
  | more tracks =>
    constructor <;> simp [Console.finish, refines.calls, refines.copied, refines.answers,
      refines.lock, tracks]
  | leave tracks =>
    constructor <;> simp [Console.finish, refines.calls, refines.copied, refines.answers, tracks]

/-- A step of the console is a step of the terminal. -/
theorem Refines.step {next : State Cons} {abstract : State Terminal} {label : Label}
    (refines : Refines state abstract)
    (taken : Console.step consoleintr consoleread state label = some next) :
    ∃ after, Console.step Terminal.key Terminal.read abstract label = some after ∧
      Refines next after := by
  cases label with
  | call p dst n =>
    obtain ⟨idle, rfl⟩ := Option.ite_some_none_eq_some.mp taken
    rw [refines.lock, refines.calls] at idle
    refine ⟨_, if_pos idle, refines.side, rfl, ?_, refines.copied, refines.answers⟩
    simp [refines.calls]
  | pass p =>
    obtain ⟨holds, moved⟩ := Option.ite_none_right_eq_some.mp taken
    obtain ⟨call, here, rfl⟩ := Option.map_eq_some_iff.mp moved
    rw [refines.lock] at holds
    rw [refines.calls] at here
    refine ⟨Console.finish abstract p call (abstract.side.read call), ?_,
      refines.finish p call (refines.side.read call)⟩
    simp [Console.step, holds, here]
  | resume p =>
    obtain ⟨free, woken⟩ := Option.ite_none_right_eq_some.mp taken
    obtain ⟨call, here, resumed⟩ := Option.bind_eq_some_iff.mp woken
    obtain ⟨phase, rfl⟩ := Option.ite_some_none_eq_some.mp resumed
    rw [refines.lock] at free
    rw [refines.calls] at here
    refine ⟨{ abstract with
      lock := some p
      calls := Function.update abstract.calls p (some { call with phase := .running }) }, ?_,
      refines.side, rfl, ?_, refines.copied, refines.answers⟩
    · simp [Console.step, free, here, phase]
    · simp [refines.calls]
  | intr c =>
    obtain ⟨free, rfl⟩ := Option.ite_some_none_eq_some.mp taken
    rw [refines.lock] at free
    obtain ⟨tracks, wakes⟩ := refines.side.key c
    refine ⟨_, if_pos free, tracks, refines.lock, ?_, refines.copied, refines.answers⟩
    simp [refines.calls, wakes]

/-- Every run of the console is a run of the terminal. -/
theorem console_refines {labels : List Label} (runs : consoleSystem.Runs labels state) :
    ∃ abstract, Terminal.system.Runs labels abstract ∧ Refines state abstract := by
  apply runs.simulated Refines
  · rintro _ ⟨cons, ⟨r, w, e⟩, rfl⟩
    refine ⟨fresh Terminal.start, ⟨_, rfl, rfl⟩, ?_, rfl, rfl, rfl, rfl⟩
    exact ⟨.empty _ _, Nat.le_refl 0, List.not_mem_nil, r, w, e⟩
  · intro state label next before refines taken
    exact refines.step taken

/-! ## The result -/

/-- What a reader gets is what the terminal delivers. -/
structure Delivers (state : State Cons) (terminal : State Terminal) : Prop where
  calls : state.calls = terminal.calls
  answers : state.answers = terminal.answers
  copied : state.copied = terminal.copied
  low : terminal.side.taken ≤ terminal.side.committed.length
  delivered : state.copied.map (·.2.2) =
    (terminal.side.committed.take terminal.side.taken).filter (· ≠ controlD)
  pending : state.side.pending = terminal.side.committed.drop terminal.side.taken
  counted : ∀ p, copies state p = returned state p + progress (state.calls p)

theorem Refines.delivers {terminal : State Terminal}
    (refines : Refines state terminal) (fair : Fair terminal) : Delivers state terminal where
  calls := refines.calls
  answers := refines.answers
  copied := refines.copied
  low := fair.low
  delivered := by rw [refines.copied]; exact fair.delivered
  pending := refines.side.pending_eq
  counted := by
    intro p
    have counted := fair.counted p
    rwa [copies, returned, ← refines.copied, ← refines.answers, ← refines.calls] at counted

theorem Tracks.kept {cons : Cons} (tracks : Tracks cons terminal) (c : UInt8) :
    (consoleintr c cons).1.r = cons.r ∧ cons.pending <+: (consoleintr c cons).1.pending := by
  have after := (tracks.key c).1
  obtain ⟨grown, same, _⟩ := terminal.key_spec c
  constructor
  · rw [after.r, same, tracks.r]
  · obtain ⟨more, committed⟩ := grown
    rw [after.pending_eq, tracks.pending_eq, Terminal.pending, Terminal.pending, same, ← committed,
      List.drop_append_of_le_length tracks.low]
    exact List.prefix_append _ _

/-- What a call does with an end of file: it returns what it has read, and takes the end of
file only if that is nothing. -/
theorem Tracks.endOfFile
    (tracks : Tracks state.side terminal) {p : Fin nproc} {call : Call} {rest : List UInt8}
    (holds : state.lock = some p) (here : state.calls p = some call) (unread : 0 < call.n)
    (eof : state.side.pending = controlD :: rest) :
    ∃ next, step consoleintr consoleread state (.pass p) = some next ∧ next.lock = none ∧
      next.calls p = none ∧ next.answers = state.answers ++ [(p, call.target - call.n)] ∧
      next.copied = state.copied ∧
      next.side.pending = if call.n < call.target then controlD :: rest else rest := by
  rw [tracks.pending_eq] at eof
  have alike := tracks.read call
  have leaves : terminal.read call =
      .leave (if call.n < call.target then terminal else terminal.take) call none := by
    rw [Terminal.read, if_neg (Int.not_le.mpr unread), eof]
    exact if_pos rfl
  rw [leaves] at alike
  generalize reading : consoleread state.side call = left at alike
  cases alike with
  | @leave ring _ _ _ after =>
    refine ⟨finish state p call (.leave ring call none), ?_, rfl, ?_, rfl, ?_, ?_⟩
    · simp [step, holds, here, reading]
    · simp [finish]
    · simp [finish]
    · refine after.pending_eq.trans ?_
      by_cases started : call.n < call.target
      · rw [if_pos started, if_pos started, eof]
      · have below := (Terminal.take_succ eof).1
        rw [if_neg started, if_neg started]
        rw [Terminal.pending, List.drop_eq_getElem_cons below] at eof
        exact (List.cons.inj eof).2

/-- In every run of keys and reads the indices stay in order, no key takes a committed byte
away, the bytes delivered are the committed bytes in order without the ends of file, each
reader is told how many it got, and an end of file ends the call that it comes first in. -/
theorem console_delivers {labels : List Label} {state : State Cons}
    (runs : consoleSystem.Runs labels state) :
    state.side.Ordered ∧
      (∀ c, (consoleintr c state.side).1.r = state.side.r ∧
        state.side.pending <+: (consoleintr c state.side).1.pending) ∧
      (∃ terminal, Terminal.system.Runs labels terminal ∧ Delivers state terminal) ∧
      ∀ p call rest, state.lock = some p → state.calls p = some call → 0 < call.n →
        state.side.pending = controlD :: rest →
        ∃ next, step consoleintr consoleread state (.pass p) = some next ∧ next.lock = none ∧
          next.calls p = none ∧ next.answers = state.answers ++ [(p, call.target - call.n)] ∧
          next.copied = state.copied ∧
          next.side.pending = if call.n < call.target then controlD :: rest else rest := by
  obtain ⟨terminal, abstract, refines⟩ := console_refines runs
  have tracks := refines.side
  refine ⟨tracks.ordered, tracks.kept, ⟨terminal, abstract, ?_⟩, ?_⟩
  · exact refines.delivers (fair_of_runs abstract)
  · intro p call rest holds here unread eof
    exact tracks.endOfFile holds here unread eof

/-- Two lines, the second one ended by an end of file. -/
def typed : List Label :=
  [.intr 97, .intr 8, .intr 98, .intr 13, .call 0 100 8, .pass 0, .pass 0, .intr 99, .call 1 200 8,
    .pass 1, .intr 4, .resume 1, .pass 1, .pass 1, .call 0 100 8, .pass 0]

theorem console_delivers_typed :
    ∃ state, consoleSystem.Runs typed state ∧
      state.copied = [(0, 100, 98), (0, 101, 10), (1, 200, 99)] ∧
      state.answers = [(0, 2), (1, 1), (0, 0)] ∧ state.side.Ordered := by
  have found : (LabelledSystem.exec (step consoleintr consoleread) (fresh ⟨fun _ => 0, 0, 0, 0⟩)
      typed).any (fun state => state.copied = [(0, 100, 98), (0, 101, 10), (1, 200, 99)] ∧
        state.answers = [(0, 2), (1, 1), (0, 0)]) = true := by
    decide +kernel
  obtain ⟨state, result, facts⟩ := (Option.any_eq_true _ _).mp found
  obtain ⟨copied, answers⟩ := of_decide_eq_true facts
  have runs : consoleSystem.Runs typed state :=
    .of_exec ⟨_, ⟨rfl, rfl, rfl⟩, rfl⟩ result
  exact ⟨state, runs, copied, answers, (console_delivers runs).1⟩

end Ev6.Console
