import Ev6.AddressSpace.Growth
import Ev6.Support.LabelledSystem
import Ev6.Support.Tally

/-!
# The processes of a machine

Processes call `fork`, `exec`, `sbrk`, `exit` and `wait`, each call a program whose
operations are done one by one between those of the other processes. The rest of the kernel
takes pages and gives them back. In every state that is reached the pages of the memory are
accounted for: each is on the free list, or one of the M-Lists, of the rest of the kernel or
of one process, or it has been lost by a call that has not given it back.
-/

namespace Ev6.AddressSpace

open Option (ite_none_right_eq_some map_eq_some_iff)
open Multiset (singleton_add)
open Function (update update_eq_self update_of_ne update_self)
open Support PageTable

/-! ## The machine -/

/-- What goes on in a slot of `proc`: a process is between two calls, in a call of which the
rest is left to do, or a zombie. The first process is made by `userinit`. A slot is reserved
while another process makes or frees the process in it. -/
inductive Slot where
  | unused
  | reserved
  | boot (rest : Prog Proc)
  | user (p : Proc)
  | zombie (p : Proc)
  | fork (p : Proc) (child : Fin nproc) (rest : Prog (Option Proc))
  | exec (p : Proc) (rest : Prog (Int × Proc))
  | sbrk (p : Proc) (n : Int) (rest : Prog (Int × Proc))
  | wait (p : Proc) (child : Fin nproc) (rest : Prog Unit)

namespace Slot

/-- The slot that a call works on. -/
def child : Slot → Option (Fin nproc)
  | fork _ child _ => some child
  | wait _ child _ => some child
  | _ => none

/-- A slot is reserved. -/
def isReserved : Slot → Bool
  | reserved => true
  | _ => false

/-- The operation that a call does next. -/
def nextOp : Slot → Option Op
  | boot rest => rest.nextOp
  | fork _ _ rest => rest.nextOp
  | exec _ rest => rest.nextOp
  | sbrk _ _ rest => rest.nextOp
  | wait _ _ rest => rest.nextOp
  | _ => none

/-- The next operation of a call. -/
def step (memory : Memory) : Slot → Option (Slot × Memory)
  | boot rest => (rest.step Memory.perform memory).map (Prod.map boot id)
  | fork p child rest => (rest.step Memory.perform memory).map (Prod.map (fork p child) id)
  | exec p rest => (rest.step Memory.perform memory).map (Prod.map (exec p) id)
  | sbrk p n rest => (rest.step Memory.perform memory).map (Prod.map (sbrk p n) id)
  | wait p child rest => (rest.step Memory.perform memory).map (Prod.map (wait p child) id)
  | _ => none

end Slot

/-- The memory, the slots, and the pages that the rest of the kernel has. -/
structure Machine where
  memory : Memory
  slots : Fin nproc → Slot
  kernel : List Page

/-- What happens: a process makes a call, exits, goes on with its call or returns from it, or
the rest of the kernel takes a page or gives one back. -/
inductive Event where
  | fork (i child : Fin nproc)
  | exec (i : Fin nproc) (image : Image)
  | sbrk (i : Fin nproc) (n : Int)
  | exit (i : Fin nproc)
  | wait (i child : Fin nproc)
  | step (i : Fin nproc)
  | ret (i : Fin nproc)
  | take
  | give (page : Page)

namespace Machine

/-- Store to a slot. -/
def setSlot (machine : Machine) (i : Fin nproc) (slot : Slot) : Machine :=
  { machine with slots := update machine.slots i slot }

/-- The end of a call. Which zombie a `wait` frees is left open. A machine without memory for
the page of the first process stops. -/
def ret (machine : Machine) (i : Fin nproc) : Option Machine :=
  match machine.slots i with
  | .boot (.done p) =>
    if (p.table.leaf 0).isSome then some (machine.setSlot i (.user p)) else none
  | .fork p child (.done none) => some ((machine.setSlot child .unused).setSlot i (.user p))
  | .fork p child (.done (some np)) =>
    some ((machine.setSlot child (.user np)).setSlot i (.user p))
  | .exec _ (.done answer) => some (machine.setSlot i (.user answer.2))
  | .sbrk _ _ (.done answer) => some (machine.setSlot i (.user answer.2))
  | .wait p child (.done ()) => some ((machine.setSlot child .unused).setSlot i (.user p))
  | _ => none

/-- One event. There is none where a call faults. -/
def step (trampoline : Page) (machine : Machine) : Event → Option Machine
  | .fork i child =>
    match machine.slots i, machine.slots child with
    | .user p, .unused =>
      some ((machine.setSlot child .reserved).setSlot i
        (.fork p child (AddressSpace.fork trampoline p)))
    | _, _ => none
  | .exec i image =>
    match machine.slots i with
    | .user p => some (machine.setSlot i (.exec p (AddressSpace.exec trampoline p image)))
    | _ => none
  | .sbrk i n =>
    match machine.slots i with
    | .user p =>
      if IsInt n then some (machine.setSlot i (.sbrk p n (growproc p n))) else none
    | _ => none
  | .exit i =>
    match machine.slots i with
    | .user p => some (machine.setSlot i (.zombie p))
    | _ => none
  | .wait i child =>
    match machine.slots i, machine.slots child with
    | .user p, .zombie np =>
      some ((machine.setSlot child .reserved).setSlot i (.wait p child (freeproc np)))
    | _, _ => none
  | .step i =>
    ((machine.slots i).step machine.memory).map fun (slot, memory) =>
      { machine.setSlot i slot with memory := memory }
  | .ret i => machine.ret i
  | .take =>
    match machine.memory.kalloc with
    | (some page, memory) =>
      some { machine with memory := memory, kernel := page :: machine.kernel }
    | (none, _) => none
  | .give page =>
    if machine.kernel.contains page = true ∧ (machine.memory.kfree page).1 = true then
      some { machine with memory := (machine.memory.kfree page).2,
                          kernel := machine.kernel.erase page }
    else none

/-- The memory at boot: pages behind the kernel, each once. -/
structure Fresh (memory : Memory) (all : List Page) : Prop where
  free : memory.free = all
  once : all.Nodup
  above : ∀ page ∈ all, memory.kernelEnd ≤ page.val
  nodes : memory.nodes = []
  ptbList : memory.ptbList = []
  idxPtdup : memory.idxPtdup = []
  nextpid : memory.nextpid = 1

/-- The machine at boot, in `userinit`. -/
structure Boots (trampoline : Page) (all : List Page) (machine : Machine) : Prop where
  fresh : Fresh machine.memory all
  slots : ∃ i, machine.slots = update (fun _ => .unused) i (.boot (userinit trampoline))
  kernel : machine.kernel = []

/-- The processes, from boot on. -/
def system (trampoline : Page) (all : List Page) : LabelledSystem Machine Event :=
  .ofFunction (Boots trampoline all) (step trampoline)

end Machine

/-! ## Who has what -/

variable {strict : Prop} {trampoline : Page}

/-- What `exec` ends with. -/
def Execed (strict : Prop) (answer : Int × Proc) (kept : Holding) : Prop :=
  ∃ lost, kept = answer.2.holding + lost ∧ answer.2.Sized ∧ (strict → lost = 0)

/-- What `userinit` ends with, where there is memory for the page. -/
def Booted (p : Proc) (kept : Holding) : Prop :=
  (p.table.leaf 0).isSome = true → kept = p.holding ∧ p.Sized

/-- What `growproc` ends with. -/
def Resizes (answer : Int × Proc) (kept : Holding) : Prop :=
  kept = answer.2.holding ∧ answer.2.Sized

/-- What a slot has, and what is true of the rest of its call. -/
def Slot.Meets (strict : Prop) (own : Holding) : Slot → Prop
  | .unused | .reserved => own = 0
  | .boot rest => (custody strict).Holds own rest Booted
  | .user p | .zombie p => own = p.holding ∧ p.Sized
  | .fork p _ rest => p.Sized ∧ ∃ held, own = p.holding + held ∧
      (custody strict).Holds held rest (Forked strict 0)
  | .exec _ rest => (custody strict).Holds own rest (Execed strict)
  | .sbrk p n rest => (custody strict).Holds own rest Resizes ∧
      Safe strict rest (Answers p n)
  | .wait p _ rest => p.Sized ∧ ∃ held, own = p.holding + held ∧
      (custody strict).Holds held rest fun _ kept => strict → kept = 0

namespace Machine

/-- Each call works on a reserved slot of its own. -/
structure Minds (slots : Fin nproc → Slot) : Prop where
  reserved : ∀ i child, (slots i).child = some child → (slots child).isReserved = true
  once : ∀ i j child, (slots i).child = some child → (slots j).child = some child → i = j

/-- What the slots have, and what has been lost. -/
structure Shares (strict : Prop) (all : List Page) (machine : Machine)
    (own : Fin nproc → Holding) (lost : Holding) : Prop where
  meets : ∀ i, (machine.slots i).Meets strict (own i)
  tight : strict → lost = 0
  kept : Kept strict all machine.memory (∑ i, own i + (items .page machine.kernel + lost))
  minds : Minds machine.slots

/-- What is true in every state that is reached. -/
def Sound (strict : Prop) (all : List Page) (machine : Machine) : Prop :=
  ∃ own lost, machine.Shares strict all own lost

/-- An event at which no call does what the accounts of the M-List do not allow for: a page
table is given up with a size, and process identifiers fit a node of the M-List. -/
def Fine (machine : Machine) : Event → Prop
  | .step i => ∀ op ∈ (machine.slots i).nextOp, op.Fine
  | _ => True

/-- An event at which an index of `idx_ptdup` is claimed only for a root that it does not
hold. -/
def ClaimsNew (machine : Machine) : Event → Prop
  | .step i => ∀ op ∈ (machine.slots i).nextOp, op.ClaimsNew machine.memory
  | _ => True

/-- Both. -/
def Tidy (machine : Machine) (event : Event) : Prop := machine.Fine event ∧ machine.ClaimsNew event

variable {all : List Page} {machine next : Machine} {i child : Fin nproc} {slot : Slot}

/-! ## Reserved slots -/

variable {slots : Fin nproc → Slot}

/-- A slot that is not reserved changes, with no new child. -/
theorem Minds.set (minds : Minds slots) (free : (slots i).isReserved = false)
    (same : ∀ child, slot.child = some child → (slots i).child = some child) :
    Minds (update slots i slot) := by
  have before (j child : Fin nproc) (works : (update slots i slot j).child = some child) :
      (slots j).child = some child := by
    by_cases here : j = i
    · subst here
      rw [update_self] at works
      exact same child works
    · rwa [update_of_ne here] at works
  refine ⟨fun j child works => ?_, fun j k child one two =>
    minds.once j k child (before j child one) (before k child two)⟩
  have kept := minds.reserved j child (before j child works)
  have other : child ≠ i := by
    rintro rfl
    rw [free] at kept
    cases kept
  rwa [update_of_ne other]

theorem Minds.reserve (minds : Minds slots) (apart : i ≠ child)
    (user : (slots i).isReserved = false) (free : (slots child).isReserved = false)
    (works : slot.child = some child) : Minds (update (update slots child .reserved) i slot) := by
  have before (j other : Fin nproc) (different : j ≠ i)
      (works : (update (update slots child .reserved) i slot j).child =
        some other) : (slots j).child = some other ∧ other ≠ child ∧ other ≠ i := by
    rw [update_of_ne different] at works
    by_cases here : j = child
    · subst here
      rw [update_self] at works
      cases works
    · rw [update_of_ne here] at works
      have kept := minds.reserved j other works
      refine ⟨works, ?_, ?_⟩
      · rintro rfl
        rw [free] at kept
        cases kept
      · rintro rfl
        rw [user] at kept
        cases kept
  refine ⟨fun j other done => ?_, fun j k other one two => ?_⟩
  · by_cases here : j = i
    · subst here
      rw [update_self, works] at done
      cases done
      rw [update_of_ne apart.symm, update_self]
      rfl
    · obtain ⟨old, notChild, notHere⟩ := before j other here done
      rw [update_of_ne notHere, update_of_ne notChild]
      exact minds.reserved j other old
  · by_cases first : j = i
    · by_cases second : k = i
      · rw [first, second]
      · obtain ⟨_, notChild, _⟩ := before k other second two
        rw [first, update_self, works] at one
        exact absurd (Option.some.inj one).symm notChild
    · obtain ⟨oldOne, notChild, _⟩ := before j other first one
      by_cases second : k = i
      · rw [second, update_self, works] at two
        exact absurd (Option.some.inj two).symm notChild
      · exact minds.once j k other oldOne (before k other second two).1

/-- A call is over, and the slot that it worked on is in use or not. -/
theorem Minds.release {made : Slot} (minds : Minds slots)
    (works : (slots i).child = some child) (quiet : slot.child = none) (done : made.child = none) :
    Minds (update (update slots child made) i slot) := by
  have before (j other : Fin nproc)
      (works' : (update (update slots child made) i slot j).child = some other) :
      j ≠ i ∧ (slots j).child = some other := by
    by_cases here : j = i
    · subst here
      rw [update_self, quiet] at works'
      cases works'
    · rw [update_of_ne here] at works'
      by_cases there : j = child
      · subst there
        rw [update_self, done] at works'
        cases works'
      · rw [update_of_ne there] at works'
        exact ⟨here, works'⟩
  have self : (slots i).isReserved = false := by
    cases here : slots i with
    | reserved =>
      rw [here] at works
      cases works
    | _ => rfl
  refine ⟨fun j other taken => ?_, fun j k other one two =>
    minds.once j k other (before j other one).2 (before k other two).2⟩
  obtain ⟨different, old⟩ := before j other taken
  have kept := minds.reserved j other old
  have notHere : other ≠ i := by
    rintro rfl
    rw [self] at kept
    cases kept
  have notChild : other ≠ child := by
    rintro rfl
    exact different (minds.once j i other old works)
  rwa [update_of_ne notHere, update_of_ne notChild]

/-! ## One event -/

section Shares

variable {own : Fin nproc → Holding} {lost : Holding}

theorem Shares.part (shares : machine.Shares strict all own lost) (i : Fin nproc) :
    ∃ others, Kept strict all machine.memory (own i + others) ∧
      ∀ {slot : Slot} {value more : Holding} {memory : Memory}, slot.Meets strict value →
        (strict → more = 0) → Minds (update machine.slots i slot) →
          Kept strict all memory (value + (more + others)) →
            Sound strict all { machine.setSlot i slot with memory := memory } := by
  obtain ⟨rest, sum⟩ := sum_rest own i
  have whole := sum (own i)
  rw [update_eq_self] at whole
  refine ⟨rest + (items .page machine.kernel + lost), ?_, ?_⟩
  · rw [← add_assoc, ← whole]
    exact shares.kept
  · intro slot value more memory meets tight minds kept
    refine ⟨update own i value, more + lost, fun j => ?_, fun holds => ?_, ?_, minds⟩
    · show (update machine.slots i slot j).Meets strict _
      by_cases here : j = i
      · subst here
        rw [update_self, update_self]
        exact meets
      · rw [update_of_ne here, update_of_ne here]
        exact shares.meets j
    · rw [tight holds, shares.tight holds, add_zero]
    · have split : value + (more + (rest + (items .page machine.kernel + lost))) =
          value + rest + (items .page machine.kernel + (more + lost)) := by abel
      rw [split] at kept
      rw [sum value]
      exact kept

theorem Shares.pair (shares : machine.Shares strict all own lost) (apart : i ≠ child) :
    ∃ others, Kept strict all machine.memory (own i + (own child + others)) ∧
      ∀ {slot made : Slot} {one two more : Holding}, slot.Meets strict one →
        made.Meets strict two → (strict → more = 0) →
          Minds (update (update machine.slots child made) i slot) →
            Kept strict all machine.memory (one + (two + (more + others))) →
              Sound strict all ((machine.setSlot child made).setSlot i slot) := by
  obtain ⟨rest, sum⟩ := sum_rest_two own apart
  have whole := sum (own i) (own child)
  rw [update_eq_self, update_eq_self] at whole
  refine ⟨rest + (items .page machine.kernel + lost), ?_, ?_⟩
  · have split : own i + (own child + (rest + (items .page machine.kernel + lost))) =
        own i + (own child + rest) + (items .page machine.kernel + lost) := by abel
    rw [split, ← whole]
    exact shares.kept
  · intro slot made one two more meets makes tight minds kept
    refine ⟨update (update own child two) i one, more + lost, fun j => ?_,
      fun holds => ?_, ?_, minds⟩
    · show (update (update machine.slots child made) i slot j).Meets strict _
      by_cases here : j = i
      · subst here
        rw [update_self, update_self]
        exact meets
      · rw [update_of_ne here, update_of_ne here]
        by_cases there : j = child
        · subst there
          rw [update_self, update_self]
          exact makes
        · rw [update_of_ne there, update_of_ne there]
          exact shares.meets j
    · rw [tight holds, shares.tight holds, add_zero]
    · have split : one + (two + (more + (rest + (items .page machine.kernel + lost)))) =
          one + (two + rest) + (items .page machine.kernel + (more + lost)) := by abel
      rw [split] at kept
      rw [sum one two]
      exact kept

variable {p : Proc}

/-- A process begins a call that works on its own slot only. -/
theorem Shares.begin (shares : machine.Shares strict all own lost)
    (here : machine.slots i = .user p) (quiet : slot.child = none)
    (meets : p.Sized → slot.Meets strict p.holding) : Sound strict all (machine.setSlot i slot) := by
  obtain ⟨others, kept, set⟩ := shares.part i
  have meetsUser := shares.meets i
  rw [here] at meetsUser
  obtain ⟨value, sized⟩ := meetsUser
  rw [value, ← zero_add others] at kept
  refine set (meets sized) (fun _ => rfl) (shares.minds.set ?_ fun child works => ?_) kept
  · rw [here]
    rfl
  · rw [quiet] at works
    cases works

/-- A process begins to make another one, or to free it. -/
theorem Shares.beginChild {given : Holding} (shares : machine.Shares strict all own lost)
    (here : machine.slots i = .user p) (there : (machine.slots child).isReserved = false)
    (apart : i ≠ child) (gives : own child = given) (works : slot.child = some child)
    (meets : p.Sized → slot.Meets strict (p.holding + given)) :
    Sound strict all ((machine.setSlot child .reserved).setSlot i slot) := by
  obtain ⟨others, kept, set⟩ := shares.pair apart
  have meetsUser := shares.meets i
  rw [here] at meetsUser
  obtain ⟨value, sized⟩ := meetsUser
  have split : own i + (own child + others) = p.holding + given + (0 + (0 + others)) := by
    rw [value, gives]
    abel
  rw [split] at kept
  refine set (meets sized) rfl (fun _ => rfl) ?_ kept
  refine shares.minds.reserve apart ?_ there works
  rw [here]
  rfl

variable {after : Memory} {advanced : Slot}

theorem Slot.Meets.step {memory : Memory} {held others : Holding}
    (meets : slot.Meets strict held) (fine : strict → ∀ op ∈ slot.nextOp, op.Fine)
    (kept : Kept strict all memory (held + others))
    (taken : slot.step memory = some (advanced, after)) :
    advanced.child = slot.child ∧ ∃ value, advanced.Meets strict value ∧
      Kept strict all after (value + others) := by
  have performs (op : Op) (due : slot.nextOp = some op) :
      (custody strict).Performs (Kept strict all) Memory.perform op :=
    Kept.performs op fun holds => fine holds op due
  cases slot with
  | boot rest =>
    obtain ⟨⟨next, memory⟩, done, same⟩ := map_eq_some_iff.mp taken
    cases same
    obtain ⟨left, further, after, -⟩ :=
      Contract.Holds.advance meets Kept.backed performs kept done
    exact ⟨rfl, left, further, after⟩
  | fork p child rest =>
    obtain ⟨⟨next, memory⟩, done, same⟩ := map_eq_some_iff.mp taken
    cases same
    obtain ⟨sized, own, rfl, holds⟩ := meets
    rw [add_comm p.holding, add_assoc] at kept
    obtain ⟨left, further, after, -⟩ := holds.advance Kept.backed performs kept done
    rw [← add_assoc, add_comm left] at after
    exact ⟨rfl, p.holding + left, ⟨sized, left, rfl, further⟩, after⟩
  | exec p rest =>
    obtain ⟨⟨next, memory⟩, done, same⟩ := map_eq_some_iff.mp taken
    cases same
    obtain ⟨left, further, after, -⟩ :=
      Contract.Holds.advance meets Kept.backed performs kept done
    exact ⟨rfl, left, further, after⟩
  | sbrk p n rest =>
    obtain ⟨⟨next, memory⟩, done, same⟩ := map_eq_some_iff.mp taken
    cases same
    obtain ⟨holds, safe⟩ := meets
    obtain ⟨left, further, after, keeps⟩ := holds.advance Kept.backed performs kept done
    exact ⟨rfl, left, ⟨further, keeps safe⟩, after⟩
  | wait p child rest =>
    obtain ⟨⟨next, memory⟩, done, same⟩ := map_eq_some_iff.mp taken
    cases same
    obtain ⟨sized, own, rfl, holds⟩ := meets
    rw [add_comm p.holding, add_assoc] at kept
    obtain ⟨left, further, after, -⟩ := holds.advance Kept.backed performs kept done
    rw [← add_assoc, add_comm left] at after
    exact ⟨rfl, p.holding + left, ⟨sized, left, rfl, further⟩, after⟩
  | unused => cases taken
  | reserved => cases taken
  | user p => cases taken
  | zombie p => cases taken

theorem Slot.not_reserved_of_step {memory : Memory}
    (taken : slot.step memory = some (advanced, after)) : slot.isReserved = false := by
  cases slot with
  | reserved => cases taken
  | _ => rfl

theorem Shares.step (shares : machine.Shares strict all own lost)
    (fine : strict → machine.Fine (.step i))
    (taken : (machine.slots i).step machine.memory = some (advanced, after)) :
    Sound strict all { machine.setSlot i advanced with memory := after } := by
  obtain ⟨others, kept, set⟩ := shares.part i
  obtain ⟨child, value, meets, kept⟩ := Slot.Meets.step (shares.meets i) fine kept taken
  rw [← zero_add others] at kept
  refine set meets (fun _ => rfl) (shares.minds.set (Slot.not_reserved_of_step taken) ?_) kept
  intro other works
  rwa [← child]

/-! ## Returning -/

/-- A call that works on its own slot only returns. -/
theorem Shares.finish {α : Type} {result : α} {post : α → Holding → Prop}
    (shares : machine.Shares strict all own lost) (free : (machine.slots i).isReserved = false)
    (holds : (custody strict).Holds (own i) (.done result : Prog α) post)
    (ends : ∀ kept, post result kept → ∃ more, kept = p.holding + more ∧ p.Sized ∧
      (strict → more = 0)) : Sound strict all (machine.setSlot i (.user p)) := by
  obtain ⟨others, kept, set⟩ := shares.part i
  obtain ⟨left, met, kept⟩ := holds.finish Kept.backed kept
  obtain ⟨more, rfl, sized, tight⟩ := ends left met
  rw [add_assoc] at kept
  have meets : (Slot.user p).Meets strict p.holding := ⟨rfl, sized⟩
  refine set meets tight (shares.minds.set free fun child works => ?_) kept
  cases works

theorem Shares.finishChild {α : Type} {result : α} {held : Holding} {made : Slot}
    {post : α → Holding → Prop} (shares : machine.Shares strict all own lost)
    (works : (machine.slots i).child = some child) (sized : p.Sized)
    (value : own i = p.holding + held)
    (holds : (custody strict).Holds held (.done result : Prog α) post) (quiet : made.child = none)
    (ends : ∀ kept, post result kept → ∃ two more, kept = two + more ∧ made.Meets strict two ∧
      (strict → more = 0)) :
    Sound strict all ((machine.setSlot child made).setSlot i (.user p)) := by
  have reserved := shares.minds.reserved i child works
  have apart : i ≠ child := by
    rintro rfl
    cases here : machine.slots i with
    | reserved =>
      rw [here] at works
      cases works
    | _ =>
      rw [here] at reserved
      cases reserved
  have nothing : own child = 0 := by
    have meets := shares.meets child
    cases there : machine.slots child with
    | reserved =>
      rw [there] at meets
      exact meets
    | _ =>
      rw [there] at reserved
      cases reserved
  obtain ⟨others, kept, set⟩ := shares.pair apart
  rw [value, nothing, zero_add, add_comm p.holding, add_assoc] at kept
  obtain ⟨left, met, kept⟩ := holds.finish Kept.backed kept
  obtain ⟨two, more, rfl, meets, tight⟩ := ends left met
  have split : two + more + (p.holding + others) = p.holding + (two + (more + others)) := by abel
  rw [split] at kept
  have user : (Slot.user p).Meets strict p.holding := ⟨rfl, sized⟩
  exact set user meets tight (shares.minds.release works rfl quiet) kept

theorem Shares.ret (shares : machine.Shares strict all own lost)
    (taken : machine.ret i = some next) : Sound strict all next := by
  have meets := shares.meets i
  unfold Machine.ret at taken
  split at taken
  · next p here =>
     obtain ⟨there, done⟩ := ite_none_right_eq_some.mp taken
     cases done
     rw [here] at meets
     refine shares.finish ?_ meets fun kept met => ⟨0, ?_, (met there).2, fun _ => rfl⟩
     · rw [here]
       rfl
     · rw [(met there).1, add_zero]
  · next p child here =>
     cases taken
     rw [here] at meets
     obtain ⟨sized, held, value, holds⟩ := meets
     have works : (machine.slots i).child = some child := by rw [here]; rfl
     refine shares.finishChild works sized value holds rfl fun kept met => ⟨0, kept, ?_, rfl, ?_⟩
     · rw [zero_add]
     · cases met with
       | early => exact fun _ => rfl
       | late root lost leaks loose => exact fun holds => absurd holds loose
  · next p child np here =>
     cases taken
     rw [here] at meets
     obtain ⟨sized, held, value, holds⟩ := meets
     have works : (machine.slots i).child = some child := by rw [here]; rfl
     refine shares.finishChild works sized value holds rfl fun kept met => ?_
     cases met with
     | child np fits => exact ⟨np.holding, 0, rfl, ⟨rfl, fits⟩, fun _ => rfl⟩
  · next p answer here =>
     cases taken
     rw [here] at meets
     refine shares.finish ?_ meets fun kept met => met
     rw [here]
     rfl
  · next p n answer here =>
     cases taken
     rw [here] at meets
     refine shares.finish ?_ meets.1 fun kept met => ⟨0, ?_, met.2, fun _ => rfl⟩
     · rw [here]
       rfl
     · rw [met.1, add_zero]
  · next p child here =>
     cases taken
     rw [here] at meets
     obtain ⟨sized, held, value, holds⟩ := meets
     have works : (machine.slots i).child = some child := by rw [here]; rfl
     refine shares.finishChild works sized value holds rfl fun kept met => ⟨0, kept, ?_, rfl, met⟩
     rw [zero_add]
  · cases taken

/-! ## The rest of the kernel -/

theorem Shares.take {page : Page} (shares : machine.Shares strict all own lost)
    (given : machine.memory.kalloc = (some page, after)) :
    Sound strict all { machine with memory := after, kernel := page :: machine.kernel } := by
  have kept := shares.kept
  rw [← zero_add (∑ i, own i + _)] at kept
  obtain ⟨-, after⟩ := Kept.performs .kalloc (fun _ => trivial) _ _ kept
  have step : machine.memory.perform .kalloc = (some page, _) := given
  rw [step] at after
  refine ⟨own, lost, shares.meets, shares.tight, ?_, shares.minds⟩
  have split : gives .kalloc (some page) + (∑ i, own i + (items .page machine.kernel + lost)) =
      ∑ i, own i + (items .page (page :: machine.kernel) + lost) := by
    simp only [gives, Option.toList_some, items_cons, items_nil, ← singleton_add]
    abel
  rw [← split]
  exact after

theorem Shares.give {page : Page} (shares : machine.Shares strict all own lost)
    (member : page ∈ machine.kernel) :
    Sound strict all { machine with memory := (machine.memory.kfree page).2,
                                    kernel := machine.kernel.erase page } := by
  have kept := shares.kept
  have pages : items .page machine.kernel =
      {.page page} + items .page (machine.kernel.erase page) := by
    have split : (machine.kernel : Multiset Page) =
        page ::ₘ (machine.kernel.erase page : List Page) :=
      Multiset.coe_eq_coe.mpr (List.perm_cons_erase member)
    rw [items, split, Multiset.map_cons, singleton_add]
    rfl
  have split : ∑ i, own i + (items .page machine.kernel + lost) = takes (.kfree page) +
      (∑ i, own i + (items .page (machine.kernel.erase page) + lost)) := by
    rw [pages]
    show _ = {Item.page page} + _
    abel
  rw [split] at kept
  obtain ⟨-, after⟩ := Kept.performs (.kfree page) (fun _ => trivial) _ _ kept
  refine ⟨own, lost, shares.meets, shares.tight, ?_, shares.minds⟩
  rw [← zero_add (∑ i, own i + _)]
  exact after

end Shares

theorem Sound.step {event : Event} (sound : machine.Sound strict all)
    (fine : strict → machine.Fine event) (taken : machine.step trampoline event = some next) :
    next.Sound strict all := by
  obtain ⟨own, lost, shares⟩ := sound
  unfold Machine.step at taken
  cases event with
  | fork i child =>
    dsimp only at taken
    split at taken
    · next p here there =>
       cases taken
       have nothing := shares.meets child
       rw [there] at nothing
       have apart : i ≠ child := by
         rintro rfl
         rw [here] at there
         cases there
       refine shares.beginChild here ?_ apart nothing rfl fun sized => ?_
       · rw [there]
         rfl
       · exact ⟨sized, 0, rfl, fork_holds sized⟩
    · cases taken
  | exec i image =>
    dsimp only at taken
    split at taken
    · next p here =>
       cases taken
       refine shares.begin here rfl fun sized => ?_
       have holds : (custody strict).Holds (p.holding + 0) (AddressSpace.exec trampoline p image)
           _ := exec_holds sized image
       rw [add_zero] at holds
       refine holds.mono fun answer kept met => ?_
       obtain ⟨more, rfl, fits, tight⟩ := met
       exact ⟨more, by rw [add_zero], fits, tight⟩
    · cases taken
  | sbrk i n =>
    dsimp only at taken
    split at taken
    · next p here =>
       obtain ⟨int, done⟩ := ite_none_right_eq_some.mp taken
       cases done
       refine shares.begin here rfl fun sized => ⟨?_, ?_⟩
       · have holds : (custody strict).Holds (p.holding + 0) (growproc p n) _ :=
           growproc_holds sized n
         rw [add_zero] at holds
         refine holds.mono fun answer kept met => ⟨?_, met.2⟩
         rw [met.1, add_zero]
       · exact growproc_safe sized int
    · cases taken
  | exit i =>
    dsimp only at taken
    split at taken
    · next p here =>
       cases taken
       exact shares.begin here rfl fun sized => ⟨rfl, sized⟩
    · cases taken
  | wait i child =>
    dsimp only at taken
    split at taken
    · next p np here there =>
       cases taken
       have value := shares.meets child
       rw [there] at value
       have apart : i ≠ child := by
         rintro rfl
         rw [here] at there
         cases there
       refine shares.beginChild here ?_ apart value.1 rfl fun sized => ?_
       · rw [there]
         rfl
       · refine ⟨sized, np.holding, rfl, ?_⟩
         have holds : (custody strict).Holds (np.holding + 0) (freeproc np) _ :=
           freeproc_holds fun _ => value.2
         rw [add_zero] at holds
         refine holds.mono fun _ kept met holds => ?_
         obtain ⟨more, rfl, _, tight⟩ := met
         rw [tight holds, add_zero]
    · cases taken
  | step i =>
    obtain ⟨⟨slot, memory⟩, done, rfl⟩ := map_eq_some_iff.mp taken
    exact shares.step fine done
  | ret i => exact shares.ret taken
  | take =>
    dsimp only at taken
    split at taken
    · next page memory given =>
       cases taken
       exact shares.take given
    · cases taken
  | give page =>
    obtain ⟨⟨member, -⟩, done⟩ := ite_none_right_eq_some.mp taken
    cases done
    exact shares.give (List.contains_iff_mem.mp member)

/-! ## Boot -/

/-- `uvminit`, where there is memory to map the page. -/
theorem uvminit_holds {table : Table} {spare : Holding} (filled : table.Filled 0) :
    (custody strict).Holds (table.holding + spare) (table.uvminit 0) fun after kept =>
      (after.leaf 0).isSome = true → kept = after.holding + spare ∧ after.Filled 1 := by
  refine (kallocOr_holds _).bind fun mem kept met => ?_
  subst met
  refine (Table.mappages_fresh_holds filled (by decide) (by decide)).bind fun answer kept met => ?_
  obtain ⟨res, mapped⟩ := answer
  obtain ⟨-, rfl, grown⟩ | ⟨-, rfl, same⟩ := met
  · refine Table.l0PtesAdd_holds.mono fun after kept met _ => ?_
    exact ⟨met.1, grown.steady met.2⟩
  · dsimp only at same ⊢
    rw [← Multiset.add_cons]
    refine Table.l0PtesAdd_holds.mono fun after kept met there => ?_
    have filled : after.Filled 0 := same.steady met.2
    exact absurd ((filled.user 0 (by decide)).mp there) (Nat.lt_irrefl 0)

theorem userinit_holds : (custody strict).Holds 0 (userinit trampoline) Booted := by
  refine allocproc_holds.bind fun found kept met => ?_
  obtain ⟨rfl, rfl⟩ | ⟨p, rfl, rfl, filled, -⟩ := met
  · exact .fault
  · refine (idle_holds (.registerTransInfo 1) rfl fun _ => rfl).bind fun _ kept met => ?_
    obtain ⟨_, rfl⟩ := met
    have split : p.holding + 0 = p.table.holding + {.page p.tf} := by
      rw [Proc.holding, add_zero, ← singleton_add, add_comm]
    rw [split]
    refine (uvminit_holds filled).bind fun table kept met => ?_
    refine .pure fun there => ?_
    obtain ⟨rfl, grown⟩ := met there
    have one : pages pgsize = 1 := by decide
    have fits : table.Fits pgsize := ⟨one ▸ grown, by decide⟩
    refine ⟨?_, fits⟩
    rw [Proc.holding, ← singleton_add, add_comm]

theorem Fresh.kept {memory : Memory} (fresh : Fresh memory all) : Kept strict all memory 0 := by
  refine ⟨⟨Multiset.coe_nodup.mpr fresh.once, fun page => ?_, fun root => ?_, fresh.above⟩,
    fun _ => ⟨fun word member => ?_, fun table => ?_⟩⟩
  · simp [Memory.stock, fresh.nodes, fresh.free]
  · simp [fresh.idxPtdup]
  · rw [fresh.ptbList] at member
    cases member
  · simp [Memory.naming, fresh.ptbList]

theorem Boots.sound (boots : Boots trampoline all machine) : machine.Sound strict all := by
  obtain ⟨i, slots⟩ := boots.slots
  have alone (j : Fin nproc) : (machine.slots j).child = none := by
    rw [slots]
    by_cases here : j = i
    · rw [here, update_self]
      rfl
    · rw [update_of_ne here]
      rfl
  refine ⟨fun _ => 0, 0, fun j => ?_, fun _ => rfl, ?_, fun j child works => ?_,
    fun j k child works _ => ?_⟩
  · rw [slots]
    by_cases here : j = i
    · rw [here, update_self]
      exact userinit_holds
    · rw [update_of_ne here]
      rfl
  · rw [boots.kernel, Finset.sum_const_zero, items_nil, add_zero, add_zero]
    exact boots.fresh.kept
  · rw [alone] at works
    cases works
  · rw [alone] at works
    cases works

/-! ## Runs -/

variable {events : List Event}

theorem sound_of_runs (runs : (system trampoline all).Runs events machine) :
    machine.Sound False all := by
  refine runs.invariant (Sound False all) (fun start boots => ?_)
    fun before event after sound taken => ?_
  · exact Boots.sound boots
  · exact Sound.step sound (fun never => never.elim) taken

/-- Nothing is lost in a run in which the accounts of the M-List allow for every step. -/
theorem strict_of_runs (runs : ((system trampoline all).guarded Tidy).Runs events machine) :
    machine.Sound True all := by
  refine runs.invariant (Sound True all) (fun start boots => ?_)
    fun before event after sound taken => ?_
  · exact Boots.sound boots
  · exact Sound.step sound (fun _ => taken.1.1) taken.2

theorem Slot.memory_of_step {memory after : Memory} {slot advanced : Slot}
    (taken : slot.step memory = some (advanced, after)) :
    ∃ op, slot.nextOp = some op ∧ after = (memory.perform op).2 := by
  have perform {α : Type} {program next : Prog α}
      (done : program.step Memory.perform memory = some (next, after)) :
      ∃ op, program.nextOp = some op ∧ after = (memory.perform op).2 := by
    cases program with
    | call op rest => exact ⟨op, rfl, (Prod.mk.inj (Option.some.inj done)).2.symm⟩
    | done result => cases done
    | fault reason => cases done
  cases slot with
  | boot rest | fork p child rest | exec p rest | sbrk p n rest | wait p child rest =>
    obtain ⟨⟨next, memory⟩, done, same⟩ := map_eq_some_iff.mp taken
    cases same
    exact perform done
  | unused | reserved | user p | zombie p => cases taken

theorem step_idxPtdup {event : Event} (once : machine.memory.idxPtdup.Nodup)
    (new : machine.ClaimsNew event) (taken : machine.step trampoline event = some next) :
    next.memory.idxPtdup.Nodup := by
  have quiet (same : next.memory = machine.memory) : next.memory.idxPtdup.Nodup := by
    rw [same]
    exact once
  unfold Machine.step at taken
  cases event with
  | fork i child | exec i image | sbrk i n | exit i | wait i child | ret i =>
    refine quiet ?_
    dsimp only [Machine.ret] at taken
    grind [setSlot]
  | step i =>
    obtain ⟨⟨slot, memory⟩, done, rfl⟩ := map_eq_some_iff.mp taken
    obtain ⟨op, due, after⟩ := Slot.memory_of_step done
    have kept := Memory.perform_idxPtdup once (new op due)
    rwa [← after] at kept
  | take =>
    dsimp only at taken
    split at taken
    · next page memory given =>
       cases taken
       have kept := @Memory.perform_idxPtdup machine.memory .kalloc once trivial
       rwa [show machine.memory.perform .kalloc = (some page, memory) from given] at kept
    · cases taken
  | give page =>
    obtain ⟨-, done⟩ := ite_none_right_eq_some.mp taken
    cases done
    exact @Memory.perform_idxPtdup machine.memory (.kfree page) once trivial

/-- In a run in which indices are claimed for new roots only, `idx_ptdup` holds a root once. -/
theorem idxPtdup_nodup_of_runs
    (runs : ((system trampoline all).guarded ClaimsNew).Runs events machine) :
    machine.memory.idxPtdup.Nodup := by
  refine runs.invariant (fun machine => machine.memory.idxPtdup.Nodup) (fun start boots => ?_)
    fun before event after once taken => ?_
  · rw [boots.fresh.idxPtdup]
    exact List.nodup_nil
  · exact step_idxPtdup once taken.1 taken.2

/-! ## A machine -/

/-- The page with a number, from the base of the memory on. -/
def pageNo (k : Nat) : Page :=
  ⟨kernbase + pgsize * (k % memoryPages), by
    have size : pgsize = 4096 := rfl
    have base : kernbase = 0x80000000 := rfl
    have top : phystop = 0x88000000 := rfl
    have pages : memoryPages = 32768 := rfl
    simp only [IsPage, size, base, top, pages]
    omega⟩

/-- The pages behind the first 32, which the kernel has. -/
def bootPages (count : Nat) : List Page := (List.range count).map fun k => pageNo (k + 32)

/-- A machine at boot, with a number of pages. -/
def bootMachine (count : Nat) : Machine where
  memory :=
    { free := bootPages count
      nodes := []
      ptbList := []
      idxPtdup := []
      nextpid := 1
      rcsInfos := []
      transInfos := []
      kernelEnd := kernbase + pgsize * 32
      mlistFull := []
      recordPages := [] }
  slots := update (fun _ => .unused) 0 (.boot (userinit (pageNo 7)))
  kernel := []

theorem bootMachine_boots {count : Nat} (few : count + 32 ≤ memoryPages) :
    Boots (pageNo 7) (bootPages count) (bootMachine count) := by
  have size : pgsize = 4096 := rfl
  have pages : memoryPages = 32768 := memoryPages_eq
  refine ⟨⟨rfl, ?_, fun page member => ?_, rfl, rfl, rfl, rfl⟩, ⟨0, rfl⟩, rfl⟩
  · refine List.Nodup.map_on (fun i first j second same => ?_) List.nodup_range
    have low := List.mem_range.mp first
    have lowOther := List.mem_range.mp second
    have value : kernbase + pgsize * ((i + 32) % memoryPages) =
        kernbase + pgsize * ((j + 32) % memoryPages) := congrArg Subtype.val same
    rw [Nat.mod_eq_of_lt (by omega), Nat.mod_eq_of_lt (by omega), size] at value
    omega
  · obtain ⟨k, inside, rfl⟩ := List.mem_map.mp member
    have low := List.mem_range.mp inside
    show kernbase + pgsize * 32 ≤ kernbase + pgsize * ((k + 32) % memoryPages)
    rw [Nat.mod_eq_of_lt (by omega), size]
    omega

/-- A call with a number of operations. -/
def callEvents (event : Event) (i : Fin nproc) (count : Nat) : List Event :=
  event :: (List.replicate count (.step i) ++ [.ret i])

/-- The end of `userinit`. -/
def bootEvents : List Event := List.replicate 30 (.step 0) ++ [.ret 0]

end Machine

end Ev6.AddressSpace
