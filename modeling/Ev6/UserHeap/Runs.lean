import Ev6.Support.LabelledSystem
import Ev6.UserHeap.Malloc

/-!
# Programs that call `malloc` and `free`

A program calls `malloc` with any `uint`, gives blocks back that it has not given back yet,
and writes what it likes into the bytes that it asked for. As long as a request reaches
`sbrk` as the number of bytes that it stands for, the heap stays sound and every call
returns (`malloc_sound`). A request of almost 2^32 bytes does not: `sbrk` takes an `int`, and
the block that `malloc` returns is larger than the memory behind it.
-/

namespace Ev6.UserHeap

open Support

/-- A block that `malloc` has returned: the unit of its header, and the bytes asked for. -/
structure Block where
  start : Nat
  nbytes : Nat
deriving DecidableEq

/-- The units of a block, with its header. -/
def Block.units (block : Block) : Nat := nunits block.nbytes

/-- The unit belongs to the block or its header. -/
def Block.Has (block : Block) (unit : Nat) : Prop :=
  block.start ≤ unit ∧ unit < block.start + block.units

/-- Some of the bytes that were asked for lie in the unit. -/
def Block.Payload (block : Block) (p : Nat) : Prop :=
  block.start < p ∧ (p - block.start - 1) * headerSize < block.nbytes

instance (block : Block) (p : Nat) : Decidable (block.Payload p) :=
  inferInstanceAs (Decidable (_ ∧ _))

/-- The memory of a program, and the blocks that it has not given back. -/
structure State where
  memory : Memory
  live : List Block

/-- What a program does. -/
inductive Event where
  | malloc (nbytes : UInt32) (granted : Bool)
  | free (ap : Nat)
  | write (p : Nat) (value : Header)

/-- One event, with a bound on the passes of the loops. -/
def step (base fuel : Nat) (state : State) : Event → Option State
  | .malloc nbytes granted =>
    (state.memory.malloc base granted fuel nbytes.toNat).map fun returned =>
      { memory := returned.2
        live := (returned.1.map fun ap => ⟨ap - 1, nbytes.toNat⟩).toList ++ state.live }
  | .free ap =>
    if ∃ block ∈ state.live, block.start + 1 = ap then
      (state.memory.free fuel ap).map fun memory =>
        { memory, live := state.live.filter fun block => block.start + 1 ≠ ap }
    else none
  | .write p value =>
    if ∃ block ∈ state.live, block.Payload p then
      some { state with memory :=
        { state.memory with header := Function.update state.memory.header p value } }
    else none

/-- A program before its first call: its break is at the unit `first`, behind `base`. -/
structure Unused (base first : Nat) (state : State) : Prop where
  freep : state.memory.freep = 0
  live : state.live = []
  brk : state.memory.brk = first * headerSize
  bounded : state.memory.brk < 2 ^ 31
  nonnull : 0 < base
  below : base < first

/-- Programs that call `malloc` and `free`. A call returns when some number of passes is
enough for its loops. -/
def system (base first : Nat) : LabelledSystem State Event where
  Initial := Unused base first
  Step state event next := ∃ fuel, step base fuel state event = some next

/-- The request is below 2^31 bytes with its header and the rounding, or `sbrk` refuses what
reaches it. -/
def Asks (state : State) : Event → Prop
  | .malloc nbytes granted => nbytes.toNat ≤ 2 ^ 31 - 32 ∨
      state.memory.sbrk granted (int (request (nunits nbytes.toNat) * headerSize)) = none
  | _ => True

instance (state : State) : (event : Event) → Decidable (Asks state event)
  | .malloc _ _ => inferInstanceAs (Decidable (_ ∨ _))
  | .free _ => isTrue trivial
  | .write _ _ => isTrue trivial

/-- The live blocks hold the bytes asked for, lie between the unit `first` and the break, and
share no unit with each other or with a free node. -/
structure Sound (base first : Nat) (state : State) (nodes : List Nat) : Prop where
  heap : Heap state.memory base first nodes
  room : ∀ block ∈ state.live, block.nbytes + headerSize ≤ block.units * headerSize
  sizes : ∀ block ∈ state.live, state.memory.size block.start = block.units
  inside : ∀ block ∈ state.live,
    first ≤ block.start ∧ block.start + block.units ≤ state.memory.brk / headerSize
  disjoint : state.live.Pairwise fun a b => ∀ unit, ¬(a.Has unit ∧ b.Has unit)
  apart : ∀ block ∈ state.live, ∀ unit, block.Has unit → ¬state.memory.Free nodes unit

variable {base first : Nat} {memory : Memory} {live : List Block} {nodes others : List Nat}

theorem Block.room (block : Block) : block.nbytes + headerSize ≤ block.units * headerSize := by
  simp only [Block.units, nunits, headerSize]
  omega

theorem Block.units_pos (block : Block) : 0 < block.units := Nat.succ_pos _

theorem Block.has_start (block : Block) : block.Has block.start := by
  have positive := block.units_pos
  exact ⟨Nat.le_refl _, by omega⟩

variable {block : Block}

/-- The bytes asked for lie inside the block, behind its header. -/
theorem Block.Payload.has {p : Nat} (payload : block.Payload p) :
    block.Has p ∧ p ≠ block.start := by
  obtain ⟨low, high⟩ := payload
  have room := block.room
  simp only [headerSize] at high room
  exact ⟨⟨by omega, by omega⟩, by omega⟩

/-! ## One call -/

variable {state : State}

theorem step_mono {next : State} {event : Event} {fuel more : Nat} (less : fuel ≤ more)
    (taken : step base fuel state event = some next) : step base more state event = some next := by
  cases event with
  | malloc nbytes granted =>
    obtain ⟨returned, call, rfl⟩ := Option.map_eq_some_iff.mp taken
    exact Option.map_eq_some_iff.mpr ⟨returned, Memory.mallocLoop_mono less call, rfl⟩
  | free ap =>
    obtain ⟨live, freed⟩ := Option.ite_none_right_eq_some.mp taken
    obtain ⟨memory, call, rfl⟩ := Option.map_eq_some_iff.mp freed
    rw [step, if_pos live]
    exact Option.map_eq_some_iff.mpr ⟨memory, Memory.free_mono less call, rfl⟩
  | write p value => exact taken

theorem Sound.fresh (sound : Sound base first ⟨memory, live⟩ nodes)
    (member : block ∈ live) {unit : Nat} (has : block.Has unit) : unit ∉ base :: nodes := by
  intro ring
  rcases List.mem_cons.mp ring with rfl | inNodes
  · have low := (sound.inside block member).1
    have below := sound.heap.below
    have start := has.1
    omega
  · have sized := sound.heap.list.sizes unit inNodes
    exact sound.apart block member unit has ⟨unit, inNodes, Nat.le_refl _, by omega⟩

theorem Sound.grown {after : Memory} (sound : Sound base first ⟨memory, live⟩ nodes)
    (heap : Heap after base first others) (grown : Grown memory after base nodes others) :
    Sound base first ⟨after, live⟩ others where
  heap := heap
  room := sound.room
  sizes block member := by
    have size := sound.sizes block member
    have high : block.start + block.units ≤ memory.brk / headerSize :=
      (sound.inside block member).2
    have positive := block.units_pos
    rw [← size]
    exact grown.kept block.start (sound.fresh member block.has_start) (by omega)
  inside block member := by
    obtain ⟨low, high⟩ := sound.inside block member
    have more : memory.brk / headerSize ≤ after.brk / headerSize := Nat.div_le_div_right grown.brk
    exact ⟨low, Nat.le_trans high more⟩
  disjoint := sound.disjoint
  apart block member unit has free := by
    rcases (grown.free unit).mp free with old | ⟨new, -⟩
    · exact sound.apart block member unit has old
    · have high : block.start + block.units ≤ memory.brk / headerSize :=
        (sound.inside block member).2
      have last := has.2
      omega

/-- The block that `malloc` cuts from the free units becomes a live one. -/
theorem Sound.taken {after : Memory} (sound : Sound base first ⟨memory, live⟩ nodes)
    (taken : Taken memory after base nodes others block.units block.start) :
    Sound base first ⟨after, block :: live⟩ others := by
  have free : ∀ unit, block.Has unit → memory.Free nodes unit := fun unit has =>
    taken.old unit has.1 has.2
  have separate : ∀ other ∈ live, ∀ unit, ¬(block.Has unit ∧ other.Has unit) := by
    rintro other member unit ⟨has, otherHas⟩
    exact sound.apart other member unit otherHas (free unit has)
  have positive := block.units_pos
  have brk : after.brk = memory.brk := taken.brk
  constructor
  · exact sound.heap.taken taken
  · exact fun other _ => other.room
  · intro other member
    rcases List.mem_cons.mp member with rfl | old
    · exact taken.size
    · have different : other.start ≠ block.start := fun same =>
        separate other old other.start ⟨by rw [same]; exact block.has_start, other.has_start⟩
      have size := sound.sizes other old
      rw [← size]
      exact taken.kept other.start (sound.fresh old other.has_start) different
  · intro other member
    show first ≤ other.start ∧ other.start + other.units ≤ after.brk / headerSize
    rw [brk]
    rcases List.mem_cons.mp member with rfl | old
    · have low := sound.heap.within other.start (free other.start other.has_start)
      have high := sound.heap.within (other.start + other.units - 1)
        (free _ ⟨by omega, by omega⟩)
      have last : other.start + other.units - 1 < memory.brk / headerSize := high.2
      exact ⟨low.1, by omega⟩
    · exact sound.inside other old
  · exact List.pairwise_cons.mpr ⟨separate, sound.disjoint⟩
  · intro other member unit has inFree
    obtain ⟨oldFree, notInBlock⟩ := (taken.free unit).mp inFree
    rcases List.mem_cons.mp member with rfl | old
    · exact notInBlock has
    · exact sound.apart other old unit has oldFree

/-- Before every call to `malloc` the ring is there, with `base` alone before the first. -/
theorem sound_start (ready : Unused base first state ∨ ∃ nodes, Sound base first state nodes) :
    ∃ nodes, Sound base first ⟨state.memory.start base, state.live⟩ nodes := by
  rcases ready with unused | ⟨nodes, sound⟩
  · have brk : (state.memory.start base).brk = state.memory.brk := by
      rw [Memory.start, if_pos unused.freep]
      rfl
    have whole : first * headerSize % headerSize = 0 := Nat.mul_mod_left first headerSize
    refine ⟨[], ⟨⟨start_list _ unused.freep, unused.nonnull, unused.below, ?_, ?_, ?_, ?_⟩,
      ?_, ?_, ?_, ?_, ?_⟩⟩
    · rintro unit ⟨a, member, -⟩
      cases member
    · exact Nat.le_of_eq (unused.brk.symm.trans brk.symm)
    · rw [brk, unused.brk, whole]
    · rw [brk]
      exact unused.bounded
    all_goals simp [unused.live]
  · rw [Memory.start, if_neg sound.heap.freep_ne]
    exact ⟨nodes, sound⟩

/-- A request that `sbrk` gets as it is, or refuses. -/
theorem asked_of_asks {nbytes : UInt32} {granted : Bool}
    (asks : Asks state (.malloc nbytes granted)) :
    Asked (state.memory.start base) granted (nunits nbytes.toNat) := by
  rcases asks with small | refused
  · refine Or.inl ?_
    have units : nunits nbytes.toNat * headerSize ≤ 2 ^ 31 - headerSize := by
      simp only [nunits, headerSize]
      omega
    unfold request
    split
    · simp only [headerSize]
      omega
    · simp only [headerSize] at units ⊢
      omega
  · refine Or.inr ?_
    have same : (state.memory.start base).brk = state.memory.brk := by
      unfold Memory.start
      split <;> rfl
    rw [Memory.sbrk] at refused ⊢
    rw [same]
    by_cases fits : granted = true ∧
        0 ≤ (state.memory.brk : Int) + int (request (nunits nbytes.toNat) * headerSize) ∧
        (state.memory.brk : Int) + int (request (nunits nbytes.toNat) * headerSize) < 2 ^ 31
    · rw [if_pos fits] at refused
      cases refused
    · rw [if_neg fits]

theorem malloc_step {nbytes : UInt32} {granted : Bool}
    (ready : Unused base first state ∨ ∃ nodes, Sound base first state nodes)
    (asks : Asks state (.malloc nbytes granted)) : ∃ next, (∃ nodes, Sound base first next nodes) ∧
      ∃ bound, ∀ fuel, bound ≤ fuel →
        step base fuel state (.malloc nbytes granted) = some next := by
  obtain ⟨nodes, sound⟩ := sound_start ready
  obtain ⟨middle, between, result, after, heap, grown, outcome, bound, returns⟩ :=
    mallocLoop_spec sound.heap (Nat.succ_pos _) (asked_of_asks asks)
  have larger := sound.grown heap grown
  have returned : ∀ fuel, bound ≤ fuel →
      state.memory.malloc base granted fuel nbytes.toNat = some (result, after) := returns
  rcases outcome with ⟨rfl, rfl⟩ | ⟨block, others, rfl, taken⟩
  · refine ⟨⟨after, state.live⟩, ⟨between, larger⟩, bound, fun fuel enough => ?_⟩
    rw [step, returned fuel enough]
    rfl
  · refine ⟨⟨after, ⟨block, nbytes.toNat⟩ :: state.live⟩, ⟨others, larger.taken taken⟩, bound,
      fun fuel enough => ?_⟩
    rw [step, returned fuel enough]
    rfl

theorem Sound.separate (sound : Sound base first ⟨memory, live⟩ nodes) {a b : Block}
    (left : a ∈ live) (right : b ∈ live) (different : a ≠ b) {unit : Nat} (has : a.Has unit) :
    ¬b.Has unit := by
  intro otherHas
  have symmetric : Std.Symm fun a b : Block => ∀ unit, ¬(a.Has unit ∧ b.Has unit) :=
    ⟨fun _ _ separate unit both => separate unit both.symm⟩
  exact sound.disjoint.forall left right different unit ⟨has, otherHas⟩

theorem Sound.freeable (sound : Sound base first ⟨memory, live⟩ nodes) (member : block ∈ live) :
    Freeable memory base nodes (memory.brk / headerSize) block.start := by
  have size : memory.size block.start = block.units := sound.sizes block member
  have positive := block.units_pos
  have low : first ≤ block.start := (sound.inside block member).1
  have high : block.start + block.units ≤ memory.brk / headerSize := (sound.inside block member).2
  have below := sound.heap.below
  have bounded : memory.brk < 2 ^ 31 := sound.heap.bounded
  refine ⟨by omega, by omega, ?_, by omega, fun a inNodes => (sound.heap.node inNodes).2, ?_⟩
  · intro a inNodes
    by_contra overlap
    have sized : 0 < memory.size a := sound.heap.list.sizes a inNodes
    have shared : block.Has (max a block.start) := ⟨by omega, by omega⟩
    have region : memory.Region a (max a block.start) := ⟨by omega, by omega⟩
    exact sound.apart block member _ shared ⟨a, inNodes, region⟩
  · have smaller := Nat.div_le_self memory.brk headerSize
    omega

/-- `free` of a live block returns, and the heap stays sound. -/
theorem free_step (sound : Sound base first state nodes) (member : block ∈ state.live) :
    ∃ next, (∃ nodes, Sound base first next nodes) ∧ ∃ bound, ∀ fuel, bound ≤ fuel →
        step base fuel state (.free (block.start + 1)) = some next := by
  obtain ⟨memory, live⟩ := state
  obtain ⟨after, others, list, returned, units, -, kept, sameBrk⟩ :=
    free_spec sound.heap.list (sound.freeable member)
  have brk : after.brk = memory.brk := sameBrk
  have size : memory.size block.start = block.units := sound.sizes block member
  have remaining : ∀ other ∈ live.filter fun other => other.start + 1 ≠ block.start + 1,
      other ∈ live ∧ other ≠ block := by
    intro other inFilter
    obtain ⟨inLive, different⟩ := List.mem_filter.mp inFilter
    refine ⟨inLive, ?_⟩
    rintro rfl
    simp at different
  refine ⟨⟨after, live.filter fun other => other.start + 1 ≠ block.start + 1⟩, ⟨others, ?_⟩,
    2 * (base :: nodes).length, fun fuel enough => ?_⟩
  · constructor
    · refine ⟨list, sound.heap.nonnull, sound.heap.below, ?_, ?_, ?_, ?_⟩
      · intro unit inFree
        show first ≤ unit ∧ unit < after.brk / headerSize
        rw [brk]
        rcases (units unit).mp inFree with ⟨low, high⟩ | old
        · rw [size] at high
          have inside : first ≤ block.start ∧
              block.start + block.units ≤ memory.brk / headerSize := sound.inside block member
          omega
        · exact sound.heap.within unit old
      · show first * headerSize ≤ after.brk
        rw [brk]
        exact sound.heap.start
      · show after.brk % headerSize = 0
        rw [brk]
        exact sound.heap.whole
      · show after.brk < 2 ^ 31
        rw [brk]
        exact sound.heap.bounded
    · exact fun other _ => other.room
    · intro other inFilter
      obtain ⟨inLive, different⟩ := remaining other inFilter
      have sameSize : memory.size other.start = other.units := sound.sizes other inLive
      rw [← sameSize]
      refine kept other.start (sound.fresh inLive other.has_start) fun same => ?_
      refine sound.separate inLive member different other.has_start ?_
      rw [same]
      exact block.has_start
    · intro other inFilter
      show first ≤ other.start ∧ other.start + other.units ≤ after.brk / headerSize
      rw [brk]
      exact sound.inside other (remaining other inFilter).1
    · exact sound.disjoint.filter _
    · intro other inFilter unit has inFree
      obtain ⟨inLive, different⟩ := remaining other inFilter
      rcases (units unit).mp inFree with ⟨low, high⟩ | old
      · rw [size] at high
        exact sound.separate inLive member different has ⟨low, high⟩
      · exact sound.apart other inLive unit has old
  · rw [step, if_pos ⟨block, member, rfl⟩, returned fuel enough]
    rfl

/-- A program writes into its bytes, and the heap stays sound. -/
theorem write_step {p : Nat} (value : Header)
    (sound : Sound base first ⟨memory, live⟩ nodes) (member : block ∈ live)
    (payload : block.Payload p) : Sound base first
      ⟨{ memory with header := Function.update memory.header p value }, live⟩ nodes := by
  obtain ⟨has, notHeader⟩ := payload.has
  have unchanged : ∀ a, a ≠ p → Function.update memory.header p value a = memory.header a :=
    fun a other => Function.update_of_ne other value memory.header
  have ring : ∀ a ∈ base :: nodes, a ≠ p := by
    rintro a inRing rfl
    exact sound.fresh member has inRing
  have free : ∀ unit,
      ({ memory with header := Function.update memory.header p value } : Memory).Free nodes unit ↔
        memory.Free nodes unit := fun unit =>
    Memory.Free.congr fun a inNodes =>
      congrArg Header.size (unchanged a (ring a (List.mem_cons_of_mem base inNodes)))
  constructor
  · refine ⟨?_, sound.heap.nonnull, sound.heap.below, ?_, sound.heap.start, sound.heap.whole,
      sound.heap.bounded⟩
    · refine sound.heap.list.congr (fun a inRing => ?_) rfl
      have same := unchanged a (ring a inRing)
      exact ⟨congrArg Header.ptr same, congrArg Header.size same⟩
    · intro unit inFree
      exact sound.heap.within unit ((free unit).mp inFree)
  · exact fun other _ => other.room
  · intro other inLive
    have different : other.start ≠ p := by
      rintro rfl
      by_cases same : other = block
      · rw [same] at notHeader
        exact notHeader rfl
      · exact sound.separate inLive member same other.has_start has
    have size : memory.size other.start = other.units := sound.sizes other inLive
    rw [← size]
    exact congrArg Header.size (unchanged other.start different)
  · exact sound.inside
  · exact sound.disjoint
  · intro other inLive unit otherHas inFree
    exact sound.apart other inLive unit otherHas ((free unit).mp inFree)

/-! ## Runs -/

/-- In every run whose requests reach `sbrk` as they are, the heap is sound behind every
event, and every call returns. -/
theorem malloc_sound {events : List Event} {state : State}
    (runs : ((system base first).guarded Asks).Runs events state) :
    (Unused base first state ∨ ∃ nodes, Sound base first state nodes) ∧
      (∀ nbytes granted, Asks state (.malloc nbytes granted) →
        ∃ next, (system base first).Step state (.malloc nbytes granted) next) ∧
      ∀ block ∈ state.live,
        ∃ next, (system base first).Step state (.free (block.start + 1)) next := by
  have ready : Unused base first state ∨ ∃ nodes, Sound base first state nodes := by
    refine runs.invariant (fun state => Unused base first state ∨
      ∃ nodes, Sound base first state nodes) (fun _ unused => Or.inl unused) ?_
    rintro state event next ready ⟨asks, fuel, taken⟩
    cases event with
    | malloc nbytes granted =>
      obtain ⟨other, sound, bound, returns⟩ := malloc_step ready asks
      have both := returns (max bound fuel) (Nat.le_max_left _ _)
      rw [step_mono (Nat.le_max_right bound fuel) taken] at both
      rw [Option.some.inj both]
      exact Or.inr sound
    | free ap =>
      obtain ⟨⟨block, member, rfl⟩, -⟩ := Option.ite_none_right_eq_some.mp taken
      rcases ready with unused | ⟨nodes, sound⟩
      · rw [unused.live] at member
        cases member
      · obtain ⟨other, sound, bound, returns⟩ := free_step sound member
        have both := returns (max bound fuel) (Nat.le_max_left _ _)
        rw [step_mono (Nat.le_max_right bound fuel) taken] at both
        rw [Option.some.inj both]
        exact Or.inr sound
    | write p value =>
      obtain ⟨⟨block, member, payload⟩, same⟩ := Option.ite_none_right_eq_some.mp taken
      rcases ready with unused | ⟨nodes, sound⟩
      · rw [unused.live] at member
        cases member
      · rw [← Option.some.inj same]
        exact Or.inr ⟨nodes, write_step value sound member payload⟩
  refine ⟨ready, ?_, ?_⟩
  · intro nbytes granted asks
    obtain ⟨next, -, bound, returns⟩ := malloc_step ready asks
    exact ⟨next, bound, returns bound (Nat.le_refl bound)⟩
  · intro block member
    rcases ready with unused | ⟨nodes, sound⟩
    · rw [unused.live] at member
      cases member
    · obtain ⟨next, -, bound, returns⟩ := free_step sound member
      exact ⟨next, bound, returns bound (Nat.le_refl bound)⟩

/-- A program with its break at 4096, before its first call. -/
def newProgram : State where
  memory := { header := fun _ => ⟨0, 0⟩, freep := 0, brk := 4096 }
  live := []

theorem newProgram_unused : Unused 1 256 newProgram := by
  constructor <;> decide

/-- Two blocks, the first of them written to and given back: it stays a node of its own, since
the second block lies in front of it. -/
theorem malloc_sound_two : ∃ state : State,
    state.live = [⟨4330, 200⟩] ∧ state.memory.ptr 256 = 4344 ∧ state.memory.size 4344 = 8 ∧
      ∃ nodes, Sound 1 256 state nodes := by
  have found : (LabelledSystem.exec (LabelledSystem.checked Asks (step 1 20)) newProgram
      [.malloc 100 true, .malloc 200 false, .write 4345 ⟨7, 7⟩, .free 4345]).any (fun state =>
        state.live = [⟨4330, 200⟩] ∧ state.memory.ptr 256 = 4344 ∧
          state.memory.size 4344 = 8) = true := by decide +kernel
  obtain ⟨state, result, facts⟩ := (Option.any_eq_true _ _).mp found
  obtain ⟨live, link, size⟩ := of_decide_eq_true facts
  have runs : ((system 1 256).guarded Asks).Runs _ state :=
    .of_checked (fun _ _ _ taken => ⟨20, taken⟩) newProgram_unused result
  refine ⟨state, live, link, size, (malloc_sound runs).1.resolve_left fun unused => ?_⟩
  rw [unused.live] at live
  cases live

/-- The first call asks for 2^32 - 1 bytes: `sbrk` gets 2^28 + 1 headers as 16 bytes, and
`malloc` returns a block of 2^28 + 1 units in one unit of memory. -/
theorem huge_request : ¬∀ (base first : Nat) (events : List Event) (state : State),
    (system base first).Runs events state →
      Unused base first state ∨ ∃ nodes, Sound base first state nodes := by
  intro claim
  have found : (step 1 20 newProgram (.malloc 0xFFFFFFFF true)).any (fun state =>
      state.live = [⟨256, 0xFFFFFFFF⟩] ∧ state.memory.brk = 4112) = true := by decide +kernel
  obtain ⟨state, result, facts⟩ := (Option.any_eq_true _ _).mp found
  obtain ⟨live, brk⟩ := of_decide_eq_true facts
  have runs : (system 1 256).Runs [.malloc 0xFFFFFFFF true] state :=
    .step (.initial newProgram_unused) ⟨20, result⟩
  have member : ⟨256, 0xFFFFFFFF⟩ ∈ state.live := by
    rw [live]
    exact List.mem_singleton_self _
  rcases claim 1 256 _ state runs with unused | ⟨nodes, sound⟩
  · rw [unused.live] at member
    cases member
  · have high := (sound.inside _ member).2
    rw [brk] at high
    exact absurd high (by decide)

end Ev6.UserHeap
