import Ev6.UserHeap.FreeList

/-!
# `malloc`

The loop of `malloc` goes once around the ring, from the node behind `freep` up to `freep`
(`mallocLoop_scan`). Where no node is large enough, `morecore` adds one that is
(`morecore_spec`), and the second time around finds it: `malloc_spec` says what every call
returns, as long as the request reaches `sbrk` as the number of bytes that it stands for.
-/

namespace Ev6.UserHeap

open List (mem_cons mem_cons_of_mem mem_cons_self)
open Support

variable {memory : Memory} {base bp p q units : Nat} {nodes others : List Nat} {granted : Bool}

/-! ## Once around the ring -/

/-- The loop of `malloc` up to the end of a trail that ends at `freep`. -/
theorem mallocLoop_trail (granted : Bool) (units : Nat) {path : List Nat}
    (trail : Trail memory.ptr p path memory.freep) (fresh : memory.freep ∉ path)
    (link : memory.ptr q = p) :
    (∃ a ∈ q :: path, units ≤ memory.size (memory.ptr a) ∧
      (memory.ptr a ∈ path ∨ memory.ptr a = memory.freep) ∧
      ∀ fuel, path.length < fuel → Memory.mallocLoop granted units fuel memory q p =
        some (some (memory.take a (memory.ptr a) units).1,
          (memory.take a (memory.ptr a) units).2)) ∨
    ((∀ a ∈ path, memory.size a < units) ∧ memory.size memory.freep < units ∧
      ∀ fuel, Memory.mallocLoop granted units (path.length + 1 + fuel) memory q p =
        (memory.morecore granted fuel units).bind fun more =>
          if more.1 = 0 then some (none, more.2)
          else Memory.mallocLoop granted units fuel more.2 more.1 (more.2.ptr more.1)) := by
  induction path generalizing p q with
  | nil =>
    have here : p = memory.freep := trail
    by_cases large : units ≤ memory.size p
    · refine Or.inl ⟨q, mem_cons_self, by rw [link]; exact large, Or.inr (link.trans here),
        fun fuel enough => ?_⟩
      obtain ⟨left, rfl⟩ : ∃ left, fuel = left + 1 := ⟨fuel - 1, by simp at enough; omega⟩
      rw [Memory.mallocLoop, if_pos large, link]
    · refine Or.inr ⟨by simp, by rw [← here]; omega, fun fuel => ?_⟩
      have count : ([] : List Nat).length + 1 + fuel = fuel + 1 := by
        rw [List.length_nil]
        omega
      rw [count, Memory.mallocLoop, if_neg large, if_pos here]
  | cons a path ih =>
    obtain ⟨rfl, rest⟩ := trail
    rw [mem_cons, not_or] at fresh
    by_cases large : units ≤ memory.size p
    · refine Or.inl ⟨q, mem_cons_self, by rw [link]; exact large,
        Or.inl (by rw [link]; exact mem_cons_self), fun fuel enough => ?_⟩
      obtain ⟨left, rfl⟩ : ∃ left, fuel = left + 1 := ⟨fuel - 1, by simp at enough; omega⟩
      rw [Memory.mallocLoop, if_pos large, link]
    · rcases ih rest fresh.2 rfl with ⟨b, member, fits, inPath, found⟩ | ⟨small, last, more⟩
      · refine Or.inl ⟨b, mem_cons_of_mem q member, fits,
          inPath.imp_left (mem_cons_of_mem p), fun fuel enough => ?_⟩
        obtain ⟨left, rfl⟩ : ∃ left, fuel = left + 1 := ⟨fuel - 1, by simp at enough; omega⟩
        rw [Memory.mallocLoop, if_neg large, if_neg (Ne.symm fresh.1)]
        exact found left (by simpa using enough)
      · refine Or.inr ⟨?_, last, fun fuel => ?_⟩
        · intro b member
          rcases mem_cons.mp member with rfl | inside
          · omega
          · exact small b inside
        · have count : (p :: path).length + 1 + fuel = path.length + 1 + fuel + 1 := by
            rw [List.length_cons]
            omega
          rw [count, Memory.mallocLoop, if_neg large, if_neg (Ne.symm fresh.1)]
          exact more fuel

theorem FreeList.around (list : FreeList memory base nodes) :
    ∃ path, Trail memory.ptr (memory.ptr memory.freep) path memory.freep ∧
      memory.freep ∉ path ∧ (∀ a, a ∈ base :: nodes ↔ a = memory.freep ∨ a ∈ path) ∧
      path.length = nodes.length := by
  obtain ⟨low, high, split⟩ := List.append_of_mem list.freep
  have links := list.links
  have once : (base :: nodes).Nodup := list.ascending.imp fun less => Nat.ne_of_lt less
  rw [split] at links once
  obtain ⟨middle, first, rfl, rest⟩ := trail_append.mp links
  have length := congrArg List.length split
  simp only [List.length_append, List.length_cons] at length
  refine ⟨high ++ low, trail_append.mpr ⟨base, rest, first⟩, ?_, ?_, ?_⟩
  · have fresh := (List.nodup_cons.mp (List.nodup_middle.mp once)).1
    rw [List.mem_append] at fresh ⊢
    exact fun inside => fresh inside.symm
  · intro a
    rw [split]
    simp only [List.mem_append, mem_cons]
    constructor
    · rintro (inLow | same | inHigh)
      · exact Or.inr (Or.inr inLow)
      · exact Or.inl same
      · exact Or.inr (Or.inl inHigh)
    · rintro (same | inHigh | inLow)
      · exact Or.inr (Or.inl same)
      · exact Or.inr (Or.inr inHigh)
      · exact Or.inl inLow
  · rw [List.length_append]
    omega

/-- The loop of `malloc` from `freep` on: it takes a node that is large enough, or it meets
none and calls `morecore`. -/
theorem mallocLoop_scan (granted : Bool) (list : FreeList memory base nodes) (positive : 0 < units) :
    (∃ block others after, Taken memory after base nodes others units block ∧
      ∀ fuel, nodes.length < fuel →
        Memory.mallocLoop granted units fuel memory memory.freep (memory.ptr memory.freep) =
          some (some (block + 1), after)) ∨
    ((∀ a ∈ nodes, memory.size a < units) ∧
      ∀ fuel, Memory.mallocLoop granted units (nodes.length + 1 + fuel) memory memory.freep
          (memory.ptr memory.freep) =
        (memory.morecore granted fuel units).bind fun more =>
          if more.1 = 0 then some (none, more.2)
          else Memory.mallocLoop granted units fuel more.2 more.1 (more.2.ptr more.1)) := by
  obtain ⟨path, trail, fresh, members, length⟩ := list.around
  rw [← length]
  rcases mallocLoop_trail granted units trail fresh rfl with
    ⟨a, member, fits, target, found⟩ | ⟨small, last, more⟩
  · refine Or.inl ?_
    have inRing : a ∈ base :: nodes := by
      rw [members]
      exact mem_cons.mp member
    have targetRing : memory.ptr a ∈ base :: nodes := by
      rw [members]
      exact target.symm
    obtain ⟨block, others, same, taken⟩ := take_spec list inRing targetRing positive fits
    rw [same] at found
    exact ⟨block, others, _, taken, found⟩
  · refine Or.inr ⟨fun a member => ?_, more⟩
    rcases (members a).mp (mem_cons_of_mem base member) with rfl | inPath
    · exact last
    · exact small a inPath

/-! ## `morecore` -/

/-- A free list inside the memory between the unit `first` and the break. -/
structure Heap (memory : Memory) (base first : Nat) (nodes : List Nat) : Prop where
  list : FreeList memory base nodes
  nonnull : 0 < base
  below : base < first
  within : ∀ unit, memory.Free nodes unit → first ≤ unit ∧ unit < memory.brk / headerSize
  start : first * headerSize ≤ memory.brk
  whole : memory.brk % headerSize = 0
  bounded : memory.brk < 2 ^ 31

/-- More memory from `sbrk` has joined the free units. -/
structure Grown (memory after : Memory) (base : Nat) (nodes others : List Nat) : Prop where
  free : ∀ unit, after.Free others unit ↔
    memory.Free nodes unit ∨ memory.brk / headerSize ≤ unit ∧ unit < after.brk / headerSize
  kept : ∀ a, a ∉ base :: nodes → a < memory.brk / headerSize → after.size a = memory.size a
  brk : memory.brk ≤ after.brk

theorem Grown.refl (memory : Memory) (base : Nat) (nodes : List Nat) :
    Grown memory memory base nodes nodes where
  free unit := by
    have nothing : ¬(memory.brk / headerSize ≤ unit ∧ unit < memory.brk / headerSize) := by omega
    simp only [nothing, or_false]
  kept _ _ _ := rfl
  brk := Nat.le_refl _

variable {first : Nat}

/-- A node lies between the unit `first` and the break. -/
theorem Heap.node (heap : Heap memory base first nodes) {a : Nat} (member : a ∈ nodes) :
    first ≤ a ∧ a + memory.size a ≤ memory.brk / headerSize := by
  have sized := heap.list.sizes a member
  have low := heap.within a ⟨a, member, Nat.le_refl _, by omega⟩
  have high := heap.within (a + memory.size a - 1) ⟨a, member, by omega, by omega⟩
  omega

theorem Heap.freep_ne (heap : Heap memory base first nodes) : memory.freep ≠ 0 := by
  have nonnull := heap.nonnull
  have below := heap.below
  rcases mem_cons.mp heap.list.freep with same | inside
  · omega
  · have low := (heap.node inside).1
    omega

/-- The request reaches `sbrk` as it is, or `sbrk` refuses it. -/
def Asked (memory : Memory) (granted : Bool) (units : Nat) : Prop :=
  request units * headerSize < 2 ^ 31 ∨
    memory.sbrk granted (int (request units * headerSize)) = none

theorem int_small {value : Nat} (small : value < 2 ^ 31) : int value = value := by
  have same : (BitVec.ofNat 32 value).toNat = value := by
    rw [BitVec.toNat_ofNat]
    omega
  rw [int, BitVec.toInt_eq_toNat_of_lt (by omega), same]

/-- `morecore` gives null when `sbrk` refuses, and a larger heap with a node that is large
enough otherwise. -/
theorem morecore_spec (heap : Heap memory base first nodes) (asked : Asked memory granted units) :
    (∀ fuel, memory.morecore granted fuel units = some (0, memory)) ∨
    ∃ after others, Heap after base first others ∧ Grown memory after base nodes others ∧
      (∃ a ∈ others, units ≤ after.size a) ∧
      ∀ fuel, 2 * (base :: nodes).length ≤ fuel →
        memory.morecore granted fuel units = some (after.freep, after) := by
  have whole := heap.whole
  have bounded := heap.bounded
  have start := heap.start
  by_cases refused : memory.sbrk granted (int (request units * headerSize)) = none
  · refine Or.inl fun fuel => ?_
    simp only [Memory.morecore, refused]
  have small := asked.resolve_right refused
  have positive : 4096 ≤ request units ∧ units ≤ request units := by
    unfold request
    split <;> omega
  obtain ⟨room, moved⟩ : memory.brk + request units * headerSize < 2 ^ 31 ∧
      memory.sbrk granted (int (request units * headerSize)) =
        some (memory.brk, { memory with brk := memory.brk + request units * headerSize }) := by
    rw [int_small small, Memory.sbrk] at refused ⊢
    by_cases fits : granted = true ∧ 0 ≤ (memory.brk : Int) + (request units * headerSize : Nat) ∧
        (memory.brk : Int) + (request units * headerSize : Nat) < 2 ^ 31
    · rw [if_pos fits]
      have sum : ((memory.brk : Int) + (request units * headerSize : Nat)).toNat =
          memory.brk + request units * headerSize := by omega
      exact ⟨by omega, by rw [sum]⟩
    · rw [if_neg fits] at refused
      exact absurd rfl refused
  refine Or.inr ?_
  have outside : ∀ a ∈ base :: nodes, a ≠ memory.brk / headerSize := by
    intro a member
    rcases mem_cons.mp member with rfl | inside
    · have below := heap.below
      simp only [headerSize] at start ⊢
      omega
    · have high := (heap.node inside).2
      have sized := heap.list.sizes a inside
      omega
  let grown : Memory :=
    ({ memory with brk := memory.brk + request units * headerSize } : Memory).setSize
      (memory.brk / headerSize) (request units)
  have size : ∀ a, grown.size a = if a = memory.brk / headerSize then request units
      else memory.size a := fun a => Memory.size_setSize _ _ _ a
  have unchanged : ∀ a ∈ base :: nodes,
      grown.ptr a = memory.ptr a ∧ grown.size a = memory.size a := by
    intro a member
    exact ⟨Memory.ptr_setSize _ _ _ a, (size a).trans (if_neg (outside a member))⟩
  have list : FreeList grown base nodes := heap.list.congr unchanged rfl
  have freeUnits : ∀ unit, grown.Free nodes unit ↔ memory.Free nodes unit := fun unit =>
    Memory.Free.congr fun a member => (unchanged a (mem_cons_of_mem base member)).2
  have quotient : (memory.brk + request units * headerSize) / headerSize =
      memory.brk / headerSize + request units := by
    simp only [headerSize]
    omega
  have block : grown.size (memory.brk / headerSize) = request units :=
    (size _).trans (if_pos rfl)
  have bottom : base < memory.brk / headerSize := by
    have below := heap.below
    simp only [headerSize] at start ⊢
    omega
  have freeable : Freeable grown base nodes (memory.brk / headerSize + request units)
      (memory.brk / headerSize) := by
    refine ⟨bottom, by omega, ?_, by omega, ?_, ?_⟩
    · intro a member
      have high := (heap.node member).2
      rw [(unchanged a (mem_cons_of_mem base member)).2]
      exact Or.inl high
    · intro a member
      have high := (heap.node member).2
      rw [(unchanged a (mem_cons_of_mem base member)).2]
      omega
    · simp only [headerSize] at room ⊢
      omega
  obtain ⟨after, others, joined, freed, units', ⟨a, member, large⟩, kept, brk⟩ :=
    free_spec list freeable
  have newBrk : after.brk = memory.brk + request units * headerSize := brk
  have within : ∀ unit, after.Free others unit →
      first ≤ unit ∧ unit < after.brk / headerSize := by
    intro unit inside
    rw [newBrk, quotient]
    rcases (units' unit).mp inside with ⟨low, high⟩ | old
    · rw [block] at high
      have below := heap.start
      simp only [headerSize] at below ⊢ low high
      omega
    · have bounds := heap.within unit ((freeUnits unit).mp old)
      omega
  refine ⟨after, others, ⟨joined, heap.nonnull, heap.below, within, ?_, ?_, ?_⟩,
    ⟨?_, ?_, by omega⟩, ⟨a, member, by omega⟩, ?_⟩
  · omega
  · rw [newBrk]
    simp only [headerSize] at whole ⊢
    omega
  · omega
  · intro unit
    rw [units', newBrk, quotient, freeUnits, Memory.Region, block]
    exact or_comm
  · intro b fresh less
    rw [kept b fresh (by omega), size, if_neg (by omega)]
  · intro fuel enough
    simp only [Memory.morecore, moved]
    have returned := freed fuel enough
    simp only [grown] at returned
    rw [returned, Option.map_some]

/-! ## `malloc` -/

/-- The loop of `malloc` ends: it returns 0, or a block that it has cut from the free units. -/
theorem mallocLoop_spec (heap : Heap memory base first nodes) (positive : 0 < units)
    (asked : Asked memory granted units) :
    ∃ middle between result after, Heap middle base first between ∧
      Grown memory middle base nodes between ∧
      (result = none ∧ after = middle ∨
        ∃ block others, result = some (block + 1) ∧
          Taken middle after base between others units block) ∧
      ∃ bound, ∀ fuel, bound ≤ fuel →
        Memory.mallocLoop granted units fuel memory memory.freep (memory.ptr memory.freep) =
          some (result, after) := by
  rcases mallocLoop_scan granted heap.list positive with
    ⟨block, others, after, taken, found⟩ | ⟨small, more⟩
  · exact ⟨memory, nodes, some (block + 1), after, heap, Grown.refl memory base nodes,
      Or.inr ⟨block, others, rfl, taken⟩, nodes.length + 1, found⟩
  have split : ∀ {bound fuel : Nat}, nodes.length + 1 + bound ≤ fuel →
      ∃ left, fuel = nodes.length + 1 + left ∧ bound ≤ left := fun {bound fuel} enough =>
    ⟨fuel - (nodes.length + 1), by omega, by omega⟩
  rcases morecore_spec heap asked with refused | ⟨middle, between, larger, grown, fits, got⟩
  · refine ⟨memory, nodes, none, memory, heap, Grown.refl memory base nodes, Or.inl ⟨rfl, rfl⟩,
      nodes.length + 1 + 0, fun fuel enough => ?_⟩
    obtain ⟨left, rfl, -⟩ := split enough
    rw [more, refused, Option.bind_some, if_pos rfl]
  -- the second time around meets the node that `morecore` has added
  rcases mallocLoop_scan granted larger.list positive with
    ⟨block, others, after, taken, found⟩ | ⟨none_fits, -⟩
  · refine ⟨middle, between, some (block + 1), after, larger, grown,
      Or.inr ⟨block, others, rfl, taken⟩,
      nodes.length + 1 + (2 * (base :: nodes).length + between.length + 1), fun fuel enough => ?_⟩
    obtain ⟨left, rfl, enough⟩ := split enough
    rw [more, got left (by omega), Option.bind_some, if_neg larger.freep_ne]
    exact found left (by omega)
  · obtain ⟨a, member, large⟩ := fits
    have less := none_fits a member
    omega

/-- What is left of a heap behind `malloc` is a heap. -/
theorem Heap.taken {after : Memory} {block : Nat} (heap : Heap memory base first nodes)
    (taken : Taken memory after base nodes others units block) :
    Heap after base first others where
  list := taken.list
  nonnull := heap.nonnull
  below := heap.below
  within unit inside := by
    rw [taken.brk]
    exact heap.within unit ((taken.free unit).mp inside).1
  start := by
    rw [taken.brk]
    exact heap.start
  whole := by
    rw [taken.brk]
    exact heap.whole
  bounded := by
    rw [taken.brk]
    exact heap.bounded

theorem start_list (memory : Memory) (unused : memory.freep = 0) :
    FreeList (memory.start base) base [] := by
  rw [Memory.start, if_pos unused]
  refine ⟨⟨rfl, ?_⟩, List.pairwise_singleton _ _, ?_, by simp, ?_⟩
  · rw [Memory.ptr_setSize, Memory.ptr_setFreep, Memory.ptr_setPtr, if_pos rfl]
    exact rfl
  · rw [Memory.size_setSize, if_pos rfl]
  · exact mem_cons_self

end Ev6.UserHeap
