import Ev6.Support.Trail
import Ev6.UserHeap.Umalloc
import Mathlib.Data.List.Pairwise

/-!
# The free list

The nodes of the free list form a ring from `base` on, in the order of their addresses, and
no two of them touch. `free` finds the place of a block from any node of the ring
(`place_found`) and puts it there, joined with the neighbours that it touches
(`free_spec`); `malloc` takes a node out or cuts its tail off (`take_spec`).
-/

namespace Ev6.UserHeap

open List (append_of_mem length_append length_cons mem_append mem_append_left mem_append_right
  mem_cons mem_cons_of_mem mem_cons_self pairwise_append pairwise_cons)
open Support

/-- The units of a node or block, its header included. -/
def Memory.Region (memory : Memory) (a unit : Nat) : Prop :=
  a ≤ unit ∧ unit < a + memory.size a

/-- Nodes in the order of their addresses, with a gap behind each of them. -/
abbrev Memory.Apart (memory : Memory) (nodes : List Nat) : Prop :=
  nodes.Pairwise fun a b => a + memory.size a < b

/-- The ring of `base` and the free nodes: linked in the order of their addresses, the last
one back to `base`, with a gap behind each node. -/
structure FreeList (memory : Memory) (base : Nat) (nodes : List Nat) : Prop where
  links : Trail memory.ptr base (base :: nodes) base
  order : memory.Apart (base :: nodes)
  empty : memory.size base = 0
  sizes : ∀ a ∈ nodes, 0 < memory.size a
  freep : memory.freep ∈ base :: nodes

variable {memory : Memory} {base bp p q : Nat} {nodes low mid high : List Nat}

/-- Nodes in the order of their addresses. -/
abbrev Ascending (nodes : List Nat) : Prop := nodes.Pairwise (· < ·)

theorem FreeList.ascending (list : FreeList memory base nodes) : Ascending (base :: nodes) :=
  list.order.imp fun gap => by omega

variable {after : Memory}

/-- The free list depends only on the headers of its nodes. -/
theorem FreeList.congr (list : FreeList memory base nodes)
    (same : ∀ a ∈ base :: nodes, after.ptr a = memory.ptr a ∧ after.size a = memory.size a)
    (freep : after.freep = memory.freep) : FreeList after base nodes where
  links := list.links.congr fun a member => (same a member).1
  order := by
    refine List.Pairwise.imp_of_mem ?_ list.order
    intro a b member _ gap
    rwa [(same a member).2]
  empty := by rw [(same base mem_cons_self).2, list.empty]
  sizes := by
    intro a member
    rw [(same a (mem_cons_of_mem base member)).2]
    exact list.sizes a member
  freep := by
    rw [freep]
    exact list.freep

theorem trail_first {next : Nat → Nat} {first stop : Nat}
    (trail : Trail next first nodes stop) : first = nodes.headD stop := by
  cases nodes with
  | nil => exact trail
  | cons node rest => exact trail.1

/-! ## The place of a block -/

/-- The loop passes nodes behind the block, up to the end of the ring. -/
theorem place_skip (trail : Trail memory.ptr q high base) (above : ∀ a ∈ high, bp < a)
    (order : Ascending high) (below : base < bp) (fuel : Nat) :
    memory.place bp (high.length + fuel) q = memory.place bp fuel base := by
  induction high generalizing q with
  | nil =>
    obtain rfl : q = base := trail
    simp
  | cons a high ih =>
    obtain ⟨rfl, rest⟩ := trail
    have here := above q mem_cons_self
    obtain ⟨first, behind⟩ := pairwise_cons.mp order
    have next := trail_first rest
    have goes : ¬ (memory.ptr q ≤ q ∧ (q < bp ∨ bp < memory.ptr q)) := by
      cases high with
      | nil =>
        rw [List.headD_nil] at next
        omega
      | cons b high =>
        have further := first b mem_cons_self
        rw [List.headD_cons] at next
        omega
    have count : (q :: high).length + fuel = high.length + fuel + 1 := by
      rw [length_cons]
      omega
    rw [count, Memory.place, if_neg (by omega), if_neg goes]
    exact ih rest (fun b member => above b (mem_cons_of_mem q member)) behind

/-- The loop passes nodes in front of the block, up to its place. -/
theorem place_forward (trail : Trail memory.ptr q (mid ++ p :: high) base)
    (order : Ascending (mid ++ p :: high)) (low : p < bp) (above : ∀ a ∈ high, bp < a)
    (start : base ≤ p) {fuel : Nat} (enough : mid.length < fuel) :
    memory.place bp fuel q = some p := by
  induction mid generalizing q fuel with
  | nil =>
    obtain ⟨left, rfl⟩ : ∃ left, fuel = left + 1 := ⟨fuel - 1, by simp at enough; omega⟩
    obtain ⟨rfl, rest⟩ := trail
    have next := trail_first rest
    cases high with
    | nil =>
      rw [List.headD_nil] at next
      rw [Memory.place, next, if_neg (by omega), if_pos (by omega)]
    | cons b high =>
      have further := above b mem_cons_self
      rw [List.headD_cons] at next
      rw [Memory.place, next, if_pos (by omega)]
  | cons a mid ih =>
    obtain ⟨left, rfl⟩ : ∃ left, fuel = left + 1 := ⟨fuel - 1, by simp at enough; omega⟩
    obtain ⟨rfl, rest⟩ := trail
    obtain ⟨first, behind⟩ := pairwise_cons.mp order
    have next := trail_first rest
    have between : q < memory.ptr q ∧ memory.ptr q ≤ p := by
      cases mid with
      | nil =>
        have further := first p (by simp)
        have here : memory.ptr q = p := next
        omega
      | cons b mid =>
        have further := first b (by simp)
        have until_p := (pairwise_cons.mp behind).1 p (by simp)
        have here : memory.ptr q = b := next
        omega
    rw [Memory.place, if_neg (by omega), if_neg (by omega)]
    exact ih rest behind (by simpa using enough)

/-- The loop of `free` finds the last node in front of the block. -/
theorem place_found (list : FreeList memory base nodes) (split : base :: nodes = low ++ p :: high)
    (before : p < bp) (above : ∀ a ∈ high, bp < a) {fuel : Nat}
    (enough : 2 * (base :: nodes).length ≤ fuel) :
    memory.place bp fuel memory.freep = some p := by
  have order := list.ascending
  have links := list.links
  have freep := list.freep
  have start : base ≤ p := by
    have member : p ∈ base :: nodes := by simp [split]
    rcases mem_cons.mp member with rfl | inside
    · exact Nat.le_refl _
    · exact Nat.le_of_lt ((pairwise_cons.mp order).1 p inside)
  rw [split] at order links freep enough
  have lengths : (low ++ p :: high).length = low.length + high.length + 1 := by
    simp only [length_append, length_cons]
    omega
  rcases mem_append.mp freep with inFront | behind
  · obtain ⟨front, mid, rfl⟩ := append_of_mem inFront
    rw [List.append_assoc] at links order
    obtain ⟨middle, -, same, rest⟩ := trail_append.mp links
    subst same
    have tail : Trail memory.ptr memory.freep (memory.freep :: mid ++ p :: high) base :=
      ⟨rfl, rest⟩
    refine place_forward tail (pairwise_append.mp order).2.1 before above start ?_
    simp only [length_append, length_cons] at enough ⊢
    omega
  · rcases mem_cons.mp behind with same | inBack
    · obtain ⟨middle, -, here, rest⟩ := trail_append.mp links
      have tail : Trail memory.ptr memory.freep ([] ++ p :: high) base := by
        rw [same]
        exact ⟨rfl, rest⟩
      exact place_forward tail (pairwise_append.mp order).2.1 before above start
        (by simp only [List.length_nil]; omega)
    · obtain ⟨front, back, rfl⟩ := append_of_mem inBack
      obtain ⟨left, rfl⟩ : ∃ left, fuel = (memory.freep :: back).length + left :=
        ⟨fuel - (memory.freep :: back).length, by simp at enough ⊢; omega⟩
      have regroup : low ++ p :: (front ++ memory.freep :: back) =
          (low ++ p :: front) ++ memory.freep :: back := by simp
      have whole := links
      rw [regroup] at links
      obtain ⟨middle, -, same, rest⟩ := trail_append.mp links
      subst same
      have tail : Trail memory.ptr memory.freep (memory.freep :: back) base := ⟨rfl, rest⟩
      have later : ∀ a ∈ memory.freep :: back, bp < a := fun a member =>
        above a (mem_append_right front member)
      have ascends : Ascending (memory.freep :: back) := by
        rw [regroup] at order
        exact (pairwise_append.mp order).2.1
      rw [place_skip tail later ascends (by omega)]
      refine place_forward whole order before above start ?_
      simp only [length_append, length_cons] at enough
      omega

/-! ## Joining a block with its neighbours -/

/-- A unit of one of the nodes. -/
def Memory.Free (memory : Memory) (nodes : List Nat) (unit : Nat) : Prop :=
  ∃ a ∈ nodes, memory.Region a unit

variable {unit : Nat}

@[simp] theorem free_cons :
    memory.Free (p :: nodes) unit ↔ memory.Region p unit ∨ memory.Free nodes unit := by
  simp [Memory.Free]

@[simp] theorem free_append :
    memory.Free (low ++ high) unit ↔ memory.Free low unit ∨ memory.Free high unit := by
  simp only [Memory.Free, mem_append, or_and_right, exists_or]

theorem region_empty (empty : memory.size p = 0) : ¬memory.Region p unit := by
  rintro ⟨low, high⟩
  omega

/-- The units of nodes depend only on the sizes of these nodes. -/
theorem Memory.Free.congr (same : ∀ a ∈ nodes, after.size a = memory.size a) :
    after.Free nodes unit ↔ memory.Free nodes unit := by
  constructor
  · rintro ⟨a, member, low, high⟩
    rw [same a member] at high
    exact ⟨a, member, low, high⟩
  · rintro ⟨a, member, low, high⟩
    rw [← same a member] at high
    exact ⟨a, member, low, high⟩

theorem Memory.Apart.congr (apart : memory.Apart nodes)
    (same : ∀ a ∈ nodes, after.size a = memory.size a) : after.Apart nodes := by
  refine List.Pairwise.imp_of_mem ?_ apart
  intro a b member _ gap
  rwa [same a member]

variable {a : Nat}

theorem joinUpper_other (other : a ≠ bp) : (memory.joinUpper bp p).ptr a = memory.ptr a ∧
      (memory.joinUpper bp p).size a = memory.size a := by
  simp only [Memory.joinUpper]
  split <;> simp [other]

/-- Then it changes only the node in front of the block. -/
theorem joinLower_other (other : a ≠ p) : (memory.joinLower bp p).ptr a = memory.ptr a ∧
      (memory.joinLower bp p).size a = memory.size a := by
  simp only [Memory.joinLower]
  split <;> simp [other]

theorem brk_joinUpper : (memory.joinUpper bp p).brk = memory.brk := by
  simp only [Memory.joinUpper]
  split <;> rfl

theorem brk_joinLower : (memory.joinLower bp p).brk = memory.brk := by
  simp only [Memory.joinLower]
  split <;> rfl

/-- The block takes over the node behind it when they touch; otherwise it is linked to it. -/
theorem joinUpper_spec (links : Trail memory.ptr (memory.ptr p) high base)
    (apart : memory.Apart high) (above : ∀ a ∈ high, bp + memory.size bp ≤ a)
    (sized : 0 < memory.size bp) (behind : base < bp)
    (limit : ∀ a ∈ high, a + memory.size a < 2 ^ 32) :
    ∃ rest, (∀ a ∈ rest, a ∈ high) ∧
      Trail (memory.joinUpper bp p).ptr bp (bp :: rest) base ∧
      (memory.joinUpper bp p).Apart (bp :: rest) ∧
      (∀ unit, (memory.joinUpper bp p).Free (bp :: rest) unit ↔
        memory.Free (bp :: high) unit) ∧
      memory.size bp ≤ (memory.joinUpper bp p).size bp := by
  have different : ∀ a ∈ high, a ≠ bp := fun a member same => by
    have far := above a member
    omega
  have kept : ∀ a ∈ high, (memory.joinUpper bp p).ptr a = memory.ptr a :=
    fun a member => (joinUpper_other (different a member)).1
  have sizes : ∀ a ∈ high, (memory.joinUpper bp p).size a = memory.size a :=
    fun a member => (joinUpper_other (different a member)).2
  by_cases touches : bp + memory.size bp = memory.ptr p
  · cases high with
    | nil =>
      have last : memory.ptr p = base := links
      omega
    | cons q rest =>
      obtain ⟨first, links⟩ := links
      have bound := limit q mem_cons_self
      have grown : (memory.joinUpper bp p).size bp = memory.size bp + memory.size q := by
        unfold Memory.joinUpper
        simp only [touches, first, if_true, Memory.size_setPtr, Memory.size_setSize]
        exact Nat.mod_eq_of_lt (by omega)
      have leads : (memory.joinUpper bp p).ptr bp = memory.ptr q := by
        unfold Memory.joinUpper
        simp only [touches, first, if_true, Memory.ptr_setPtr]
      obtain ⟨gaps, further⟩ := pairwise_cons.mp apart
      refine ⟨rest, fun a member => mem_cons_of_mem q member, ⟨rfl, ?_⟩,
        pairwise_cons.mpr ⟨?_, ?_⟩, ?_, by omega⟩
      · rw [leads]
        exact links.congr fun a member => kept a (mem_cons_of_mem q member)
      · intro a member
        have gap := gaps a member
        omega
      · exact Memory.Apart.congr further
          fun a member => sizes a (mem_cons_of_mem q member)
      · intro unit
        have others : (memory.joinUpper bp p).Free rest unit ↔ memory.Free rest unit :=
          Memory.Free.congr fun a member => sizes a (mem_cons_of_mem q member)
        simp only [free_cons, others, Memory.Region, grown]
        constructor
        · rintro (⟨low, high⟩ | other)
          · by_cases inside : unit < bp + memory.size bp
            · exact Or.inl ⟨low, inside⟩
            · exact Or.inr (Or.inl (by omega))
          · exact Or.inr (Or.inr other)
        · rintro (⟨low, high⟩ | ⟨low, high⟩ | other)
          · exact Or.inl (by omega)
          · exact Or.inl (by omega)
          · exact Or.inr other
  · have leads : (memory.joinUpper bp p).ptr bp = memory.ptr p := by
      unfold Memory.joinUpper
      simp only [touches, if_false, Memory.ptr_setPtr, if_true]
    have still : (memory.joinUpper bp p).size bp = memory.size bp := by
      unfold Memory.joinUpper
      simp only [touches, if_false, Memory.size_setPtr]
    refine ⟨high, fun a member => member, ⟨rfl, ?_⟩, pairwise_cons.mpr ⟨?_, ?_⟩, ?_, by omega⟩
    · rw [leads]
      exact links.congr kept
    · intro a member
      have near := above a member
      rw [still]
      cases high with
      | nil => cases member
      | cons q rest =>
        have first : memory.ptr p = q := links.1
        have start := above q mem_cons_self
        rcases mem_cons.mp member with rfl | inside
        · omega
        · have gap := (pairwise_cons.mp apart).1 a inside
          omega
    · exact Memory.Apart.congr apart sizes
    · intro unit
      simp only [free_cons, Memory.Free.congr sizes, Memory.Region, still]

/-- The node in front takes over the block when they touch; otherwise it is linked to it. -/
theorem joinLower_spec {stop : Nat} (front : Trail memory.ptr base (low ++ [p]) stop)
    (links : Trail memory.ptr bp (bp :: high) base) (lower : memory.Apart (low ++ [p]))
    (upper : memory.Apart (bp :: high)) (near : p + memory.size p ≤ bp)
    (sized : 0 < memory.size bp) (limit : bp + memory.size bp < 2 ^ 32) (before : p < bp) :
    ∃ rest, (∀ a ∈ rest, a = bp ∨ a ∈ high) ∧
      Trail (memory.joinLower bp p).ptr base (low ++ p :: rest) base ∧
      (memory.joinLower bp p).Apart (low ++ p :: rest) ∧
      (∀ unit, (memory.joinLower bp p).Free (low ++ p :: rest) unit ↔
        memory.Free (low ++ p :: bp :: high) unit) ∧
      memory.size p ≤ (memory.joinLower bp p).size p ∧
      (∃ a ∈ p :: rest, memory.size bp ≤ (memory.joinLower bp p).size a) ∧
      (p + memory.size p ≠ bp → (memory.joinLower bp p).size p = memory.size p) := by
  obtain ⟨middle, first, last, -⟩ := trail_append.mp front
  subst last
  obtain ⟨lowApart, -, gaps⟩ := pairwise_append.mp lower
  have gap : ∀ a ∈ low, a + memory.size a < middle := fun a member =>
    gaps a member middle (List.mem_singleton_self _)
  obtain ⟨beyond, upperApart⟩ := pairwise_cons.mp upper
  have lowOther : ∀ a ∈ low, a ≠ middle := fun a member => by
    have below := gap a member
    omega
  have highOther : ∀ a ∈ high, a ≠ middle := fun a member => by
    have above := beyond a member
    omega
  have lowSizes : ∀ a ∈ low, (memory.joinLower bp middle).size a = memory.size a :=
    fun a member => (joinLower_other (lowOther a member)).2
  have highSizes : ∀ a ∈ high, (memory.joinLower bp middle).size a = memory.size a :=
    fun a member => (joinLower_other (highOther a member)).2
  have blockKept : (memory.joinLower bp middle).ptr bp = memory.ptr bp ∧
      (memory.joinLower bp middle).size bp = memory.size bp := joinLower_other (by omega)
  have start : Trail (memory.joinLower bp middle).ptr base low middle :=
    first.congr fun a member => (joinLower_other (lowOther a member)).1
  have rest : Trail (memory.joinLower bp middle).ptr (memory.ptr bp) high base :=
    links.2.congr fun a member => (joinLower_other (highOther a member)).1
  by_cases touches : middle + memory.size middle = bp
  · have grown : (memory.joinLower bp middle).size middle =
        memory.size middle + memory.size bp := by
      simp only [Memory.joinLower, touches, if_true, Memory.size_setPtr, Memory.size_setSize]
      exact Nat.mod_eq_of_lt (by omega)
    have leads : (memory.joinLower bp middle).ptr middle = memory.ptr bp := by
      simp only [Memory.joinLower, touches, if_true, Memory.ptr_setPtr]
    have lowMember : ∀ a ∈ low, ∀ b ∈ middle :: high,
        a + (memory.joinLower bp middle).size a < b := by
      intro a member b inside
      have below := gap a member
      rw [lowSizes a member]
      rcases mem_cons.mp inside with rfl | further
      · exact below
      · have above := beyond b further
        omega
    refine ⟨high, fun a member => Or.inr member, ?_, ?_, ?_, by omega,
      ⟨middle, mem_cons_self, by omega⟩, fun apart => absurd touches apart⟩
    · refine trail_append.mpr ⟨middle, start, rfl, ?_⟩
      rw [leads]
      exact rest
    · refine pairwise_append.mpr ⟨Memory.Apart.congr lowApart lowSizes,
        pairwise_cons.mpr ⟨?_, Memory.Apart.congr upperApart highSizes⟩, lowMember⟩
      intro a member
      have above := beyond a member
      omega
    · intro unit
      simp only [free_append, free_cons, Memory.Free.congr lowSizes,
        Memory.Free.congr highSizes, Memory.Region, grown]
      constructor
      · rintro (inLow | ⟨low, high⟩ | other)
        · exact Or.inl inLow
        · by_cases inside : unit < middle + memory.size middle
          · exact Or.inr (Or.inl ⟨low, inside⟩)
          · exact Or.inr (Or.inr (Or.inl (by omega)))
        · exact Or.inr (Or.inr (Or.inr other))
      · rintro (inLow | ⟨low, high⟩ | ⟨low, high⟩ | other)
        · exact Or.inl inLow
        · exact Or.inr (Or.inl (by omega))
        · exact Or.inr (Or.inl (by omega))
        · exact Or.inr (Or.inr other)
  · have leads : (memory.joinLower bp middle).ptr middle = bp := by
      simp only [Memory.joinLower, touches, if_false, Memory.ptr_setPtr, if_true]
    have still : (memory.joinLower bp middle).size middle = memory.size middle := by
      simp only [Memory.joinLower, touches, if_false, Memory.size_setPtr]
    have sizes : ∀ a ∈ bp :: high, (memory.joinLower bp middle).size a = memory.size a := by
      intro a member
      rcases mem_cons.mp member with rfl | inside
      · exact blockKept.2
      · exact highSizes a inside
    have lowMember : ∀ a ∈ low, ∀ b ∈ middle :: bp :: high,
        a + (memory.joinLower bp middle).size a < b := by
      intro a member b inside
      have below := gap a member
      rw [lowSizes a member]
      rcases mem_cons.mp inside with rfl | further
      · exact below
      · rcases mem_cons.mp further with rfl | further
        · omega
        · have above := beyond b further
          omega
    refine ⟨bp :: high, fun a member => mem_cons.mp member, ?_, ?_, ?_, by omega,
      ⟨bp, by simp, Nat.le_of_eq blockKept.2.symm⟩, fun _ => still⟩
    · refine trail_append.mpr ⟨middle, start, rfl, leads, ?_⟩
      rw [blockKept.1]
      exact rest
    · refine pairwise_append.mpr ⟨Memory.Apart.congr lowApart lowSizes,
        pairwise_cons.mpr ⟨?_, Memory.Apart.congr upper sizes⟩, lowMember⟩
      intro a member
      rw [still]
      rcases mem_cons.mp member with rfl | inside
      · omega
      · have above := beyond a inside
        omega
    · intro unit
      simp only [free_append, free_cons, Memory.Free.congr lowSizes,
        Memory.Free.congr highSizes, Memory.Region, still, blockKept.2]

/-! ## `free` -/

/-- The last node in front of a block, and the nodes behind it. -/
theorem FreeList.split (list : FreeList memory base nodes) (behind : base < bp) :
    ∃ low p high, base :: nodes = low ++ p :: high ∧ p < bp ∧ ∀ a ∈ high, bp ≤ a := by
  have cut : ∀ {first : Nat} {rest : List Nat}, Ascending (first :: rest) → first < bp →
      ∃ low p high, first :: rest = low ++ p :: high ∧ p < bp ∧ ∀ a ∈ high, bp ≤ a := by
    intro first rest
    induction rest generalizing first with
    | nil =>
      intro _ below
      exact ⟨[], first, [], rfl, below, by simp⟩
    | cons next rest ih =>
      intro order below
      obtain ⟨-, further⟩ := pairwise_cons.mp order
      by_cases reaches : next < bp
      · obtain ⟨low, p, high, same, facts⟩ := ih further reaches
        exact ⟨first :: low, p, high, by rw [same, List.cons_append], facts⟩
      · refine ⟨[], first, next :: rest, rfl, below, ?_⟩
        intro a member
        rcases mem_cons.mp member with rfl | inside
        · omega
        · have gap := (pairwise_cons.mp further).1 a inside
          omega
  exact cut list.ascending behind

/-- A block that `free` can take: it lies behind `base` and meets no free node. -/
structure Freeable (memory : Memory) (base : Nat) (nodes : List Nat) (limit bp : Nat) : Prop where
  behind : base < bp
  sized : 0 < memory.size bp
  apart : ∀ a ∈ nodes, a + memory.size a ≤ bp ∨ bp + memory.size bp ≤ a
  inside : bp + memory.size bp ≤ limit
  within : ∀ a ∈ nodes, a + memory.size a ≤ limit
  small : limit < 2 ^ 32

/-- The place of a block in the ring: the nodes up to `p` lie in front of it, the others
behind it. -/
structure Place (memory : Memory) (base : Nat) (nodes : List Nat) (bp : Nat) (low : List Nat)
    (p : Nat) (high : List Nat) : Prop where
  split : base :: nodes = low ++ p :: high
  before : p < bp
  near : p + memory.size p ≤ bp
  above : ∀ a ∈ high, bp + memory.size bp ≤ a
  bounded : ∀ a ∈ high, a + memory.size a < 2 ^ 32
  outside : bp ∉ base :: nodes

variable {limit : Nat}

/-- A block that meets no free node has a place in the ring. -/
theorem Freeable.place (list : FreeList memory base nodes)
    (freeable : Freeable memory base nodes limit bp) :
    ∃ low p high, Place memory base nodes bp low p high := by
  obtain ⟨behind, sized, apart, inside, within, small⟩ := freeable
  obtain ⟨low, p, high, split, before, later⟩ := list.split behind
  have none := list.empty
  have inRing : ∀ a ∈ low ++ p :: high, a = base ∨ a ∈ nodes := fun a member => by
    rw [← split] at member
    exact mem_cons.mp member
  have above : ∀ a ∈ high, bp + memory.size bp ≤ a := by
    intro a member
    have reached := later a member
    rcases inRing a (by simp [member]) with rfl | inNodes
    · omega
    · have positive := list.sizes a inNodes
      rcases apart a inNodes with far | far <;> omega
  refine ⟨low, p, high, split, before, ?_, above, ?_, ?_⟩
  · rcases inRing p (by simp) with rfl | inNodes
    · omega
    · rcases apart p inNodes with far | far <;> omega
  · intro a member
    rcases inRing a (by simp [member]) with rfl | inNodes
    · have far := above a member
      omega
    · have far := within a inNodes
      omega
  · intro member
    rcases mem_cons.mp member with rfl | member
    · omega
    · have positive := list.sizes bp member
      rcases apart bp member with far | far <;> omega

theorem free_around : memory.Free (low ++ [p]) unit ∨ memory.Free (bp :: high) unit ↔
      memory.Region bp unit ∨ memory.Free (low ++ p :: high) unit := by
  simp only [free_append, free_cons]
  have nothing : ¬memory.Free [] unit := by simp [Memory.Free]
  tauto

theorem free_ring (empty : memory.size base = 0) :
    memory.Free (base :: nodes) unit ↔ memory.Free nodes unit := by
  simp only [free_cons, region_empty empty, false_or]

/-- The block joins the ring, with its neighbours where they touch. -/
theorem join_spec (list : FreeList memory base nodes)
    (freeable : Freeable memory base nodes limit bp)
    (place : Place memory base nodes bp low p high) :
    ∃ others, FreeList (((memory.joinUpper bp p).joinLower bp p).setFreep p) base others ∧
      (∀ unit, ((memory.joinUpper bp p).joinLower bp p).Free others unit ↔
        memory.Region bp unit ∨ memory.Free nodes unit) ∧
      (∃ a ∈ others, memory.size bp ≤ ((memory.joinUpper bp p).joinLower bp p).size a) := by
  obtain ⟨behind, sized, -, inside, within, small⟩ := freeable
  obtain ⟨split, before, near, above, bounded, outside⟩ := place
  have inRing : ∀ a ∈ low ++ p :: high, a ∈ base :: nodes := fun a member => by
    rw [split]
    exact member
  have links := list.links
  have order := list.order
  rw [split] at links order
  obtain ⟨middle, first, same, links⟩ := trail_append.mp links
  subst same
  obtain ⟨lowApart, upperApart, gaps⟩ := pairwise_append.mp order
  obtain ⟨rest, subset, joined, joinedApart, joinedFree, grown⟩ :=
    joinUpper_spec links (pairwise_cons.mp upperApart).2 above sized behind bounded
  have lowKept : ∀ a ∈ low ++ [middle], a ≠ bp := by
    rintro a member rfl
    exact outside (inRing a (by
      rcases mem_append.mp member with inLow | last
      · exact mem_append_left _ inLow
      · exact mem_append_right _ (by simp [List.mem_singleton.mp last])))
  have lower : (memory.joinUpper bp middle).Apart (low ++ [middle]) := by
    refine Memory.Apart.congr (pairwise_append.mpr ⟨lowApart, List.pairwise_singleton _ _, ?_⟩)
      fun a member => (joinUpper_other (lowKept a member)).2
    intro a member b last
    rw [List.mem_singleton.mp last]
    exact gaps a member middle mem_cons_self
  have front : Trail (memory.joinUpper bp middle).ptr base (low ++ [middle])
      ((memory.joinUpper bp middle).ptr middle) := by
    refine trail_append.mpr ⟨middle, first.congr fun a member => ?_, rfl, rfl⟩
    exact (joinUpper_other (lowKept a (mem_append_left _ member))).1
  have middleSize : (memory.joinUpper bp middle).size middle = memory.size middle :=
    (joinUpper_other (lowKept middle (by simp))).2
  have highest : bp + (memory.joinUpper bp middle).size bp ≤ limit := by
    have last : (memory.joinUpper bp middle).Free (bp :: rest)
        (bp + (memory.joinUpper bp middle).size bp - 1) :=
      ⟨bp, mem_cons_self, by omega, by omega⟩
    obtain ⟨a, member, -, reaches⟩ := (joinedFree _).mp last
    rcases mem_cons.mp member with rfl | inHigh
    · omega
    · rcases mem_cons.mp (inRing a (by simp [inHigh])) with rfl | inNodes
      · have none := list.empty
        have far := above a inHigh
        omega
      · have far := within a inNodes
        omega
  obtain ⟨rest', subset', final, finalApart, finalFree, more, large, untouched⟩ :=
    joinLower_spec front joined lower joinedApart (by omega) (by omega) (by omega) before
  obtain ⟨others, whole⟩ : ∃ others, low ++ middle :: rest' = base :: others := by
    cases low with
    | nil =>
      obtain ⟨rfl, -⟩ := List.cons.inj split
      exact ⟨rest', rfl⟩
    | cons a low =>
      obtain ⟨rfl, -⟩ := List.cons.inj split
      exact ⟨low ++ middle :: rest', rfl⟩
  have finalOrder := finalApart
  rw [whole] at finalOrder
  have notBase : ∀ a ∈ others, a ≠ base := by
    rintro a member rfl
    have gap := (pairwise_cons.mp finalOrder).1 a member
    omega
  have emptyBase : ((memory.joinUpper bp middle).joinLower bp middle).size base = 0 := by
    by_cases atBase : middle = base
    · have none := list.empty
      subst atBase
      rw [untouched (by omega), middleSize, none]
    · rw [(joinLower_other (Ne.symm atBase)).2, (joinUpper_other (by omega)).2, list.empty]
  have positive : ∀ a ∈ others,
      0 < ((memory.joinUpper bp middle).joinLower bp middle).size a := by
    intro a member
    have inWhole : a ∈ low ++ middle :: rest' := by
      rw [whole]
      exact mem_cons_of_mem base member
    have old : ∀ b ∈ low ++ middle :: high, b ≠ base → 0 < memory.size b := fun b inside other =>
      list.sizes b ((mem_cons.mp (inRing b inside)).resolve_left other)
    rcases mem_append.mp inWhole with inLow | inBack
    · have notMiddle : a ≠ middle := by
        have gap := gaps a inLow middle mem_cons_self
        omega
      rw [(joinLower_other notMiddle).2,
        (joinUpper_other (lowKept a (mem_append_left _ inLow))).2]
      exact old a (mem_append_left _ inLow) (notBase a member)
    · rcases mem_cons.mp inBack with rfl | inRest
      · have here := old a (by simp) (notBase a member)
        omega
      · rcases subset' a inRest with rfl | inHigh
        · rw [(joinLower_other (by omega)).2]
          omega
        · have inOld := subset a inHigh
          have far := above a inOld
          rw [(joinLower_other (by omega)).2, (joinUpper_other (by omega)).2]
          exact old a (by simp [inOld]) (notBase a member)
  refine ⟨others, ⟨?_, finalOrder, emptyBase, positive, ?_⟩, ?_, ?_⟩
  · rw [whole] at final
    exact final
  · show middle ∈ base :: others
    rw [← whole]
    simp
  · intro unit
    have lowUnits : (memory.joinUpper bp middle).Free (low ++ [middle]) unit ↔
        memory.Free (low ++ [middle]) unit :=
      Memory.Free.congr fun a member => (joinUpper_other (lowKept a member)).2
    have regroup : low ++ middle :: bp :: rest = (low ++ [middle]) ++ bp :: rest := by simp
    rw [← free_ring emptyBase, ← whole, finalFree, regroup, free_append, lowUnits, joinedFree,
      free_around, ← split, free_ring list.empty]
  · obtain ⟨a, member, bound⟩ := large
    have inRing : a ∈ base :: others := by
      rw [← whole]
      exact mem_append_right low member
    refine ⟨a, (mem_cons.mp inRing).resolve_left ?_, Nat.le_trans grown bound⟩
    rintro rfl
    omega

/-- `free` returns, and the units of its block are free behind it. -/
theorem free_spec (list : FreeList memory base nodes)
    (freeable : Freeable memory base nodes limit bp) : ∃ after others, FreeList after base others ∧
      (∀ fuel, 2 * (base :: nodes).length ≤ fuel → memory.free fuel (bp + 1) = some after) ∧
      (∀ unit, after.Free others unit ↔ memory.Region bp unit ∨ memory.Free nodes unit) ∧
      (∃ a ∈ others, memory.size bp ≤ after.size a) ∧
      (∀ a, a ∉ base :: nodes → a ≠ bp → after.size a = memory.size a) ∧
      after.brk = memory.brk := by
  obtain ⟨low, p, high, place⟩ := freeable.place list
  obtain ⟨others, joined, units, large⟩ := join_spec list freeable place
  refine ⟨_, others, joined, ?_, units, large, ?_, ?_⟩
  · intro fuel enough
    have strictly : ∀ a ∈ high, bp < a := fun a member => by
      have far := place.above a member
      have sized := freeable.sized
      omega
    have found := place_found list place.split place.before strictly enough
    simp only [Memory.free, Nat.add_sub_cancel, found, Option.map_some]
  · intro a fresh other
    have notMiddle : a ≠ p := by
      rintro rfl
      exact fresh (by simp [place.split])
    rw [Memory.size_setFreep, (joinLower_other notMiddle).2, (joinUpper_other other).2]
  · rw [Memory.brk_setFreep, brk_joinLower, brk_joinUpper]

/-! ## `malloc` with a node that is large enough -/

/-- Each node of the ring leads to a node of the ring. -/
theorem FreeList.pred (list : FreeList memory base nodes) (member : p ∈ base :: nodes)
    (other : memory.ptr p ≠ base) :
    ∃ low high, base :: nodes = low ++ p :: memory.ptr p :: high := by
  obtain ⟨low, high, split⟩ := append_of_mem member
  have links := list.links
  rw [split] at links
  obtain ⟨middle, -, rfl, rest⟩ := trail_append.mp links
  cases high with
  | nil => exact absurd rest other
  | cons next high =>
    have leads : memory.ptr middle = next := rest.1
    exact ⟨low, high, by rw [split, leads]⟩

/-- What `malloc` does with a node of the ring: its block is cut from the free units. -/
structure Taken (memory after : Memory) (base : Nat) (nodes others : List Nat)
    (units block : Nat) : Prop where
  list : FreeList after base others
  size : after.size block = units
  old : ∀ unit, block ≤ unit → unit < block + units → memory.Free nodes unit
  free : ∀ unit, after.Free others unit ↔
    memory.Free nodes unit ∧ ¬(block ≤ unit ∧ unit < block + units)
  kept : ∀ a, a ∉ base :: nodes → a ≠ block → after.size a = memory.size a
  brk : after.brk = memory.brk

theorem FreeList.separate (list : FreeList memory base nodes) {b : Nat} (left : a ∈ nodes)
    (right : b ∈ nodes) (inLeft : memory.Region a unit) (inRight : memory.Region b unit) :
    a = b := by
  obtain ⟨lowLeft, highLeft⟩ := inLeft
  obtain ⟨lowRight, highRight⟩ := inRight
  have order := (pairwise_cons.mp list.order).2
  obtain ⟨low, high, rfl⟩ := append_of_mem left
  obtain ⟨-, upper, gaps⟩ := pairwise_append.mp order
  rcases mem_append.mp right with inLow | inHigh
  · have gap := gaps b inLow a mem_cons_self
    omega
  · rcases mem_cons.mp inHigh with rfl | inHigh
    · rfl
    · have gap := (pairwise_cons.mp upper).1 b inHigh
      omega

theorem take_whole (list : FreeList memory base nodes) (member : q ∈ base :: nodes)
    (inNodes : memory.ptr q ∈ nodes) :
    ∃ others, Taken memory ((memory.setPtr q (memory.ptr (memory.ptr q))).setFreep q) base nodes
      others (memory.size (memory.ptr q)) (memory.ptr q) := by
  have other : memory.ptr q ≠ base := by
    intro same
    have gap := (pairwise_cons.mp list.order).1 _ inNodes
    omega
  obtain ⟨low, high, split⟩ := list.pred member other
  have links := list.links
  have order := list.order
  rw [split] at links order
  have sublist : (low ++ q :: high).Sublist (low ++ q :: memory.ptr q :: high) :=
    ((List.sublist_cons_self _ _).cons_cons q).append_left low
  have less := order.sublist sublist
  obtain ⟨-, upper, gaps⟩ := pairwise_append.mp less
  obtain ⟨others, whole⟩ : ∃ others, low ++ q :: high = base :: others := by
    cases low with
    | nil =>
      obtain ⟨rfl, -⟩ := List.cons.inj split
      exact ⟨high, rfl⟩
    | cons a low =>
      obtain ⟨rfl, -⟩ := List.cons.inj split
      exact ⟨low ++ q :: high, rfl⟩
  have once : (base :: nodes).Nodup := list.ascending.imp fun less => Nat.ne_of_lt less
  rw [split] at once
  have outside : ∀ a ∈ low ++ high, a ≠ q := by
    rintro a inside rfl
    have fresh := (List.nodup_cons.mp (List.nodup_middle.mp once)).1
    refine fresh ?_
    rcases mem_append.mp inside with inLow | inHigh
    · exact mem_append_left _ inLow
    · exact mem_append_right _ (mem_cons_of_mem _ inHigh)
  have gone : memory.ptr q ∉ base :: others := by
    rw [← whole]
    intro inside
    have regroup : low ++ q :: memory.ptr q :: high = (low ++ [q]) ++ memory.ptr q :: high := by
      simp
    rw [regroup] at once
    refine (List.nodup_cons.mp (List.nodup_middle.mp once)).1 ?_
    rw [List.append_assoc]
    exact inside
  have subset : ∀ a ∈ others, a ∈ nodes := by
    intro a inside
    have inOld : a ∈ base :: nodes := by
      rw [split]
      refine sublist.subset ?_
      rw [whole]
      exact mem_cons_of_mem base inside
    refine (mem_cons.mp inOld).resolve_left ?_
    rintro rfl
    rw [whole] at less
    have gap := (pairwise_cons.mp less).1 a inside
    omega
  refine ⟨others, ⟨⟨?_, ?_, ?_, ?_, ?_⟩, ?_, ?_, ?_, ?_, rfl⟩⟩
  · have removed : Trail (memory.setPtr q (memory.ptr (memory.ptr q))).ptr base
        (low ++ q :: high) base := links.removeAfter
      (fun a inside => by rw [Memory.ptr_setPtr, if_neg (outside a inside)])
      (by rw [Memory.ptr_setPtr, if_pos rfl])
    rw [whole] at removed
    exact removed
  · rw [whole] at less
    exact Memory.Apart.congr less fun a _ => Memory.size_setPtr memory q _ a
  · rw [Memory.size_setFreep, Memory.size_setPtr, list.empty]
  · intro a inside
    rw [Memory.size_setFreep, Memory.size_setPtr]
    exact list.sizes a (subset a inside)
  · show q ∈ base :: others
    rw [← whole]
    simp
  · rw [Memory.size_setFreep, Memory.size_setPtr]
  · intro unit low high
    exact ⟨memory.ptr q, inNodes, low, high⟩
  · intro unit
    constructor
    · rintro ⟨a, inside, region⟩
      have regionOld : memory.Region a unit := by
        obtain ⟨low, high⟩ := region
        rw [Memory.size_setFreep, Memory.size_setPtr] at high
        exact ⟨low, high⟩
      refine ⟨⟨a, subset a inside, regionOld⟩, fun inBlock => ?_⟩
      have same := list.separate (subset a inside) inNodes regionOld inBlock
      rw [same] at inside
      exact gone (mem_cons_of_mem base inside)
    · rintro ⟨⟨a, inside, low, high⟩, notInBlock⟩
      have inRing : a ∈ base :: others := by
        have inOld := mem_cons_of_mem base inside
        rw [split] at inOld
        rw [← whole]
        rcases mem_append.mp inOld with inLow | inHigh
        · exact mem_append_left _ inLow
        · rcases mem_cons.mp inHigh with rfl | inHigh
          · simp
          · rcases mem_cons.mp inHigh with rfl | inHigh
            · exact absurd ⟨low, high⟩ notInBlock
            · exact mem_append_right _ (mem_cons_of_mem q inHigh)
      refine ⟨a, (mem_cons.mp inRing).resolve_left ?_, low, ?_⟩
      · rintro rfl
        have gap := (pairwise_cons.mp list.order).1 a inside
        omega
      · rw [Memory.size_setFreep, Memory.size_setPtr]
        exact high
  · intro a _ _
    rw [Memory.size_setFreep, Memory.size_setPtr]

theorem take_tail (list : FreeList memory base nodes) (member : q ∈ base :: nodes)
    (inNodes : p ∈ nodes) {units : Nat} (positive : 0 < units) (less : units < memory.size p) :
    Taken memory (((memory.setSize p (memory.size p - units)).setSize
      (p + (memory.size p - units)) units).setFreep q) base nodes nodes units
      (p + (memory.size p - units)) := by
  have inTail : ∀ unit, p + (memory.size p - units) ≤ unit →
      unit < p + (memory.size p - units) + units → memory.Region p unit := by
    intro unit low high
    exact ⟨by omega, by omega⟩
  have notTail : ∀ a ∈ base :: nodes, a ≠ p + (memory.size p - units) := by
    rintro a inside rfl
    rcases mem_cons.mp inside with same | inside
    · have gap := (pairwise_cons.mp list.order).1 p inNodes
      omega
    · have sized := list.sizes _ inside
      have same := list.separate inside inNodes ⟨Nat.le_refl _, by omega⟩
        (inTail _ (Nat.le_refl _) (by omega))
      omega
  have sizes : ∀ a, a ≠ p + (memory.size p - units) →
      (((memory.setSize p (memory.size p - units)).setSize
        (p + (memory.size p - units)) units).setFreep q).size a =
        if a = p then memory.size p - units else memory.size a := by
    intro a other
    rw [Memory.size_setFreep, Memory.size_setSize, if_neg other, Memory.size_setSize]
  have smaller : ∀ a ∈ base :: nodes,
      (((memory.setSize p (memory.size p - units)).setSize
        (p + (memory.size p - units)) units).setFreep q).size a ≤ memory.size a := by
    intro a inside
    rw [sizes a (notTail a inside)]
    by_cases same : a = p
    · subst same
      rw [if_pos rfl]
      omega
    · exact Nat.le_of_eq (if_neg same)
  refine ⟨⟨?_, ?_, ?_, ?_, member⟩, ?_, ?_, ?_, ?_, rfl⟩
  · exact list.links.congr fun a _ => by
      rw [Memory.ptr_setFreep, Memory.ptr_setSize, Memory.ptr_setSize]
  · refine List.Pairwise.imp_of_mem ?_ list.order
    intro a b inside _ gap
    have bound := smaller a inside
    omega
  · have bound := smaller base mem_cons_self
    have none := list.empty
    omega
  · intro a inside
    rw [sizes a (notTail a (mem_cons_of_mem base inside))]
    by_cases same : a = p
    · rw [if_pos same]
      omega
    · rw [if_neg same]
      exact list.sizes a inside
  · rw [Memory.size_setFreep, Memory.size_setSize, if_pos rfl]
  · intro unit low high
    exact ⟨p, inNodes, inTail unit low high⟩
  · intro unit
    constructor
    · rintro ⟨a, inside, low, high⟩
      have bound := smaller a (mem_cons_of_mem base inside)
      have region : memory.Region a unit := ⟨low, by omega⟩
      refine ⟨⟨a, inside, region⟩, ?_⟩
      rintro ⟨lowTail, highTail⟩
      obtain rfl := list.separate inside inNodes region (inTail unit lowTail highTail)
      rw [sizes a (notTail a (mem_cons_of_mem base inside)), if_pos rfl] at high
      omega
    · rintro ⟨⟨a, inside, low, high⟩, notInTail⟩
      refine ⟨a, inside, low, ?_⟩
      rw [sizes a (notTail a (mem_cons_of_mem base inside))]
      by_cases same : a = p
      · subst same
        rw [if_pos rfl]
        omega
      · rw [if_neg same]
        exact high
  · intro a fresh other
    rw [sizes a other, if_neg]
    rintro rfl
    exact fresh (mem_cons_of_mem base inNodes)

/-- `malloc` cuts the block that it returns from the free units. -/
theorem take_spec (list : FreeList memory base nodes) (member : q ∈ base :: nodes)
    (inRing : memory.ptr q ∈ base :: nodes) {units : Nat} (positive : 0 < units)
    (enough : units ≤ memory.size (memory.ptr q)) :
    ∃ block others, (memory.take q (memory.ptr q) units).1 = block + 1 ∧
      Taken memory (memory.take q (memory.ptr q) units).2 base nodes others units block := by
  have inNodes : memory.ptr q ∈ nodes := by
    refine (mem_cons.mp inRing).resolve_left fun same => ?_
    have none := list.empty
    rw [same] at enough
    omega
  by_cases exact_fit : memory.size (memory.ptr q) = units
  · obtain ⟨others, taken⟩ := take_whole list member inNodes
    refine ⟨memory.ptr q, others, ?_, ?_⟩
    · rw [Memory.take, if_pos exact_fit]
    · rw [Memory.take, if_pos exact_fit]
      rw [exact_fit] at taken
      exact taken
  · have taken := take_tail list member inNodes positive (by omega)
    refine ⟨memory.ptr q + (memory.size (memory.ptr q) - units), nodes, ?_, ?_⟩
    · simp only [Memory.take, if_neg exact_fit, Memory.size_setSize, if_true]
    · simp only [Memory.take, if_neg exact_fit, Memory.size_setSize, if_true]
      exact taken

end Ev6.UserHeap
