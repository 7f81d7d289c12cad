import Mathlib.Data.List.Induction
import Mathlib.Data.List.Nodup
import Mathlib.Tactic.Tauto
import Mathlib.Logic.Function.Basic

/-!
# Linked lists in memory

A trail is the sequence of nodes met by following a `next` function from one
node up to another, which is not part of it. A ring is a trail from a head back
to the head. A double ring is read forwards along `next` and backwards along
`prev`.
-/

namespace Ev6.Support

open List (mem_append mem_cons mem_cons_of_mem mem_cons_self nodup_append nodup_cons reverse_cons)

universe u

variable {Node : Type u}

/-- Following `next` from `first` meets exactly `nodes` before it arrives at `stop`. -/
def Trail (next : Node → Node) : Node → List Node → Node → Prop
  | first, [], stop => first = stop
  | first, node :: rest, stop => first = node ∧ Trail next (next node) rest stop

variable {next after : Node → Node}

variable {first stop : Node}

@[simp] theorem trail_nil : Trail next first [] stop ↔ first = stop := Iff.rfl

variable {node : Node}

@[simp] theorem trail_cons {rest : List Node} :
    Trail next first (node :: rest) stop ↔ first = node ∧ Trail next (next node) rest stop :=
  Iff.rfl

variable {back front : List Node}

/-- A trail is made of two trails that meet. -/
theorem trail_append : Trail next first (front ++ back) stop ↔
      ∃ middle, Trail next first front middle ∧ Trail next middle back stop := by
  induction front generalizing first with
  | nil => simp
  | cons node front ih =>
    simp only [List.cons_append, trail_cons, ih]
    constructor
    · rintro ⟨same, middle, front, back⟩
      exact ⟨middle, ⟨same, front⟩, back⟩
    · rintro ⟨middle, ⟨same, front⟩, back⟩
      exact ⟨same, middle, front, back⟩

variable {nodes : List Node}

/-- A trail depends only on the links of its nodes. -/
theorem Trail.congr (trail : Trail next first nodes stop)
    (same : ∀ node ∈ nodes, after node = next node) : Trail after first nodes stop := by
  induction nodes generalizing first with
  | nil => exact trail
  | cons node nodes ih =>
    obtain ⟨start, rest⟩ := trail
    have here := same node mem_cons_self
    refine ⟨start, ?_⟩
    rw [here]
    exact ih rest fun other member => same other (mem_cons_of_mem node member)

variable {place : Node}

/-- A node is put behind one of the nodes of a trail. -/
theorem Trail.insertAfter (trail : Trail next first (front ++ place :: back) stop)
    (outside : ∀ other ∈ front ++ back, after other = next other)
    (place_link : after place = node) (node_link : after node = next place) :
    Trail after first (front ++ place :: node :: back) stop := by
  obtain ⟨middle, before, same, behind⟩ := trail_append.mp trail
  have front_kept := before.congr fun other member =>
    outside other (List.mem_append_left _ member)
  have back_kept := behind.congr fun other member =>
    outside other (List.mem_append_right _ member)
  refine trail_append.mpr ⟨middle, front_kept, same, place_link, ?_⟩
  rw [node_link]
  exact back_kept

/-- The node behind one of the nodes of a trail is taken out. -/
theorem Trail.removeAfter (trail : Trail next first (front ++ place :: node :: back) stop)
    (outside : ∀ other ∈ front ++ back, after other = next other)
    (place_link : after place = next node) : Trail after first (front ++ place :: back) stop := by
  obtain ⟨middle, before, same, -, behind⟩ := trail_append.mp trail
  have front_kept := before.congr fun other member =>
    outside other (List.mem_append_left _ member)
  have back_kept := behind.congr fun other member =>
    outside other (List.mem_append_right _ member)
  refine trail_append.mpr ⟨middle, front_kept, same, ?_⟩
  rw [place_link]
  exact back_kept

/-- Following `next` from `head` meets `nodes` and returns to `head`. -/
structure Ring (next : Node → Node) (head : Node) (nodes : List Node) : Prop where
  trail : Trail next head (head :: nodes) head
  once : (head :: nodes).Nodup

variable {head : Node}

/-- The first node of a ring, or its head when it is empty. -/
theorem Ring.next_head (ring : Ring next head nodes) : next head = nodes.headD head := by
  obtain ⟨-, rest⟩ := ring.trail
  cases nodes with
  | nil => exact rest
  | cons node nodes => exact rest.1

theorem Ring.head_not_mem (ring : Ring next head nodes) : head ∉ nodes :=
  (nodup_cons.mp ring.once).1

/-- A ring depends only on the links of its nodes and of its head. -/
theorem Ring.congr (ring : Ring next head nodes)
    (same : ∀ node ∈ head :: nodes, after node = next node) : Ring after head nodes :=
  ⟨ring.trail.congr same, ring.once⟩

/-- A new node is put in front. -/
theorem Ring.push (ring : Ring next head nodes)
    (fresh : node ∉ head :: nodes) (outside : ∀ other ∈ nodes, after other = next other)
    (head_link : after head = node) (node_link : after node = next head) :
    Ring after head (node :: nodes) where
  trail := by
    have trail : Trail next head ([] ++ head :: nodes) head := ring.trail
    exact trail.insertAfter (by simpa using outside) head_link node_link
  once := by
    obtain ⟨other, inside⟩ : node ≠ head ∧ node ∉ nodes := by simpa using fresh
    obtain ⟨notInside, once⟩ := nodup_cons.mp ring.once
    refine nodup_cons.mpr ⟨?_, nodup_cons.mpr ⟨inside, once⟩⟩
    simp [notInside, Ne.symm other]

/-- The last node of a ring leads back to its head. -/
theorem Ring.next_last (ring : Ring next head nodes)
    (last : head :: nodes = front ++ [place]) : next place = head := by
  have trail := ring.trail
  rw [last] at trail
  obtain ⟨middle, -, -, rest⟩ := trail_append.mp trail
  exact rest

/-- A new node is put at the end, behind `place`. -/
theorem Ring.append (ring : Ring next head nodes) (last : head :: nodes = front ++ [place])
    (fresh : node ∉ head :: nodes) (outside : ∀ other ∈ front, after other = next other)
    (place_link : after place = node) (node_link : after node = head) :
    Ring after head (nodes ++ [node]) where
  trail := by
    have trail := ring.trail
    rw [last] at trail
    have longer := trail.insertAfter (by simpa using outside) place_link
      (node_link.trans (ring.next_last last).symm)
    rw [← List.cons_append, last, List.append_assoc]
    exact longer
  once := by
    rw [← List.cons_append, ← List.concat_eq_append]
    exact ring.once.concat fresh

variable {before behind : List Node}

/-- A node is taken out. -/
theorem Ring.remove
    (ring : Ring next head (before ++ node :: behind)) (split : head :: before = front ++ [place])
    (outside : ∀ other ∈ front ++ behind, after other = next other)
    (place_link : after place = next node) : Ring after head (before ++ behind) where
  trail := by
    have trail := ring.trail
    rw [← List.cons_append, split, List.append_assoc] at trail
    rw [← List.cons_append, split, List.append_assoc]
    exact trail.removeAfter outside place_link
  once := by
    have once := ring.once
    rw [← List.cons_append] at once ⊢
    exact (List.nodup_middle.mp once |> nodup_cons.mp).2

/-! ## Neighbours in a ring -/

theorem headD_reverse (nodes : List Node) (head : Node) :
    nodes.reverse.headD head = nodes.getLastD head := by
  induction nodes using List.reverseRecOn with
  | nil => rfl
  | append_singleton front last _ => simp

theorem getLastD_reverse (nodes : List Node) (head : Node) :
    nodes.reverse.getLastD head = nodes.headD head := by
  rw [← headD_reverse, List.reverse_reverse]

/-- The nodes up to the last one, and the last one. -/
theorem exists_front (head : Node) (nodes : List Node) :
    ∃ front, head :: nodes = front ++ [nodes.getLastD head] := by
  induction nodes using List.reverseRecOn with
  | nil => exact ⟨[], rfl⟩
  | append_singleton front last _ =>
    refine ⟨head :: front, ?_⟩
    rw [List.getLastD_concat]
    rfl

/-- The neighbours of a node of a ring. -/
theorem Ring.link_of_split (ring : Ring next head (before ++ node :: behind)) :
    next (before.getLastD head) = node ∧ next node = behind.headD head := by
  obtain ⟨front, split⟩ := exists_front head before
  have trail := ring.trail
  rw [← List.cons_append, split, List.append_assoc] at trail
  obtain ⟨middle, -, rfl, here, rest⟩ := trail_append.mp trail
  refine ⟨here, ?_⟩
  cases behind with
  | nil => exact rest
  | cons other behind => exact rest.1

/-- Two trails to the same stop are the same, when neither passes it before. -/
theorem Trail.unique {others : List Node}
    (trail : Trail next first nodes stop) (notIn : stop ∉ nodes)
    (other : Trail next first others stop) (notInOther : stop ∉ others) : nodes = others := by
  induction nodes generalizing first others with
  | nil =>
    obtain rfl : first = stop := trail
    cases others with
    | nil => rfl
    | cons node rest =>
      obtain rfl : first = node := other.1
      exact absurd mem_cons_self notInOther
  | cons node rest ih =>
    obtain ⟨rfl, trail⟩ := trail
    cases others with
    | nil =>
      obtain rfl : first = stop := other
      exact absurd mem_cons_self notIn
    | cons node rest' =>
      obtain ⟨rfl, other⟩ := other
      rw [ih trail (fun member => notIn (mem_cons_of_mem first member)) other
        fun member => notInOther (mem_cons_of_mem first member)]

/-- A ring is determined by its links. -/
theorem Ring.unique {others : List Node} (ring : Ring next head nodes)
    (other : Ring next head others) : nodes = others := by
  obtain ⟨-, trail⟩ := ring.trail
  obtain ⟨-, otherTrail⟩ := other.trail
  exact trail.unique ring.head_not_mem otherTrail other.head_not_mem

/-- Links never leave a ring. -/
theorem Ring.next_mem (ring : Ring next head nodes)
    (member : node ∈ head :: nodes) : next node ∈ head :: nodes := by
  have headD_mem : ∀ rest : List Node, rest.headD head ∈ head :: rest := by
    intro rest
    cases rest <;> simp
  rcases mem_cons.mp member with rfl | inside
  · rw [ring.next_head]
    exact headD_mem nodes
  · obtain ⟨before, behind, rfl⟩ := List.append_of_mem inside
    rw [ring.link_of_split.2]
    rcases mem_cons.mp (headD_mem behind) with same | further
    · rw [same]
      exact mem_cons_self
    · exact mem_cons_of_mem head
        (List.mem_append_right before (mem_cons_of_mem node further))

/-- Only one node of a ring leads to a given one. -/
theorem Ring.pred_unique (ring : Ring next head (before ++ node :: behind))
    (member : place ∈ head :: (before ++ node :: behind)) (link : next place = node) :
    place = before.getLastD head := by
  have other : node ≠ head := by
    rintro rfl
    exact ring.head_not_mem (by simp)
  rcases mem_cons.mp member with rfl | inside
  · have first := ring.next_head
    cases before with
    | nil => rfl
    | cons leading before =>
      have once := ring.once
      rw [link] at first
      simp only [List.cons_append, List.headD_cons] at first
      subst first
      simp at once
  · obtain ⟨front, back, split⟩ := List.append_of_mem inside
    have leads := (split ▸ ring).link_of_split.2
    rw [link] at leads
    cases back with
    | nil => exact absurd leads other
    | cons follower back =>
      obtain rfl : node = follower := leads
      have once := (nodup_cons.mp ring.once).2
      have absent := (nodup_cons.mp (List.nodup_middle.mp once)).1
      rw [mem_append, not_or] at absent
      have regrouped : before ++ node :: behind = (front ++ [place]) ++ node :: back := by
        simp [split]
      have same := (List.append_cons_inj_of_notMem absent.1 absent.2).mp regrouped
      rw [same.1, List.getLastD_concat]

/-- A list of nodes linked in both directions through a head. -/
structure DoubleRing (next prev : Node → Node) (head : Node) (nodes : List Node) : Prop where
  forward : Ring next head nodes
  backward : Ring prev head nodes.reverse

variable {prev afterPrev : Node → Node}

/-- The neighbours of a node, in both directions. -/
theorem DoubleRing.neighbours (ring : DoubleRing next prev head (before ++ node :: behind)) :
    next (before.getLastD head) = node ∧ next node = behind.headD head ∧
      prev (behind.headD head) = node ∧ prev node = before.getLastD head := by
  have backward := ring.backward
  simp only [List.reverse_append, reverse_cons, List.append_assoc, List.singleton_append]
    at backward
  obtain ⟨ahead, behindLink⟩ := backward.link_of_split
  rw [getLastD_reverse] at ahead
  rw [headD_reverse] at behindLink
  exact ⟨ring.forward.link_of_split.1, ring.forward.link_of_split.2, ahead, behindLink⟩

/-- A node is unlinked by joining its neighbours. -/
theorem DoubleRing.unlink (ring : DoubleRing next prev head (before ++ node :: behind))
    (outside : ∀ other ∈ head :: (before ++ behind), other ≠ before.getLastD head →
      after other = next other)
    (outsidePrev : ∀ other ∈ head :: (before ++ behind), other ≠ behind.headD head →
      afterPrev other = prev other) (joined : after (before.getLastD head) = behind.headD head)
    (joinedPrev : afterPrev (behind.headD head) = before.getLastD head) :
    DoubleRing after afterPrev head (before ++ behind) := by
  obtain ⟨-, nodeNext, -, nodePrev⟩ := ring.neighbours
  constructor
  · obtain ⟨front, split⟩ := exists_front head before
    refine ring.forward.remove split ?_ (joined.trans nodeNext.symm)
    intro other member
    have once := ring.forward.once
    rw [← List.cons_append, split] at once
    refine outside other ?_ ?_
    · rw [← List.cons_append, split]
      simp only [mem_append] at member ⊢
      tauto
    · rintro rfl
      rcases mem_append.mp member with inFront | inBehind
      · have disjoint := (nodup_append.mp (nodup_append.mp once).1).2.2
        exact disjoint _ inFront _ (List.mem_singleton_self _) rfl
      · have disjoint := (nodup_append.mp once).2.2
        exact disjoint _ (by simp) _ (mem_cons_of_mem node inBehind) rfl
  · have backward := ring.backward
    simp only [List.reverse_append, reverse_cons, List.append_assoc, List.singleton_append]
      at backward ⊢
    obtain ⟨front, split⟩ := exists_front head behind.reverse
    rw [getLastD_reverse] at split
    refine backward.remove split ?_ (joinedPrev.trans nodePrev.symm)
    intro other member
    have once := backward.once
    rw [← List.cons_append, split] at once
    refine outsidePrev other ?_ ?_
    · have inside : other ∈ head :: behind.reverse ++ before.reverse := by
        rw [split]
        simp only [mem_append] at member ⊢
        tauto
      simp only [List.cons_append, mem_cons, mem_append, List.mem_reverse] at inside ⊢
      tauto
    · rintro rfl
      rcases mem_append.mp member with inFront | inBefore
      · have disjoint := (nodup_append.mp (nodup_append.mp once).1).2.2
        exact disjoint _ inFront _ (List.mem_singleton_self _) rfl
      · have disjoint := (nodup_append.mp once).2.2
        exact disjoint _ (by simp) _ (mem_cons_of_mem node inBefore) rfl

/-- A new node is put in front, at the end that `next` of the head leads to. -/
theorem DoubleRing.pushFront (ring : DoubleRing next prev head nodes) (fresh : node ∉ head :: nodes)
    (outside : ∀ other ∈ nodes, after other = next other)
    (outsidePrev : ∀ other ∈ head :: nodes, other ≠ nodes.headD head → afterPrev other = prev other)
    (headNext : after head = node) (nodeNext : after node = next head)
    (firstPrev : afterPrev (nodes.headD head) = node) (nodePrev : afterPrev node = head) :
    DoubleRing after afterPrev head (node :: nodes) := by
  constructor
  · exact ring.forward.push fresh outside headNext nodeNext
  · rw [reverse_cons]
    obtain ⟨front, split⟩ := exists_front head nodes.reverse
    rw [getLastD_reverse] at split
    refine ring.backward.append split (by simpa using fresh) ?_ firstPrev nodePrev
    intro other member
    have once := ring.backward.once
    rw [split] at once
    refine outsidePrev other ?_ ?_
    · have inside : other ∈ head :: nodes.reverse := by
        rw [split]
        exact List.mem_append_left _ member
      simpa using inside
    · rintro rfl
      exact (nodup_append.mp once).2.2 _ member _ (List.mem_singleton_self _) rfl

theorem DoubleRing.symm
    (ring : DoubleRing next prev head nodes) : DoubleRing prev next head nodes.reverse :=
  ⟨ring.backward, by rw [List.reverse_reverse]; exact ring.forward⟩

/-- A new node is put at the other end, the one that `prev` of the head leads to. -/
theorem DoubleRing.pushBack (ring : DoubleRing next prev head nodes) (fresh : node ∉ head :: nodes)
    (outside : ∀ other ∈ head :: nodes, other ≠ nodes.getLastD head → after other = next other)
    (outsidePrev : ∀ other ∈ nodes, afterPrev other = prev other)
    (lastNext : after (nodes.getLastD head) = node) (nodeNext : after node = head)
    (headPrev : afterPrev head = node) (nodePrev : afterPrev node = prev head) :
    DoubleRing after afterPrev head (nodes ++ [node]) := by
  have mirrored : DoubleRing afterPrev after head (node :: nodes.reverse) := by
    refine ring.symm.pushFront (by simpa using fresh) ?_ ?_ headPrev nodePrev ?_ nodeNext
    · intro other member
      exact outsidePrev other (List.mem_reverse.mp member)
    · intro other member different
      rw [headD_reverse] at different
      exact outside other (by simpa using member) different
    · rw [headD_reverse]
      exact lastNext
  simpa using mirrored.symm

end Ev6.Support
