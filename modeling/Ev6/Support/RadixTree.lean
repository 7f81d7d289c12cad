import Ev6.Support.Holdings
import Mathlib.Data.Nat.Notation

/-!
# Radix trees in memory

A tree of nodes with a fixed number of slots. The path of a node lists the slots that lead
to it, the last one first, so that a slot before the path of a node makes the path of a
node below it. The slots of the nodes at the full depth are not part of the tree.
-/

namespace Ev6.Support

open Function (update update_of_ne update_self)

/-- The node at each path, if there is one. -/
abbrev NodeTree (Node : Type*) := List ℕ → Option Node

variable {Node Word : Type*}

/-- The number of slots of a node, the number of levels above the last one, and the word
that leads to a node or to none. -/
structure RadixFormat (Node Word : Type*) where
  fanout : ℕ
  depth : ℕ
  entry : Option Node → Word

/-- The memory holds a tree, and no node stands at two places of it. -/
structure RadixFormat.Holds (format : RadixFormat Node Word) (memory : Node → ℕ → Word)
    (tree : NodeTree Node) : Prop where
  apart : Separate tree
  entries : ∀ path node, tree path = some node → path.length < format.depth →
    ∀ slot < format.fanout, memory node slot = format.entry (tree (slot :: path))
  above : ∀ slot path node, tree (slot :: path) = some node →
    (tree path).isSome ∧ slot < format.fanout ∧ path.length < format.depth

namespace RadixFormat.Holds

variable {format : RadixFormat Node Word} {memory after : Node → ℕ → Word}
  {tree : NodeTree Node}

/-- The tree depends on the nodes above the last level only. -/
theorem frame (holds : format.Holds memory tree)
    (same : ∀ path node, tree path = some node → path.length < format.depth →
      after node = memory node) : format.Holds after tree where
  apart := holds.apart
  entries path node there inner slot low := by
    rw [same path node there inner]
    exact holds.entries path node there inner slot low
  above := holds.above

/-- Nothing is below a place without a node. -/
theorem none_below (holds : format.Holds memory tree) {path : List ℕ} (none : tree path = none)
    (slot : ℕ) : tree (slot :: path) = Option.none := by
  cases there : tree (slot :: path) with
  | none => rfl
  | some node =>
    obtain ⟨isSome, -⟩ := holds.above slot path node there
    rw [none] at isSome
    cases isSome

/-- A node without entries is entered in an empty slot. -/
theorem attach (holds : format.Holds memory tree) {path : List ℕ} {node fresh : Node} {slot : ℕ}
    (there : tree path = some node) (inner : path.length < format.depth)
    (low : slot < format.fanout) (empty : tree (slot :: path) = none) (unheld : Unheld tree fresh)
    (blank : ∀ k < format.fanout, memory fresh k = format.entry none)
    (linked : after node = update (memory node) slot (format.entry (some fresh)))
    (same : ∀ other ≠ node, after other = memory other) :
    format.Holds after (update tree (slot :: path) (some fresh)) where
  apart := holds.apart.claim unheld
  entries way other found above k inside := by
    by_cases new : way = slot :: path
    · -- the node that is entered has nothing below it
      subst new
      rw [update_self] at found
      cases found
      have different : fresh ≠ node := fun equal => unheld path (equal ▸ there)
      have deeper : k :: slot :: path ≠ slot :: path := List.cons_ne_self k _
      rw [same fresh different, blank k inside, update_of_ne deeper,
        holds.none_below empty]
    · rw [update_of_ne new] at found
      by_cases here : way = path
      · subst here
        obtain rfl := Option.some.inj (there.symm.trans found)
        rw [linked]
        by_cases equal : k = slot
        · subst equal
          simp
        · have apart : k :: way ≠ slot :: way := fun both => equal (List.cons.inj both).1
          rw [update_of_ne equal, update_of_ne apart]
          exact holds.entries way node there above k inside
      · have different : other ≠ node := holds.apart.ne found there here
        have apart : k :: way ≠ slot :: path := fun both => here (List.cons.inj both).2
        rw [same other different, update_of_ne apart]
        exact holds.entries way other found above k inside
  above k way other found := by
    by_cases new : k :: way = slot :: path
    · obtain ⟨rfl, rfl⟩ := List.cons.inj new
      rw [update_of_ne (List.cons_ne_self k way).symm, there]
      exact ⟨rfl, low, inner⟩
    · rw [update_of_ne new] at found
      obtain ⟨isSome, rest⟩ := holds.above k way other found
      refine ⟨?_, rest⟩
      by_cases here : way = slot :: path
      · subst here
        rw [update_self]
        rfl
      · rw [update_of_ne here]
        exact isSome

end RadixFormat.Holds

end Ev6.Support
