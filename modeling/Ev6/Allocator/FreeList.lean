import Ev6.Allocator.Kalloc

/-!
# The free list and the holders of pages

`FreeList` relates the memory to the free pages in the order of the free list,
and `Owned` says that every page has one holder: a list, an owner or the free
list.
-/

namespace Ev6.Allocator

open List (mem_cons mem_cons_of_mem mem_cons_self mem_of_mem_erase nodup_cons)
open Support MList

/-! ## The free list -/

/-- The free pages in the order of the free list. Apart from the link in its first
word, a free page is as `kfree` has filled it. -/
structure FreeList (heap : Heap) (free : List Nat) : Prop where
  trail : Trail heap.addr heap.freelist free 0
  once : free.Nodup
  physical : ∀ page ∈ free, IsPage page
  blank : ∀ page ∈ free, BlankPage heap page

variable {heap : Heap} {free : List Nat}

theorem FreeList.congr {after : Heap} (list : FreeList heap free)
    (same : ∀ page ∈ free, SamePage heap after page) (head : after.freelist = heap.freelist) :
    FreeList after free where
  trail := by
    rw [head]
    exact list.trail.congr fun page member => (same page member 0 (by decide)).1
  once := list.once
  physical := list.physical
  blank := fun page member => (list.blank page member).congr (same page member)

variable {rest : List Nat} {page : Nat}

theorem FreeList.first (list : FreeList heap (page :: rest)) : heap.freelist = page :=
  list.trail.1

theorem FreeList.take_first (list : FreeList heap (page :: rest)) :
    FreeList { heap with freelist := heap.addr page } rest where
  trail := list.trail.2
  once := (nodup_cons.mp list.once).2
  physical := fun other member => list.physical other (mem_cons_of_mem page member)
  blank := fun other member => list.blank other (mem_cons_of_mem page member)

theorem FreeList.take_second {first second : Nat} (list : FreeList heap (first :: second :: rest)) :
    FreeList (heap.setAddr first (heap.addr second)) (first :: rest) := by
  obtain ⟨start, -, behind⟩ := list.trail
  have once := list.once
  simp only [nodup_cons, mem_cons, not_or] at once
  obtain ⟨⟨-, outside⟩, -, others⟩ := once
  have physical : ∀ page ∈ first :: rest, IsPage page := by
    intro page member
    refine list.physical page ?_
    simp only [mem_cons] at member ⊢
    tauto
  have home := physical first mem_cons_self
  have kept : ∀ page ∈ rest, SamePage heap (heap.setAddr first (heap.addr second)) page := by
    intro page member
    refine same_setAddr heap _ home (physical page (mem_cons_of_mem first member)) ?_
    rintro rfl
    exact outside member
  refine ⟨⟨start, ?_⟩, nodup_cons.mpr ⟨outside, others⟩, physical, ?_⟩
  · have link : (heap.setAddr first (heap.addr second)).addr first = heap.addr second := by
      simp [Heap.setAddr]
    rw [link]
    exact behind.congr fun page member => (kept page member 0 (by decide)).1
  · intro page member
    rcases mem_cons.mp member with rfl | later
    · exact (list.blank page mem_cons_self).setAddr _
    · exact (list.blank page (by simp [later])).congr (kept page later)

theorem FreeList.give (list : FreeList heap free)
    (physical : IsPage page) (fresh : page ∉ free) (blank : BlankPage heap page) :
    FreeList { heap.setAddr page heap.freelist with freelist := page } (page :: free) := by
  have kept : ∀ other ∈ free, SamePage heap (heap.setAddr page heap.freelist) other := by
    intro other member
    refine same_setAddr heap _ physical (list.physical other member) ?_
    rintro rfl
    exact fresh member
  refine ⟨⟨rfl, ?_⟩, nodup_cons.mpr ⟨fresh, list.once⟩, ?_, ?_⟩
  · have link : (heap.setAddr page heap.freelist).addr page = heap.freelist := by
      simp [Heap.setAddr]
    rw [link]
    exact list.trail.congr fun other member => (kept other member 0 (by decide)).1
  · intro other member
    rcases mem_cons.mp member with rfl | old
    · exact physical
    · exact list.physical other old
  · intro other member
    rcases mem_cons.mp member with rfl | old
    · exact blank.setAddr _
    · exact (list.blank other old).congr (kept other old)

theorem loop_freePass {place : Nat}
    (trail : Trail heap.addr place free 0) (physical : ∀ page ∈ free, IsPage page)
    (collected : List Nat) {passes : Nat} (enough : free.length < passes) :
    loop (freePass heap) passes (place, collected) = some (collected ++ free) := by
  obtain ⟨more, rfl⟩ : ∃ more, passes = more + 1 := ⟨passes - 1, by omega⟩
  induction free generalizing place collected more with
  | nil =>
    obtain rfl : place = 0 := trail
    have last : freePass heap (0, collected) = .leave collected := by simp [freePass]
    rw [loop_leave last, List.append_nil]
  | cons page free ih =>
    obtain ⟨rfl, behind⟩ := trail
    have nonzero := (physical place mem_cons_self).ne_zero
    have next : freePass heap (place, collected) =
        .again (heap.addr place, collected ++ [place]) := by
      simp [freePass, nonzero]
    rw [List.length_cons] at enough
    obtain ⟨fewer, rfl⟩ : ∃ fewer, more = fewer + 1 := ⟨more - 1, by omega⟩
    rw [loop_again next]
    have rest := ih behind (fun other member => physical other (mem_cons_of_mem _ member))
      (collected ++ [place]) fewer (by omega)
    rw [rest, List.append_assoc]
    rfl

theorem walk_of_trail {place passes : Nat} {pages : List Nat}
    (trail : Trail heap.addr place pages 0) (physical : ∀ page ∈ pages, IsPage page)
    (walked : loop (freePass heap) passes (place, []) = some free) : free = pages :=
  loop_unique walked (loop_freePass trail physical [] (Nat.lt_succ_self pages.length))

/-! ## Who holds a page -/

/-- The lists, the owners of allocated pages and the free list hold different
pages. -/
structure Owned (lists : Nat → List Nat) (held free : List Nat) : Prop where
  held_once : held.Nodup
  held_physical : ∀ page ∈ held, IsPage page
  held_free : ∀ page ∈ held, page ∉ free
  lists_apart : ∀ header other, header ≠ other → ∀ page ∈ lists header, page ∉ lists other
  lists_held : ∀ header, ∀ page ∈ lists header, page ∉ held
  lists_free : ∀ header, ∀ page ∈ lists header, page ∉ free

section Owned

variable {lists : Nat → List Nat} {held free : List Nat}

variable {page : Nat}

theorem Owned.hold (owned : Owned lists held free) (physical : IsPage page)
    (once : free.Nodup) (member : page ∈ free) : Owned lists (page :: held) (free.erase page) where
  held_once := nodup_cons.mpr ⟨fun inside => owned.held_free page inside member, owned.held_once⟩
  held_physical := by
    intro other inside
    rcases mem_cons.mp inside with rfl | old
    · exact physical
    · exact owned.held_physical other old
  held_free := by
    intro other inside
    rcases mem_cons.mp inside with rfl | old
    · exact once.not_mem_erase
    · exact fun left => owned.held_free other old (mem_of_mem_erase left)
  lists_apart := owned.lists_apart
  lists_held := by
    intro header other inside held
    rcases mem_cons.mp held with rfl | old
    · exact owned.lists_free header other inside member
    · exact owned.lists_held header other inside old
  lists_free := fun header other inside left =>
    owned.lists_free header other inside (mem_of_mem_erase left)

theorem Owned.release (owned : Owned lists held free) (member : page ∈ held) :
    Owned lists (held.erase page) (page :: free) where
  held_once := owned.held_once.erase page
  held_physical := fun other inside => owned.held_physical other (mem_of_mem_erase inside)
  held_free := by
    intro other inside free
    rcases mem_cons.mp free with rfl | old
    · exact owned.held_once.not_mem_erase inside
    · exact owned.held_free other (mem_of_mem_erase inside) old
  lists_apart := owned.lists_apart
  lists_held := fun header other inside held =>
    owned.lists_held header other inside (mem_of_mem_erase held)
  lists_free := by
    intro header other inside free
    rcases mem_cons.mp free with rfl | old
    · exact owned.lists_held header other inside member
    · exact owned.lists_free header other inside old

theorem Owned.grow (owned : Owned lists held free) (once : free.Nodup)
    (member : page ∈ free) (header : Nat) :
    Owned (Function.update lists header (lists header ++ [page])) held (free.erase page) := by
  have inside : ∀ other owner, owner ∈ Function.update lists header (lists header ++ [page]) other →
      owner ∈ lists other ∨ (other = header ∧ owner = page) := by
    intro other owner within
    by_cases same : other = header
    · subst same
      rw [Function.update_self] at within
      rcases List.mem_append.mp within with old | new
      · exact .inl old
      · exact .inr ⟨rfl, List.mem_singleton.mp new⟩
    · rw [Function.update_of_ne same] at within
      exact .inl within
  refine ⟨owned.held_once, owned.held_physical, ?_, ?_, ?_, ?_⟩
  · exact fun other within left => owned.held_free other within (mem_of_mem_erase left)
  · intro first second different owner left right
    rcases inside first owner left with old | ⟨rfl, rfl⟩
    · rcases inside second owner right with older | ⟨rfl, rfl⟩
      · exact owned.lists_apart first second different owner old older
      · exact owned.lists_free first owner old member
    · rcases inside second owner right with older | ⟨rfl, -⟩
      · exact owned.lists_free second owner older member
      · exact different rfl
  · intro other owner within held
    rcases inside other owner within with old | ⟨-, rfl⟩
    · exact owned.lists_held other owner old held
    · exact owned.held_free owner held member
  · intro other owner within left
    rcases inside other owner within with old | ⟨-, rfl⟩
    · exact owned.lists_free other owner old (mem_of_mem_erase left)
    · exact once.not_mem_erase left

end Owned

end Ev6.Allocator
