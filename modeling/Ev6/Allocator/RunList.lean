import Ev6.Allocator.FreeList

/-!
# The run list mirrors the free list

`Mirror` relates the free list, the run list and the node pages of the other
lists. Each call keeps it, and `init_run_list` establishes it.
-/

namespace Ev6.Allocator

open List (mem_cons_self)
open Support MList

/-- The free list consists of the pages registered on the run list, in its order,
and of `unlisted` pages behind them. -/
structure Mirror (state : State) (nodes unlisted : List Nat) : Prop where
  run : Listing state.heap state.runList (state.lists state.runList) nodes
  free : FreeList state.heap (nodes.map state.heap.addr ++ unlisted)
  others : ∀ header, header ≠ state.runList → state.lists header ≠ [] →
    ∃ nodes, Listing state.heap header (state.lists header) nodes
  owned : Owned state.lists state.held (nodes.map state.heap.addr ++ unlisted)

section Mirror

variable {state : State} {nodes unlisted : List Nat}

/-- The page that is left out is noted, and not part of the mirror. -/
theorem Mirror.note (mirror : Mirror state nodes unlisted) (tail : Option Nat) :
    Mirror { state with tail := tail } nodes unlisted :=
  ⟨mirror.run, mirror.free, mirror.others, mirror.owned⟩

theorem Mirror.node_pages (mirror : Mirror state nodes unlisted) (header : Nat) :
    ∀ page ∈ state.lists header, IsPage page := by
  intro page member
  by_cases run : header = state.runList
  · exact mirror.run.layout.physical page (run ▸ member)
  · obtain ⟨others, listing⟩ := mirror.others header run (List.ne_nil_of_mem member)
    exact listing.layout.physical page member

/-- Changes outside the pages of the free list and of the run list keep the mirror,
as long as the other lists are kept. -/
theorem Mirror.frame (mirror : Mirror state nodes unlisted) {after : Heap}
    {lists : Nat → List Nat} {held : List Nat}
    (run : ∀ page ∈ state.lists state.runList, SamePage state.heap after page)
    (free : ∀ page ∈ nodes.map state.heap.addr ++ unlisted, SamePage state.heap after page)
    (head : after.freelist = state.heap.freelist)
    (pages : lists state.runList = state.lists state.runList)
    (others : ∀ header, header ≠ state.runList → lists header ≠ [] →
      ∃ nodes, Listing after header (lists header) nodes)
    (owned : Owned lists held (nodes.map state.heap.addr ++ unlisted)) :
    Mirror { state with heap := after, lists := lists, held := held } nodes unlisted := by
  have same : nodes.map after.addr = nodes.map state.heap.addr :=
    List.map_congr_left fun node member => (same_slot run (mirror.run.inside node member)).1
  have list := mirror.free.congr free head
  have listing := mirror.run.congr run
  rw [← same] at list owned
  rw [← pages] at listing
  exact ⟨listing, list, others, owned⟩

/-- The lists other than one are kept by changes outside their pages. -/
theorem Mirror.others_congr (mirror : Mirror state nodes unlisted) {after : Heap} {header : Nat}
    (different : header ≠ state.runList) (filled : state.lists header ≠ [])
    (same : ∀ page ∈ state.lists header, SamePage state.heap after page) :
    ∃ nodes, Listing after header (state.lists header) nodes := by
  obtain ⟨nodes, listing⟩ := mirror.others header different filled
  exact ⟨nodes, listing.congr same⟩

end Mirror

/-! ## A page is taken from the free list -/

/-- `delete_memobj` on the run list returns, removes the page from the registered
ones and changes nothing outside the node pages. -/
theorem unregister_spec {heap : Heap} {runList : Nat} {pages nodes : List Nat}
    (listing : Listing heap runList pages nodes) (r : Nat) :
    ∃ after left, unregister (256 * (pages.length + 1)) runList heap r = some after ∧
      Listing after runList pages left ∧
      left = nodes.eraseP (fun node => r == heap.addr node) ∧
      left.map after.addr = (nodes.map heap.addr).erase r ∧
      (∀ other, IsPage other → other ∉ pages → SamePage heap after other) ∧
      after.freelist = heap.freelist := by
  obtain ⟨after, result, kept, addr, left, next, head⟩ :=
    listing.delete r 0 (length_nodeSlots_lt pages)
  have home := listing.layout.header_page
  have nonzero := (listing.layout.physical runList home).ne_zero
  refine ⟨after, _, ?_, kept, ?_, ?_, ?_, head⟩
  · rw [unregister, if_neg nonzero, result]
  · rw [deleteTest_zero]
  · rw [left, deleteTest_zero, ← List.erase_eq_eraseP]
  · exact fun other physical outside =>
      listing.same_delete physical outside (fun node absent => addr node (.inl absent)) next

/-- The memory after a page has been taken from the free list and from the run
list. The page is blank and nobody holds it yet. -/
structure Taken (state : State) (free : List Nat) (page : Nat) (heap : Heap)
    (nodes unlisted : List Nat) : Prop where
  run : Listing heap state.runList (state.lists state.runList) nodes
  rest : nodes.map heap.addr ++ unlisted = free.erase page
  free : FreeList heap (free.erase page)
  others : ∀ header, header ≠ state.runList → state.lists header ≠ [] →
    ∃ nodes, Listing heap header (state.lists header) nodes
  blank : BlankPage heap page

theorem Taken.length {state : State} {free nodes unlisted : List Nat} {page : Nat} {heap : Heap}
    (taken : Taken state free page heap nodes unlisted) (member : page ∈ free) :
    nodes.length + unlisted.length + 1 = free.length := by
  have filled := List.length_pos_of_mem member
  have rest := congrArg List.length taken.rest
  rw [List.length_append, List.length_map, List.length_erase_of_mem member] at rest
  omega

/-- Tests that agree on a list take the same element out of it. -/
theorem eraseP_congr {list : List Nat} {test other : Nat → Bool}
    (same : ∀ node ∈ list, test node = other node) : list.eraseP test = list.eraseP other := by
  induction list with
  | nil => rfl
  | cons node list ih =>
    have here := same node mem_cons_self
    have rest := ih fun other member => same other (List.mem_cons_of_mem node member)
    rw [List.eraseP_cons, List.eraseP_cons, here, rest]

theorem erase_append_of_nodup {front back : List Nat} (once : (front ++ back).Nodup) (page : Nat) :
    front.erase page ++ back.erase page = (front ++ back).erase page := by
  by_cases member : page ∈ front
  · have outside : page ∉ back := fun behind =>
      (List.nodup_append.mp once).2.2 page member page behind rfl
    rw [List.erase_append_left _ member, List.erase_of_not_mem outside]
  · rw [List.erase_append_right _ member, List.erase_of_not_mem member]

section Take

variable {state : State} {nodes unlisted : List Nat}

variable {heap : Heap} {page : Nat}

/-- The free list has been relinked around a page, which then is removed from the
run list. -/
theorem Mirror.take (mirror : Mirror state nodes unlisted)
    (moved : FreeList heap ((nodes.map state.heap.addr ++ unlisted).erase page))
    (member : page ∈ nodes.map state.heap.addr ++ unlisted) (blank : BlankPage heap page)
    (same : ∀ other, IsPage other → other ∉ nodes.map state.heap.addr ++ unlisted →
      SamePage state.heap heap other) :
    ∃ after left, unregister (state.passes state.runList) state.runList heap page = some after ∧
      left = nodes.eraseP (fun node => page == state.heap.addr node) ∧
      Taken state (nodes.map state.heap.addr ++ unlisted) page after left (unlisted.erase page) := by
  have physical := mirror.node_pages
  have outside : ∀ header, ∀ other ∈ state.lists header, SamePage state.heap heap other :=
    fun header other inside =>
      same other (physical header other inside) (mirror.owned.lists_free header other inside)
  have before : nodes.map heap.addr = nodes.map state.heap.addr :=
    List.map_congr_left fun node inside =>
      (same_slot (outside state.runList) (mirror.run.inside node inside)).1
  obtain ⟨after, left, result, run, erased, registered, kept, head⟩ :=
    unregister_spec (mirror.run.congr (outside state.runList)) page
  have keep : ∀ other ∈ nodes.map state.heap.addr ++ unlisted, SamePage heap after other :=
    fun other inside => kept other (mirror.free.physical other inside)
      fun within => mirror.owned.lists_free _ other within inside
  refine ⟨after, left, result, ?_, run, ?_, ?_, ?_, ?_⟩
  · rw [erased]
    exact eraseP_congr fun node inside => congrArg (page == ·)
      (same_slot (outside state.runList) (mirror.run.inside node inside)).1
  · rw [registered, before]
    exact erase_append_of_nodup mirror.free.once page
  · exact moved.congr (fun other inside => keep other (List.mem_of_mem_erase inside)) head
  · intro header different filled
    refine mirror.others_congr different filled fun other inside => ?_
    exact (outside header other inside).trans (kept other (physical header other inside)
      (mirror.owned.lists_apart header state.runList different other inside))
  · exact blank.congr (keep page member)

variable {left others : List Nat}

theorem Taken.memset (mirror : Mirror state nodes unlisted)
    (taken : Taken state (nodes.map state.heap.addr ++ unlisted) page heap left others)
    (member : page ∈ nodes.map state.heap.addr ++ unlisted) {word : Nat}
    (mark : freeMark word = true) :
    Taken state (nodes.map state.heap.addr ++ unlisted) page (heap.memset page word) left others := by
  have home := mirror.free.physical page member
  have kept : ∀ header, ∀ other ∈ state.lists header,
      SamePage heap (heap.memset page word) other := by
    intro header other inside
    refine same_memset heap word home (mirror.node_pages header other inside) ?_
    rintro rfl
    exact mirror.owned.lists_free header other inside member
  refine ⟨taken.run.congr (kept _), ?_, ?_, ?_, ?_⟩
  · rw [← taken.rest]
    refine congrArg (· ++ others) (List.map_congr_left fun node inside => ?_)
    exact (same_slot (kept _) (taken.run.inside node inside)).1
  · refine taken.free.congr (fun other inside => ?_) rfl
    refine same_memset heap word home (taken.free.physical other inside) ?_
    rintro rfl
    exact mirror.free.once.not_mem_erase inside
  · intro header different filled
    obtain ⟨nodes, listing⟩ := taken.others header different filled
    exact ⟨nodes, listing.congr (kept header)⟩
  · exact blank_memset heap ⟨page, home⟩ mark

/-- A page that has been taken is handed to an owner. -/
theorem Taken.hold (mirror : Mirror state nodes unlisted)
    (taken : Taken state (nodes.map state.heap.addr ++ unlisted) page heap left others)
    (member : page ∈ nodes.map state.heap.addr ++ unlisted) :
    Mirror { state with heap := heap, held := page :: state.held } left others := by
  have owned := mirror.owned.hold (mirror.free.physical page member) mirror.free.once member
  have list := taken.free
  rw [← taken.rest] at list owned
  exact ⟨taken.run, list, taken.others, owned⟩

/-- `kalloc` returns 0 when no page is free, and otherwise takes the first. -/
theorem Mirror.kalloc (mirror : Mirror state nodes unlisted) :
    (nodes.map state.heap.addr ++ unlisted = [] ∧ state.kalloc = some (state.heap, 0)) ∨
      ∃ page rest heap left, nodes.map state.heap.addr ++ unlisted = page :: rest ∧
        state.kalloc = some (heap, page) ∧
        left = nodes.eraseP (fun node => page == state.heap.addr node) ∧
        Taken state (page :: rest) page heap left (unlisted.erase page) ∧
        ∀ index < 256, heap.addr (nodeAt page index) = novalue := by
  cases free : nodes.map state.heap.addr ++ unlisted with
  | nil =>
    have list := mirror.free
    rw [free] at list
    have empty : state.heap.freelist = 0 := list.trail
    exact .inl ⟨rfl, by simp [State.kalloc, Allocator.kalloc, empty]⟩
  | cons page rest =>
    have list := mirror.free
    rw [free] at list
    have head := list.first
    have member : page ∈ nodes.map state.heap.addr ++ unlisted := by simp [free]
    have moved : FreeList { state.heap with freelist := state.heap.addr page }
        ((nodes.map state.heap.addr ++ unlisted).erase page) := by
      rw [free, List.erase_cons_head]
      exact list.take_first
    obtain ⟨after, left, result, erased, taken⟩ := mirror.take moved member
      (list.blank page mem_cons_self) fun _ _ _ _ _ => ⟨rfl, rfl⟩
    have filled := taken.memset mirror member (show freeMark novalue = true by decide)
    rw [free] at filled
    refine .inr ⟨page, rest, after.memset page novalue, left, rfl, ?_, erased, filled, ?_⟩
    · have nonzero := (list.physical page mem_cons_self).ne_zero
      simp only [State.kalloc, Allocator.kalloc, head, if_neg nonzero, result]
      rfl
    · intro index inside
      have within : page ≤ nodeAt page index ∧ nodeAt page index < page + pgsize := by
        rw [nodeAt_eq, pgsize_eq]
        omega
      simp only [Heap.memset, if_pos within]

/-- `my_kalloc` returns 0, or takes a page other than the one to be avoided. -/
theorem Mirror.myKalloc (mirror : Mirror state nodes unlisted) {avoid : Nat}
    (usable : avoid ≠ 0 ∨ nodes.map state.heap.addr ++ unlisted ≠ []) :
    state.myKalloc state.heap avoid = some (state.heap, 0) ∨
      ∃ page ∈ nodes.map state.heap.addr ++ unlisted, ∃ heap left, page ≠ avoid ∧
        state.myKalloc state.heap avoid = some (heap, page) ∧
        Taken state (nodes.map state.heap.addr ++ unlisted) page heap left
          (unlisted.erase page) := by
  have list := mirror.free
  cases free : nodes.map state.heap.addr ++ unlisted with
  | nil =>
    rw [free] at list
    have empty : state.heap.freelist = 0 := list.trail
    have nonzero : avoid ≠ 0 := usable.resolve_right fun filled => filled free
    exact .inl (by simp [State.myKalloc, Allocator.myKalloc, empty, Ne.symm nonzero])
  | cons first rest =>
    rw [free] at list
    have head := list.first
    have filled := (list.physical first mem_cons_self).ne_zero
    by_cases avoided : first = avoid
    · subst avoided
      cases rest with
      | nil =>
        have last : state.heap.addr first = 0 := list.trail.2
        exact .inl (by simp [State.myKalloc, Allocator.myKalloc, head, last, filled])
      | cons second behind =>
        have link : state.heap.addr first = second := list.trail.2.1
        have inside : second ∈ first :: second :: behind := by simp
        have different : first ≠ second := by
          rintro rfl
          exact (List.nodup_cons.mp list.once).1 mem_cons_self
        have moved : FreeList (state.heap.setAddr first (state.heap.addr second))
            ((nodes.map state.heap.addr ++ unlisted).erase second) := by
          rw [free, List.erase_cons_tail (by simpa using different), List.erase_cons_head]
          exact list.take_second
        have home := list.physical first mem_cons_self
        have blank : BlankPage (state.heap.setAddr first (state.heap.addr second)) second :=
          (list.blank second inside).congr
            (same_setAddr _ _ home (list.physical second inside) (Ne.symm different))
        obtain ⟨after, left, result, -, taken⟩ := mirror.take moved (free ▸ inside) blank
          fun other physical outside => by
            refine same_setAddr _ _ home physical ?_
            rintro rfl
            exact outside (by simp [free])
        rw [free] at taken
        refine .inr ⟨second, inside, after, left, Ne.symm different, ?_, taken⟩
        have positive := (list.physical second inside).ne_zero
        simp only [State.myKalloc, Allocator.myKalloc, head, if_neg filled, link,
          if_neg positive, result]
        rfl
    · have inside : first ∈ first :: rest := mem_cons_self
      have moved : FreeList { state.heap with freelist := state.heap.addr first }
          ((nodes.map state.heap.addr ++ unlisted).erase first) := by
        rw [free, List.erase_cons_head]
        exact list.take_first
      obtain ⟨after, left, result, -, taken⟩ := mirror.take moved (free ▸ inside)
        (list.blank first inside) fun _ _ _ _ _ => ⟨rfl, rfl⟩
      rw [free] at taken
      refine .inr ⟨first, inside, after, left, avoided, ?_, taken⟩
      simp only [State.myKalloc, Allocator.myKalloc, head, if_neg avoided, if_neg filled, result]
      rfl

/-- Changes to the pages of one list and to a page that has been taken leave the
other lists and the free list alone. -/
theorem Taken.elsewhere (mirror : Mirror state nodes unlisted) {after : Heap}
    {header : Nat} (member : page ∈ nodes.map state.heap.addr ++ unlisted)
    (kept : ∀ other, IsPage other → other ∉ state.lists header → other ≠ page →
      SamePage heap after other) :
    (∀ owner, owner ≠ header → ∀ other ∈ state.lists owner, SamePage heap after other) ∧
      ∀ other ∈ (nodes.map state.heap.addr ++ unlisted).erase page, SamePage heap after other := by
  constructor
  · intro owner distinct other inside
    refine kept other (mirror.node_pages owner other inside)
      (mirror.owned.lists_apart owner header distinct other inside) ?_
    rintro rfl
    exact mirror.owned.lists_free owner other inside member
  · intro other inside
    have before := List.mem_of_mem_erase inside
    refine kept other (mirror.free.physical other before)
      (fun within => mirror.owned.lists_free header other within before) ?_
    rintro rfl
    exact mirror.free.once.not_mem_erase inside

/-- A page that has been taken becomes the last node page of another list, and its
first node holds the object. -/
theorem Taken.grow (mirror : Mirror state nodes unlisted)
    (taken : Taken state (nodes.map state.heap.addr ++ unlisted) page heap left others)
    (member : page ∈ nodes.map state.heap.addr ++ unlisted) {header : Nat}
    (different : header ≠ state.runList) {front : List Nat} {final : Nat}
    (split : state.lists header = front ++ [final]) {address : Nat} (object : IsObject address) :
    Mirror
      ({ state with heap := (heap.extend (nodeAt final lastNode) page).link page address header }.grow
        header page) left others := by
  have home := mirror.free.physical page member
  have fresh : ∀ owner, page ∉ state.lists owner := fun owner inside =>
    mirror.owned.lists_free owner page inside member
  have last : final ∈ state.lists header := by simp [split]
  have filled := List.ne_nil_of_mem last
  obtain ⟨objects, listing⟩ := taken.others header different filled
  have bottom := listing.layout.physical final last
  have apart : page ≠ final := by
    rintro rfl
    exact fresh header last
  have extended := listing.extend split home (fresh header) taken.blank
  obtain ⟨slot, free⟩ := extended_slot home bottom apart taken.blank filled
  have linked := extended.link slot free object
  generalize result : (heap.extend (nodeAt final lastNode) page).link page address header = after
    at linked
  have kept : ∀ other, IsPage other → other ∉ state.lists header → other ≠ page →
      SamePage heap after other := by
    intro other physical outside distinct
    have notLast : other ≠ final := by
      rintro rfl
      exact outside last
    have grown := same_extend heap physical home bottom notLast distinct
    rw [← result]
    refine grown.trans (same_link extended.layout slot free physical ?_)
    simp [outside, distinct]
  obtain ⟨lists, rest⟩ := Taken.elsewhere mirror member kept
  have head : after.freelist = heap.freelist := by
    rw [← result]
    simp
  have same : left.map after.addr ++ others = (nodes.map state.heap.addr ++ unlisted).erase page := by
    rw [← taken.rest]
    refine congrArg (· ++ others) (List.map_congr_left fun node inside => ?_)
    exact (same_slot (lists _ (Ne.symm different)) (taken.run.inside node inside)).1
  refine ⟨?_, ?_, ?_, ?_⟩
  · change Listing after state.runList (Function.update state.lists header _ state.runList) left
    rw [Function.update_of_ne (Ne.symm different)]
    exact taken.run.congr (lists _ (Ne.symm different))
  · change FreeList after (left.map after.addr ++ others)
    rw [same]
    exact taken.free.congr rest head
  · intro owner distinct nonempty
    change Function.update state.lists header _ owner ≠ [] at nonempty
    change ∃ nodes, Listing after owner (Function.update state.lists header _ owner) nodes
    by_cases here : owner = header
    · subst here
      rw [Function.update_self]
      exact ⟨_, linked⟩
    · rw [Function.update_of_ne here] at nonempty ⊢
      obtain ⟨nodes, old⟩ := taken.others owner distinct nonempty
      exact ⟨nodes, old.congr (lists owner here)⟩
  · change Owned (Function.update state.lists header _) state.held (left.map after.addr ++ others)
    rw [same]
    exact mirror.owned.grow mirror.free.once member header

end Take

/-! ## The calls -/

section Calls

variable {state : State} {nodes unlisted : List Nat}

variable {after : Heap} {page : Nat}

/-- Whatever is stored to an allocated page, the mirror is kept. -/
theorem Mirror.write (mirror : Mirror state nodes unlisted)
    (member : page ∈ state.held) (head : after.freelist = state.heap.freelist)
    (kept : ∀ other, IsPage other → other ≠ page → SamePage state.heap after other) :
    Mirror { state with heap := after } nodes unlisted := by
  have lists : ∀ header, ∀ other ∈ state.lists header, SamePage state.heap after other := by
    intro header other inside
    refine kept other (mirror.node_pages header other inside) ?_
    rintro rfl
    exact mirror.owned.lists_held header other inside member
  have free : ∀ other ∈ nodes.map state.heap.addr ++ unlisted, SamePage state.heap after other := by
    intro other inside
    refine kept other (mirror.free.physical other inside) ?_
    rintro rfl
    exact mirror.owned.held_free other member inside
  exact mirror.frame (lists _) free head rfl
    (fun header different filled => mirror.others_congr different filled (lists header))
    mirror.owned

/-- A blank page of an owner is registered and put in front of the free list. -/
theorem Mirror.give (mirror : Mirror state nodes unlisted) {registered : Heap}
    (member : page ∈ state.held) (blank : BlankPage state.heap page)
    (result : registerMemobj (fun _ _ => none) (state.passes state.runList) state.heap page
      state.runList = some registered) : ∃ node, Mirror { state with
        heap := { registered.setAddr page registered.freelist with freelist := page }
        held := state.held.erase page } (node :: nodes) unlisted := by
  have home := mirror.owned.held_physical page member
  have fresh := mirror.owned.held_free page member
  have layout := mirror.run.layout
  have enough := length_nodeSlots_lt (state.lists state.runList)
  obtain ⟨front, final, split⟩ := layout.split
  cases found : (nodeSlots (state.lists state.runList)).find? (stopsAt state.heap page) with
  | none =>
    rw [State.passes, layout.register_full split enough found] at result
    cases result
  | some node =>
    obtain ⟨slot, ⟨free, -⟩ | ⟨-, inside, holds⟩⟩ := mirror.run.stop found
    · rw [State.passes, layout.register_free enough found free] at result
      cases result
      have listing := mirror.run.link slot free (IsObject.of_isPage home)
      have addresses : (node :: nodes).map (state.heap.link node page state.runList).addr = _ :=
        mirror.run.link_addresses free
      generalize linked : state.heap.link node page state.runList = heap at listing addresses
      have apart : ∀ other, IsPage other → other ∉ state.lists state.runList →
          SamePage state.heap heap other := by
        intro other physical outside
        rw [← linked]
        exact same_link layout slot free physical outside
      have head : heap.freelist = state.heap.freelist := by
        rw [← linked]
        exact link_freelist _ _ _ _
      have unheld : ∀ header, ∀ other ∈ state.lists header, other ≠ page := by
        rintro header other inside rfl
        exact mirror.owned.lists_held header other inside member
      have pushed : ∀ other, IsPage other → other ≠ page →
          SamePage heap { heap.setAddr page heap.freelist with freelist := page } other :=
        fun other physical different => same_setAddr heap _ home physical different
      have lists : ∀ header, ∀ other ∈ state.lists header,
          SamePage heap { heap.setAddr page heap.freelist with freelist := page } other :=
        fun header other inside =>
          pushed other (mirror.node_pages header other inside) (unheld header other inside)
      have list : FreeList heap (nodes.map state.heap.addr ++ unlisted) :=
        mirror.free.congr (fun other inside => apart other (mirror.free.physical other inside)
          fun within => mirror.owned.lists_free _ other within inside) head
      have here : page ∉ state.lists state.runList := fun within => unheld _ page within rfl
      have given := list.give home fresh (blank.congr (apart page home here))
      have both : (node :: nodes).map (heap.setAddr page heap.freelist).addr =
          page :: nodes.map state.heap.addr := by
        rw [← addresses]
        exact List.map_congr_left fun other inside =>
          (same_slot (lists _) (listing.inside other inside)).1
      have owned := mirror.owned.release member
      refine ⟨node, listing.congr (lists _), ?_, ?_, ?_⟩
      · change FreeList _ ((node :: nodes).map (heap.setAddr page heap.freelist).addr ++ unlisted)
        rw [both]
        exact given
      · intro header different filled
        obtain ⟨others, old⟩ := mirror.others header different filled
        refine ⟨others, old.congr fun other inside => ?_⟩
        have distinct := mirror.owned.lists_apart header state.runList different other inside
        exact (apart other (mirror.node_pages header other inside) distinct).trans
          (lists header other inside)
      · change Owned _ _ ((node :: nodes).map (heap.setAddr page heap.freelist).addr ++ unlisted)
        rw [both]
        exact owned
    · refine absurd ?_ fresh
      exact List.mem_append_left _ (List.mem_map.mpr ⟨node, inside, holds⟩)

/-- `kfree` of an allocated page that returns has put it in front of both lists. -/
theorem Mirror.kfree (mirror : Mirror state nodes unlisted) (member : page ∈ state.held)
    (result : Allocator.kfree (state.passes state.runList) state.kernelEnd state.runList state.heap
      page = some after) :
    ∃ node, Mirror { state with heap := after, held := state.held.erase page } (node :: nodes)
      unlisted := by
  have home := mirror.owned.held_physical page member
  have run := (mirror.run.layout.physical _ mirror.run.layout.header_page).ne_zero
  have junk : Mirror { state with heap := state.heap.memset page emptyMark } nodes unlisted :=
    mirror.write member rfl fun other physical different =>
      same_memset state.heap emptyMark home physical different
  have blank : BlankPage (state.heap.memset page emptyMark) page :=
    blank_memset state.heap ⟨page, home⟩ (by decide)
  simp only [Allocator.kfree, if_neg run] at result
  split_ifs at result with panics
  obtain ⟨registered, register, rfl⟩ := Option.map_eq_some_iff.mp result
  exact junk.give member blank register

theorem Mirror.relist (mirror : Mirror state nodes unlisted) {header : Nat}
    {others : List Nat} (different : header ≠ state.runList)
    (listing : Listing after header (state.lists header) others)
    (head : after.freelist = state.heap.freelist)
    (kept : ∀ other, IsPage other → other ∉ state.lists header → SamePage state.heap after other) :
    Mirror { state with heap := after } nodes unlisted := by
  have lists : ∀ owner, owner ≠ header → ∀ other ∈ state.lists owner,
      SamePage state.heap after other := fun owner apart other inside =>
    kept other (mirror.node_pages owner other inside)
      (mirror.owned.lists_apart owner header apart other inside)
  have free : ∀ other ∈ nodes.map state.heap.addr ++ unlisted, SamePage state.heap after other :=
    fun other inside => kept other (mirror.free.physical other inside)
      fun within => mirror.owned.lists_free header other within inside
  refine mirror.frame (lists state.runList (Ne.symm different)) free head rfl ?_ mirror.owned
  intro owner apart filled
  by_cases same : owner = header
  · exact ⟨others, same ▸ listing⟩
  · exact mirror.others_congr apart filled (lists owner same)

end Calls

end Ev6.Allocator
