import Ev6.MList.Nodes
import Ev6.Support.Bits

/-!
# The node pages of a list

The pages of a list are scanned from the node behind the header to the last node
of the last page. `loop_registerPass` says which node a registration finds.
-/

namespace Ev6.MList

open List (length_cons mem_append mem_append_left mem_cons_of_mem mem_cons_self nodup_append)
open Function (update update_apply update_of_ne)
open Support

/-- A node of a page. -/
def nodeAt (page index : Nat) : Nat := page + nodeSize * index

/-- The index of the last node of a page. -/
def lastNode : Nat := 255

/-- The nodes of a page from one index on, without the last. -/
def pageNodes (first page : Nat) : List Nat :=
  (List.range' first (lastNode - first)).map (nodeAt page)

/-- The nodes of a list that can hold objects, in the order of the scan. -/
def nodeSlots : List Nat → List Nat
  | [] => []
  | header :: rest => pageNodes 1 header ++ rest.flatMap (pageNodes 0)

/-- The last node of each page leads to the next page, and that of the last page
does not. -/
def Threaded (heap : Heap) : List Nat → Prop
  | [] => True
  | [page] => heap.addr (nodeAt page lastNode) ≠ 0
  | page :: next :: rest =>
    (heap.addr (nodeAt page lastNode) = 0 ∧ heap.next (nodeAt page lastNode) = next) ∧
    Threaded heap (next :: rest)

/-- The pages of a list, scanned from its header. -/
structure NodePages (heap : Heap) (header : Nat) (pages : List Nat) : Prop where
  first : pages.head? = some header
  physical : ∀ page ∈ pages, IsPage page
  once : pages.Nodup
  threaded : Threaded heap pages
  nonzero : ∀ node ∈ nodeSlots pages, heap.addr node ≠ 0

variable {heap : Heap}

theorem Threaded.final {front : List Nat} {final : Nat}
    (threaded : Threaded heap (front ++ [final])) : heap.addr (nodeAt final lastNode) ≠ 0 := by
  induction front with
  | nil => exact threaded
  | cons page front ih =>
    cases front with
    | nil => exact threaded.2
    | cons next rest => exact ih threaded.2

variable {after : Heap} {pages : List Nat}

/-- The links between the pages depend on the last nodes only. -/
theorem Threaded.congr (threaded : Threaded heap pages)
    (addr : ∀ page ∈ pages, after.addr (nodeAt page lastNode) = heap.addr (nodeAt page lastNode))
    (next : ∀ page ∈ pages, after.next (nodeAt page lastNode) = heap.next (nodeAt page lastNode)) :
    Threaded after pages := by
  induction pages with
  | nil => trivial
  | cons page pages ih =>
    have addrHere := addr page mem_cons_self
    have nextHere := next page mem_cons_self
    have addrBehind := fun other member => addr other (mem_cons_of_mem page member)
    have nextBehind := fun other member => next other (mem_cons_of_mem page member)
    cases pages with
    | nil =>
      change after.addr (nodeAt page lastNode) ≠ 0
      rw [addrHere]
      exact threaded
    | cons following rest =>
      obtain ⟨⟨zero, link⟩, behind⟩ := threaded
      exact ⟨⟨addrHere.trans zero, nextHere.trans link⟩, ih behind addrBehind nextBehind⟩

variable {page : Nat}

theorem Threaded.extend {front : List Nat} {final : Nat}
    (threaded : Threaded heap (front ++ [final]))
    (addr : ∀ page ∈ front, after.addr (nodeAt page lastNode) = heap.addr (nodeAt page lastNode))
    (next : ∀ page ∈ front, after.next (nodeAt page lastNode) = heap.next (nodeAt page lastNode))
    (zero : after.addr (nodeAt final lastNode) = 0)
    (link : after.next (nodeAt final lastNode) = page)
    (nonzero : after.addr (nodeAt page lastNode) ≠ 0) :
    Threaded after (front ++ [final, page]) := by
  induction front with
  | nil => exact ⟨⟨zero, link⟩, nonzero⟩
  | cons first front ih =>
    have addrHere := addr first mem_cons_self
    have nextHere := next first mem_cons_self
    have addrBehind := fun other member => addr other (mem_cons_of_mem first member)
    have nextBehind := fun other member => next other (mem_cons_of_mem first member)
    cases front with
    | nil =>
      obtain ⟨⟨old, hop⟩, -⟩ := threaded
      exact ⟨⟨addrHere.trans old, nextHere.trans hop⟩, ⟨zero, link⟩, nonzero⟩
    | cons following rest =>
      obtain ⟨⟨old, hop⟩, behind⟩ := threaded
      exact ⟨⟨addrHere.trans old, nextHere.trans hop⟩, ih behind addrBehind nextBehind⟩

/-! ## Addresses of nodes -/

theorem nodeAt_eq (page index : Nat) : nodeAt page index = page + 16 * index := rfl

theorem lastNode_eq : lastNode = 255 := rfl

variable {node : Nat}

theorem mem_pageNodes {first : Nat} :
    node ∈ pageNodes first page ↔ ∃ index, first ≤ index ∧ index < lastNode ∧
      node = nodeAt page index := by
  simp only [pageNodes, List.mem_map, List.mem_range'_1]
  constructor
  · rintro ⟨index, ⟨low, high⟩, rfl⟩
    exact ⟨index, low, by omega, rfl⟩
  · rintro ⟨index, low, high, rfl⟩
    exact ⟨index, ⟨low, by omega⟩, rfl⟩

/-- Every slot is a node of one of the pages, and not its last. -/
theorem mem_nodeSlots (member : node ∈ nodeSlots pages) :
    ∃ page ∈ pages, ∃ index < lastNode, node = nodeAt page index := by
  cases pages with
  | nil => cases member
  | cons header rest =>
    rcases mem_append.mp member with first | later
    · obtain ⟨index, -, high, same⟩ := mem_pageNodes.mp first
      exact ⟨header, mem_cons_self, index, high, same⟩
    · obtain ⟨page, within, place⟩ := List.mem_flatMap.mp later
      obtain ⟨index, -, high, same⟩ := mem_pageNodes.mp place
      exact ⟨page, mem_cons_of_mem header within, index, high, same⟩

variable {index other : Nat}

theorem nodeAt_inj {position : Nat} (physical : IsPage page)
    (second : IsPage other) (inside : index < 256) (below : position < 256) :
    nodeAt page index = nodeAt other position ↔ page = other ∧ index = position := by
  have bounds := physical.bounds
  have others := second.bounds
  rw [nodeAt_eq, nodeAt_eq]
  omega

theorem offset_nodeAt (physical : IsPage page) (inside : index < 256) :
    nodeAt page index &&& 0xfff = 16 * index := by
  have bounds := physical.bounds
  have mask : (0xfff : Nat) = 2 ^ 12 - 1 := by decide
  rw [mask, Nat.and_two_pow_sub_one_eq_mod, nodeAt_eq]
  omega

/-- Slots of the pages are slots of the longer list. -/
theorem nodeSlots_append (nonempty : pages ≠ []) (page : Nat) :
    nodeSlots (pages ++ [page]) = nodeSlots pages ++ pageNodes 0 page := by
  cases pages with
  | nil => exact absurd rfl nonempty
  | cons header rest => simp [nodeSlots]

theorem nodup_pageNodes (first page : Nat) : (pageNodes first page).Nodup := by
  refine List.Nodup.map ?_ (List.nodup_range')
  intro index position same
  simp only [nodeAt_eq] at same
  omega

theorem nodup_nodeSlots (physical : ∀ page ∈ pages, IsPage page)
    (once : pages.Nodup) : (nodeSlots pages).Nodup := by
  induction pages using List.reverseRecOn with
  | nil => exact List.nodup_nil
  | append_singleton pages page ih =>
    by_cases empty : pages = []
    · subst empty
      simpa [nodeSlots] using nodup_pageNodes 1 page
    · rw [nodeSlots_append empty]
      obtain ⟨front, -, apart⟩ := nodup_append.mp once
      have slots := ih (fun other member => physical other (mem_append_left _ member)) front
      refine nodup_append.mpr ⟨slots, nodup_pageNodes 0 page, ?_⟩
      rintro node member other place rfl
      obtain ⟨owner, within, index, high, rfl⟩ := mem_nodeSlots member
      obtain ⟨position, -, below, same⟩ := mem_pageNodes.mp place
      rw [lastNode_eq] at high below
      have inside := (nodeAt_inj (physical owner (mem_append_left _ within))
        (physical page (by simp)) (by omega) (by omega)).mp same
      exact apart owner within page (List.mem_singleton_self page) inside.1

/-- The last node of every page and the first one of the list are no slots. -/
theorem length_nodeSlots (member : page ∈ pages) :
    (nodeSlots pages).length + 1 = lastNode * pages.length := by
  have row : ∀ first page, (pageNodes first page).length = lastNode - first := by
    intro first page
    simp [pageNodes]
  have rows : ∀ rest : List Nat, (rest.flatMap (pageNodes 0)).length = lastNode * rest.length := by
    intro rest
    induction rest with
    | nil => rfl
    | cons page rest ih =>
      rw [List.flatMap_cons, List.length_append, row, ih, length_cons, lastNode_eq]
      omega
  cases pages with
  | nil => cases member
  | cons header rest =>
    rw [nodeSlots, List.length_append, row, rows, length_cons, lastNode_eq]
    omega

/-- A list has fewer slots than the passes its loops are given. -/
theorem length_nodeSlots_lt (pages : List Nat) :
    (nodeSlots pages).length < 256 * (pages.length + 1) := by
  cases pages with
  | nil => simp [nodeSlots]
  | cons header rest =>
    have slots := length_nodeSlots (show header ∈ header :: rest from mem_cons_self)
    rw [lastNode_eq, length_cons] at slots
    rw [length_cons]
    omega

/-- A node of another page does not lie in the new page. -/
theorem slot_outside {page : Page}
    (physical : ∀ other ∈ pages, IsPage other) (fresh : page.val ∉ pages)
    (slot : node ∈ nodeSlots pages) (inside : index < 256) : nodeAt page index ≠ node := by
  obtain ⟨owner, member, position, below, rfl⟩ := mem_nodeSlots slot
  rw [lastNode_eq] at below
  intro same
  have equal := (nodeAt_inj page.property (physical owner member) inside (by omega)).mp same
  exact fresh (equal.1 ▸ member)

/-! ## Changes that keep the pages -/

/-- The nodes of a page are the same in two memories. -/
def SamePage (heap after : Heap) (page : Nat) : Prop :=
  ∀ index < 256, after.addr (nodeAt page index) = heap.addr (nodeAt page index) ∧
    after.next (nodeAt page index) = heap.next (nodeAt page index)

theorem SamePage.trans {first second third : Heap}
    (left : SamePage first second page) (right : SamePage second third page) :
    SamePage first third page := fun index inside =>
  ⟨(right index inside).1.trans (left index inside).1,
    (right index inside).2.trans (left index inside).2⟩

/-- The slots of pages that are the same hold the same. -/
theorem same_slot
    (same : ∀ page ∈ pages, SamePage heap after page) (slot : node ∈ nodeSlots pages) :
    after.addr node = heap.addr node ∧ after.next node = heap.next node := by
  obtain ⟨page, member, index, inside, rfl⟩ := mem_nodeSlots slot
  exact same page member index (Nat.lt_succ_of_lt inside)

variable {header : Nat}

/-- The pages of a list depend on their nodes only. -/
theorem NodePages.congr
    (layout : NodePages heap header pages) (same : ∀ page ∈ pages, SamePage heap after page) :
    NodePages after header pages where
  first := layout.first
  physical := layout.physical
  once := layout.once
  threaded := layout.threaded.congr
    (fun page member => (same page member lastNode (by decide)).1)
    (fun page member => (same page member lastNode (by decide)).2)
  nonzero := by
    intro node slot
    rw [(same_slot same slot).1]
    exact layout.nonzero node slot

theorem NodePages.header_page (layout : NodePages heap header pages) : header ∈ pages :=
  List.mem_of_mem_head? layout.first

theorem NodePages.split
    (layout : NodePages heap header pages) : ∃ front final, pages = front ++ [final] := by
  have nonempty : pages ≠ [] := by
    rintro rfl
    exact absurd layout.first (by simp)
  exact ⟨_, _, (List.dropLast_append_getLast nonempty).symm⟩

theorem slot_ne_last (physical : ∀ page ∈ pages, IsPage page)
    (slot : node ∈ nodeSlots pages) (other : IsPage page) : nodeAt page lastNode ≠ node := by
  obtain ⟨owner, member, index, inside, rfl⟩ := mem_nodeSlots slot
  intro same
  rw [lastNode_eq] at inside same
  have equal := (nodeAt_inj other (physical owner member) (by omega) (by omega)).mp same
  omega

theorem header_ne_last (physical : IsPage header) (other : IsPage page) :
    nodeAt page lastNode ≠ header := by
  have bounds := physical.bounds
  have others := other.bounds
  rw [nodeAt_eq, lastNode_eq]
  omega

theorem NodePages.header_not_slot
    (layout : NodePages heap header pages) : header ∉ nodeSlots pages := by
  obtain ⟨first, physical, once, -, -⟩ := layout
  cases pages with
  | nil => cases first
  | cons page rest =>
    obtain rfl : page = header := Option.some.inj first
    have home := physical page mem_cons_self
    intro member
    rcases mem_append.mp member with here | later
    · obtain ⟨index, low, high, same⟩ := mem_pageNodes.mp here
      rw [nodeAt_eq] at same
      omega
    · obtain ⟨owner, within, place⟩ := List.mem_flatMap.mp later
      obtain ⟨index, -, high, same⟩ := mem_pageNodes.mp place
      have start : nodeAt page 0 = nodeAt owner index := same
      rw [lastNode_eq] at high
      have equal := (nodeAt_inj home (physical owner (mem_cons_of_mem page within))
        (by decide) (by omega)).mp start
      exact (List.nodup_cons.mp once).1 (equal.1 ▸ within)

/-- Changes at slots that leave no zero there, and changes of links at slots and
the header, keep the pages. -/
theorem NodePages.store (layout : NodePages heap header pages)
    (nonzero : ∀ node ∈ nodeSlots pages, after.addr node ≠ 0)
    (addr : ∀ node ∉ nodeSlots pages, after.addr node = heap.addr node)
    (next : ∀ node ∉ nodeSlots pages, node ≠ header → after.next node = heap.next node) :
    NodePages after header pages where
  first := layout.first
  physical := layout.physical
  once := layout.once
  threaded := by
    have outside : ∀ page ∈ pages, nodeAt page lastNode ∉ nodeSlots pages :=
      fun page member slot => slot_ne_last layout.physical slot (layout.physical page member) rfl
    refine layout.threaded.congr (fun page member => addr _ (outside page member))
      (fun page member => next _ (outside page member) ?_)
    exact header_ne_last (layout.physical header layout.header_page) (layout.physical page member)
  nonzero := nonzero

/-- Changes at the slots and at the header change no page outside the list. -/
theorem NodePages.same_outside (layout : NodePages heap header pages) (physical : IsPage other)
    (outside : other ∉ pages) (addr : ∀ node ∉ nodeSlots pages, after.addr node = heap.addr node)
    (next : ∀ node ∉ nodeSlots pages, node ≠ header → after.next node = heap.next node) :
    SamePage heap after other := by
  intro index inside
  have notSlot : nodeAt other index ∉ nodeSlots pages := by
    intro slot
    obtain ⟨owner, member, position, below, same⟩ := mem_nodeSlots slot
    rw [lastNode_eq] at below
    have equal := (nodeAt_inj physical (layout.physical owner member) inside (by omega)).mp same
    exact outside (equal.1 ▸ member)
  have notHeader : nodeAt other index ≠ header := by
    intro same
    have start : nodeAt other index = nodeAt header 0 := same
    have home := layout.header_page
    have equal := (nodeAt_inj physical (layout.physical header home) inside (by decide)).mp start
    exact outside (equal.1 ▸ home)
  exact ⟨addr _ notSlot, next _ notSlot notHeader⟩

/-- A page whose nodes are all free, apart from its first word. -/
def BlankPage (heap : Heap) (page : Nat) : Prop :=
  ∀ index < 256, index ≠ 0 → freeMark (heap.addr (nodeAt page index)) = true

theorem BlankPage.congr (blank : BlankPage heap page)
    (same : SamePage heap after page) : BlankPage after page := by
  intro index inside nonzero
  rw [(same index inside).1]
  exact blank index inside nonzero

theorem same_memset (heap : Heap) (word : Nat) (physical : IsPage page)
    (second : IsPage other) (different : other ≠ page) :
    SamePage heap (heap.memset page word) other := by
  intro index inside
  have bounds := physical.bounds
  have others := second.bounds
  have apart : ¬(page ≤ nodeAt other index ∧ nodeAt other index < page + pgsize) := by
    rw [nodeAt_eq, pgsize_eq]
    omega
  simp [Heap.memset, apart]

theorem blank_memset (heap : Heap) (page : Page) {word : Nat} (mark : freeMark word = true) :
    BlankPage (heap.memset page word) page := by
  intro index inside _
  have within : page.val ≤ nodeAt page index ∧ nodeAt page index < page.val + pgsize := by
    rw [nodeAt_eq, pgsize_eq]
    omega
  simp only [Heap.memset, if_pos within]
  exact mark

/-- A store to the first word of a page changes no other page. -/
theorem same_setAddr (heap : Heap) (value : Nat) (physical : IsPage page)
    (second : IsPage other) (different : other ≠ page) :
    SamePage heap (heap.setAddr page value) other := by
  intro index inside
  have apart : nodeAt other index ≠ page := by
    intro same
    have start : nodeAt other index = nodeAt page 0 := same
    exact different ((nodeAt_inj second physical inside (by decide)).mp start).1
  simp [Heap.setAddr, update_of_ne apart]

/-- The first word of a page is no matter for its being blank. -/
theorem BlankPage.setAddr (blank : BlankPage heap page) (value : Nat) :
    BlankPage (heap.setAddr page value) page := by
  intro index inside nonzero
  have apart : nodeAt page index ≠ page := by
    rw [nodeAt_eq]
    omega
  simp only [Heap.setAddr, update_of_ne apart]
  exact blank index inside nonzero

theorem freeMark_ne_zero {addr : Nat} (free : freeMark addr = true) : addr ≠ 0 := by
  rintro rfl
  revert free
  decide

section Extend

variable {heap : Heap} {header page final : Nat} {pages front : List Nat}

theorem extend_addr (heap : Heap) (rnode page node : Nat) :
    (heap.extend rnode page).addr node =
      if node = rnode then 0 else if node = page then emptyMark else heap.addr node := by
  by_cases last : node = rnode <;> by_cases new : node = page <;>
    simp [Heap.extend, Heap.setAddr, Heap.setNext, update_apply, last, new]

theorem extend_next (heap : Heap) (rnode page node : Nat) :
    (heap.extend rnode page).next node = if node = rnode then page else heap.next node := by
  simp [Heap.extend, Heap.setAddr, Heap.setNext, update_apply]

@[simp] theorem extend_freelist (heap : Heap) (rnode page : Nat) :
    (heap.extend rnode page).freelist = heap.freelist := rfl

/-- After the extension every node of the new page is free. -/
theorem extend_blank (blank : BlankPage heap page) (physical : IsPage page) (last : IsPage final)
    (different : page ≠ final) {index : Nat} (inside : index < 256) :
    freeMark ((heap.extend (nodeAt final lastNode) page).addr (nodeAt page index)) = true := by
  have apart : nodeAt page index ≠ nodeAt final lastNode := by
    intro same
    exact different ((nodeAt_inj physical last inside (by decide)).mp same).1
  rw [extend_addr, if_neg apart]
  by_cases first : nodeAt page index = page
  · rw [if_pos first]
    decide
  · rw [if_neg first]
    refine blank index inside ?_
    rintro rfl
    exact first rfl

/-- The other nodes of the pages so far keep their address. -/
theorem extend_old (physical : ∀ other ∈ pages, IsPage other) (fresh : page ∉ pages)
    (page_physical : IsPage page) (last : IsPage final) {other index : Nat}
    (member : other ∈ pages) (inside : index < 256) (apart : ¬(other = final ∧ index = lastNode)) :
    (heap.extend (nodeAt final lastNode) page).addr (nodeAt other index) =
      heap.addr (nodeAt other index) := by
  have notLast : nodeAt other index ≠ nodeAt final lastNode := fun same =>
    apart ((nodeAt_inj (physical other member) last inside (by decide)).mp same)
  have notNew : nodeAt other index ≠ page := by
    intro same
    have start : nodeAt other index = nodeAt page 0 := same
    have equal := (nodeAt_inj (physical other member) page_physical inside (by decide)).mp start
    exact fresh (equal.1 ▸ member)
  rw [extend_addr, if_neg notLast, if_neg notNew]

/-- The slots of the pages so far keep their address. -/
theorem extend_slot (physical : ∀ other ∈ pages, IsPage other) (fresh : page ∉ pages)
    (page_physical : IsPage page) (last : IsPage final) {node : Nat}
    (slot : node ∈ nodeSlots pages) :
    (heap.extend (nodeAt final lastNode) page).addr node = heap.addr node := by
  obtain ⟨owner, member, index, inside, rfl⟩ := mem_nodeSlots slot
  rw [lastNode_eq] at inside
  refine extend_old physical fresh page_physical last member (by omega) ?_
  rintro ⟨-, rfl⟩
  rw [lastNode_eq] at inside
  omega

/-- A blank page behind the last one adds its slots. -/
theorem NodePages.extend (layout : NodePages heap header pages) (split : pages = front ++ [final])
    (physical : IsPage page) (fresh : page ∉ pages) (blank : BlankPage heap page) :
    NodePages (heap.extend (nodeAt final lastNode) page) header (pages ++ [page]) := by
  have known := layout.physical
  have last : final ∈ pages := by simp [split]
  have different : page ≠ final := by
    rintro rfl
    exact fresh last
  refine ⟨?_, ?_, ?_, ?_, ?_⟩
  · rw [List.head?_append, layout.first]
    rfl
  · intro other member
    rcases mem_append.mp member with old | new
    · exact known other old
    · exact List.mem_singleton.mp new ▸ physical
  · rw [← List.concat_eq_append]
    exact layout.once.concat fresh
  · rw [split, List.append_assoc]
    have threaded := layout.threaded
    have once := layout.once
    rw [split] at threaded once
    have notLast : final ∉ front := by
      have apart := (nodup_append.mp once).2.2
      exact fun member => apart final member final (List.mem_singleton_self final) rfl
    have inner : ∀ other ∈ front, nodeAt other lastNode ≠ nodeAt final lastNode := by
      intro other member same
      have owner := known other (split ▸ mem_append_left _ member)
      have equal := (nodeAt_inj owner (known final last) (by decide) (by decide)).mp same
      exact notLast (equal.1 ▸ member)
    refine threaded.extend (fun other member => ?_) (fun other member => ?_) ?_ ?_ ?_
    · have old : other ∈ pages := split ▸ mem_append_left _ member
      refine extend_old known fresh physical (known final last) old (by decide) ?_
      rintro ⟨rfl, -⟩
      exact notLast member
    · rw [extend_next, if_neg (inner other member)]
    · rw [extend_addr, if_pos rfl]
    · rw [extend_next, if_pos rfl]
    · exact freeMark_ne_zero
        (extend_blank blank physical (known final last) different (by decide))
  · intro node member
    rw [nodeSlots_append (List.ne_nil_of_mem last)] at member
    rcases mem_append.mp member with old | added
    · rw [extend_slot known fresh physical (known final last) old]
      exact layout.nonzero node old
    · obtain ⟨index, -, inside, rfl⟩ := mem_pageNodes.mp added
      rw [lastNode_eq] at inside
      exact freeMark_ne_zero
        (extend_blank blank physical (known final last) different (by omega))

/-- The extension changes no page but the last one and the new one. -/
theorem same_extend (heap : Heap) {other : Nat} (physical : IsPage other) (page_physical : IsPage page)
    (last : IsPage final) (different : other ≠ final) (apart : other ≠ page) :
    SamePage heap (heap.extend (nodeAt final lastNode) page) other := by
  intro index inside
  have notLast : nodeAt other index ≠ nodeAt final lastNode := fun same =>
    different ((nodeAt_inj physical last inside (by decide)).mp same).1
  have notNew : nodeAt other index ≠ page := by
    intro same
    have start : nodeAt other index = nodeAt page 0 := same
    exact apart ((nodeAt_inj physical page_physical inside (by decide)).mp start).1
  rw [extend_addr, extend_next, if_neg notLast, if_neg notNew, if_neg notLast]
  exact ⟨rfl, rfl⟩

end Extend

section Link

variable {heap : Heap} {header node address : Nat} {pages : List Nat}

theorem link_addr (free : freeMark (heap.addr node) = true) :
    (heap.link node address header).addr = update heap.addr node address := by
  simp [Heap.link, free, Heap.setAddr, Heap.setNext]

theorem link_next (free : freeMark (heap.addr node) = true) : (heap.link node address header).next =
      update (update heap.next node (heap.next header)) header node := by
  simp [Heap.link, free, Heap.setAddr, Heap.setNext]

@[simp] theorem link_freelist (heap : Heap) (node address header : Nat) :
    (heap.link node address header).freelist = heap.freelist := by
  rw [Heap.link]
  split <;> rfl

theorem NodePages.link (layout : NodePages heap header pages) (slot : node ∈ nodeSlots pages)
    (free : freeMark (heap.addr node) = true) (nonzero : address ≠ 0) :
    NodePages (heap.link node address header) header pages := by
  refine layout.store (fun other member => ?_) (fun other outside => ?_)
    (fun other outside notHeader => ?_)
  · rw [link_addr free]
    by_cases same : other = node
    · subst same
      simpa using nonzero
    · rw [update_of_ne same]
      exact layout.nonzero other member
  · rw [link_addr free, update_of_ne]
    rintro rfl
    exact outside slot
  · rw [link_next free, update_of_ne notHeader, update_of_ne]
    rintro rfl
    exact outside slot

/-- Linking changes no other page than those of the list. -/
theorem same_link (layout : NodePages heap header pages) (slot : node ∈ nodeSlots pages)
    (free : freeMark (heap.addr node) = true) {other : Nat} (physical : IsPage other)
    (outside : other ∉ pages) : SamePage heap (heap.link node address header) other := by
  refine layout.same_outside physical outside (fun place absent => ?_) (fun place absent apart => ?_)
  · have different : place ≠ node := fun same => absent (same ▸ slot)
    rw [link_addr free, update_of_ne different]
  · have different : place ≠ node := fun same => absent (same ▸ slot)
    rw [link_next free, update_of_ne apart, update_of_ne different]

end Link

/-! ## The scan of a registration -/

/-- The scan stops at a node that is free or holds the address. -/
def stopsAt (heap : Heap) (address node : Nat) : Bool :=
  freeMark (heap.addr node) || heap.addr node = address

/-- What a scan that stops at a node ends with. -/
def foundAt (heap : Heap) (node : Nat) : Found :=
  if freeMark (heap.addr node) then .free node else .exists

section Scan

variable {heap : Heap} {address : Nat}

variable {node : Nat}

theorem registerPass_slot (nonzero : heap.addr node ≠ 0) (inner : node &&& 0xfff ≠ 0xff0) :
    registerPass heap address node = if stopsAt heap address node then .leave (foundAt heap node)
      else .again (node + nodeSize) := by
  simp only [registerPass, if_neg nonzero, if_neg inner, stopsAt, foundAt]
  by_cases free : freeMark (heap.addr node) = true
  · simp [free]
  · by_cases same : heap.addr node = address
    · subst same
      simp [free]
    · simp [free, same]

/-- At the last node of an inner page the scan goes on at the next page. -/
theorem registerPass_hop {next : Nat} (zero : heap.addr node = 0)
    (link : heap.next node = next) (nonzero : heap.addr next ≠ 0) :
    registerPass heap address node = registerPass heap address next := by
  simp [registerPass, zero, link, nonzero]

theorem registerPass_full (nonzero : heap.addr node ≠ 0) (last : node &&& 0xfff = 0xff0) :
    registerPass heap address node = .leave (.full node) := by
  simp [registerPass, nonzero, last]

variable {page : Nat}

theorem route_nodes (heap : Heap) (address : Nat) (physical : IsPage page) (first count : Nat)
    (inside : first + count ≤ lastNode) (nonzero : ∀ index, first ≤ index → index < first + count →
      heap.addr (nodeAt page index) ≠ 0) :
    Route (registerPass heap address) (stopsAt heap address) (foundAt heap)
      ((List.range' first count).map (nodeAt page)) (nodeAt page (first + count)) := by
  induction count generalizing first with
  | zero => trivial
  | succ count ih =>
    rw [List.range'_succ, List.map_cons]
    have rest := ih (first + 1) (by omega) fun index low high =>
      nonzero index (by omega) (by omega)
    rw [Nat.add_assoc, Nat.add_comm 1] at rest
    refine ⟨?_, rest⟩
    have inner : nodeAt page first &&& 0xfff ≠ 0xff0 := by
      rw [lastNode_eq] at inside
      rw [offset_nodeAt physical (by omega)]
      omega
    have next : ((List.range' (first + 1) count).map (nodeAt page)).headD
        (nodeAt page (first + (count + 1))) = nodeAt page first + nodeSize := by
      cases count with
      | zero => rfl
      | succ count => rfl
    rw [registerPass_slot (nonzero first (Nat.le_refl _) (by omega)) inner, next]
    by_cases hit : stopsAt heap address (nodeAt page first) = true
    · simp [hit]
    · simp [hit]

theorem route_pageNodes (heap : Heap) (address : Nat) {first : Nat} (physical : IsPage page) (start : first ≤ lastNode)
    (nonzero : ∀ node ∈ pageNodes first page, heap.addr node ≠ 0) :
    Route (registerPass heap address) (stopsAt heap address) (foundAt heap)
      (pageNodes first page) (nodeAt page lastNode) := by
  have nodes := route_nodes heap address physical first (lastNode - first)
    (by omega) fun index low high => nonzero _ (mem_pageNodes.mpr ⟨index, low, by omega, rfl⟩)
  rwa [Nat.add_sub_cancel' start] at nodes

/-- The scan of the later pages, up to the last node of the last one. -/
theorem route_later (heap : Heap) (address : Nat) {rest : List Nat} (first : Nat) (start : first < lastNode)
    (physical : ∀ other ∈ page :: rest, IsPage other) (threaded : Threaded heap (page :: rest))
    (nonzero : ∀ node ∈ pageNodes first page ++ rest.flatMap (pageNodes 0), heap.addr node ≠ 0) :
    Route (registerPass heap address) (stopsAt heap address) (foundAt heap)
      (pageNodes first page ++ rest.flatMap (pageNodes 0))
      (nodeAt ((page :: rest).getLast (List.cons_ne_nil _ _)) lastNode) := by
  induction rest generalizing page first with
  | nil =>
    simp only [List.flatMap_nil, List.append_nil] at nonzero ⊢
    exact route_pageNodes heap address (physical page mem_cons_self) (Nat.le_of_lt start)
      nonzero
  | cons next rest ih =>
    obtain ⟨⟨zero, link⟩, behind⟩ := threaded
    rw [List.flatMap_cons] at nonzero ⊢
    have here := route_pageNodes heap address (physical page mem_cons_self)
      (Nat.le_of_lt start) fun node member => nonzero node (mem_append_left _ member)
    have later := ih 0 (by decide) (fun other member =>
        physical other (mem_cons_of_mem page member)) behind
      fun node member => nonzero node (List.mem_append_right _ member)
    have filled : heap.addr next ≠ 0 := by
      refine nonzero next (List.mem_append_right _ (mem_append_left _ ?_))
      exact mem_pageNodes.mpr ⟨0, Nat.le_refl _, by decide, rfl⟩
    exact here.append later (registerPass_hop zero link filled)

/-- The scan of a list: it stops at the first slot that is free or holds the
address, and otherwise at the last node of the last page. -/
theorem loop_registerPass (address : Nat) {header final : Nat} {pages front : List Nat}
    (node_pages : NodePages heap header pages) (split : pages = front ++ [final]) {passes : Nat}
    (enough : (nodeSlots pages).length < passes) :
    loop (registerPass heap address) passes (header + nodeSize) =
      match (nodeSlots pages).find? (stopsAt heap address) with
      | some node => some (foundAt heap node)
      | none => some (.full (nodeAt final lastNode)) := by
  obtain ⟨rest, rfl⟩ : ∃ rest, pages = header :: rest := by
    have first := node_pages.first
    cases pages with
    | nil => cases first
    | cons page rest =>
      obtain rfl : page = header := Option.some.inj first
      exact ⟨rest, rfl⟩
  have last : (header :: rest).getLast (List.cons_ne_nil _ _) = final := by
    simp [split]
  have route := route_later heap address 1 (by decide) node_pages.physical
    node_pages.threaded node_pages.nonzero
  rw [last] at route
  cases found : (nodeSlots (header :: rest)).find? (stopsAt heap address) with
  | some node => exact loop_route_hit route found (Nat.le_of_lt enough)
  | none =>
    have missed : ∀ node ∈ nodeSlots (header :: rest), stopsAt heap address node = false := by
      simpa using found
    obtain ⟨more, rfl⟩ : ∃ more, passes = more + 1 + (nodeSlots (header :: rest)).length :=
      ⟨passes - 1 - (nodeSlots (header :: rest)).length, by omega⟩
    have walk := loop_route_none route missed (more + 1)
    have threaded := node_pages.threaded
    have physical := node_pages.physical final
    rw [split] at threaded physical
    have last : nodeAt final lastNode &&& 0xfff = 0xff0 :=
      offset_nodeAt (physical (by simp)) (by decide)
    rw [loop_leave (registerPass_full threaded.final last)] at walk
    exact walk

end Scan

end Ev6.MList
