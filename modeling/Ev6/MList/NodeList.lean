import Ev6.MList.NodePages
import Ev6.Support.Trail
import Mathlib.Data.List.Perm.Subperm

/-!
# A list of memory objects

`Listing` relates the memory to the nodes of a list in the order of its ring.
The three changes that `register_memobj` and `delete_memobj` make to the memory
keep it: a free node is linked in front, a page is added behind the last one,
and a node is unlinked.
-/

namespace Ev6.MList

open List (cons_ne_nil length_cons map_cons mem_append mem_cons nodup_cons nodup_middle)
open Function (update update_of_ne update_self)
open Support

/-- The nodes of a list, in the order of its ring: they lie in slots of its
pages and hold objects, and the other slots are free. -/
structure Listing (heap : Heap) (header : Nat) (pages nodes : List Nat) : Prop where
  layout : NodePages heap header pages
  ring : Ring heap.next header nodes
  inside : ∀ node ∈ nodes, node ∈ nodeSlots pages
  used : ∀ node ∈ nodes, freeMark (heap.addr node) = false
  unused : ∀ node ∈ nodeSlots pages, node ∉ nodes → freeMark (heap.addr node) = true

/-- An address that can be registered: neither zero nor one of the marks. -/
def IsObject (address : Nat) : Prop := address ≠ 0 ∧ freeMark address = false

instance (address : Nat) : Decidable (IsObject address) := by
  unfold IsObject
  infer_instance

theorem IsObject.of_isPage {page : Nat} (physical : IsPage page) : IsObject page := by
  have bounds := physical.bounds
  have marks : page ≠ emptyMark ∧ page ≠ novalue := by
    simp only [emptyMark, novalue]
    omega
  exact ⟨physical.ne_zero, by simp [freeMark, marks]⟩

theorem Listing.header_not_mem {heap : Heap} {header : Nat} {pages nodes : List Nat}
    (listing : Listing heap header pages nodes) : header ∉ nodes := fun member =>
  listing.layout.header_not_slot (listing.inside header member)

/-- A listing depends on the nodes of its pages only. -/
theorem Listing.congr {heap after : Heap} {header : Nat} {pages nodes : List Nat}
    (listing : Listing heap header pages nodes) (same : ∀ page ∈ pages, SamePage heap after page) :
    Listing after header pages nodes where
  layout := listing.layout.congr same
  ring := by
    refine listing.ring.congr fun node member => ?_
    rcases mem_cons.mp member with rfl | inside
    · exact (same node listing.layout.header_page 0 (by decide)).2
    · exact (same_slot same (listing.inside node inside)).2
  inside := listing.inside
  used := by
    intro node member
    rw [(same_slot same (listing.inside node member)).1]
    exact listing.used node member
  unused := by
    intro node slot outside
    rw [(same_slot same slot).1]
    exact listing.unused node slot outside

/-! ## A free node is linked in front -/

section Link

variable {heap : Heap} {header node address : Nat} {pages nodes : List Nat}

theorem Listing.not_mem_of_free (listing : Listing heap header pages nodes)
    (free : freeMark (heap.addr node) = true) : node ∉ nodes := by
  intro member
  rw [listing.used node member] at free
  cases free

/-- Linking a free slot puts it in front of the list. -/
theorem Listing.link (listing : Listing heap header pages nodes) (slot : node ∈ nodeSlots pages)
    (free : freeMark (heap.addr node) = true) (object : IsObject address) :
    Listing (heap.link node address header) header pages (node :: nodes) := by
  have header_ne : node ≠ header := by
    rintro rfl
    exact listing.layout.header_not_slot slot
  have outside := listing.not_mem_of_free free
  refine ⟨listing.layout.link slot free object.1, ?_, ?_, ?_, ?_⟩
  · refine listing.ring.push (by simp [header_ne, outside]) ?_ ?_ ?_
    · intro other member
      have apart : other ≠ header := by
        rintro rfl
        exact listing.header_not_mem member
      have different : other ≠ node := by
        rintro rfl
        exact outside member
      rw [link_next free, update_of_ne apart, update_of_ne different]
    · rw [link_next free, update_self]
    · rw [link_next free, update_of_ne header_ne, update_self]
  · intro other member
    rcases mem_cons.mp member with rfl | old
    · exact slot
    · exact listing.inside other old
  · intro other member
    rw [link_addr free]
    by_cases same : other = node
    · subst same
      simpa using object.2
    · rw [update_of_ne same]
      exact listing.used other ((mem_cons.mp member).resolve_left same)
  · intro other member absent
    obtain ⟨different, old⟩ : other ≠ node ∧ other ∉ nodes := by simpa using absent
    rw [link_addr free, update_of_ne different]
    exact listing.unused other member old

theorem Listing.link_addresses (listing : Listing heap header pages nodes)
    (free : freeMark (heap.addr node) = true) :
    (node :: nodes).map (heap.link node address header).addr = address :: nodes.map heap.addr := by
  have outside := listing.not_mem_of_free free
  rw [map_cons, link_addr free, update_self]
  refine congrArg _ (List.map_congr_left fun other member => update_of_ne ?_ _ _)
  rintro rfl
  exact outside member

end Link

/-! ## A node behind the last one -/

section LinkBehind

variable {heap : Heap} {header node place address : Nat} {pages nodes front : List Nat}

theorem linkBehind_addr (heap : Heap) (node address place : Nat) :
    (heap.linkBehind node address place).addr = update heap.addr node address := rfl

theorem linkBehind_next (heap : Heap) (node address place : Nat) :
    (heap.linkBehind node address place).next =
      update (update heap.next node (heap.next place)) place node := rfl

/-- A free slot is linked behind the last node of the list. -/
theorem Listing.linkBehind (listing : Listing heap header pages nodes)
    (slot : node ∈ nodeSlots pages) (free : freeMark (heap.addr node) = true)
    (object : IsObject address) (split : header :: nodes = front ++ [place]) :
    Listing (heap.linkBehind node address place) header pages (nodes ++ [node]) := by
  have outside := listing.not_mem_of_free free
  have header_ne : node ≠ header := by
    rintro rfl
    exact listing.layout.header_not_slot slot
  have within : place ∈ header :: nodes := split ▸ by simp
  have place_ne : node ≠ place := by
    rintro rfl
    rcases mem_cons.mp within with same | inside
    · exact header_ne same
    · exact outside inside
  have place_slot : place = header ∨ place ∈ nodeSlots pages :=
    (mem_cons.mp within).imp id (listing.inside place)
  refine ⟨?_, ?_, ?_, ?_, ?_⟩
  · refine listing.layout.store (fun other member => ?_) (fun other absent => ?_)
      (fun other absent notHeader => ?_)
    · rw [linkBehind_addr]
      by_cases same : other = node
      · rw [same, update_self]
        exact object.1
      · rw [update_of_ne same]
        exact listing.layout.nonzero other member
    · rw [linkBehind_addr, update_of_ne]
      rintro rfl
      exact absent slot
    · have apart : other ≠ place := by
        rintro rfl
        exact place_slot.elim notHeader absent
      have different : other ≠ node := by
        rintro rfl
        exact absent slot
      rw [linkBehind_next, update_of_ne apart, update_of_ne different]
  · refine listing.ring.append split (by simp [header_ne, outside]) (fun other member => ?_) ?_ ?_
    · have once := listing.ring.once
      rw [split] at once
      have apart : other ≠ place := by
        rintro rfl
        exact (List.nodup_append.mp once).2.2 other member other (List.mem_singleton_self other) rfl
      have different : other ≠ node := by
        rintro rfl
        have inside : other ∈ header :: nodes := split ▸ List.mem_append_left _ member
        rcases mem_cons.mp inside with same | old
        · exact header_ne same
        · exact outside old
      rw [linkBehind_next, update_of_ne apart, update_of_ne different]
    · rw [linkBehind_next, update_self]
    · rw [linkBehind_next, update_of_ne place_ne, update_self]
      exact listing.ring.next_last split
  · intro other member
    rcases mem_append.mp member with old | new
    · exact listing.inside other old
    · exact List.mem_singleton.mp new ▸ slot
  · intro other member
    rw [linkBehind_addr]
    by_cases same : other = node
    · rw [same, update_self]
      exact object.2
    · rw [update_of_ne same]
      refine listing.used other ?_
      simpa [same] using member
  · intro other member absent
    obtain ⟨old, different⟩ : other ∉ nodes ∧ other ≠ node := by simpa using absent
    rw [linkBehind_addr, update_of_ne different]
    exact listing.unused other member old

theorem Listing.linkBehind_addresses (listing : Listing heap header pages nodes)
    (free : freeMark (heap.addr node) = true) (address place : Nat) :
    (nodes ++ [node]).map (heap.linkBehind node address place).addr =
      nodes.map heap.addr ++ [address] := by
  have outside := listing.not_mem_of_free free
  rw [List.map_append, linkBehind_addr]
  have here : [node].map (update heap.addr node address) = [address] := by simp
  rw [here]
  refine congrArg (· ++ [address]) (List.map_congr_left fun other member => ?_)
  refine update_of_ne ?_ _ _
  rintro rfl
  exact outside member

theorem Listing.same_linkBehind (listing : Listing heap header pages nodes)
    (slot : node ∈ nodeSlots pages) (split : header :: nodes = front ++ [place])
    {other : Nat} (physical : IsPage other) (absent : other ∉ pages) :
    SamePage heap (heap.linkBehind node address place) other := by
  have within : place ∈ header :: nodes := split ▸ by simp
  refine listing.layout.same_outside physical absent (fun owner outside => ?_)
    (fun owner outside apart => ?_)
  · have different : owner ≠ node := fun same => outside (same ▸ slot)
    rw [linkBehind_addr, update_of_ne different]
  · have different : owner ≠ node := fun same => outside (same ▸ slot)
    have away : owner ≠ place := by
      rintro rfl
      exact (mem_cons.mp within).elim apart fun inside =>
        outside (listing.inside owner inside)
    rw [linkBehind_next, update_of_ne away, update_of_ne different]

end LinkBehind

/-! ## A page is added -/

section Extend

variable {heap : Heap} {header page final : Nat} {pages front nodes : List Nat}

theorem Listing.extend (listing : Listing heap header pages nodes)
    (split : pages = front ++ [final]) (physical : IsPage page) (fresh : page ∉ pages)
    (blank : BlankPage heap page) :
    Listing (heap.extend (nodeAt final lastNode) page) header (pages ++ [page]) nodes := by
  have known := listing.layout.physical
  have last : final ∈ pages := by simp [split]
  have different : page ≠ final := by
    rintro rfl
    exact fresh last
  have nonempty : pages ≠ [] := List.ne_nil_of_mem last
  have kept : ∀ node ∈ nodeSlots pages,
      (heap.extend (nodeAt final lastNode) page).addr node = heap.addr node :=
    fun node slot => extend_slot known fresh physical (known final last) slot
  have unlinked : ∀ node ∈ header :: nodes, node ≠ nodeAt final lastNode := by
    rintro node member rfl
    rcases mem_cons.mp member with same | inside
    · exact header_ne_last (known header listing.layout.header_page) (known final last) same
    · exact slot_ne_last known (listing.inside _ inside) (known final last) rfl
  refine ⟨listing.layout.extend split physical fresh blank, ?_, ?_, ?_, ?_⟩
  · refine listing.ring.congr fun node member => ?_
    rw [extend_next, if_neg (unlinked node member)]
  · intro node member
    rw [nodeSlots_append nonempty]
    exact List.mem_append_left _ (listing.inside node member)
  · intro node member
    rw [kept node (listing.inside node member)]
    exact listing.used node member
  · intro node member absent
    rw [nodeSlots_append nonempty] at member
    rcases mem_append.mp member with old | added
    · rw [kept node old]
      exact listing.unused node old absent
    · obtain ⟨index, -, inside, rfl⟩ := mem_pageNodes.mp added
      rw [lastNode_eq] at inside
      exact extend_blank blank physical (known final last) different (by omega)

/-- The first node of a page that was added is a free slot. -/
theorem extended_slot (physical : IsPage page) (last : IsPage final) (different : page ≠ final)
    (blank : BlankPage heap page) (nonempty : pages ≠ []) :
    page ∈ nodeSlots (pages ++ [page]) ∧
      freeMark ((heap.extend (nodeAt final lastNode) page).addr page) = true := by
  have start : nodeAt page 0 = page := rfl
  have free : freeMark ((heap.extend (nodeAt final lastNode) page).addr (nodeAt page 0)) = true :=
    extend_blank blank physical last different (by decide)
  rw [start] at free
  refine ⟨?_, free⟩
  rw [nodeSlots_append nonempty]
  exact List.mem_append_right _ (mem_pageNodes.mpr ⟨0, Nat.le_refl _, by decide, rfl⟩)

end Extend

/-! ## A node is taken out -/

section Unlink

variable {heap : Heap} {header place node : Nat} {pages before behind front : List Nat}

theorem unlink_addr (link : heap.next place = node) :
    (heap.unlink place).addr = update heap.addr node emptyMark := by
  simp [Heap.unlink, Heap.setAddr, Heap.setNext, link]

theorem unlink_next (link : heap.next place = node) : (heap.unlink place).next =
      update (update heap.next place (heap.next node)) node emptyMark := by
  simp [Heap.unlink, Heap.setAddr, Heap.setNext, link]

theorem Listing.link_of_split (listing : Listing heap header pages (before ++ node :: behind))
    (split : header :: before = front ++ [place]) : heap.next place = node := by
  have trail := listing.ring.trail
  rw [← List.cons_append, split, List.append_assoc] at trail
  obtain ⟨middle, -, rest⟩ := trail_append.mp trail
  exact rest.2.1

/-- Unlinking a node frees its slot and keeps the order of the others. -/
theorem Listing.unlink (listing : Listing heap header pages (before ++ node :: behind))
    (split : header :: before = front ++ [place]) :
    Listing (heap.unlink place) header pages (before ++ behind) := by
  have once := listing.ring.once
  rw [← List.cons_append, split] at once
  obtain ⟨nodeOnce, others⟩ := nodup_cons.mp (nodup_middle.mp once)
  rw [List.append_assoc] at nodeOnce others
  obtain ⟨placeOnce, -⟩ := nodup_cons.mp (nodup_middle.mp others)
  have link := listing.link_of_split split
  have slot := listing.inside node (by simp)
  have place_ne : place ≠ node := by
    rintro rfl
    exact nodeOnce (by simp)
  have place_slot : place = header ∨ place ∈ nodeSlots pages := by
    have within : place ∈ header :: before := split ▸ by simp
    rcases mem_cons.mp within with same | inside
    · exact .inl same
    · exact .inr (listing.inside place (by simp [inside]))
  have kept : ∀ other, other ≠ node → (heap.unlink place).addr other = heap.addr other := by
    intro other different
    rw [unlink_addr link, update_of_ne different]
  refine ⟨?_, ?_, ?_, ?_, ?_⟩
  · refine listing.layout.store (fun other member => ?_) (fun other outside => ?_)
      (fun other outside notHeader => ?_)
    · rw [unlink_addr link]
      by_cases same : other = node
      · rw [same, update_self]
        decide
      · rw [update_of_ne same]
        exact listing.layout.nonzero other member
    · refine kept other ?_
      rintro rfl
      exact outside slot
    · have different : other ≠ node := by
        rintro rfl
        exact outside slot
      have apart : other ≠ place := by
        rintro rfl
        rcases place_slot with same | inside
        · exact notHeader same
        · exact outside inside
      rw [unlink_next link, update_of_ne different, update_of_ne apart]
  · refine listing.ring.remove split (fun other member => ?_) ?_
    · have apart : other ≠ place := by
        rintro rfl
        exact placeOnce member
      have different : other ≠ node := by
        rintro rfl
        refine nodeOnce ?_
        simp only [mem_append, mem_cons] at member ⊢
        tauto
      rw [unlink_next link, update_of_ne different, update_of_ne apart]
    · rw [unlink_next link, update_of_ne place_ne, update_self]
  · intro other member
    refine listing.inside other ?_
    simp only [mem_append, mem_cons] at member ⊢
    tauto
  · intro other member
    have different : other ≠ node := by
      rintro rfl
      refine nodeOnce ?_
      rw [← List.append_assoc, ← split]
      exact List.mem_cons_of_mem header member
    rw [kept other different]
    refine listing.used other ?_
    simp only [mem_append, mem_cons] at member ⊢
    tauto
  · intro other member absent
    rw [unlink_addr link]
    by_cases same : other = node
    · rw [same, update_self]
      decide
    · rw [update_of_ne same]
      refine listing.unused other member ?_
      simp only [mem_append, mem_cons, not_or] at absent ⊢
      tauto

end Unlink

/-! ## The loops along the ring -/

section Ring

variable {heap : Heap} {header place : Nat} {nodes : List Nat}

/-- A walk collects the addresses of the nodes behind its place. -/
theorem loop_walkPass (trail : Trail heap.next (heap.next place) nodes header)
    (outside : header ∉ nodes) (collected : List Nat) {passes : Nat}
    (enough : nodes.length < passes) :
    loop (walkPass heap header) passes (place, collected) =
      some (collected ++ nodes.map heap.addr) := by
  obtain ⟨more, rfl⟩ : ∃ more, passes = more + 1 := ⟨passes - 1, by omega⟩
  induction nodes generalizing place collected more with
  | nil =>
    have last : walkPass heap header (place, collected) = .leave collected := by
      simp [walkPass, trail_nil.mp trail]
    rw [loop_leave last, List.map_nil, List.append_nil]
  | cons node nodes ih =>
    obtain ⟨link, behind⟩ := trail
    obtain ⟨different, later⟩ : header ≠ node ∧ header ∉ nodes := by simpa using outside
    have next : walkPass heap header (place, collected) =
        .again (node, collected ++ [heap.addr node]) := by
      simp [walkPass, link, Ne.symm different]
    rw [length_cons] at enough
    obtain ⟨fewer, rfl⟩ : ∃ fewer, more = fewer + 1 := ⟨more - 1, by omega⟩
    rw [loop_again next, ih behind later _ _ (by omega), map_cons, List.append_assoc]
    rfl

variable {address size : Nat}

/-- A deletion that meets no node of its address changes nothing. -/
theorem loop_deletePass_none (trail : Trail heap.next (heap.next place) nodes header)
    (outside : header ∉ nodes)
    (missed : ∀ node ∈ nodes, deleteTest address size (heap.addr node) = false) {passes : Nat}
    (enough : nodes.length < passes) :
    loop (deletePass heap address header size) passes place = some heap := by
  obtain ⟨more, rfl⟩ : ∃ more, passes = more + 1 := ⟨passes - 1, by omega⟩
  induction nodes generalizing place more with
  | nil =>
    have last : deletePass heap address header size place = .leave heap := by
      simp [deletePass, trail_nil.mp trail]
    exact loop_leave last more
  | cons node nodes ih =>
    obtain ⟨link, behind⟩ := trail
    obtain ⟨different, later⟩ : header ≠ node ∧ header ∉ nodes := by simpa using outside
    have next : deletePass heap address header size place = .again node := by
      simp [deletePass, link, Ne.symm different, missed node List.mem_cons_self]
    rw [length_cons] at enough
    obtain ⟨fewer, rfl⟩ : ∃ fewer, more = fewer + 1 := ⟨more - 1, by omega⟩
    rw [loop_again next]
    exact ih behind later (fun other member => missed other (List.mem_cons_of_mem node member))
      _ (by omega)

/-- A deletion unlinks the first node that its test selects. -/
theorem loop_deletePass_hit {before behind : List Nat} {node : Nat}
    (trail : Trail heap.next (heap.next place) (before ++ node :: behind) header)
    (outside : header ∉ before ++ node :: behind)
    (missed : ∀ other ∈ before, deleteTest address size (heap.addr other) = false)
    (hit : deleteTest address size (heap.addr node) = true) {passes : Nat}
    (enough : before.length < passes) :
    loop (deletePass heap address header size) passes place =
      some (heap.unlink ((place :: before).getLast (cons_ne_nil _ _))) := by
  obtain ⟨more, rfl⟩ : ∃ more, passes = more + 1 := ⟨passes - 1, by omega⟩
  induction before generalizing place more with
  | nil =>
    obtain ⟨link, -⟩ := trail
    have different : node ≠ header := by
      rintro rfl
      exact outside (by simp)
    have last : deletePass heap address header size place = .leave (heap.unlink place) := by
      simp [deletePass, link, different, hit]
    exact loop_leave last more
  | cons first before ih =>
    obtain ⟨link, rest⟩ := trail
    obtain ⟨different, later⟩ : header ≠ first ∧ header ∉ before ++ node :: behind := by
      simpa using outside
    have next : deletePass heap address header size place = .again first := by
      simp [deletePass, link, Ne.symm different, missed first List.mem_cons_self]
    rw [length_cons] at enough
    obtain ⟨fewer, rfl⟩ : ∃ fewer, more = fewer + 1 := ⟨more - 1, by omega⟩
    rw [loop_again next]
    have walked := ih rest later
      (fun other member => missed other (List.mem_cons_of_mem first member)) fewer (by omega)
    rw [walked, List.getLast_cons (cons_ne_nil _ _)]

end Ring

theorem deleteTest_zero (address : Nat) : deleteTest address 0 = (address == ·) := by
  funext addr
  by_cases same : address = addr
  · simp [deleteTest, same]
  · simp [deleteTest, same, Ne.symm same]

/-! ## The operations -/

section Operations

variable {heap : Heap} {header : Nat} {pages nodes : List Nat}

theorem Listing.length_le (listing : Listing heap header pages nodes) :
    nodes.length ≤ (nodeSlots pages).length :=
  (List.subperm_of_subset (nodup_cons.mp listing.ring.once).2 listing.inside).length_le

/-- A walk lists the addresses of the nodes and returns to the header. -/
theorem Listing.walk (listing : Listing heap header pages nodes) {passes : Nat}
    (enough : (nodeSlots pages).length < passes) :
    walkList passes heap header = some (nodes.map heap.addr) := by
  have short := listing.length_le
  exact loop_walkPass listing.ring.trail.2 listing.header_not_mem [] (by omega)

/-- `delete_memobj` returns, takes out the first node that its test selects, and
changes no other address, and no link outside the list. -/
theorem Listing.delete (listing : Listing heap header pages nodes) (address size : Nat)
    {passes : Nat} (enough : (nodeSlots pages).length < passes) :
    ∃ after, deleteMemobj passes heap address header size = some after ∧
      Listing after header pages
        (nodes.eraseP fun node => deleteTest address size (heap.addr node)) ∧
      (∀ node, node ∉ nodes ∨ deleteTest address size (heap.addr node) = false →
        after.addr node = heap.addr node) ∧
      (nodes.eraseP fun node => deleteTest address size (heap.addr node)).map after.addr =
        (nodes.map heap.addr).eraseP (deleteTest address size) ∧
      (∀ node ∉ header :: nodes, after.next node = heap.next node) ∧
      after.freelist = heap.freelist := by
  have short := listing.length_le
  let test := fun node => deleteTest address size (heap.addr node)
  cases found : nodes.find? test with
  | none =>
    have missed : ∀ node ∈ nodes, deleteTest address size (heap.addr node) = false := by
      simpa using found
    refine ⟨heap, loop_deletePass_none listing.ring.trail.2 listing.header_not_mem missed
      (by omega), ?_, fun _ _ => rfl, ?_, fun _ _ => rfl, rfl⟩
    · rw [List.eraseP_of_forall_not (by simpa using missed)]
      exact listing
    · rw [List.eraseP_map]
      rfl
  | some node =>
    obtain ⟨hit, before, behind, rfl, skipped⟩ := List.find?_eq_some_iff_append.mp found
    have missed : ∀ other ∈ before, deleteTest address size (heap.addr other) = false := by
      intro other member
      simpa using skipped other member
    have fewer : before.length < passes := by
      rw [List.length_append, length_cons] at short
      omega
    have walked :=
      loop_deletePass_hit listing.ring.trail.2 listing.header_not_mem missed hit fewer
    have split : header :: before = (header :: before).dropLast ++
        [(header :: before).getLast (cons_ne_nil _ _)] :=
      (List.dropLast_append_getLast _).symm
    have erased : (before ++ node :: behind).eraseP test = before ++ behind := by
      rw [List.eraseP_append_right _ (by simpa using missed), List.eraseP_cons_of_pos hit]
    generalize (header :: before).getLast (cons_ne_nil _ _) = place at walked split
    have link := listing.link_of_split split
    have once := (nodup_cons.mp listing.ring.once).2
    refine ⟨_, walked, ?_, ?_, ?_, ?_, ?_⟩
    · rw [erased]
      exact listing.unlink split
    · intro other kept
      rw [unlink_addr link, update_of_ne]
      rintro rfl
      rcases kept with outside | other_test
      · exact outside (by simp)
      · have selected : deleteTest address size (heap.addr other) = true := hit
        rw [other_test] at selected
        cases selected
    · rw [List.eraseP_map]
      refine List.map_congr_left fun other member => ?_
      rw [erased] at member
      rw [unlink_addr link, update_of_ne]
      rintro rfl
      exact (nodup_cons.mp (nodup_middle.mp once)).1 member
    · intro other outside
      have different : other ≠ node := by
        rintro rfl
        exact outside (by simp)
      have apart : other ≠ place := by
        rintro rfl
        refine outside ?_
        rw [← List.cons_append, split]
        simp
      rw [unlink_next link, update_of_ne different, update_of_ne apart]
    · rfl

theorem Listing.same_delete (listing : Listing heap header pages nodes) {after : Heap} {other : Nat}
    (physical : IsPage other) (outside : other ∉ pages)
    (addr : ∀ node ∉ nodes, after.addr node = heap.addr node)
    (next : ∀ node ∉ header :: nodes, after.next node = heap.next node) :
    SamePage heap after other := by
  have absent : ∀ node ∉ nodeSlots pages, node ∉ nodes := fun node outside member =>
    outside (listing.inside node member)
  refine listing.layout.same_outside physical outside
    (fun node slot => addr node (absent node slot)) (fun node slot apart => next node ?_)
  simp [apart, absent node slot]

variable {address passes : Nat} {myKalloc : Heap → Nat → Option (Heap × Nat)}

/-- A registration whose scan meets a free slot first links it in front. -/
theorem NodePages.register_free {node : Nat} (layout : NodePages heap header pages)
    (enough : (nodeSlots pages).length < passes)
    (found : (nodeSlots pages).find? (stopsAt heap address) = some node)
    (free : freeMark (heap.addr node) = true) :
    registerMemobj myKalloc passes heap address header = some (heap.link node address header) := by
  obtain ⟨front, final, split⟩ := layout.split
  rw [registerMemobj, loop_registerPass address layout split enough, found]
  simp [foundAt, free]

/-- A registration whose scan meets the address first changes nothing. -/
theorem NodePages.register_exists {node : Nat} (layout : NodePages heap header pages)
    (enough : (nodeSlots pages).length < passes)
    (found : (nodeSlots pages).find? (stopsAt heap address) = some node)
    (busy : freeMark (heap.addr node) = false) :
    registerMemobj myKalloc passes heap address header = some heap := by
  obtain ⟨front, final, split⟩ := layout.split
  rw [registerMemobj, loop_registerPass address layout split enough, found]
  simp [foundAt, busy]

/-- A registration in full pages takes a page from `myKalloc`. -/
theorem NodePages.register_full {front : List Nat} {final : Nat}
    (layout : NodePages heap header pages) (split : pages = front ++ [final])
    (enough : (nodeSlots pages).length < passes)
    (missed : (nodeSlots pages).find? (stopsAt heap address) = none) :
    registerMemobj myKalloc passes heap address header =
      match myKalloc heap address with
      | none => none
      | some (taken, page) =>
        if page = 0 then none
        else some ((taken.extend (nodeAt final lastNode) page).link page address header) := by
  have scan := loop_registerPass address layout split enough
  rw [missed] at scan
  cases given : myKalloc heap address with
  | none => simp [registerMemobj, scan, given]
  | some answer => simp [registerMemobj, scan, given]

/-- A slot that stops the scan is free and outside the list, or a node that holds
the address. -/
theorem Listing.stop {node : Nat} (listing : Listing heap header pages nodes)
    (found : (nodeSlots pages).find? (stopsAt heap address) = some node) :
    node ∈ nodeSlots pages ∧
      (freeMark (heap.addr node) = true ∧ node ∉ nodes ∨
        freeMark (heap.addr node) = false ∧ node ∈ nodes ∧ heap.addr node = address) := by
  have slot := List.mem_of_find?_eq_some found
  have stops := List.find?_some found
  refine ⟨slot, ?_⟩
  cases free : freeMark (heap.addr node) with
  | true =>
    refine .inl ⟨rfl, fun member => ?_⟩
    rw [listing.used node member] at free
    cases free
  | false =>
    refine .inr ⟨rfl, ?_, ?_⟩
    · by_contra outside
      rw [listing.unused node slot outside] at free
      cases free
    · simpa [stopsAt, free] using stops

theorem Listing.not_registered (listing : Listing heap header pages nodes)
    (missed : (nodeSlots pages).find? (stopsAt heap address) = none) :
    address ∉ nodes.map heap.addr := by
  intro member
  obtain ⟨node, inside, same⟩ := List.mem_map.mp member
  have passed := List.find?_eq_none.mp missed node (listing.inside node inside)
  simp [stopsAt, same] at passed

end Operations

end Ev6.MList
