import Ev6.Allocator.MirrorRun

/-!
# Recovery of `struct kmem`

`recovery_handler_kmem` takes the first page of the run list for a new `struct kmem`
and rebuilds the free list from the run list. It steps one node too far:
`kmem_never_recovered` says that the free list is wrong afterwards, wherever in
`kalloc` or `kfree` the error was met. The words of the page that becomes `struct kmem`
are not modelled, apart from `freelist`.
-/

namespace Ev6.Allocator

open Option (bind_eq_some_iff map_eq_some_iff)
open List (mem_cons mem_cons_of_mem mem_cons_self nodup_cons)
open Support MList

/-- Where a process meets the error in `struct kmem`. -/
inductive Site where
  /-- `kalloc`, up to the store to `kmem->freelist`. -/
  | kallocTake
  /-- `kalloc` releases the lock. -/
  | kallocRelease
  /-- `kfree` acquires the lock. -/
  | kfreeAcquire (page : Nat)
  /-- `kfree` registers the page, and the run list needs another page. -/
  | kfreeRegister (page : Nat)
  /-- `kfree` reads `kmem->freelist`. -/
  | kfreeRead (page : Nat)
  /-- `kfree` writes `kmem->freelist`. -/
  | kfreeStore (page : Nat)
  /-- `kfree` releases the lock. -/
  | kfreeRelease (page : Nat)

namespace Site

/-- The page that an interrupted `kfree` was returning. -/
def returning : Site → Option Nat
  | kallocTake | kallocRelease => none
  | kfreeAcquire page | kfreeRegister page | kfreeRead page | kfreeStore page
  | kfreeRelease page => some page

/-- `log_run`, when the process is inside a run transaction. -/
def logRun : Site → Option Nat
  | kfreeRegister page | kfreeRead page | kfreeStore page => some page
  | _ => none

end Site

/-- The entrance of `kfree`: it panics at an address that is no page, and fills the page. -/
def kfreeEntrance (state : State) (page : Nat) : Option Heap :=
  if page % pgsize ≠ 0 ∨ page < state.kernelEnd ∨ phystop ≤ page then none
  else some (state.heap.memset page emptyMark)

/-- `register_memobj` under `kmem->lock`: `my_kalloc` would acquire it again and panic. -/
def registerLocked (state : State) (heap : Heap) (address header : Nat) : Option Heap :=
  registerMemobj (fun _ _ => none) (state.passes header) heap address header

/-- The memory at the error. -/
def Site.heap (state : State) : Site → Option Heap
  | kallocTake => some state.heap
  | kallocRelease =>
    let r := state.heap.freelist
    if r = 0 then some state.heap
    else
      unregister (state.passes state.runList) state.runList
        { state.heap with freelist := state.heap.addr r } r
  | kfreeAcquire page => kfreeEntrance state page
  | kfreeRegister page =>
    (kfreeEntrance state page).bind fun heap =>
      match loop (registerPass heap page) (state.passes state.runList)
          (state.runList + nodeSize) with
      | some (.full _) => some heap
      | _ => none
  | kfreeRead page =>
    (kfreeEntrance state page).bind fun heap => registerLocked state heap page state.runList
  | kfreeStore page =>
    (kfreeEntrance state page).bind fun heap =>
      (registerLocked state heap page state.runList).map fun heap =>
        heap.setAddr page heap.freelist
  | kfreeRelease page =>
    Allocator.kfree (state.passes state.runList) state.kernelEnd state.runList state.heap page

/-- The lists that hold `struct kmem` and its lock. -/
structure KmemLists where
  kmm : Nat
  spn : Nat

/-- `recovery_handler_spinlock("kmem", &new->lock, broken)`. Its `register_memobj` comes
from `initlock`; another page for the list would be taken from the broken `struct kmem`. -/
def relock (state : State) (lists : KmemLists) (broken new : Nat) (heap : Heap) : Option Heap :=
  (registerLocked state heap new lists.spn).bind fun heap =>
    deleteMemobj (state.passes lists.spn) heap broken lists.spn 0

/-- The broken `struct kmem` is replaced on its list. -/
def replaceKmem (state : State) (lists : KmemLists) (broken new : Nat) (heap : Heap) :
    Option Heap :=
  (deleteMemobj (state.passes lists.kmm) heap broken lists.kmm 0).bind fun heap =>
    registerLocked state heap new lists.kmm

/-- The lists in `check_and_handle_trans_run`. -/
def returnRun (state : State) (logRun : Option Nat) (new : Nat) (heap : Heap) : Option Heap :=
  match logRun with
  | none => some heap
  | some page =>
    if new = page then some heap
    else
      registerLocked state { heap.setAddr page heap.freelist with freelist := page } page
        state.runList

/-- `recovery_handler_kmem`, with the new `struct kmem`. It panics, or stores outside the
memory, when the first address of the run list is no page. -/
def recoveryHandlerKmem (state : State) (lists : KmemLists) (broken : Nat) (logRun : Option Nat)
    (heap : Heap) : Option (Heap × Nat) :=
  let new := heap.addr (heap.next state.runList)
  (deleteMemobj (state.passes state.runList) heap new state.runList 0).bind fun heap =>
    if ¬IsPage new then none
    else
      (relock state lists broken new heap).bind fun heap =>
        (replaceKmem state lists broken new
          { heap with freelist := heap.addr (heap.next (heap.next state.runList)) }).bind
          fun heap => (returnRun state logRun new heap).map fun heap => (heap, new)

/-- The free list after the recovery has exactly the pages of the old one and the page
that was being returned, without the page of the new `struct kmem`. -/
def FreeKept (site : Site) (heap after : Heap) (new : Nat) : Prop :=
  ∃ passes old more free, walkFree passes heap = some old ∧ walkFree more after = some free ∧
    ∀ page, page ∈ free ↔ (page ∈ old ∨ site.returning = some page) ∧ page ≠ new

/-- The handler returns, with the right free list. -/
def Recovered (state : State) (lists : KmemLists) (broken : Nat) (site : Site) (heap : Heap) :
    Prop :=
  ∃ after new, recoveryHandlerKmem state lists broken site.logRun heap = some (after, new) ∧
    FreeKept site heap after new

/-! ## The other lists -/

/-- A change to the pages of one list only, and not to the `addr` of its header. -/
structure Within (state : State) (header : Nat) (heap after : Heap) : Prop where
  listing : ∃ nodes, Listing after header (state.lists header) nodes
  first : after.addr header = heap.addr header
  elsewhere : ∀ page, IsPage page → page ∉ state.lists header → SamePage heap after page
  head : after.freelist = heap.freelist

section Within

variable {state : State} {header address : Nat} {heap after : Heap} {nodes : List Nat}

theorem within_register (listing : Listing heap header (state.lists header) nodes)
    (object : IsObject address) (result : registerLocked state heap address header = some after) :
    Within state header heap after := by
  have layout := listing.layout
  have enough := length_nodeSlots_lt (state.lists header)
  obtain ⟨front, final, split⟩ := layout.split
  rw [registerLocked, State.passes] at result
  cases found : (nodeSlots (state.lists header)).find? (stopsAt heap address) with
  | none =>
    rw [layout.register_full split enough found] at result
    cases result
  | some node =>
    obtain ⟨slot, ⟨free, -⟩ | ⟨busy, -, -⟩⟩ := listing.stop found
    · rw [layout.register_free enough found free] at result
      cases result
      have different : header ≠ node := by
        rintro rfl
        exact layout.header_not_slot slot
      exact ⟨⟨_, listing.link slot free object⟩,
        by rw [link_addr free, Function.update_of_ne different],
        fun other physical outside => same_link layout slot free physical outside,
        link_freelist _ _ _ _⟩
    · rw [layout.register_exists enough found busy] at result
      cases result
      exact ⟨⟨nodes, listing⟩, rfl, fun _ _ _ _ _ => ⟨rfl, rfl⟩, rfl⟩

theorem within_delete (listing : Listing heap header (state.lists header) nodes)
    (result : deleteMemobj (state.passes header) heap address header 0 = some after) :
    Within state header heap after := by
  obtain ⟨other, done, kept, addr, -, link, head⟩ :=
    listing.delete address 0 (length_nodeSlots_lt (state.lists header))
  obtain rfl : other = after := Option.some.inj (done.symm.trans result)
  exact ⟨⟨_, kept⟩, addr _ (.inl listing.header_not_mem), fun page physical outside =>
    listing.same_delete physical outside (fun node absent => addr node (.inl absent)) link, head⟩

theorem Within.trans {middle : Heap} (first : Within state header heap middle)
    (second : Within state header middle after) : Within state header heap after :=
  ⟨second.listing, second.first.trans first.first, fun page physical outside =>
    (first.elsewhere page physical outside).trans (second.elsewhere page physical outside),
    second.head.trans first.head⟩

end Within

/-! ## The state at the error -/

/-- The mirror at the error, up to the first free page, which the handler takes: the run
list, and the free pages behind its first page. -/
structure Standing (state : State) (heap : Heap) (nodes unlisted : List Nat) : Prop where
  run : Listing heap state.runList (state.lists state.runList) nodes
  chain : ∀ page rest, nodes.map heap.addr ++ unlisted = page :: rest →
    ∃ start, Trail heap.addr start rest 0
  once : (nodes.map heap.addr ++ unlisted).Nodup
  physical : ∀ page ∈ nodes.map heap.addr ++ unlisted, IsPage page
  others : ∀ header, header ≠ state.runList → state.lists header ≠ [] →
    ∃ nodes, Listing heap header (state.lists header) nodes
  apart : ∀ header, ∀ page ∈ state.lists header, page ∉ nodes.map heap.addr ++ unlisted
  lists_apart : ∀ header other, header ≠ other → ∀ page ∈ state.lists header,
    page ∉ state.lists other
  pages : ∀ header, ∀ page ∈ state.lists header, IsPage page

variable {heap : Heap} {nodes : List Nat} {state : State}

/-- A mirror stands, also after a change to its first free page. -/
theorem standing_of_mirror {after : Heap} {held unlisted : List Nat}
    (mirror : Mirror { state with heap := heap, held := held } nodes unlisted)
    (same : ∀ page rest, nodes.map heap.addr ++ unlisted = page :: rest →
      ∀ other, IsPage other → other ≠ page → SamePage heap after other)
    (empty : nodes.map heap.addr ++ unlisted = [] → after = heap) :
    Standing state after nodes unlisted ∧
      nodes.map after.addr ++ unlisted = nodes.map heap.addr ++ unlisted := by
  have pages : ∀ header, ∀ page ∈ state.lists header, IsPage page := mirror.node_pages
  have apart : ∀ header, ∀ page ∈ state.lists header,
      page ∉ nodes.map heap.addr ++ unlisted := mirror.owned.lists_free
  have kept : ∀ header, ∀ page ∈ state.lists header, SamePage heap after page := by
    intro header page inside
    cases free : nodes.map heap.addr ++ unlisted with
    | nil =>
      rw [empty free]
      exact fun _ _ => ⟨rfl, rfl⟩
    | cons first rest =>
      refine same first rest free page (pages header page inside) ?_
      rintro rfl
      exact apart header page inside (by simp [free])
  have addresses : nodes.map after.addr = nodes.map heap.addr :=
    List.map_congr_left fun node inside =>
      (same_slot (kept state.runList) (mirror.run.inside node inside)).1
  rw [addresses]
  refine ⟨⟨mirror.run.congr (kept _), ?_, ?_, ?_, ?_, ?_, mirror.owned.lists_apart, pages⟩, rfl⟩
  · intro page rest free
    rw [addresses] at free
    have list : FreeList heap (page :: rest) := free ▸ mirror.free
    refine ⟨heap.addr page, list.trail.2.congr fun other inside => ?_⟩
    have different : other ≠ page := by
      rintro rfl
      exact (nodup_cons.mp list.once).1 inside
    exact (same page rest free other (list.physical other (mem_cons_of_mem page inside))
      different 0 (by decide)).1
  · rw [addresses]
    exact mirror.free.once
  · rw [addresses]
    exact mirror.free.physical
  · intro header different filled
    obtain ⟨objects, listing⟩ := mirror.others header different filled
    exact ⟨objects, listing.congr (kept header)⟩
  · rw [addresses]
    exact apart

theorem standing_self {held unlisted : List Nat}
    (mirror : Mirror { state with heap := heap, held := held } nodes unlisted) :
    Standing state heap nodes unlisted :=
  (standing_of_mirror mirror (fun _ _ _ _ _ _ _ _ => ⟨rfl, rfl⟩) fun _ => rfl).1

/-! ## Walks along the free list -/

theorem mem_walk {passes place page : Nat} {collected free : List Nat}
    (walked : loop (freePass heap) passes (place, collected) = some free)
    (met : page ∈ collected ∨ page = place ∧ page ≠ 0) : page ∈ free := by
  induction passes generalizing place collected with
  | zero => cases walked
  | succ passes ih =>
    by_cases last : place = 0
    · have leaves : freePass heap (place, collected) = .leave collected := by
        simp [freePass, last]
      rw [loop_leave leaves] at walked
      cases walked
      rcases met with before | ⟨rfl, nonzero⟩
      · exact before
      · exact absurd last nonzero
    · have goes : freePass heap (place, collected) =
          .again (heap.addr place, collected ++ [place]) := by
        simp [freePass, last]
      rw [loop_again goes] at walked
      refine ih walked (.inl ?_)
      rcases met with before | ⟨rfl, -⟩
      · exact List.mem_append_left _ before
      · exact List.mem_append_right _ mem_cons_self

/-- A walk meets the page that its first page leads to. -/
theorem mem_walk_next {passes place : Nat} {free : List Nat}
    (walked : loop (freePass heap) passes (place, []) = some free) (nonzero : place ≠ 0)
    (leads : heap.addr place ≠ 0) : heap.addr place ∈ free := by
  cases passes with
  | zero => cases walked
  | succ passes =>
    have goes : freePass heap (place, []) = .again (heap.addr place, [place]) := by
      simp [freePass, nonzero]
    rw [loop_again goes] at walked
    exact mem_walk walked (.inr ⟨rfl, leads⟩)

/-! ## The handler -/

/-- The address that the handler reads two nodes behind the header of a list. -/
theorem second_address {header : Nat} {pages : List Nat}
    (listing : Listing heap header pages nodes) : heap.addr (heap.next (heap.next header)) =
      match nodes with
      | _ :: node :: _ => heap.addr node | _ => heap.addr header := by
  have trail := listing.ring.trail.2
  cases nodes with
  | nil =>
    have back : heap.next header = header := trail
    rw [back, back]
  | cons first rest =>
    obtain ⟨start, behind⟩ := trail
    rw [start]
    cases rest with
    | nil =>
      have back : heap.next first = header := behind
      rw [back]
    | cons node rest => rw [behind.1]

section Handler

variable {state : State} {heap after : Heap} {nodes unlisted : List Nat} {lists : KmemLists}
  {broken new : Nat} {logRun : Option Nat}

/-- The lists of `struct kmem` and of the locks are two lists besides the run list. -/
structure KmemLists.Sound (lists : KmemLists) (state : State) : Prop where
  kmm : lists.kmm ≠ state.runList ∧ state.lists lists.kmm ≠ []
  spn : lists.spn ≠ state.runList ∧ state.lists lists.spn ≠ []

theorem Within.other {header other : Nat} (within : Within state header heap after)
    {nodes : List Nat} (listing : Listing heap other (state.lists other) nodes)
    (apart : ∀ page ∈ state.lists other, page ∉ state.lists header) :
    Listing after other (state.lists other) nodes :=
  listing.congr fun page inside =>
    within.elsewhere page (listing.layout.physical page inside) (apart page inside)

theorem within_relock (listing : ∃ nodes, Listing heap lists.spn (state.lists lists.spn) nodes)
    (physical : IsPage new) (result : relock state lists broken new heap = some after) :
    Within state lists.spn heap after := by
  obtain ⟨objects, listing⟩ := listing
  obtain ⟨middle, registered, deleted⟩ := bind_eq_some_iff.mp result
  have first := within_register listing (IsObject.of_isPage physical) registered
  obtain ⟨others, relisted⟩ := first.listing
  exact first.trans (within_delete relisted deleted)

/-- `replaceKmem` changes the list of `struct kmem` only. -/
theorem within_replace (listing : ∃ nodes, Listing heap lists.kmm (state.lists lists.kmm) nodes)
    (physical : IsPage new) (result : replaceKmem state lists broken new heap = some after) :
    Within state lists.kmm heap after := by
  obtain ⟨objects, listing⟩ := listing
  obtain ⟨middle, deleted, registered⟩ := bind_eq_some_iff.mp result
  have first := within_delete listing deleted
  obtain ⟨others, relisted⟩ := first.listing
  exact first.trans (within_register relisted (IsObject.of_isPage physical) registered)

/-- Where the free list of the new `struct kmem` starts: at the second of the pages left,
or nowhere. -/
def Started (heap : Heap) (rest : List Nat) : Prop :=
  heap.freelist = novalue ∨
    ∃ lost more, rest = lost :: more ∧ Trail heap.addr heap.freelist more 0

theorem Standing.take (standing : Standing state heap nodes unlisted)
    (junk : heap.addr state.runList = novalue) (physical : IsPage (heap.addr (heap.next state.runList)))
    (deleted : deleteMemobj (state.passes state.runList) heap (heap.addr (heap.next state.runList))
      state.runList 0 = some after) :
    ∃ rest left, nodes.map heap.addr = heap.addr (heap.next state.runList) :: rest ∧
      Listing after state.runList (state.lists state.runList) left ∧
      left.map after.addr = rest ∧ after.addr state.runList = novalue ∧
      ∀ page, IsPage page → page ∉ state.lists state.runList → SamePage heap after page := by
  have trail := standing.run.ring.trail.2
  cases nodes with
  | nil =>
    have back : heap.next state.runList = state.runList := trail
    rw [back, junk] at physical
    exact absurd physical (by decide)
  | cons first nodes =>
    obtain ⟨start, -⟩ := trail
    rw [start] at deleted ⊢
    obtain ⟨other, done, kept, addr, registered, link, -⟩ :=
      standing.run.delete (heap.addr first) 0 (length_nodeSlots_lt (state.lists state.runList))
    obtain rfl : other = after := Option.some.inj (done.symm.trans deleted)
    refine ⟨nodes.map heap.addr, _, rfl, kept, ?_, ?_, ?_⟩
    · rw [registered, deleteTest_zero]
      simp
    · rw [addr _ (.inl standing.run.header_not_mem), junk]
    · exact fun page physical outside =>
        standing.run.same_delete physical outside (fun node absent => addr node (.inl absent)) link

/-- The memory before `check_and_handle_trans_run`: the free list starts too far. -/
theorem Standing.rebuild (standing : Standing state heap nodes unlisted)
    (junk : heap.addr state.runList = novalue) (sound : lists.Sound state)
    (result : recoveryHandlerKmem state lists broken logRun heap = some (after, new)) :
    ∃ rest middle, nodes.map heap.addr ++ unlisted = new :: rest ∧ Started middle rest ∧
      (∃ left, Listing middle state.runList (state.lists state.runList) left) ∧
      returnRun state logRun new middle = some after := by
  obtain ⟨first, deleted, rest⟩ := bind_eq_some_iff.mp result
  obtain ⟨page, rest⟩ := Option.ite_none_left_eq_some.mp rest
  obtain ⟨second, relocked, rest⟩ := bind_eq_some_iff.mp rest
  obtain ⟨middle, replaced, rest⟩ := bind_eq_some_iff.mp rest
  obtain ⟨final, returned, same⟩ := map_eq_some_iff.mp rest
  cases same
  have physical := not_not.mp page
  obtain ⟨behind, left, addresses, run, registered, header, kept⟩ :=
    standing.take junk physical deleted
  have apart : ∀ owner, owner ≠ state.runList → ∀ page ∈ state.lists owner,
      SamePage heap first page := fun owner different page inside =>
    kept page (standing.pages owner page inside)
      (standing.lists_apart owner state.runList different page inside)
  -- the two lists of `struct kmem` and of the locks
  obtain ⟨locks, spn⟩ := standing.others lists.spn sound.spn.1 sound.spn.2
  have relock := within_relock ⟨_, spn.congr (apart lists.spn sound.spn.1)⟩ physical relocked
  have runSecond := relock.other run
    (standing.lists_apart state.runList lists.spn (Ne.symm sound.spn.1))
  have kmm : ∃ objects, Listing second lists.kmm (state.lists lists.kmm) objects := by
    by_cases same : lists.kmm = lists.spn
    · rw [same]
      exact relock.listing
    · obtain ⟨objects, listing⟩ := standing.others lists.kmm sound.kmm.1 sound.kmm.2
      exact ⟨objects, relock.other (listing.congr (apart lists.kmm sound.kmm.1))
        (standing.lists_apart lists.kmm lists.spn same)⟩
  obtain ⟨objects, kmmListing⟩ := kmm
  have relisted : Listing { second with
      freelist := second.addr (second.next (second.next state.runList)) } lists.kmm
      (state.lists lists.kmm) objects := kmmListing.congr fun _ _ _ _ => ⟨rfl, rfl⟩
  have replace := within_replace ⟨objects, relisted⟩ physical replaced
  have runMiddle := replace.other (runSecond.congr fun _ _ _ _ => ⟨rfl, rfl⟩)
    (standing.lists_apart state.runList lists.kmm (Ne.symm sound.kmm.1))
  refine ⟨behind ++ unlisted, middle, by rw [addresses, List.cons_append], ?_,
    ⟨left, runMiddle⟩, returned⟩
  have free : nodes.map heap.addr ++ unlisted =
      heap.addr (heap.next state.runList) :: (behind ++ unlisted) := by
    rw [addresses, List.cons_append]
  -- the pages behind the first one have been left alone
  have same : ∀ page ∈ behind ++ unlisted, middle.addr page = heap.addr page := by
    intro page inside
    have member : page ∈ nodes.map heap.addr ++ unlisted := free ▸ mem_cons_of_mem _ inside
    have home := standing.physical page member
    have outside : ∀ owner, page ∉ state.lists owner :=
      fun owner within => standing.apart owner page within member
    exact (replace.elsewhere page home (outside _) 0 (by decide)).1.trans
      ((relock.elsewhere page home (outside _) 0 (by decide)).1.trans
        (kept page home (outside _) 0 (by decide)).1)
  have head := replace.head
  have start := second_address runSecond
  have headerPage := runSecond.layout.header_page
  have header : second.addr state.runList = novalue := by
    have outside := standing.lists_apart state.runList lists.spn (Ne.symm sound.spn.1) _ headerPage
    rw [← header]
    exact (relock.elsewhere state.runList (standing.pages _ _ headerPage) outside 0 (by decide)).1
  match left, registered with
  | [], _ => exact .inl (head.trans (start.trans header))
  | [_], _ => exact .inl (head.trans (start.trans header))
  | one :: two :: others, registered =>
    have slots : ∀ page ∈ state.lists state.runList, SamePage first second page :=
      fun page inside => relock.elsewhere page (standing.pages _ page inside)
        (standing.lists_apart _ _ (Ne.symm sound.spn.1) page inside)
    have here : second.addr two = first.addr two :=
      (same_slot slots (run.inside two (by simp))).1
    obtain rfl : first.addr one :: first.addr two :: others.map first.addr = behind := registered
    obtain ⟨origin, trail⟩ := standing.chain _ _ free
    refine .inr ⟨first.addr one, first.addr two :: (others.map first.addr ++ unlisted), rfl, ?_⟩
    have value : middle.freelist = first.addr two := head.trans (start.trans here)
    have link : heap.addr (first.addr one) = first.addr two := by
      obtain ⟨rfl, next, -⟩ := trail
      exact next
    have rest := trail.2
    rw [link] at rest
    rw [value]
    exact rest.congr fun page inside => same page (mem_cons_of_mem _ inside)

/-- A page that `kfree` is returning is not free yet. -/
def Unfree (state : State) (free : List Nat) (page : Nat) : Prop :=
  IsPage page ∧ page ∉ free ∧ ∀ header, page ∉ state.lists header

/-- A walk along the free list that the handler leaves strays, or misses a free page. -/
theorem Standing.walk (standing : Standing state heap nodes unlisted)
    (junk : heap.addr state.runList = novalue) (sound : lists.Sound state)
    (unfree : ∀ page, logRun = some page → page ≠ new →
      Unfree state (nodes.map heap.addr ++ unlisted) page)
    (result : recoveryHandlerKmem state lists broken logRun heap = some (after, new))
    {passes : Nat} {free : List Nat} (walked : walkFree passes after = some free) :
    novalue ∈ free ∨ ∃ lost ∈ nodes.map heap.addr ++ unlisted, lost ≠ new ∧ lost ∉ free := by
  obtain ⟨rest, middle, pages, started, ⟨left, run⟩, returned⟩ :=
    standing.rebuild junk sound result
  have once := standing.once
  rw [pages] at once
  have physical : ∀ page ∈ rest, IsPage page := fun page inside =>
    standing.physical page (pages ▸ mem_cons_of_mem _ inside)
  obtain ⟨outside, distinct⟩ := nodup_cons.mp once
  have missing : ∀ {lost more}, rest = lost :: more → ∀ front : List Nat, lost ∉ front →
      ∀ walked, walked = front ++ more →
      ∃ lost ∈ nodes.map heap.addr ++ unlisted, lost ≠ new ∧ lost ∉ walked := by
    rintro lost more rfl front absent _ rfl
    refine ⟨lost, by simp [pages], ?_, ?_⟩
    · rintro rfl
      exact outside mem_cons_self
    · intro inside
      rcases List.mem_append.mp inside with early | late
      · exact absent early
      · exact (nodup_cons.mp distinct).1 late
  have pagesOf : ∀ {lost more}, rest = lost :: more → ∀ page ∈ more, IsPage page := by
    rintro lost more rfl page inside
    exact physical page (mem_cons_of_mem _ inside)
  have plain : after = middle →
      novalue ∈ free ∨ ∃ lost ∈ nodes.map heap.addr ++ unlisted, lost ≠ new ∧ lost ∉ free := by
    rintro rfl
    rcases started with astray | ⟨lost, more, behind, trail⟩
    · exact .inl (mem_walk walked (.inr ⟨astray.symm, by decide⟩))
    · exact .inr (missing behind [] (by simp) free (walk_of_trail trail (pagesOf behind) walked))
  cases logRun with
  | none => exact plain (Option.some.inj returned).symm
  | some page =>
    by_cases taken : new = page
    · simp only [returnRun, if_pos taken] at returned
      exact plain (Option.some.inj returned).symm
    · simp only [returnRun, if_neg taken] at returned
      obtain ⟨home, fresh, outside⟩ := unfree page rfl (Ne.symm taken)
      have pushed : Listing { middle.setAddr page middle.freelist with freelist := page }
          state.runList (state.lists state.runList) left :=
        run.congr fun other inside => same_setAddr middle _ home
          (standing.pages _ other inside) fun equal => outside _ (equal ▸ inside)
      have within := within_register pushed (IsObject.of_isPage home) returned
      have link : after.addr page = middle.freelist := by
        have here := (within.elsewhere page home (outside _) 0 (by decide)).1
        simpa [nodeAt, Heap.setAddr] using here
      have head : after.freelist = page := within.head
      rw [walkFree, head] at walked
      rcases started with astray | ⟨lost, more, behind, trail⟩
      · rw [astray] at link
        have leads : after.addr page ≠ 0 := by
          rw [link]
          decide
        have met := mem_walk_next walked home.ne_zero leads
        rw [link] at met
        exact .inl met
      · have others : ∀ other ∈ more, after.addr other = middle.addr other := by
          intro other inside
          have free : other ∈ nodes.map heap.addr ++ unlisted := by
            rw [pages, behind]
            exact mem_cons_of_mem _ (mem_cons_of_mem _ inside)
          have different : other ≠ page := by
            rintro rfl
            exact fresh free
          have place := standing.physical other free
          exact (within.elsewhere other place (fun inside => standing.apart _ other inside free)
            0 (by decide)).1.trans (same_setAddr middle _ home place different 0 (by decide)).1
        have whole : Trail after.addr page (page :: more) 0 := by
          refine ⟨rfl, ?_⟩
          rw [link]
          exact trail.congr others
        have walk := walk_of_trail whole (fun other inside => by
          rcases mem_cons.mp inside with rfl | later
          · exact home
          · exact pagesOf behind other later) walked
        refine .inr (missing behind [page] ?_ free walk)
        rw [List.mem_singleton]
        rintro rfl
        exact fresh (by simp [pages, behind])

end Handler

/-! ## Every site -/

/-- What is known at a site: the mirror up to its first page, and the old free list. -/
structure AtSite (state : State) (site : Site) (heap : Heap) (nodes unlisted old : List Nat) :
    Prop where
  standing : Standing state heap nodes unlisted
  junk : heap.addr state.runList = novalue
  trail : Trail heap.addr heap.freelist old 0
  physical : ∀ page ∈ old, IsPage page
  returned : ∀ page, site.returning = some page → IsPage page
  covers : ∀ page ∈ nodes.map heap.addr ++ unlisted, page ∈ old ∨ site.returning = some page
  logged : ∀ page, site.logRun = some page →
    Unfree state (nodes.map heap.addr ++ unlisted) page ∨
      (nodes.map heap.addr ++ unlisted).head? = some page

section Sites

variable {state : State} {heap : Heap} {nodes unlisted : List Nat}

variable {site : Site}

theorem atSite_of_mirror {held : List Nat}
    (mirror : Mirror { state with heap := heap, held := held } nodes unlisted)
    (junk : heap.addr state.runList = novalue)
    (returned : ∀ page, site.returning = some page → IsPage page)
    (logged : ∀ page, site.logRun = some page → page ∈ held) :
    AtSite state site heap nodes unlisted (nodes.map heap.addr ++ unlisted) where
  standing := standing_self mirror
  junk := junk
  trail := mirror.free.trail
  physical := mirror.free.physical
  returned := returned
  covers := fun _ inside => .inl inside
  logged := fun page inside =>
    .inl ⟨mirror.owned.held_physical page (logged page inside),
      mirror.owned.held_free page (logged page inside),
      fun header within => mirror.owned.lists_held header page within (logged page inside)⟩

theorem AtSite.forget {filled : Heap} {old : List Nat}
    (here : AtSite { state with heap := filled } site heap nodes unlisted old) :
    AtSite state site heap nodes unlisted old where
  standing :=
    { run := here.standing.run
      chain := here.standing.chain
      once := here.standing.once
      physical := here.standing.physical
      others := here.standing.others
      apart := here.standing.apart
      lists_apart := here.standing.lists_apart
      pages := here.standing.pages }
  junk := here.junk
  trail := here.trail
  physical := here.physical
  returned := here.returned
  covers := here.covers
  logged := here.logged

theorem mirror_entrance (mirror : Mirror state nodes unlisted)
    (junk : state.heap.addr state.runList = novalue) {page : Nat} (member : page ∈ state.held)
    (entered : kfreeEntrance state page = some heap) :
    Mirror { state with heap := heap } nodes unlisted ∧ heap.addr state.runList = novalue ∧
      BlankPage heap page := by
  obtain ⟨-, same⟩ := Option.ite_none_left_eq_some.mp entered
  cases same
  have home := mirror.owned.held_physical page member
  have headerPage := mirror.run.layout.header_page
  have different : state.runList ≠ page := by
    intro equal
    exact mirror.owned.lists_held _ _ headerPage (equal ▸ member)
  refine ⟨mirror.write member rfl fun other physical different =>
    same_memset state.heap emptyMark home physical different, ?_,
    blank_memset state.heap ⟨page, home⟩ (by decide)⟩
  rw [← junk]
  exact (same_memset state.heap emptyMark home (mirror.node_pages _ _ headerPage) different 0
    (by decide)).1

/-- The page of an interrupted `kfree` has been registered, and the free list is the old
one. -/
theorem atSite_registered {page : Nat} {registered : Heap}
    (mirror : Mirror state nodes unlisted) (junk : state.heap.addr state.runList = novalue)
    (member : page ∈ state.held) (blank : BlankPage state.heap page)
    (result : registerLocked state state.heap page state.runList = some registered)
    (returning : site.returning = some page) (logRun : site.logRun = some page)
    (same : ∀ other, IsPage other → other ≠ page → SamePage registered heap other)
    (head : heap.freelist = registered.freelist) :
    ∃ nodes old, AtSite state site heap nodes unlisted old := by
  obtain ⟨node, pushed⟩ := mirror.give member blank result
  have home := mirror.owned.held_physical page member
  have headerPage := mirror.run.layout.header_page
  have different : state.runList ≠ page := fun equal =>
    mirror.owned.lists_held _ _ headerPage (equal ▸ member)
  generalize put : { registered.setAddr page registered.freelist with freelist := page } = front
    at pushed
  have kept : ∀ other, IsPage other → other ≠ page → SamePage front heap other := by
    intro other physical different index inside
    obtain ⟨addr, next⟩ := same other physical different index inside
    obtain ⟨addrPut, nextPut⟩ :=
      same_setAddr registered registered.freelist home physical different index inside
    rw [← put]
    exact ⟨addr.trans addrPut.symm, next.trans nextPut.symm⟩
  have freelist : front.freelist = page := by rw [← put]
  have first : ∀ other rest, (node :: nodes).map front.addr ++ unlisted = other :: rest →
      other = page := by
    intro other rest free
    have list : FreeList front (other :: rest) := free ▸ pushed.free
    rw [← list.first, freelist]
  have stands : Standing state heap (node :: nodes) unlisted ∧
      (node :: nodes).map heap.addr ++ unlisted = (node :: nodes).map front.addr ++ unlisted :=
    standing_of_mirror pushed (fun other rest free third physical distinct =>
      kept third physical (first other rest free ▸ distinct)) (by simp)
  obtain ⟨standing, addresses⟩ := stands
  have free : (node :: nodes).map front.addr ++ unlisted =
      page :: (nodes.map front.addr ++ unlisted) := by
    rw [List.map_cons, List.cons_append, first _ _ rfl]
  have list : FreeList front (page :: (nodes.map front.addr ++ unlisted)) := free ▸ pushed.free
  obtain ⟨outside, -⟩ := nodup_cons.mp list.once
  have trail := list.trail.2
  have link : front.addr page = heap.freelist := by
    rw [← put, head]
    simp [Heap.setAddr]
  rw [link] at trail
  refine ⟨node :: nodes, nodes.map front.addr ++ unlisted, standing, ?_, ?_, ?_, ?_, ?_, ?_⟩
  · have here := (same state.runList (mirror.node_pages _ _ headerPage) different 0 (by decide)).1
    exact here.trans ((within_register mirror.run (IsObject.of_isPage home) result).first.trans junk)
  · refine trail.congr fun other inside => ?_
    have distinct : other ≠ page := by
      rintro rfl
      exact outside inside
    exact (kept other (list.physical other (mem_cons_of_mem _ inside)) distinct 0
      (by decide)).1
  · exact fun other inside => list.physical other (mem_cons_of_mem _ inside)
  · intro other equal
    rw [returning] at equal
    cases equal
    exact home
  · intro other inside
    rw [addresses, free] at inside
    rcases mem_cons.mp inside with rfl | later
    · exact .inr returning
    · exact .inl later
  · intro other equal
    rw [logRun] at equal
    right
    rw [addresses, free, List.head?_cons]
    exact equal

/-- `kalloc` has taken a page, and releases the lock. -/
theorem atSite_release (mirror : Mirror state nodes unlisted)
    (junk : state.heap.addr state.runList = novalue)
    (reached : Site.kallocRelease.heap state = some heap) :
    ∃ nodes unlisted old, AtSite state .kallocRelease heap nodes unlisted old := by
  cases free : nodes.map state.heap.addr ++ unlisted with
  | nil =>
    have list := mirror.free
    rw [free] at list
    have empty : state.heap.freelist = 0 := list.trail
    simp only [Site.heap, empty, if_pos] at reached
    cases reached
    exact ⟨nodes, unlisted, _, atSite_of_mirror mirror junk nofun nofun⟩
  | cons page rest =>
    have list := mirror.free
    rw [free] at list
    have member : page ∈ nodes.map state.heap.addr ++ unlisted := by simp [free]
    have nonzero := (list.physical page mem_cons_self).ne_zero
    have moved : FreeList { state.heap with freelist := state.heap.addr page }
        ((nodes.map state.heap.addr ++ unlisted).erase page) := by
      rw [free, List.erase_cons_head]
      exact list.take_first
    obtain ⟨after, left, result, -, taken⟩ := mirror.take moved member
      (list.blank page mem_cons_self) fun _ _ _ _ _ => ⟨rfl, rfl⟩
    simp only [Site.heap, list.first, if_neg nonzero] at reached
    obtain rfl : after = heap := Option.some.inj (result.symm.trans reached)
    have run := (mirror.run.layout.physical _ mirror.run.layout.header_page).ne_zero
    rw [unregister, if_neg run] at result
    have run : Listing { state.heap with freelist := state.heap.addr page } state.runList
        (state.lists state.runList) nodes := mirror.run.congr fun _ _ _ _ => ⟨rfl, rfl⟩
    have header := (within_delete run result).first
    refine ⟨left, unlisted.erase page, _,
      atSite_of_mirror (taken.hold mirror member) (header.trans junk) nofun nofun⟩

/-- Every site leaves the mirror up to its first page. -/
theorem atSite_of_reached (mirror : Mirror state nodes unlisted)
    (junk : state.heap.addr state.runList = novalue)
    (held : ∀ page, site.returning = some page → page ∈ state.held)
    (reached : site.heap state = some heap) :
    ∃ nodes unlisted old, AtSite state site heap nodes unlisted old := by
  have physical : ∀ page, site.returning = some page → IsPage page := fun page returning =>
    mirror.owned.held_physical page (held page returning)
  cases site with
  | kallocTake =>
    cases reached
    exact ⟨nodes, unlisted, _, atSite_of_mirror mirror junk nofun nofun⟩
  | kallocRelease => exact atSite_release mirror junk reached
  | kfreeAcquire page =>
    obtain ⟨entered, word, -⟩ := mirror_entrance mirror junk (held page rfl) reached
    exact ⟨nodes, unlisted, _, atSite_of_mirror entered word physical nofun⟩
  | kfreeRegister page =>
    obtain ⟨filled, entered, full⟩ := bind_eq_some_iff.mp reached
    obtain ⟨kept, word, -⟩ := mirror_entrance mirror junk (held page rfl) entered
    have same : filled = heap := by
      split at full
      · exact Option.some.inj full
      · cases full
    subst same
    exact ⟨nodes, unlisted, _, atSite_of_mirror kept word physical held⟩
  | kfreeRead page =>
    obtain ⟨filled, entered, registered⟩ := bind_eq_some_iff.mp reached
    obtain ⟨kept, word, blank⟩ := mirror_entrance mirror junk (held page rfl) entered
    have here : ∃ nodes old, AtSite { state with heap := filled } (.kfreeRead page) heap nodes
        unlisted old :=
      atSite_registered kept word (held page rfl) blank registered rfl rfl
        (fun _ _ _ _ _ => ⟨rfl, rfl⟩) rfl
    obtain ⟨nodes, old, here⟩ := here
    exact ⟨nodes, unlisted, old, here.forget⟩
  | kfreeStore page =>
    obtain ⟨filled, entered, stored⟩ := bind_eq_some_iff.mp reached
    obtain ⟨middle, registered, rfl⟩ := map_eq_some_iff.mp stored
    obtain ⟨kept, word, blank⟩ := mirror_entrance mirror junk (held page rfl) entered
    have home := physical page rfl
    have here : ∃ nodes old, AtSite { state with heap := filled } (.kfreeStore page)
        (middle.setAddr page middle.freelist) nodes unlisted old :=
      atSite_registered kept word (held page rfl) blank registered rfl rfl
        (fun other physical different => same_setAddr middle _ home physical different) rfl
    obtain ⟨nodes, old, here⟩ := here
    exact ⟨nodes, unlisted, old, here.forget⟩
  | kfreeRelease page =>
    have member := held page rfl
    obtain ⟨node, freed⟩ := mirror.kfree member reached
    refine ⟨node :: nodes, unlisted, _, atSite_of_mirror freed ?_ physical nofun⟩
    have headerPage := mirror.run.layout.header_page
    have run := (mirror.run.layout.physical _ headerPage).ne_zero
    have different : state.runList ≠ page := fun equal =>
      mirror.owned.lists_held _ _ headerPage (equal ▸ member)
    simp only [Site.heap, Allocator.kfree, if_neg run] at reached
    obtain ⟨valid, rest⟩ := Option.ite_none_left_eq_some.mp reached
    obtain ⟨registered, register, rfl⟩ := map_eq_some_iff.mp rest
    have entered : kfreeEntrance state page = some (state.heap.memset page emptyMark) := by
      rw [kfreeEntrance, if_neg valid]
    obtain ⟨kept, word, -⟩ := mirror_entrance mirror junk member entered
    have first := (within_register kept.run (IsObject.of_isPage (physical page rfl)) register).first
    show Function.update registered.addr page registered.freelist state.runList = novalue
    rw [Function.update_of_ne different]
    exact first.trans word

/-- The handler never leaves the right free list: it drops the second page of the run
list, or takes the word of the list's header for a page. The `addr` of the header is as
`kalloc` has filled it, since it is never written. -/
theorem kmem_never_recovered (mirror : Mirror state nodes unlisted)
    (junk : state.heap.addr state.runList = novalue) {lists : KmemLists}
    (sound : lists.Sound state) (broken : Nat) {site : Site}
    (held : ∀ page, site.returning = some page → page ∈ state.held)
    (reached : site.heap state = some heap) : ¬Recovered state lists broken site heap := by
  rintro ⟨after, new, result, passes, old, more, free, before, walked, right⟩
  obtain ⟨nodes, unlisted, known, here⟩ := atSite_of_reached mirror junk held reached
  have same : old = known := walk_of_trail here.trail here.physical before
  obtain ⟨rest, -, pages, -⟩ := here.standing.rebuild here.junk sound result
  have unfree : ∀ page, site.logRun = some page → page ≠ new →
      Unfree state (nodes.map heap.addr ++ unlisted) page := by
    intro page logged different
    refine (here.logged page logged).resolve_right fun first => ?_
    rw [pages, List.head?_cons] at first
    exact different (Option.some.inj first).symm
  rcases here.standing.walk here.junk sound unfree result walked with
    astray | ⟨lost, inside, different, missing⟩
  · obtain ⟨member | returning, -⟩ := (right novalue).mp astray
    · exact absurd (here.physical novalue (same ▸ member)) (by decide)
    · exact absurd (here.returned novalue returning) (by decide)
  · have covered := here.covers lost inside
    rw [← same] at covered
    exact missing ((right lost).mpr ⟨covered, different⟩)

end Sites

/-- The sample lists: `struct kmem` and its lock are on the second list. -/
def sampleLists : KmemLists := ⟨samplePage 1, samplePage 1⟩

/-- A call, where it is allowed. -/
def allowedStep (state : State) (call : Call) : Option State :=
  match call with
  | .kfree page => if page ∈ state.held then callStep state call else none
  | .kalloc => callStep state call
  | _ => none

/-- The sample state after the boot, when both pages have been allocated and freed. -/
def sampleFreed : Option State :=
  (initRunList 2 sampleBooting).bind fun init =>
    LabelledSystem.exec allowedStep init
      [.kalloc, .kalloc, .kfree (samplePage 2), .kfree (samplePage 3)]

theorem mirror_allowed {calls : List Call} {next : State}
    (result : LabelledSystem.exec allowedStep state calls = some next)
    (mirror : ∃ nodes, Mirror state nodes state.tail.toList) :
    ∃ nodes, Mirror next nodes next.tail.toList := by
  induction calls generalizing state with
  | nil =>
    cases result
    exact mirror
  | cons call calls ih =>
    obtain ⟨middle, taken, rest⟩ := bind_eq_some_iff.mp result
    obtain ⟨nodes, mirror⟩ := mirror
    refine ih rest ?_
    cases call with
    | kalloc =>
      obtain ⟨left, after, -⟩ := mirror_kalloc mirror taken
      exact ⟨left, after⟩
    | kfree page =>
      obtain ⟨member, taken⟩ := Option.ite_none_right_eq_some.mp taken
      obtain ⟨left, after, -⟩ := mirror_kfree mirror member taken
      exact ⟨left, after⟩
    | _ => cases taken

/-- The run list of the sample state mirrors its free list of two pages. -/
theorem sample_freed : ∃ state nodes, sampleFreed = some state ∧ Mirror state nodes [] ∧
    state.heap.addr state.runList = novalue ∧ sampleLists.Sound state := by
  have found : (sampleFreed.any fun state =>
      decide (state.tail = none ∧ state.heap.addr state.runList = novalue ∧
        samplePage 1 ≠ state.runList ∧ state.lists (samplePage 1) ≠ [])) = true := by
    decide +kernel
  cases freed : sampleFreed with
  | none =>
    rw [freed] at found
    cases found
  | some state =>
    rw [freed] at found
    obtain ⟨tail, junk, lists⟩ := of_decide_eq_true found
    obtain ⟨init, built, result⟩ := bind_eq_some_iff.mp freed
    obtain ⟨first, nodes, again, mirror, -⟩ := initRunList_spec booting_sample
    obtain rfl := initRunList_unique again built
    obtain ⟨nodes, mirror⟩ := mirror_allowed result ⟨nodes, mirror⟩
    rw [tail] at mirror
    exact ⟨state, nodes, rfl, mirror, junk, ⟨lists, lists⟩⟩

/-- The error is met in `kalloc`. -/
theorem kmem_never_recovered_sample : ∃ state heap, sampleFreed = some state ∧
    Site.kallocTake.heap state = some heap ∧
    ¬Recovered state sampleLists kernbase .kallocTake heap := by
  obtain ⟨state, nodes, freed, mirror, junk, sound⟩ := sample_freed
  exact ⟨state, state.heap, freed, rfl,
    kmem_never_recovered mirror junk sound kernbase nofun rfl⟩

/-- With two pages on the run list, the free list starts at the junk of the header. -/
theorem free_list_starts_at_junk : ¬∀ state nodes lists broken site heap,
    Mirror state nodes [] → state.heap.addr state.runList = novalue →
    lists.Sound state → (∀ page, site.returning = some page → page ∈ state.held) →
    site.heap state = some heap → Recovered state lists broken site heap := by
  intro always
  obtain ⟨state, nodes, freed, mirror, junk, sound⟩ := sample_freed
  obtain ⟨after, new, result, passes, old, more, free, before, walked, right⟩ :=
    always state nodes sampleLists kernbase .kallocTake state.heap mirror junk sound nofun rfl
  have found : (sampleFreed.any fun state =>
      (recoveryHandlerKmem state sampleLists kernbase none state.heap).any fun result =>
        decide (result.1.freelist = novalue)) = true := by
    decide +kernel
  have recovered : recoveryHandlerKmem state sampleLists kernbase none state.heap =
      some (after, new) := result
  rw [freed, Option.any_some, recovered] at found
  have astray : after.freelist = novalue := of_decide_eq_true found
  have met : novalue ∈ free := mem_walk walked (.inr ⟨astray.symm, by decide⟩)
  obtain ⟨member | returning, -⟩ := (right novalue).mp met
  · rw [walk_of_trail mirror.free.trail mirror.free.physical before] at member
    exact absurd (mirror.free.physical novalue member) (by decide)
  · cases returning

end Ev6.Allocator
