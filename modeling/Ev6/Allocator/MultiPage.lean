import Ev6.Allocator.BootRun

/-!
# Allocation of several pages

`my_kalloc` with its second argument. The search for several pages looks for one more
than it needs, cannot reach the end of the free list, and takes one page only out of the
run list: `allocates_iff` says that one page at most is ever allocated right.
-/

namespace Ev6.Allocator

open Support MList

/-- The inner loop of the search: each page must lead to the one right below it. `pages`
are the pages met, the last one first. To read the link of address 0 faults. -/
def searchRun (heap : Heap) : Nat → Nat → List Nat → Option (Nat × Nat × List Nat)
  | 0, r1, pages => some (0, r1, pages)
  | i + 1, r1, pages =>
    if r1 = 0 then none
    else if (r1 + 2 ^ 64 - pgsize) % 2 ^ 64 = heap.addr r1 then
      searchRun heap i (heap.addr r1) (r1 :: pages)
    else some (i + 1, r1, pages)

/-- What the search ends with: a fault, a return with `kmem->lock` held, or `r`. -/
inductive Search where
  | fault
  | early
  | found (heap : Heap) (r : Nat)

/-- The step of the search: `br = br->next` and `r = br->next`. -/
def searchNext (heap : Heap) (br : Nat) : Pass (Nat × Nat) Search :=
  if br = 0 then .leave .fault
  else if heap.addr br = 0 then .leave .fault
  else .again (heap.addr br, heap.addr (heap.addr br))

/-- One pass of the search, from `br` and `r`. -/
def searchPass (heap : Heap) (multi : Nat) (here : Nat × Nat) : Pass (Nat × Nat) Search :=
  if ¬(here.2 ≠ heap.freelist ∨ here.2 ≠ 0) then .leave (.found heap here.2)
  else
    match searchRun heap multi here.2 [] with
    | none => .leave .fault
    | some (i, r1, pages) =>
      if i = 0 then
        .leave (.found (heap.setAddr here.1 (heap.addr (pages.headD 0))) (pages.headD 0))
      else if here.2 = 0 then .leave .early
      else searchNext heap (heap.addr r1)

/-- The result of `my_kalloc`: the memory, the page and whether `kmem->lock` is held. -/
structure Allocation where
  heap : Heap
  r : Nat
  locked : Bool

/-- `my_kalloc`. -/
def myKallocMulti (passes : Nat) (state : State) (avoid : Nat) (multi : Int) : Option Allocation :=
  if 1 < multi then
    if state.heap.freelist = 0 then none
    else
      match loop (searchPass state.heap multi.toNat) passes
          (state.heap.freelist, state.heap.addr state.heap.freelist) with
      | none | some .fault => none
      | some .early => some ⟨state.heap, 0, true⟩
      | some (.found heap r) =>
        if r = 0 then some ⟨heap, 0, false⟩
        else
          (unregister (state.passes state.runList) state.runList heap r).map fun heap =>
            ⟨heap, r, false⟩
  else (state.myKalloc state.heap avoid).map fun result => ⟨result.1, result.2, false⟩

/-- `count` pages from `r` on. -/
def block (r count : Nat) : List Nat := (List.range count).map fun index => r + pgsize * index

/-- `my_kalloc` returns without the lock: either 0, and both lists are unchanged, or a
block of free pages without the one to be avoided, and both lists have lost exactly its
pages. -/
def Allocates (state : State) (avoid : Nat) (multi : Int) : Prop :=
  ∃ passes result free listed taken,
    myKallocMulti passes state avoid multi = some result ∧ result.locked = false ∧
    walkFree passes state.heap = some free ∧
    walkList passes state.heap state.runList = some listed ∧
    (result.r = 0 ∧ taken = [] ∨
      result.r ≠ 0 ∧ taken = block result.r (max multi 1).toNat ∧ avoid ∉ taken ∧
        ∀ page ∈ taken, page ∈ free) ∧
    walkFree passes result.heap = some (free.filter (· ∉ taken)) ∧
    walkList passes result.heap state.runList = some (listed.filter (· ∉ taken))

/-! ## One page -/

section One

variable {state : State} {nodes unlisted : List Nat}

theorem erase_eq_filter {list : List Nat} (once : list.Nodup) (page : Nat) :
    list.erase page = list.filter (· ∉ [page]) := by
  rw [once.erase_eq_filter]
  exact List.filter_congr fun other _ => by simp [bne, beq_eq_decide]

/-- The pages of the run list after one page has been taken. -/
theorem Taken.listed (mirror : Mirror state nodes unlisted) {page : Nat} {heap : Heap}
    {left : List Nat} (taken : Taken state (nodes.map state.heap.addr ++ unlisted) page heap left
      (unlisted.erase page)) :
    left.map heap.addr = (nodes.map state.heap.addr).erase page := by
  have rest := taken.rest
  rw [← erase_append_of_nodup mirror.free.once] at rest
  exact List.append_cancel_right rest

/-- One page at most is allocated right, unless the list is empty and 0 is to be avoided. -/
theorem allocates_one (mirror : Mirror state nodes unlisted) {avoid : Nat} {multi : Int}
    (single : ¬1 < multi) (usable : avoid ≠ 0 ∨ nodes.map state.heap.addr ++ unlisted ≠ []) :
    Allocates state avoid multi := by
  have list := mirror.free
  have count : (max multi 1).toNat = 1 := by omega
  obtain ⟨passes, ample, enough⟩ : ∃ passes,
      (nodeSlots (state.lists state.runList)).length < passes ∧
      (nodes.map state.heap.addr ++ unlisted).length < passes :=
    ⟨_, Nat.lt_succ_of_le (Nat.le_max_left _ _), Nat.lt_succ_of_le (Nat.le_max_right _ _)⟩
  have walked := loop_freePass list.trail list.physical [] enough
  rcases mirror.myKalloc usable with none | ⟨page, member, heap, left, distinct, given, taken⟩
  · refine ⟨passes, ⟨state.heap, 0, false⟩, _, _, [], ?_, rfl, walked, mirror.run.walk ample,
      .inl ⟨rfl, rfl⟩, ?_, ?_⟩
    · rw [myKallocMulti, if_neg single, none]
      rfl
    · simpa [walkFree] using walked
    · simpa using mirror.run.walk ample
  · have nonzero := (list.physical page member).ne_zero
    have left_free := loop_freePass taken.free.trail taken.free.physical []
      (Nat.lt_of_le_of_lt List.length_erase_le enough)
    refine ⟨passes, ⟨heap, page, false⟩, _, _, [page], ?_, rfl, walked, mirror.run.walk ample,
      .inr ⟨nonzero, ?_, by simpa using Ne.symm distinct, by simpa using member⟩, ?_, ?_⟩
    · rw [myKallocMulti, if_neg single, given]
      rfl
    · rw [count]
      simp [block]
    · rw [List.nil_append, ← erase_eq_filter list.once]
      exact left_free
    · rw [← erase_eq_filter (List.nodup_append.mp list.once).1, ← taken.listed mirror]
      exact taken.run.walk ample

/-- To avoid 0 on an empty list reads from address 0. -/
theorem not_allocates_empty (mirror : Mirror state nodes unlisted) {multi : Int}
    (single : ¬1 < multi) (none : nodes.map state.heap.addr ++ unlisted = []) :
    ¬Allocates state 0 multi := by
  rintro ⟨passes, result, free, listed, taken, given, -⟩
  have list := mirror.free
  rw [none] at list
  have empty : state.heap.freelist = 0 := list.trail
  have fault : state.myKalloc state.heap 0 = Option.none := by
    simp [State.myKalloc, Allocator.myKalloc, empty]
  rw [myKallocMulti, if_neg single, fault] at given
  cases given

end One

/-! ## Several pages -/

/-- Pages that have been met one below the other, the last one first; it leads to
`below`. -/
def Descending (heap : Heap) (free : List Nat) : Nat → List Nat → Prop
  | _, [] => True
  | below, page :: pages =>
    page ∈ free ∧ heap.addr page = below ∧ page = below + pgsize ∧ Descending heap free page pages

section Several

variable {heap : Heap} {free : List Nat}

/-- The link of a free page leads to the next free page, or is 0. -/
theorem FreeList.link_mem (list : FreeList heap free) {page : Nat} (member : page ∈ free) :
    heap.addr page ∈ free ∨ heap.addr page = 0 := by
  obtain ⟨front, back, rfl⟩ := List.append_of_mem member
  have behind := list.behind
  cases back with
  | nil => exact .inr behind
  | cons next back =>
    have link : heap.addr page = next := behind.1
    exact .inl (by simp [link])

/-- The search follows the free list as long as the pages lie one below the other. -/
theorem searchRun_descending (list : FreeList heap free) {count r1 i below : Nat}
    {pages found : List Nat} (place : r1 ∈ free ∨ r1 = 0) (met : Descending heap free r1 pages)
    (searched : searchRun heap count r1 pages = some (i, below, found)) :
    (i ≠ 0 → below ∈ free) ∧ Descending heap free below found ∧
      found.length + i = pages.length + count := by
  induction count generalizing r1 pages with
  | zero =>
    obtain ⟨rfl, rfl, rfl⟩ : 0 = i ∧ r1 = below ∧ pages = found := by
      simpa [searchRun] using searched
    exact ⟨fun more => absurd rfl more, met, rfl⟩
  | succ count ih =>
    rw [searchRun] at searched
    obtain ⟨nonzero, searched⟩ := Option.ite_none_left_eq_some.mp searched
    have member := place.resolve_right nonzero
    by_cases adjacent : (r1 + 2 ^ 64 - pgsize) % 2 ^ 64 = heap.addr r1
    · rw [if_pos adjacent] at searched
      have bounds := (list.physical r1 member).bounds
      have step : r1 = heap.addr r1 + pgsize := by
        rw [pgsize_eq] at adjacent ⊢
        omega
      have further : Descending heap free (heap.addr r1) (r1 :: pages) := ⟨member, rfl, step, met⟩
      obtain ⟨stop, down, size⟩ := ih (list.link_mem member) further searched
      refine ⟨stop, down, ?_⟩
      rw [List.length_cons] at size
      omega
    · rw [if_neg adjacent] at searched
      obtain ⟨rfl, rfl, rfl⟩ : count + 1 = i ∧ r1 = below ∧ pages = found := by
        simpa using searched
      exact ⟨fun _ => member, met, rfl⟩

/-- What the search has to end with: two of the pages that it has found are neighbours on
the free list, and a free page has been made to lead past them. -/
def Straddles (heap : Heap) (free : List Nat) (result : Search) : Prop :=
  ∀ after r, result = .found after r →
    r ∈ free ∧ r + pgsize ∈ free ∧ heap.addr (r + pgsize) = r ∧
      ∃ br ∈ free, ∃ link, after = heap.setAddr br link

/-- The search ends in a fault, or with neighbours. -/
theorem searchPass_straddles (list : FreeList heap free) {multi : Nat} (several : 2 ≤ multi)
    {br : Nat} (place : br ∈ free) :
    (∃ result, searchPass heap multi (br, heap.addr br) = .leave result ∧
        result ≠ .early ∧ Straddles heap free result) ∨
      ∃ next ∈ free, searchPass heap multi (br, heap.addr br) = .again (next, heap.addr next) := by
  have started : heap.freelist ≠ 0 := by
    obtain ⟨first, rest, rfl⟩ := List.exists_cons_of_ne_nil (List.ne_nil_of_mem place)
    rw [list.first]
    exact (list.physical first List.mem_cons_self).ne_zero
  have goes : heap.addr br ≠ heap.freelist ∨ heap.addr br ≠ 0 := by
    by_cases last : heap.addr br = 0
    · exact .inl (last ▸ Ne.symm started)
    · exact .inr last
  rw [searchPass, if_neg (not_not.mpr goes)]
  cases searched : searchRun heap multi (heap.addr br) [] with
  | none => exact .inl ⟨.fault, rfl, nofun, nofun⟩
  | some result =>
    obtain ⟨i, below, found⟩ := result
    have start : Descending heap free (heap.addr br) [] := trivial
    obtain ⟨stop, down, size⟩ := searchRun_descending list (list.link_mem place) start searched
    have nonzero : heap.addr br ≠ 0 := by
      intro last
      obtain ⟨fewer, rfl⟩ : ∃ fewer, multi = fewer + 1 := ⟨multi - 1, by omega⟩
      rw [searchRun, if_pos last] at searched
      cases searched
    by_cases complete : i = 0
    · refine .inl ⟨_, if_pos complete, nofun, ?_⟩
      rintro after r ⟨rfl, rfl⟩
      rw [List.length_nil] at size
      obtain ⟨first, second, rest, rfl⟩ :
          ∃ first second rest, found = first :: second :: rest := by
        match found with
        | [] => simp at size; omega
        | [_] => simp at size; omega
        | first :: second :: rest => exact ⟨first, second, rest, rfl⟩
      obtain ⟨member, -, -, above, link, next, -⟩ := down
      exact ⟨member, next ▸ above, next ▸ link, br, place, _, rfl⟩
    · simp only [if_neg complete, if_neg nonzero, searchNext]
      by_cases last : heap.addr below = 0
      · exact .inl ⟨.fault, by simp [last], nofun, nofun⟩
      · by_cases final : heap.addr (heap.addr below) = 0
        · exact .inl ⟨.fault, by simp [last, final], nofun, nofun⟩
        · refine .inr ⟨heap.addr (heap.addr below), ?_, by simp [last, final]⟩
          have one := (list.link_mem (stop complete)).resolve_right last
          exact (list.link_mem one).resolve_right final

theorem loop_searchPass (list : FreeList heap free) {multi passes : Nat} (several : 2 ≤ multi)
    {br : Nat} (place : br ∈ free) {result : Search}
    (searched : loop (searchPass heap multi) passes (br, heap.addr br) = some result) :
    result ≠ .early ∧ Straddles heap free result := by
  refine loop_invariant (fun here => here.1 ∈ free ∧ here.2 = heap.addr here.1)
    (fun result => result ≠ .early ∧ Straddles heap free result) ?_ ⟨place, rfl⟩ searched
  rintro ⟨here, r⟩ ⟨inside, link⟩
  obtain rfl : r = heap.addr here := link
  rcases searchPass_straddles list several inside with done | ⟨next, further, again⟩
  · exact .inl done
  · exact .inr ⟨_, again, further, rfl⟩

end Several

/-- Only the last page of the free list may be missing on the run list. -/
theorem Mirror.registered_of_link {state : State} {nodes unlisted : List Nat}
    (mirror : Mirror state nodes unlisted) (short : unlisted.length ≤ 1) {page : Nat}
    (free : page ∈ nodes.map state.heap.addr ++ unlisted) (leads : state.heap.addr page ≠ 0) :
    page ∈ nodes.map state.heap.addr := by
  refine (List.mem_append.mp free).resolve_right fun behind => leads ?_
  obtain ⟨last, rfl⟩ : ∃ last, unlisted = [last] :=
    List.length_eq_one_iff.mp (le_antisymm short (List.length_pos_of_mem behind))
  obtain rfl := List.mem_singleton.mp behind
  exact mirror.free.behind

/-- The search for several pages takes one page only out of the run list. -/
theorem not_allocates_several {state : State} {nodes unlisted : List Nat}
    (mirror : Mirror state nodes unlisted) (short : unlisted.length ≤ 1) {avoid : Nat}
    {multi : Int} (several : 1 < multi) : ¬Allocates state avoid multi := by
  rintro ⟨passes, result, free, listed, taken, given, -, -, known, answer, -, remaining⟩
  have list := mirror.free
  rw [myKallocMulti, if_pos several] at given
  obtain ⟨started, given⟩ := Option.ite_none_left_eq_some.mp given
  have start : state.heap.freelist ∈ nodes.map state.heap.addr ++ unlisted := by
    cases pages : nodes.map state.heap.addr ++ unlisted with
    | nil =>
      rw [pages] at list
      exact absurd list.trail started
    | cons first rest =>
      rw [pages] at list
      rw [list.first]
      exact List.mem_cons_self
  cases searched : loop (searchPass state.heap multi.toNat) passes
      (state.heap.freelist, state.heap.addr state.heap.freelist) with
  | none => simp [searched] at given
  | some ending =>
    obtain ⟨returns, straddles⟩ := loop_searchPass list (by omega) start searched
    rw [searched] at given
    cases ending with
    | fault => cases given
    | early => exact returns rfl
    | found heap r =>
      obtain ⟨member, above, link, br, inside, word, rfl⟩ := straddles heap r rfl
      have nonzero := (list.physical r member).ne_zero
      simp only [if_neg nonzero] at given
      obtain ⟨after, erased, rfl⟩ := Option.map_eq_some_iff.mp given
      -- the run list has lost `r` only
      have same : ∀ page ∈ state.lists state.runList,
          SamePage state.heap (state.heap.setAddr br word) page := by
        intro page within
        refine same_setAddr _ _ (list.physical br inside)
          (mirror.run.layout.physical page within) ?_
        rintro rfl
        exact mirror.owned.lists_free _ page within inside
      have addresses : nodes.map (state.heap.setAddr br word).addr =
          nodes.map state.heap.addr :=
        List.map_congr_left fun node slot => (same_slot same (mirror.run.inside node slot)).1
      obtain ⟨other, left, again, run, -, registered, -⟩ :=
        unregister_spec (mirror.run.congr same) r
      obtain rfl : other = after := Option.some.inj (again.symm.trans erased)
      rw [addresses] at registered
      have enough := length_nodeSlots_lt (state.lists state.runList)
      have lost := loop_unique (run.walk enough) remaining
      have listed := loop_unique (mirror.run.walk enough) known
      rw [registered, ← listed] at lost
      -- the page above `r` is on the run list, and part of the block
      have kept : r + pgsize ∈ (nodes.map state.heap.addr).erase r := by
        have different : r + pgsize ≠ r := by
          rw [pgsize_eq]
          omega
        refine (List.mem_erase_of_ne different).mpr ?_
        exact mirror.registered_of_link short above (by rw [link]; exact nonzero)
      obtain ⟨absurdity, -⟩ | ⟨-, rfl, -, -⟩ := answer
      · exact nonzero absurdity
      · rw [lost] at kept
        have outside := of_decide_eq_true (List.mem_filter.mp kept).2
        refine outside (List.mem_map.mpr ⟨1, List.mem_range.mpr (by omega), ?_⟩)
        rw [Nat.mul_one]

/-- `my_kalloc` does what it is for when one page is asked for, and the free list is not
empty or another address than 0 is to be avoided. -/
theorem allocates_iff {state : State} {nodes : List Nat}
    (mirror : Mirror state nodes state.tail.toList) (avoid : Nat) (multi : Int) :
    Allocates state avoid multi ↔
      multi ≤ 1 ∧ (state.heap.freelist ≠ 0 ∨ avoid ≠ 0) := by
  have short : state.tail.toList.length ≤ 1 := by cases state.tail <;> simp
  have list := mirror.free
  have empty : nodes.map state.heap.addr ++ state.tail.toList = [] ↔ state.heap.freelist = 0 := by
    constructor
    · intro none
      rw [none] at list
      exact list.trail
    · intro last
      by_contra filled
      obtain ⟨first, rest, pages⟩ := List.exists_cons_of_ne_nil filled
      rw [pages] at list
      exact (list.physical first List.mem_cons_self).ne_zero (list.first.symm.trans last)
  constructor
  · intro allocates
    have single : ¬1 < multi := fun several =>
      not_allocates_several mirror short several allocates
    refine ⟨by omega, ?_⟩
    by_contra neither
    rw [not_or, not_not, not_not] at neither
    obtain ⟨last, rfl⟩ := neither
    exact not_allocates_empty mirror single (empty.mpr last) allocates
  · rintro ⟨single, usable⟩
    refine allocates_one mirror (by omega) (usable.symm.imp_right fun filled none => ?_)
    exact filled (empty.mp none)

/-- After the boot of the sample, one page is allocated right, and two are not. -/
theorem allocates_iff_sample : ∃ init, initRunList 2 sampleBooting = some init ∧
    Allocates init (samplePage 2) 0 ∧ ¬Allocates init (samplePage 2) 2 := by
  obtain ⟨init, nodes, built, mirror, -⟩ := initRunList_spec booting_sample
  have one := (allocates_iff mirror (samplePage 2) 0).mpr ⟨by decide, .inr (by decide)⟩
  refine ⟨init, built, one, fun two => ?_⟩
  exact absurd ((allocates_iff mirror (samplePage 2) 2).mp two).1 (by decide)

/-- Two pages are asked for after the boot of the sample. -/
theorem two_pages_not_allocated : ¬∀ state nodes avoid multi,
    Mirror state nodes state.tail.toList → Allocates state avoid multi := by
  intro always
  obtain ⟨init, nodes, built, mirror, tail, -⟩ := initRunList_spec booting_sample
  refine not_allocates_several mirror ?_ (by decide : (1 : Int) < 2) (always init nodes 0 2 mirror)
  rw [tail]
  decide

end Ev6.Allocator
