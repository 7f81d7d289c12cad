import Ev6.Allocator.MirrorRun

/-!
# `kfree` finds a slot on the run list

`kfree` registers the page while it holds `kmem->lock`, and `my_kalloc` acquires the
same lock. The run list therefore must never need another page. `init_run_list` takes
its node pages from the pages that it registers, and a page that is not free leaves
its slot to another.
-/

namespace Ev6.Allocator

open Support MList

/-- The scan of `register_memobj(r, mlist.run_list)` in `kfree`. -/
def kfreeScan (state : State) (page : Nat) : Option Found :=
  loop (registerPass (state.heap.memset page emptyMark) page) (state.passes state.runList)
    (state.runList + nodeSize)

section Scan

variable {heap : Heap} {header address : Nat} {pages nodes : List Nat}

/-- A list with fewer nodes than slots has a free slot. -/
theorem unused_slot (listing : Listing heap header pages nodes) (once : pages.Nodup)
    (room : nodes.length < (nodeSlots pages).length) :
    ∃ node ∈ nodeSlots pages, freeMark (heap.addr node) = true := by
  have slots := nodup_nodeSlots listing.layout.physical once
  by_contra none
  have taken : nodeSlots pages ⊆ nodes := by
    intro node slot
    by_contra outside
    exact none ⟨node, slot, listing.unused node slot outside⟩
  have most := (List.subperm_of_subset slots taken).length_le
  omega

/-- The scan for an address that is not registered then ends at a free slot. -/
theorem scan_free (listing : Listing heap header pages nodes) (once : pages.Nodup)
    (room : nodes.length < (nodeSlots pages).length) (fresh : address ∉ nodes.map heap.addr) :
    ∃ node ∈ nodeSlots pages, freeMark (heap.addr node) = true ∧
      (nodeSlots pages).find? (stopsAt heap address) = some node := by
  obtain ⟨free, slot, mark⟩ := unused_slot listing once room
  cases found : (nodeSlots pages).find? (stopsAt heap address) with
  | none =>
    have passed := List.find?_eq_none.mp found free slot
    simp [stopsAt, mark] at passed
  | some node =>
    obtain ⟨slot, ⟨mark, -⟩ | ⟨-, inside, same⟩⟩ := listing.stop found
    · exact ⟨node, slot, mark, rfl⟩
    · exact absurd (List.mem_map.mpr ⟨node, inside, same⟩) fresh

end Scan

section Free

variable {state : State} {nodes unlisted : List Nat} {page : Nat}

/-- With a slot left, the registration in `kfree` takes it. -/
theorem kfreeScan_free (mirror : Mirror state nodes unlisted) (member : page ∈ state.held)
    (room : nodes.length < (nodeSlots (state.lists state.runList)).length) :
    (∃ node ∈ nodeSlots (state.lists state.runList), kfreeScan state page = some (.free node)) ∧
      (state.kernelEnd ≤ page → (callStep state (.kfree page)).isSome = true) := by
  have home := mirror.owned.held_physical page member
  have junk : Mirror { state with heap := state.heap.memset page emptyMark } nodes unlisted :=
    mirror.write member rfl fun other physical different =>
      same_memset state.heap emptyMark home physical different
  have fresh : page ∉ nodes.map (state.heap.memset page emptyMark).addr := fun inside =>
    junk.owned.held_free page member (List.mem_append_left _ inside)
  have layout := junk.run.layout
  have enough := length_nodeSlots_lt (state.lists state.runList)
  obtain ⟨node, slot, mark, found⟩ := scan_free junk.run layout.once room fresh
  obtain ⟨front, final, split⟩ := layout.split
  have scan := loop_registerPass page layout split enough
  rw [found] at scan
  constructor
  · refine ⟨node, slot, ?_⟩
    rw [kfreeScan, State.passes]
    refine scan.trans ?_
    simp only [foundAt]
    rw [if_pos mark]
  · intro above
    have run := (layout.physical _ layout.header_page).ne_zero
    have taken : registerMemobj (fun _ _ => none) _ _ page state.runList = _ :=
      layout.register_free enough found mark
    have allowed : ¬(page % pgsize ≠ 0 ∨ page < state.kernelEnd ∨ phystop ≤ page) := by
      rintro (ragged | below | beyond)
      · exact ragged home.1
      · exact absurd above (Nat.not_le.mpr below)
      · exact absurd home.2.2 (Nat.not_lt.mpr beyond)
    simp only [callStep, Allocator.kfree, if_neg allowed, State.passes, Option.isSome_map]
    rw [if_neg run]
    exact Option.isSome_of_eq_some taken

end Free

/-- When more than 255 pages are free at boot, the registration that `kfree` makes
while it holds `kmem->lock` ends at a free slot before the last node of the last page,
after every sequence of calls. It never calls `my_kalloc`, and `kfree` returns. -/
theorem kfree_finds_slot {booting : State} {free : List Nat} (sound : Booting booting free)
    (alone : booting.held = []) (many : 255 < free.length) :
    (∃ init, initRunList free.length booting = some init) ∧
    ∀ passes init calls state page, initRunList passes booting = some init →
      (allocatorSystem init).Runs calls state → page ∈ state.held →
      (∃ node ∈ nodeSlots (state.lists state.runList), kfreeScan state page = some (.free node)) ∧
      (state.kernelEnd ≤ page → (callStep state (.kfree page)).isSome = true) := by
  obtain ⟨init, nodes, built, mirror, last, held, room⟩ := initRunList_spec sound
  refine ⟨⟨init, built⟩, fun passes other calls state page result run member => ?_⟩
  obtain rfl := initRunList_unique built result
  have start : spare init nodes ≤ (nodeSlots (init.lists init.runList)).length := by
    have tail : init.tail.toList.length ≤ 1 := by cases init.tail <;> simp
    have slots := room many
    rw [alone] at held
    rw [spare, held, List.length_nil]
    omega
  obtain ⟨nodes, here, few⟩ : ∃ nodes, Mirror state nodes state.tail.toList ∧
      spare state nodes ≤ (nodeSlots (state.lists state.runList)).length := by
    refine run.invariant (fun state => ∃ nodes, Mirror state nodes state.tail.toList ∧
      spare state nodes ≤ (nodeSlots (state.lists state.runList)).length) ?_ ?_
    · rintro state rfl
      exact ⟨nodes, mirror, start⟩
    · rintro state call next ⟨nodes, mirror, few⟩ ⟨allowed, taken⟩
      obtain ⟨left, after, fewer⟩ := mirror_step mirror allowed taken
      obtain ⟨header, lists⟩ := runList_step allowed taken
      refine ⟨left, after, ?_⟩
      rw [header, lists]
      exact fewer.trans few
  -- The page itself is not on the list, so that one slot is left for it.
  have filled := List.length_pos_of_mem member
  rw [spare] at few
  exact kfreeScan_free here member (by omega)

/-! ## A boot with 256 free pages -/

/-- The sample boot, with more free pages. They are linked in their order. -/
def crowdedBooting : State :=
  { sampleBooting with
    heap :=
      { addr := fun node =>
          if node % pgsize = 0 ∧ samplePage 2 ≤ node ∧ node < samplePage 257 then node + pgsize
          else if node = samplePage 257 then 0 else novalue
        next := id
        freelist := samplePage 2 } }

/-- The free pages of the boot. -/
def crowdedFree : List Nat := (List.range' 2 256).map samplePage

theorem isPage_sample {number : Nat} (inside : number < 32768) : IsPage (samplePage number) := by
  have place : samplePage number = 0x80000000 + 4096 * number := rfl
  have bounds : samplePage number % 4096 = 0 ∧ 0x80000000 ≤ samplePage number ∧
      samplePage number < 0x88000000 := by omega
  exact bounds

theorem mem_crowdedFree {page : Nat} (member : page ∈ crowdedFree) :
    ∃ number, 2 ≤ number ∧ number ≤ 257 ∧ samplePage number = page := by
  obtain ⟨number, inside, rfl⟩ := List.mem_map.mp member
  obtain ⟨low, high⟩ := List.mem_range'_1.mp inside
  exact ⟨number, low, by omega, rfl⟩

/-- The nodes of the pages behind the first are junk. -/
theorem crowdedBooting_node {number index : Nat} (inside : index < 256) (nonzero : index ≠ 0) :
    crowdedBooting.heap.addr (nodeAt (samplePage number) index) = novalue := by
  have place : nodeAt (samplePage number) index = 0x80000000 + 4096 * number + 16 * index := rfl
  have last : samplePage 257 = 0x80000000 + 4096 * 257 := rfl
  change ite _ _ _ = _
  rw [if_neg, if_neg (by omega)]
  rintro ⟨start, -⟩
  rw [pgsize_eq] at start
  omega

theorem crowdedBooting_link {number : Nat} (low : 2 ≤ number) (high : number < 257) :
    crowdedBooting.heap.addr (samplePage number) = samplePage (number + 1) := by
  have place : ∀ number, samplePage number = 0x80000000 + 4096 * number := fun _ => rfl
  have inner : samplePage number % pgsize = 0 ∧ samplePage 2 ≤ samplePage number ∧
      samplePage number < samplePage 257 := by
    rw [pgsize_eq, place, place, place]
    omega
  change ite _ _ _ = _
  rw [if_pos inner, place, place, pgsize_eq]
  omega

theorem crowdedBooting_last : crowdedBooting.heap.addr (samplePage 257) = 0 := by
  decide

/-- From every free page on, the links lead to the last one. -/
theorem crowdedBooting_trail {count first : Nat} (low : 2 ≤ first) (stop : first + count = 258)
    (filled : 0 < count) :
    Trail crowdedBooting.heap.addr (samplePage first)
      ((List.range' first count).map samplePage) 0 := by
  induction count generalizing first with
  | zero => exact absurd filled (Nat.lt_irrefl 0)
  | succ count ih =>
    rw [List.range'_succ, List.map_cons]
    refine ⟨rfl, ?_⟩
    cases count with
    | zero =>
      obtain rfl : first = 257 := by omega
      exact crowdedBooting_last
    | succ count =>
      rw [crowdedBooting_link low (by omega)]
      exact ih (by omega) (by omega) (Nat.succ_pos count)

theorem samplePage_inj {number other : Nat} (same : samplePage number = samplePage other) :
    number = other := by
  have place : ∀ number, samplePage number = 0x80000000 + 4096 * number := fun _ => rfl
  rw [place, place] at same
  omega

theorem booting_crowded : Booting crowdedBooting crowdedFree := by
  have fresh : ∀ number : Fin 2,
      Fresh ⟨crowdedBooting.heap, samplePage number, [samplePage number]⟩ :=
    fun number => ⟨by revert number; decide, rfl,
      fun index inside nonzero => crowdedBooting_node inside nonzero, rfl⟩
  have once : crowdedFree.Nodup :=
    List.Nodup.map (fun _ _ => samplePage_inj) List.nodup_range'
  have physical : ∀ page ∈ crowdedFree, IsPage page := by
    intro page member
    obtain ⟨number, -, high, rfl⟩ := mem_crowdedFree member
    exact isPage_sample (by omega)
  refine ⟨fresh 0, ⟨?_, once, physical, ?_⟩, by simp [crowdedFree], ?_, ?_⟩
  · exact crowdedBooting_trail (Nat.le_refl 2) rfl (by decide)
  · intro page member index inside nonzero
    obtain ⟨number, -, -, rfl⟩ := mem_crowdedFree member
    rw [crowdedBooting_node inside nonzero]
    decide
  · intro header different filled
    obtain ⟨page, member⟩ := List.exists_mem_of_ne_nil _ filled
    obtain rfl : header = samplePage 1 := (sampleBooting_lists member).2.resolve_left different
    obtain ⟨nodes, listing, -⟩ := (lists_fresh (fresh 1)).nodes
    exact ⟨nodes, listing⟩
  · refine ⟨List.nodup_nil, List.forall_mem_nil _, List.forall_mem_nil _, ?_,
      fun _ _ _ => List.not_mem_nil, ?_⟩
    · intro header other different page here there
      exact different ((sampleBooting_lists here).1.symm.trans (sampleBooting_lists there).1)
    · intro header page member free
      obtain ⟨number, low, -, rfl⟩ := mem_crowdedFree free
      obtain ⟨rfl, same | same⟩ := sampleBooting_lists member
      all_goals
        have equal := samplePage_inj same
        omega

/-- A page is allocated after the boot, and the scan of its `kfree` ends at a free
slot. -/
theorem kfree_finds_slot_crowded : ∃ init state page,
    initRunList crowdedFree.length crowdedBooting = some init ∧
    (allocatorSystem init).Runs [.kalloc] state ∧ page ∈ state.held ∧
    ∃ node ∈ nodeSlots (state.lists state.runList), kfreeScan state page = some (.free node) := by
  have slots := kfree_finds_slot booting_crowded rfl (by simp [crowdedFree])
  obtain ⟨init, nodes, built, mirror, last, -⟩ := initRunList_spec booting_crowded
  rcases mirror.kalloc with ⟨empty, -⟩ | ⟨page, rest, heap, left, free, answer, -⟩
  · have none := (List.append_eq_nil_iff.mp empty).2
    rw [last, List.getLast?_eq_some_getLast booting_crowded.filled] at none
    cases none
  · have nonzero : page ≠ 0 := by
      refine (mirror.free.physical page ?_).ne_zero
      rw [free]
      exact List.mem_cons_self
    have start : (allocatorSystem init).Runs [] init := .initial rfl
    have result : callStep init .kalloc = some
        { init with
          heap := heap
          held := page :: init.held
          tail := init.tail.filter (· ≠ page) } := by
      simp only [callStep, answer, Option.map_some, if_neg nonzero]
    have allowed : Allowed init .kalloc := trivial
    have run := start.step ⟨allowed, result⟩
    have member : page ∈ page :: init.held := List.mem_cons_self
    exact ⟨init, _, page, built, run, member, (slots.2 _ init _ _ page built run member).1⟩

end Ev6.Allocator
