import Ev6.Allocator.InitRunList

/-!
# The mirror along sequences of calls

`mirror_of_run` states that, from the state that `init_run_list` builds, the run
list and the free list stay in step along every sequence of calls.
-/

namespace Ev6.Allocator

open Option (map_eq_some_iff)
open Support MList

theorem toList_filter_ne (tail : Option Nat) (page : Nat) :
    (tail.filter (· ≠ page)).toList = tail.toList.erase page := by
  cases tail with
  | none => rfl
  | some last =>
    by_cases same : last = page
    · simp [Option.filter, same]
    · simp [Option.filter, same]

/-- The pages that are free or held by an owner. -/
def spare (state : State) (nodes : List Nat) : Nat :=
  nodes.length + state.tail.toList.length + state.held.length

section Steps

variable {state next : State} {nodes : List Nat}

theorem mirror_kalloc (mirror : Mirror state nodes state.tail.toList)
    (result : callStep state .kalloc = some next) :
    ∃ left, Mirror next left next.tail.toList ∧ spare next left ≤ spare state nodes := by
  rcases mirror.kalloc with ⟨empty, answer⟩ | ⟨page, rest, heap, left, free, answer, -, taken, -⟩
  · obtain ⟨-, none⟩ := List.append_eq_nil_iff.mp empty
    have last : state.tail = Option.none := by simpa using none
    simp only [callStep, answer, Option.map_some, if_true, last] at result
    cases result
    refine ⟨nodes, ?_, by simp [spare, last]⟩
    rw [last] at mirror
    exact mirror.note _
  · have member : page ∈ nodes.map state.heap.addr ++ state.tail.toList := by simp [free]
    have nonzero := (mirror.free.physical page member).ne_zero
    simp only [callStep, answer, Option.map_some, if_neg nonzero] at result
    cases result
    rw [← free] at taken
    have fewer := taken.length member
    refine ⟨left, ?_, ?_⟩
    · rw [toList_filter_ne]
      exact (taken.hold mirror member).note _
    · simp only [spare, toList_filter_ne, List.length_cons]
      rw [List.length_append, List.length_map] at fewer
      omega

theorem mirror_kfree (mirror : Mirror state nodes state.tail.toList) {page : Nat}
    (member : page ∈ state.held) (result : callStep state (.kfree page) = some next) :
    ∃ left, Mirror next left next.tail.toList ∧ spare next left ≤ spare state nodes := by
  obtain ⟨heap, freed, rfl⟩ := map_eq_some_iff.mp result
  obtain ⟨node, given⟩ := mirror.kfree member freed
  refine ⟨node :: nodes, given, ?_⟩
  have filled := List.length_pos_of_mem member
  simp only [spare, List.length_cons, List.length_erase_of_mem member]
  omega

theorem mirror_delete (mirror : Mirror state nodes state.tail.toList) {address size header : Nat}
    (different : header ≠ state.runList) (filled : state.lists header ≠ [])
    (result : callStep state (.delete address size header) = some next) :
    ∃ left, Mirror next left next.tail.toList ∧ spare next left ≤ spare state nodes := by
  obtain ⟨heap, deleted, rfl⟩ := map_eq_some_iff.mp result
  obtain ⟨others, listing⟩ := mirror.others header different filled
  obtain ⟨after, done, kept, addr, -, link, head⟩ :=
    listing.delete address size (length_nodeSlots_lt (state.lists header))
  obtain rfl : after = heap := Option.some.inj (done.symm.trans deleted)
  refine ⟨nodes, mirror.relist different kept head fun other physical outside => ?_, le_rfl⟩
  exact listing.same_delete physical outside (fun node absent => addr node (.inl absent)) link

theorem mirror_store (mirror : Mirror state nodes state.tail.toList)
    {page offset addr link : Nat} (member : page ∈ state.held) (inside : offset < pgsize)
    (result : callStep state (.store page offset addr link) = some next) :
    ∃ left, Mirror next left next.tail.toList ∧ spare next left ≤ spare state nodes := by
  cases result
  refine ⟨nodes, mirror.write member rfl fun other physical different index below => ?_, le_rfl⟩
  have home := (mirror.owned.held_physical page member).bounds
  have others := physical.bounds
  have apart : nodeAt other index ≠ page + offset := by
    rw [pgsize_eq] at inside
    rw [nodeAt_eq]
    omega
  simp [Heap.setAddr, Heap.setNext, Function.update_of_ne apart]

theorem mirror_register (mirror : Mirror state nodes state.tail.toList) {address : Object}
    {header : Nat} (different : header ≠ state.runList) (filled : state.lists header ≠ [])
    (result : callStep state (.register address header) = some next) :
    ∃ left, Mirror next left next.tail.toList ∧ spare next left ≤ spare state nodes := by
  obtain ⟨heap, registered, rfl⟩ := map_eq_some_iff.mp result
  obtain ⟨others, listing⟩ := mirror.others header different filled
  have layout := listing.layout
  have enough := length_nodeSlots_lt (state.lists header)
  obtain ⟨front, final, split⟩ := layout.split
  have scan := loop_registerPass address.val layout split enough
  cases found : (nodeSlots (state.lists header)).find? (stopsAt state.heap address) with
  | some node =>
    rw [found] at scan
    have alone : grown state address header = none := by
      cases free : freeMark (state.heap.addr node) <;>
        simp [grown, State.passes, scan, foundAt, free]
    rw [alone]
    obtain ⟨slot, ⟨free, -⟩ | ⟨busy, -, -⟩⟩ := listing.stop found
    · rw [State.passes, layout.register_free enough found free] at registered
      cases registered
      exact ⟨nodes, mirror.relist different (listing.link slot free address.property)
        (link_freelist _ _ _ _) fun other physical outside =>
          same_link layout slot free physical outside, le_rfl⟩
    · rw [State.passes, layout.register_exists enough found busy] at registered
      cases registered
      exact ⟨nodes, mirror, le_rfl⟩
  | none =>
    rw [found] at scan
    rw [State.passes, layout.register_full split enough found] at registered
    rcases mirror.myKalloc (.inl address.property.1) with
      none | ⟨page, member, after, left, -, given, taken⟩
    · rw [none] at registered
      simp at registered
    · have nonzero := (mirror.free.physical page member).ne_zero
      have more : grown state address header = some page := by
        simp [grown, State.passes, scan, given]
      rw [more]
      rw [given] at registered
      simp only [if_neg nonzero] at registered
      cases registered
      have last := toList_filter_ne state.tail page
      have fewer := taken.length member
      refine ⟨left, ?_, ?_⟩
      · change Mirror _ left (state.tail.filter (· ≠ page)).toList
        rw [last]
        exact taken.grow mirror member different split address.property
      · simp only [spare, State.grow, last]
        rw [List.length_append, List.length_map] at fewer
        omega

/-- Every call keeps the mirror, and none makes new pages. -/
theorem mirror_step {call : Call} (mirror : Mirror state nodes state.tail.toList)
    (allowed : Allowed state call) (result : callStep state call = some next) :
    ∃ left, Mirror next left next.tail.toList ∧ spare next left ≤ spare state nodes := by
  cases call with
  | kalloc => exact mirror_kalloc mirror result
  | kfree page => exact mirror_kfree mirror allowed result
  | register address header => exact mirror_register mirror allowed.1 allowed.2 result
  | delete address size header => exact mirror_delete mirror allowed.1 allowed.2 result
  | store page offset addr link => exact mirror_store mirror allowed.1 allowed.2 result

theorem runList_step {call : Call} (allowed : Allowed state call)
    (result : callStep state call = some next) :
    next.runList = state.runList ∧ next.lists state.runList = state.lists state.runList := by
  cases call with
  | kalloc =>
    obtain ⟨answer, -, rfl⟩ := map_eq_some_iff.mp result
    exact ⟨rfl, rfl⟩
  | kfree page =>
    obtain ⟨heap, -, rfl⟩ := map_eq_some_iff.mp result
    exact ⟨rfl, rfl⟩
  | register address header =>
    obtain ⟨heap, -, rfl⟩ := map_eq_some_iff.mp result
    cases grown state address header with
    | none => exact ⟨rfl, rfl⟩
    | some page => exact ⟨rfl, Function.update_of_ne (Ne.symm allowed.1) _ _⟩
  | delete address size header =>
    obtain ⟨heap, -, rfl⟩ := map_eq_some_iff.mp result
    exact ⟨rfl, rfl⟩
  | store page offset addr link =>
    cases result
    exact ⟨rfl, rfl⟩

/-- The page that is left out stays the same until it is taken. -/
theorem tail_step {call : Call} (result : callStep state call = some next) :
    next.tail = state.tail ∨ next.tail = none := by
  have filter : ∀ page, state.tail.filter (· ≠ page) = state.tail ∨
      state.tail.filter (· ≠ page) = none := by
    intro page
    cases state.tail with
    | none => exact .inl rfl
    | some last =>
      by_cases same : last = page
      · exact .inr (by simp [Option.filter, same])
      · exact .inl (by simp [Option.filter, same])
  cases call with
  | kalloc =>
    obtain ⟨answer, -, rfl⟩ := map_eq_some_iff.mp result
    exact filter answer.2
  | kfree page =>
    obtain ⟨heap, -, rfl⟩ := map_eq_some_iff.mp result
    exact .inl rfl
  | register address header =>
    obtain ⟨heap, -, rfl⟩ := map_eq_some_iff.mp result
    cases grown state address header with
    | none => exact .inl rfl
    | some page => exact filter page
  | delete address size header =>
    obtain ⟨heap, -, rfl⟩ := map_eq_some_iff.mp result
    exact .inl rfl
  | store page offset addr link =>
    cases result
    exact .inl rfl

end Steps

/-- `init_run_list` returns, and from the state that it builds, after every
sequence of calls, the run list walked from its header lists the pages of the
free list in their order, without the last page of the free list at the start
until that page is taken. No page occurs twice, and none is held by an owner or
by a list. -/
theorem mirror_of_run {booting : State} {free : List Nat} (sound : Booting booting free) :
    (∃ init, initRunList free.length booting = some init ∧ init.tail = free.getLast?) ∧
    ∀ passes init calls state, initRunList passes booting = some init →
      (allocatorSystem init).Runs calls state →
      (state.tail = free.getLast? ∨ state.tail = none) ∧
      ∃ registered,
        walkList (state.passes state.runList) state.heap state.runList = some registered ∧
        (∀ passes, registered.length + 1 < passes →
          walkFree passes state.heap = some (registered ++ state.tail.toList)) ∧
        (registered ++ state.tail.toList).Nodup ∧
        ∀ page ∈ registered ++ state.tail.toList,
          page ∉ state.held ∧ ∀ header, page ∉ state.lists header := by
  obtain ⟨init, nodes, built, mirror, last, -⟩ := initRunList_spec sound
  refine ⟨⟨init, built, last⟩, fun passes other calls state result run => ?_⟩
  obtain rfl := initRunList_unique built result
  obtain ⟨⟨nodes, here⟩, tail⟩ : (∃ nodes, Mirror state nodes state.tail.toList) ∧
      (state.tail = free.getLast? ∨ state.tail = none) := by
    refine run.invariant (fun state => (∃ nodes, Mirror state nodes state.tail.toList) ∧
      (state.tail = free.getLast? ∨ state.tail = none)) ?_ ?_
    · rintro state rfl
      exact ⟨⟨nodes, mirror⟩, .inl last⟩
    · rintro state call next ⟨⟨nodes, mirror⟩, tail⟩ ⟨allowed, taken⟩
      obtain ⟨left, after, -⟩ := mirror_step mirror allowed taken
      refine ⟨⟨left, after⟩, ?_⟩
      rcases tail_step taken with kept | gone
      · exact tail.imp kept.trans kept.trans
      · exact .inr gone
  refine ⟨tail, nodes.map state.heap.addr, here.run.walk (length_nodeSlots_lt _), ?_,
    here.free.once, fun page member => ⟨fun held => here.owned.held_free page held member,
      fun header inside => here.owned.lists_free header page inside member⟩⟩
  intro passes enough
  have short : state.tail.toList.length ≤ 1 := by cases state.tail <;> simp
  refine loop_freePass here.free.trail here.free.physical [] ?_
  rw [List.length_append]
  omega

/-- A page of physical memory. -/
def samplePage (number : Nat) : Nat := kernbase + pgsize * number

/-- The run list, another list, and two free pages. -/
def sampleBooting : State where
  heap :=
    { addr := fun node =>
        if node = samplePage 2 then samplePage 3 else if node = samplePage 3 then 0 else novalue
      next := id
      freelist := samplePage 2 }
  kernelEnd := kernbase
  runList := samplePage 0
  lists header := if header = samplePage 0 ∨ header = samplePage 1 then [header] else []
  held := []
  tail := none

theorem sampleBooting_addr {node : Nat} (second : node ≠ samplePage 2) (third : node ≠ samplePage 3) :
    sampleBooting.heap.addr node = novalue := by
  simp [sampleBooting, second, third]

/-- The nodes of the sample pages behind the first. -/
theorem sampleBooting_node {number index : Nat} (inside : index < 256) (nonzero : index ≠ 0) :
    sampleBooting.heap.addr (nodeAt (samplePage number) index) = novalue := by
  refine sampleBooting_addr ?_ ?_
  all_goals
    simp only [nodeAt_eq, samplePage, pgsize_eq]
    omega

theorem sampleBooting_lists {header page : Nat} (member : page ∈ sampleBooting.lists header) :
    page = header ∧ (header = samplePage 0 ∨ header = samplePage 1) := by
  by_cases known : header = samplePage 0 ∨ header = samplePage 1
  · simp only [sampleBooting, if_pos known] at member
    exact ⟨List.mem_singleton.mp member, known⟩
  · simp [sampleBooting, known] at member

theorem booting_sample : Booting sampleBooting [samplePage 2, samplePage 3] := by
  have fresh : ∀ number : Fin 2, Fresh ⟨sampleBooting.heap, samplePage number, [samplePage number]⟩ :=
    fun number => ⟨by revert number; decide, rfl,
      fun index inside nonzero => sampleBooting_node inside nonzero, rfl⟩
  refine ⟨fresh 0, ⟨⟨rfl, ?_⟩, ?_, ?_, ?_⟩, by simp, ?_, ?_⟩
  · have link : sampleBooting.heap.addr (samplePage 2) = samplePage 3 := by decide
    have last : sampleBooting.heap.addr (samplePage 3) = 0 := by decide
    exact ⟨link, last⟩
  · decide
  · decide
  · intro page member index inside nonzero
    obtain rfl | rfl : page = samplePage 2 ∨ page = samplePage 3 := by simpa using member
    all_goals
      rw [sampleBooting_node inside nonzero]
      decide
  · intro header different filled
    obtain ⟨page, member⟩ := List.exists_mem_of_ne_nil _ filled
    obtain rfl : header = samplePage 1 := (sampleBooting_lists member).2.resolve_left different
    obtain ⟨nodes, listing, -⟩ := (lists_fresh (fresh 1)).nodes
    exact ⟨nodes, listing⟩
  · refine ⟨List.nodup_nil, by simp [sampleBooting], by simp [sampleBooting], ?_,
      by simp [sampleBooting], ?_⟩
    · intro header other different page here there
      exact different ((sampleBooting_lists here).1.symm.trans (sampleBooting_lists there).1)
    · intro header page member
      obtain ⟨rfl, rfl | rfl⟩ := sampleBooting_lists member
      all_goals decide

/-- Both pages are allocated, the registered one and the one that was left out. -/
theorem mirror_of_run_sample : ∃ init state,
    initRunList 2 sampleBooting = some init ∧ (allocatorSystem init).Runs [.kalloc, .kalloc] state ∧
    (state.tail = [samplePage 2, samplePage 3].getLast? ∨ state.tail = none) ∧
    ∃ registered,
      walkList (state.passes state.runList) state.heap state.runList = some registered ∧
      (∀ passes, registered.length + 1 < passes →
        walkFree passes state.heap = some (registered ++ state.tail.toList)) ∧
      (registered ++ state.tail.toList).Nodup ∧
      ∀ page ∈ registered ++ state.tail.toList,
        page ∉ state.held ∧ ∀ header, page ∉ state.lists header := by
  have found : ((initRunList 2 sampleBooting).bind fun init =>
      LabelledSystem.exec callStep init [.kalloc, .kalloc]).isSome = true := by decide
  obtain ⟨state, executed⟩ := Option.isSome_iff_exists.mp found
  obtain ⟨init, built, result⟩ := Option.bind_eq_some_iff.mp executed
  have start : (allocatorSystem init).Runs [] init := .initial rfl
  have sound : ∀ state call next, call ∈ [Call.kalloc, Call.kalloc] →
      callStep state call = some next → (allocatorSystem init).Step state call next := by
    intro state call next member taken
    obtain rfl : call = .kalloc := by simpa using member
    exact ⟨trivial, taken⟩
  have run := LabelledSystem.Runs.append_exec sound start result
  exact ⟨init, state, built, run, (mirror_of_run booting_sample).2 2 init _ state built run⟩

end Ev6.Allocator
