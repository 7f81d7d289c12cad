import Ev6.Allocator.RunList

/-!
# What `init_run_list` builds

The loop registers the free pages from the first on, each behind the node of the
page before. When a node page is full it takes the first free page, which it has
registered before.
-/

namespace Ev6.Allocator

open List (length_append length_cons length_singleton)
open Function (update update_apply update_of_ne update_self)
open Support MList

section Append

variable {state : State} {nodes unlisted : List Nat}

/-- The first page that is not registered is registered behind the others. -/
theorem Mirror.append {r place node : Nat} {front : List Nat}
    (mirror : Mirror state nodes (r :: unlisted))
    (slot : node ∈ nodeSlots (state.lists state.runList))
    (free : freeMark (state.heap.addr node) = true)
    (split : state.runList :: nodes = front ++ [place]) :
    Mirror { state with heap := state.heap.linkBehind node r place } (nodes ++ [node]) unlisted := by
  have object := IsObject.of_isPage (mirror.free.physical r (by simp))
  have kept : ∀ other, IsPage other → other ∉ state.lists state.runList →
      SamePage state.heap (state.heap.linkBehind node r place) other :=
    fun other physical outside => mirror.run.same_linkBehind slot split physical outside
  have same : (nodes ++ [node]).map (state.heap.linkBehind node r place).addr ++ unlisted =
      nodes.map state.heap.addr ++ r :: unlisted := by
    rw [mirror.run.linkBehind_addresses free, List.append_assoc]
    rfl
  refine ⟨mirror.run.linkBehind slot free object split, ?_, ?_, ?_⟩
  · change FreeList _ ((nodes ++ [node]).map (state.heap.linkBehind node r place).addr ++ unlisted)
    rw [same]
    exact mirror.free.congr (fun other inside => kept other (mirror.free.physical other inside)
      fun within => mirror.owned.lists_free _ other within inside) rfl
  · intro header different filled
    exact mirror.others_congr different filled fun other inside =>
      kept other (mirror.node_pages header other inside)
        (mirror.owned.lists_apart header _ different other inside)
  · change Owned _ _ ((nodes ++ [node]).map (state.heap.linkBehind node r place).addr ++ unlisted)
    rw [same]
    exact mirror.owned

/-- A page that has been taken becomes the last node page of the run list. -/
theorem Taken.extend (mirror : Mirror state nodes unlisted) {page : Nat} {heap : Heap}
    {left others : List Nat}
    (taken : Taken state (nodes.map state.heap.addr ++ unlisted) page heap left others)
    (member : page ∈ nodes.map state.heap.addr ++ unlisted) {front : List Nat} {final : Nat}
    (split : state.lists state.runList = front ++ [final]) :
    Mirror ({ state with heap := heap.extend (nodeAt final lastNode) page }.grow state.runList page)
      left others := by
  have home := mirror.free.physical page member
  have fresh : page ∉ state.lists state.runList := fun inside =>
    mirror.owned.lists_free _ page inside member
  have last : final ∈ state.lists state.runList := by simp [split]
  have bottom := taken.run.layout.physical final last
  have extended := taken.run.extend split home fresh taken.blank
  have kept : ∀ other, IsPage other → other ∉ state.lists state.runList → other ≠ page →
      SamePage heap (heap.extend (nodeAt final lastNode) page) other := by
    intro other physical outside distinct
    refine same_extend heap physical home bottom ?_ distinct
    rintro rfl
    exact outside last
  obtain ⟨lists, rest⟩ := Taken.elsewhere mirror member kept
  have same : left.map (heap.extend (nodeAt final lastNode) page).addr ++ others =
      (nodes.map state.heap.addr ++ unlisted).erase page := by
    rw [← taken.rest]
    refine congrArg (· ++ others) (List.map_congr_left fun node inside => ?_)
    exact extend_slot taken.run.layout.physical fresh home bottom (taken.run.inside node inside)
  refine ⟨?_, ?_, ?_, ?_⟩
  · change Listing _ state.runList (update state.lists state.runList _ state.runList) left
    rw [update_self]
    exact extended
  · change FreeList _ (left.map (heap.extend (nodeAt final lastNode) page).addr ++ others)
    rw [same]
    exact taken.free.congr rest (extend_freelist _ _ _)
  · intro owner distinct nonempty
    change owner ≠ state.runList at distinct
    change update state.lists state.runList _ owner ≠ [] at nonempty
    change ∃ nodes, Listing _ owner (update state.lists state.runList _ owner) nodes
    rw [update_of_ne distinct] at nonempty ⊢
    obtain ⟨nodes, old⟩ := taken.others owner distinct nonempty
    exact ⟨nodes, old.congr (lists owner distinct)⟩
  · change Owned (update state.lists state.runList _) state.held
      (left.map (heap.extend (nodeAt final lastNode) page).addr ++ others)
    rw [same]
    exact mirror.owned.grow mirror.free.once member state.runList

end Append

/-! ## The loop -/

/-- The pages before `r` are registered, `r` is the next one and `rest` follow it.
The node for `r` and the nodes behind it in the last node page are free, and
`brnode` is the last node of the list. -/
structure Initialising (here : InitCursor) (nodes rest : List Nat) : Prop where
  mirror : Mirror here.state nodes (here.r :: rest)
  page : ∃ front final, here.state.lists here.state.runList = front ++ [final] ∧
    here.rnode = nodeAt final here.i ∧
    ∀ index, here.i ≤ index → index ≤ lastNode →
      freeMark (here.state.heap.addr (nodeAt final index)) = true
  index : 1 ≤ here.i ∧ here.i ≤ lastNode
  place : ∃ front, here.state.runList :: nodes = front ++ [here.brnode]
  enough : here.i ≤ nodes.length + 1

/-- The number of node pages of the run list. -/
def InitCursor.pages (here : InitCursor) : Nat := (here.state.lists here.state.runList).length

/-- Of `total` free pages, each is registered, became a node page or is still to come.
Every page for nodes but the first has cost the node that it was registered in. -/
structure Counted (total : Nat) (here : InitCursor) (nodes rest : List Nat) : Prop where
  some : 1 ≤ here.pages
  spent : nodes.length + here.pages + rest.length = total
  filled : nodes.length + here.pages = lastNode * (here.pages - 1) + here.i

/-- The nodes of the last page behind its first are slots. -/
theorem slot_of_last_page {pages front : List Nat} {final index : Nat}
    (split : pages = front ++ [final]) (low : 1 ≤ index) (high : index < lastNode) :
    nodeAt final index ∈ nodeSlots pages := by
  cases front with
  | nil =>
    subst split
    exact List.mem_append_left _ (mem_pageNodes.mpr ⟨index, low, high, rfl⟩)
  | cons page front =>
    rw [split, nodeSlots_append (List.cons_ne_nil page front)]
    exact List.mem_append_right _ (mem_pageNodes.mpr ⟨index, Nat.zero_le _, high, rfl⟩)

/-- A page of the free list is linked to the one behind it. -/
theorem FreeList.behind {heap : Heap} {front rest : List Nat} {page : Nat}
    (list : FreeList heap (front ++ page :: rest)) : Trail heap.addr (heap.addr page) rest 0 := by
  obtain ⟨middle, -, -, behind⟩ := trail_append.mp list.trail
  exact behind

section Pass

variable {state : State} {nodes rest : List Nat}

/-- A page is registered in a free node of the last page. -/
theorem initialising_link {r next place final i : Nat} {front : List Nat}
    (mirror : Mirror state nodes (r :: next :: rest))
    (split : state.lists state.runList = front ++ [final])
    (slot : nodeAt final i ∈ nodeSlots (state.lists state.runList)) (inside : i < lastNode)
    (unused : ∀ index, i ≤ index → index ≤ lastNode →
      freeMark (state.heap.addr (nodeAt final index)) = true)
    (last : ∃ front, state.runList :: nodes = front ++ [place]) (enough : i ≤ nodes.length + 1)
    {heap : Heap} (linked : state.heap.linkBehind (nodeAt final i) r place = heap) :
    heap.addr r = next ∧
      Initialising
        { state := { state with heap := heap }
          r := heap.addr r
          rnode := nodeAt final i + nodeSize
          brnode := heap.next place
          i := i + 1 } (nodes ++ [nodeAt final i]) rest := by
  obtain ⟨before, ring⟩ := last
  have free := unused i (Nat.le_refl i) (Nat.le_of_lt inside)
  have longer := mirror.append slot free ring
  have outside : ∀ other, IsPage other → other ∉ state.lists state.runList →
      SamePage state.heap (state.heap.linkBehind (nodeAt final i) r place) other :=
    fun other physical absent => mirror.run.same_linkBehind slot ring physical absent
  have addr := linkBehind_addr state.heap (nodeAt final i) r place
  have hop : (state.heap.linkBehind (nodeAt final i) r place).next place = nodeAt final i :=
    update_self _ _ _
  rw [linked] at longer outside addr hop
  have member : r ∈ nodes.map state.heap.addr ++ r :: next :: rest := by simp
  have same : heap.addr r = state.heap.addr r :=
    (outside r (mirror.free.physical r member)
      (fun within => mirror.owned.lists_free _ r within member) 0 (by decide)).1
  have link : state.heap.addr r = next := mirror.free.behind.1
  have home : IsPage final := mirror.run.layout.physical final (by simp [split])
  refine ⟨same.trans link, ?_, ⟨front, final, split, rfl, ?_⟩, ⟨Nat.succ_pos i, inside⟩, ?_, ?_⟩
  · change Mirror _ _ (heap.addr r :: rest)
    rw [same, link]
    exact longer
  · intro index low high
    have later : i < index := low
    change freeMark (heap.addr (nodeAt final index)) = true
    rw [addr, update_of_ne]
    · exact unused index (by omega) high
    · intro equal
      rw [lastNode_eq] at inside high
      have position := (nodeAt_inj home home (by omega) (by omega)).mp equal
      omega
  · refine ⟨state.runList :: nodes, ?_⟩
    change _ = _ ++ [heap.next place]
    rw [hop]
    rfl
  · change i + 1 ≤ (nodes ++ [nodeAt final i]).length + 1
    rw [length_append, length_singleton]
    omega

/-- The mark that a new node page is given first is overwritten. -/
theorem linkBehind_mark (heap : Heap) (rnode page mark r place : Nat) :
    (((heap.setAddr page mark).setAddr rnode 0).setNext rnode page).linkBehind page r place =
      (heap.extend rnode page).linkBehind page r place := by
  simp only [Heap.linkBehind, Heap.extend, Heap.setAddr, Heap.setNext]
  congr 1
  funext node
  by_cases same : node = page
  · simp [same]
  · by_cases last : node = rnode <;> simp [update_apply, same, last]

/-- When the last page is full, the first page is taken for nodes, and the next one
is registered there. -/
theorem initialising_turn {here : InitCursor} {next : Nat}
    (init : Initialising here nodes (next :: rest)) (full : here.i = lastNode) :
    ∃ state page more, nextNodePage here.state here.rnode = some (state, page) ∧
      more.length = nodes.length ∧ state.held = here.state.held ∧
      state.lists state.runList = here.state.lists here.state.runList ++ [page] ∧
      ∀ heap, state.heap.linkBehind page here.r here.brnode = heap →
        heap.addr here.r = next ∧
        Initialising
          { state := { state with heap := heap }
            r := heap.addr here.r
            rnode := page + nodeSize
            brnode := heap.next here.brnode
            i := 0 + 1 } more rest := by
  obtain ⟨front, final, split, rnode, -⟩ := init.page
  obtain ⟨before, ring⟩ := init.place
  have mirror := init.mirror
  rcases mirror.kalloc with ⟨empty, -⟩ | ⟨page, others, heap, left, free, answer, erased, taken, -⟩
  · simp at empty
  have member : page ∈ nodes.map here.state.heap.addr ++ here.r :: next :: rest := by simp [free]
  obtain ⟨first, nodes, rfl⟩ : ∃ first more, nodes = first :: more := by
    have enough := init.enough
    rw [full, lastNode_eq] at enough
    cases nodes with
    | nil => simp at enough
    | cons first nodes => exact ⟨first, nodes, rfl⟩
  obtain ⟨head, -⟩ : here.state.heap.addr first = page ∧ _ := List.cons.inj free
  have remain : left = nodes := by
    rw [erased, List.eraseP_cons_of_pos (by simp [head])]
  have unlisted : (here.r :: next :: rest).erase page = here.r :: next :: rest := by
    have once := mirror.free.once
    rw [List.map_cons, head, List.cons_append] at once
    exact List.erase_of_not_mem fun inside =>
      (List.nodup_cons.mp once).1 (List.mem_append_right _ inside)
  rw [← free] at taken
  have extended := taken.extend mirror member split
  rw [remain, unlisted] at extended
  have home := mirror.free.physical page member
  have bottom : IsPage final := mirror.run.layout.physical final (by simp [split])
  have apart : page ≠ final := by
    rintro rfl
    exact mirror.owned.lists_free _ page (by rw [split]; simp) member
  have filled : here.state.lists here.state.runList ≠ [] := by simp [split]
  obtain ⟨slot, -⟩ := extended_slot home bottom apart taken.blank filled
  have last : ∃ front, here.state.runList :: nodes = front ++ [here.brnode] := by
    have enough := init.enough
    rw [full, lastNode_eq, length_cons] at enough
    have size := congrArg List.length ring
    obtain ⟨one, two, behind, rfl⟩ : ∃ one two behind, before = one :: two :: behind := by
      rw [length_append, length_cons, length_cons, length_singleton] at size
      match before with
      | [] => simp at size
      | [_] =>
        simp only [length_singleton] at size
        omega
      | one :: two :: behind => exact ⟨one, two, behind, rfl⟩
    simp only [List.cons_append, List.cons.injEq] at ring
    refine ⟨here.state.runList :: behind, ?_⟩
    rw [ring.2.2]
    rfl
  have pages : ({ here.state with heap := heap.extend (nodeAt final lastNode) page }.grow
      here.state.runList page).lists here.state.runList =
        here.state.lists here.state.runList ++ [page] := update_self _ _ _
  have turn : nextNodePage here.state here.rnode =
      some ({ here.state with
        heap := ((heap.setAddr page 0x1010101).setAddr here.rnode 0).setNext here.rnode page }.grow
          here.state.runList page, page) := by
    simp only [nextNodePage, answer, if_neg home.ne_zero]
  refine ⟨_, page, nodes ++ [nodeAt page 0], turn, by simp, rfl, pages, fun heap' linked => ?_⟩
  refine initialising_link extended pages (pages ▸ slot) (by decide) ?_ last (Nat.zero_le _) ?_
  · intro index _ high
    rw [lastNode_eq] at high
    exact extend_blank taken.blank home bottom apart (by omega)
  · rw [← linked, rnode, full]
    exact (linkBehind_mark heap (nodeAt final lastNode) page _ here.r here.brnode).symm

/-- One pass leaves at the last page and registers every other one. -/
theorem initialising_step {here : InitCursor} (init : Initialising here nodes rest) :
    (rest = [] ∧ initPass here = .leave (some { here.state with tail := some here.r })) ∨
      ∃ next more behind, rest = next.r :: behind ∧ initPass here = .again next ∧
        Initialising next more behind ∧ next.state.held = here.state.held ∧
        ∀ total, Counted total here nodes rest → Counted total next more behind := by
  obtain ⟨front, final, split, rnode, unused⟩ := init.page
  have trail := init.mirror.free.behind
  have home : IsPage final := init.mirror.run.layout.physical final (by simp [split])
  cases rest with
  | nil =>
    have last : here.state.heap.addr here.r = 0 := trail
    exact .inl ⟨rfl, by simp [initPass, last]⟩
  | cons next rest =>
    have link : here.state.heap.addr here.r = next := trail.1
    have physical : IsPage next := init.mirror.free.physical next (by simp)
    have nonzero : here.state.heap.addr here.r ≠ 0 := link ▸ physical.ne_zero
    right
    by_cases full : here.i = lastNode
    · obtain ⟨state, page, more, turn, kept, held, lists, link⟩ := initialising_turn init full
      obtain ⟨hop, after⟩ := link _ rfl
      refine ⟨_, more, rest, ?_, ?_, after, held, fun total counted => ?_⟩
      · rw [hop]
      · simp only [initPass, if_neg nonzero, if_pos full, turn]
        rfl
      · obtain ⟨positive, spent, filled⟩ := counted
        have longer := congrArg List.length lists
        rw [length_append, length_singleton] at longer
        rw [full] at filled
        simp only [InitCursor.pages, lastNode_eq, length_cons] at positive spent filled
        constructor
        all_goals
          simp only [InitCursor.pages, lastNode_eq]
          omega
    · have inside : here.i < lastNode := Nat.lt_of_le_of_ne init.index.2 full
      have slot := slot_of_last_page split init.index.1 inside
      obtain ⟨hop, after⟩ := initialising_link init.mirror split slot inside unused init.place
        init.enough rfl
      refine ⟨_, _, rest, ?_, ?_, after, rfl, fun total counted => ?_⟩
      · rw [hop]
      · simp only [initPass, if_neg nonzero, if_neg full, rnode]
      · obtain ⟨positive, spent, filled⟩ := counted
        simp only [InitCursor.pages, lastNode_eq, length_cons] at positive spent filled
        constructor
        all_goals
          simp only [InitCursor.pages, lastNode_eq, length_append, length_singleton]
          omega

/-- With more than one node page, some slot behind the first page is free. -/
theorem Counted.room {here : InitCursor} {total : Nat} (counted : Counted total here nodes [])
    (init : Initialising here nodes []) (many : lastNode < total) :
    nodes.length < (nodeSlots (here.state.lists here.state.runList)).length := by
  have slots := length_nodeSlots init.mirror.run.layout.header_page
  obtain ⟨positive, spent, filled⟩ := counted
  have high := init.index.2
  rw [lastNode_eq] at filled many high
  simp only [InitCursor.pages, List.length_nil] at positive spent filled
  rw [lastNode_eq] at slots
  omega

/-- The loop registers every page but the last, and leaves a slot free when there were
more than 255 pages. -/
theorem loop_initPass {here : InitCursor} {total : Nat} (init : Initialising here nodes rest)
    (counted : Counted total here nodes rest) :
    ∃ state more tail, loop initPass (rest.length + 1) here =
        some (some { state with tail := some tail }) ∧
      Mirror state more [tail] ∧ (here.r :: rest).getLast? = some tail ∧
      state.held = here.state.held ∧
      (lastNode < total → more.length < (nodeSlots (state.lists state.runList)).length) := by
  induction rest generalizing here nodes with
  | nil =>
    rcases initialising_step init with ⟨-, left⟩ | ⟨next, more, behind, same, -⟩
    · exact ⟨here.state, nodes, here.r, loop_leave left _, init.mirror, rfl, rfl,
        counted.room init⟩
    · cases same
  | cons page rest ih =>
    rcases initialising_step init with ⟨same, -⟩ | ⟨next, more, behind, same, again, after, held, count⟩
    · cases same
    · obtain ⟨rfl, rfl⟩ := List.cons.inj same
      obtain ⟨state, last, tail, result, mirror, final, kept, room⟩ := ih after (count _ counted)
      refine ⟨state, last, tail, ?_, mirror, ?_, kept.trans held, room⟩
      · rw [length_cons, loop_again again, result]
      · rw [List.getLast?_cons_cons, final]

end Pass

/-- `init_run_list` builds one state, whatever the number of passes. -/
theorem initRunList_unique {booting first second : State} {passes more : Nat}
    (left : initRunList passes booting = some first)
    (right : initRunList more booting = some second) : first = second := by
  have same := loop_unique (Option.join_eq_some_iff.mp left) (Option.join_eq_some_iff.mp right)
  exact Option.some.inj same

/-- The allocator and the lists when `mlistinit` calls `init_run_list`: the run
list is empty, and pages are free. -/
structure Booting (state : State) (free : List Nat) : Prop where
  run : Fresh ⟨state.heap, state.runList, state.lists state.runList⟩
  list : FreeList state.heap free
  filled : free ≠ []
  others : ∀ header, header ≠ state.runList → state.lists header ≠ [] →
    ∃ nodes, Listing state.heap header (state.lists header) nodes
  owned : Owned state.lists state.held free

/-- `init_run_list` returns, and leaves out the last page. Of more than 255 free pages
it makes so many node pages that a slot is left. -/
theorem initRunList_spec {booting : State} {free : List Nat} (sound : Booting booting free) :
    ∃ init nodes, initRunList free.length booting = some init ∧
      Mirror init nodes init.tail.toList ∧ init.tail = free.getLast? ∧
      init.held = booting.held ∧
      (lastNode < free.length →
        nodes.length < (nodeSlots (init.lists init.runList)).length) := by
  obtain ⟨nodes, run, none⟩ := (lists_fresh sound.run).nodes
  obtain rfl : nodes = [] := List.map_eq_nil_iff.mp none
  have list := sound.list
  cases free with
  | nil => exact absurd rfl sound.filled
  | cons r rest =>
    have head := list.first
    have single : booting.lists booting.runList = [booting.runList] := sound.run.single
    have start : Initialising
        { state := booting
          r := booting.heap.freelist
          rnode := booting.runList + nodeSize
          brnode := booting.runList
          i := 1 } [] rest := by
      refine ⟨⟨run, ?_, sound.others, ?_⟩, ⟨[], booting.runList, single, rfl, ?_⟩,
        ⟨Nat.le_refl 1, Nat.le_of_ble_eq_true rfl⟩, ⟨[], rfl⟩, by simp⟩
      · rw [head]
        exact list
      · rw [head]
        exact sound.owned
      · intro index low high
        rw [lastNode_eq] at high
        have junk := sound.run.junk index (by omega) (Nat.ne_of_gt low)
        change freeMark (booting.heap.addr (nodeAt booting.runList index)) = true
        rw [junk]
        decide
    have counted : Counted (rest.length + 1)
        { state := booting
          r := booting.heap.freelist
          rnode := booting.runList + nodeSize
          brnode := booting.runList
          i := 1 } [] rest := by
      constructor
      all_goals
        simp only [InitCursor.pages, single, length_cons, List.length_nil]
        omega
    obtain ⟨state, more, tail, result, mirror, last, held, room⟩ := loop_initPass start counted
    rw [head] at last
    refine ⟨_, more, ?_, mirror.note (some tail), last.symm, held, room⟩
    rw [initRunList, length_cons, result]
    rfl

end Ev6.Allocator
