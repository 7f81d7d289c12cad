import Ev6.Allocator.AfterTreatment
import Ev6.Allocator.KmemRecovery

/-!
# Recovery of a free page

`recovery_handler_run` takes a broken page out of the run list and copies the change to
the free list, which it then starts at the page before the broken one. The after-treatment may
put pipes on the free list. `run_recovered_iff` says where on the free list and for which pipes
that is right.
-/

namespace Ev6.Allocator

open List (cons_ne_nil length_append length_cons length_map map_append map_cons mem_append mem_cons
  mem_cons_self nodup_append nodup_cons)
open Function (update update_of_ne update_self)
open Support MList

/-- The body of the loop of `recovery_handler_run`, at the node before that of the broken
page. Where the neighbour is the header of the run list, its `addr` is taken for a page:
to write there goes outside the memory, and the kernel faults. -/
def cutRun (heap : Heap) (runList bdnode : Nat) : Option Heap :=
  let dnode := heap.next bdnode
  let heap := heap.setNext bdnode (heap.next dnode)
  let r := if bdnode ≠ runList then heap.addr bdnode else heap.addr (heap.next bdnode)
  let next :=
    if bdnode ≠ runList then heap.addr (heap.next dnode)
    else heap.addr (heap.next (heap.next bdnode))
  if ¬IsPage r then none
  else
    some { ((heap.setAddr r next).setAddr dnode 0x1010101).setNext dnode 0x1010101 with
      freelist := r }

/-- One pass of the loop of `recovery_handler_run`. Without a node for the broken page,
the free list is lost. -/
def recoverRunPass (heap : Heap) (broken runList bdnode : Nat) : Pass Nat (Option Heap) :=
  if heap.next bdnode = runList then .leave (some { heap with freelist := 0 })
  else if heap.addr (heap.next bdnode) = broken then .leave (cutRun heap runList bdnode)
  else .again (heap.next bdnode)

/-- The surgery of `recovery_handler_run`. -/
def runSurgery (state : State) (broken : Nat) : Option Heap :=
  (loop (recoverRunPass state.heap broken state.runList) (state.passes state.runList)
    state.runList).join

/-- `recovery_handler_run`. -/
def recoveryHandlerRun (state : State) (fault : Logging.Fault) (table : FileTable)
    (broken : Nat) : Option Heap :=
  (runSurgery state broken).bind fun heap =>
    (afterTreatment state fault fault.pcs ⟨table, heap⟩).map Treated.heap

/-- The free list is the old one without the broken page, and the run list mirrors it. -/
def WithoutPage (state : State) (broken passes : Nat) (old : List Nat) (after : Heap) : Prop :=
  walkFree passes state.heap = some old ∧ walkFree passes after = some (old.erase broken) ∧
    walkList passes after state.runList = some (old.erase broken)

/-- The handler returns with such lists. -/
def RunRecovered (state : State) (fault : Logging.Fault) (table : FileTable) (broken : Nat) :
    Prop :=
  ∃ after passes old, recoveryHandlerRun state fault table broken = some after ∧
    WithoutPage state broken passes old after

/-- The surgery gives such lists. -/
def SurgeryRecovered (state : State) (broken : Nat) : Prop :=
  ∃ after passes old, runSurgery state broken = some after ∧
    WithoutPage state broken passes old after

/-! ## The loop -/

theorem loop_recoverRunPass {heap : Heap} {broken runList place : Nat} {before behind : List Nat}
    {node : Nat} (trail : Trail heap.next (heap.next place) (before ++ node :: behind) runList)
    (outside : runList ∉ before ++ node :: behind)
    (missed : ∀ other ∈ before, heap.addr other ≠ broken) (hit : heap.addr node = broken)
    {passes : Nat} (enough : before.length < passes) :
    loop (recoverRunPass heap broken runList) passes place =
      some (cutRun heap runList ((place :: before).getLast (cons_ne_nil _ _))) := by
  obtain ⟨more, rfl⟩ : ∃ more, passes = more + 1 := ⟨passes - 1, by omega⟩
  induction before generalizing place more with
  | nil =>
    obtain ⟨link, -⟩ := trail
    have different : node ≠ runList := by
      rintro rfl
      exact outside (by simp)
    have last : recoverRunPass heap broken runList place = .leave (cutRun heap runList place) := by
      simp [recoverRunPass, link, different, hit]
    exact loop_leave last more
  | cons first before ih =>
    obtain ⟨link, rest⟩ := trail
    obtain ⟨different, later⟩ : runList ≠ first ∧ runList ∉ before ++ node :: behind := by
      simpa using outside
    have next : recoverRunPass heap broken runList place = .again first := by
      simp [recoverRunPass, link, Ne.symm different, missed first mem_cons_self]
    rw [length_cons] at enough
    obtain ⟨fewer, rfl⟩ : ∃ fewer, more = fewer + 1 := ⟨more - 1, by omega⟩
    rw [loop_again next]
    have walked := ih rest later
      (fun other member => missed other (List.mem_cons_of_mem first member)) fewer (by omega)
    rw [walked, List.getLast_cons (cons_ne_nil _ _)]

theorem prefix_of_walk {heap : Heap} {passes place : Nat} {collected free : List Nat}
    (walked : loop (freePass heap) passes (place, collected) = some free) : collected <+: free := by
  induction passes generalizing place collected with
  | zero => cases walked
  | succ passes ih =>
    by_cases last : place = 0
    · have leaves : freePass heap (place, collected) = .leave collected := by
        simp [freePass, last]
      rw [loop_leave leaves] at walked
      exact Option.some.inj walked ▸ List.prefix_rfl
    · have goes : freePass heap (place, collected) =
          .again (heap.addr place, collected ++ [place]) := by
        simp [freePass, last]
      rw [loop_again goes] at walked
      exact (List.prefix_append collected [place]).trans (ih walked)

/-- A walk starts at the first word of the free list, unless that is 0. -/
theorem walkFree_headD {heap : Heap} {passes : Nat} {free : List Nat}
    (walked : walkFree passes heap = some free) : heap.freelist = free.headD 0 := by
  cases passes with
  | zero => cases walked
  | succ passes =>
    by_cases last : heap.freelist = 0
    · have leaves : freePass heap (heap.freelist, []) = .leave [] := by
        simp [freePass, last]
      rw [walkFree, loop_leave leaves] at walked
      cases walked
      exact last
    · have goes : freePass heap (heap.freelist, []) =
          .again (heap.addr heap.freelist, [heap.freelist]) := by
        simp [freePass, last]
      rw [walkFree, loop_again goes] at walked
      obtain ⟨more, rfl⟩ := prefix_of_walk walked
      rfl

/-! ## The memory after the surgery -/

section Surgery

variable {state : State} {before behind front : List Nat} {node place r link : Nat}

/-- The memory after `cutRun`, with the two words that it has read. -/
def cutHeap (heap : Heap) (place node r link : Nat) : Heap :=
  { (((heap.setNext place (heap.next node)).setAddr r link).setAddr node 0x1010101).setNext node
      0x1010101 with freelist := r }

theorem cutHeap_addr (heap : Heap) (place node r link : Nat) :
    (cutHeap heap place node r link).addr =
      update (update heap.addr r link) node 0x1010101 := rfl

theorem cutHeap_next (heap : Heap) (place node r link : Nat) :
    (cutHeap heap place node r link).next =
      update (update heap.next place (heap.next node)) node 0x1010101 := rfl

/-- The surgery behind the header goes by the two nodes that follow the broken one. -/
theorem cutRun_first {heap : Heap} {runList : Nat} (hop : heap.next runList = node)
    (other : heap.next node ≠ runList) :
    cutRun heap runList runList =
      if ¬IsPage (heap.addr (heap.next node)) then none
      else some (cutHeap heap runList node (heap.addr (heap.next node))
        (heap.addr (heap.next (heap.next node)))) := by
  simp [cutRun, cutHeap, Heap.setNext, Heap.setAddr, hop, update_of_ne other]

/-- The surgery behind another node goes by that node and the one that follows. -/
theorem cutRun_later {heap : Heap} {runList : Nat} (hop : heap.next place = node)
    (inner : place ≠ runList) (different : node ≠ place) :
    cutRun heap runList place =
      if ¬IsPage (heap.addr place) then none
      else some (cutHeap heap place node (heap.addr place) (heap.addr (heap.next node))) := by
  simp [cutRun, cutHeap, Heap.setNext, Heap.setAddr, hop, inner, update_of_ne different]

theorem Mirror.free_not_slot {nodes unlisted : List Nat} (mirror : Mirror state nodes unlisted)
    {page : Nat} (free : page ∈ nodes.map state.heap.addr ++ unlisted) :
    page ∉ nodeSlots (state.lists state.runList) := by
  intro slot
  have home := mirror.free.physical page free
  let owner : Page := ⟨page, home⟩
  have outside : owner.val ∉ state.lists state.runList := fun within =>
    mirror.owned.lists_free _ page within free
  exact slot_outside mirror.run.layout.physical outside slot
    (by decide : 0 < 256) rfl

/-- The broken page is off the run list, and the other pages lead where they did, apart
from the one that the handler has written to. -/
theorem Mirror.cut (mirror : Mirror state (before ++ node :: behind) [])
    (split : state.runList :: before = front ++ [place])
    (free : r ∈ (before ++ node :: behind).map state.heap.addr) {after : Heap}
    (result : cutHeap state.heap place node r link = after) :
    walkList (state.passes state.runList) after state.runList =
        some ((before ++ behind).map state.heap.addr) ∧
      after.freelist = r ∧ after.addr r = link ∧
      ∀ page ∈ (before ++ node :: behind).map state.heap.addr, page ≠ r →
        after.addr page = state.heap.addr page := by
  have run := mirror.run
  have inside : ∀ page ∈ (before ++ node :: behind).map state.heap.addr,
      page ∈ (before ++ node :: behind).map state.heap.addr ++ [] := fun page member => by
    simpa using member
  have apart : ∀ page ∈ (before ++ node :: behind).map state.heap.addr,
      ∀ slot ∈ before ++ node :: behind, slot ≠ page := by
    rintro page member slot within rfl
    exact mirror.free_not_slot (inside slot member) (run.inside slot within)
  have once := (nodup_cons.mp run.ring.once).2
  obtain ⟨lost, others⟩ := nodup_cons.mp (List.nodup_middle.mp once)
  have whole : (front ++ place :: node :: behind).Nodup := by
    have whole := run.ring.once
    rw [← List.cons_append, split, List.append_assoc] at whole
    exact whole
  obtain ⟨placeOnce, -⟩ := nodup_cons.mp (List.nodup_middle.mp whole)
  have place_ne : place ≠ node := by
    rintro rfl
    exact placeOnce (by simp)
  refine ⟨?_, ?_, ?_, ?_⟩
  · have ring : Ring after.next state.runList (before ++ behind) := by
      refine run.ring.remove split (fun other member => ?_) ?_
      · have different : other ≠ node := by
          rintro rfl
          rcases mem_append.mp member with early | late
          · exact (nodup_append.mp whole).2.2 other early other (by simp) rfl
          · exact lost (List.mem_append_right _ late)
        have distinct : other ≠ place := by
          rintro rfl
          refine placeOnce ?_
          simp only [mem_append, mem_cons] at member ⊢
          tauto
        rw [← result, cutHeap_next, update_of_ne different,
          update_of_ne distinct]
      · rw [← result, cutHeap_next, update_of_ne place_ne, update_self]
    have size := run.length_le
    have enough := length_nodeSlots_lt (state.lists state.runList)
    have addresses : (before ++ behind).map after.addr =
        (before ++ behind).map state.heap.addr := by
      refine List.map_congr_left fun other member => ?_
      have within : other ∈ before ++ node :: behind := by
        simp only [mem_append, mem_cons] at member ⊢
        tauto
      have different : other ≠ node := by
        rintro rfl
        exact lost member
      rw [← result, cutHeap_addr, update_of_ne different,
        update_of_ne (apart r free other within)]
    rw [walkList, loop_walkPass ring.trail.2 ring.head_not_mem [] ?_, addresses, List.nil_append]
    rw [length_append, length_cons] at size
    rw [State.passes, length_append]
    omega
  · rw [← result]
    rfl
  · rw [← result, cutHeap_addr,
      update_of_ne (Ne.symm (apart r free node (by simp))), update_self]
  · intro page member different
    rw [← result, cutHeap_addr, update_of_ne (Ne.symm (apart page member node (by simp))),
      update_of_ne different]

end Surgery

/-! ## The positions of the broken page -/

section Positions

variable {state : State} {before behind : List Nat} {node broken : Nat}

/-- The handler cuts behind the last node before that of the broken page. -/
theorem Mirror.runSurgery_eq (mirror : Mirror state (before ++ node :: behind) [])
    (hit : state.heap.addr node = broken) :
    runSurgery state broken =
      cutRun state.heap state.runList
        ((state.runList :: before).getLast (cons_ne_nil _ _)) := by
  have once := mirror.free.once
  rw [List.append_nil, map_append, map_cons, hit] at once
  have missed : ∀ other ∈ before, state.heap.addr other ≠ broken := fun other inside equal =>
    (nodup_append.mp once).2.2 _ (List.mem_map_of_mem inside) _ (by simp) equal
  have size := mirror.run.length_le
  have enough := length_nodeSlots_lt (state.lists state.runList)
  rw [length_append, length_cons] at size
  rw [runSurgery, loop_recoverRunPass mirror.run.ring.trail.2 mirror.run.header_not_mem
    missed hit (by rw [State.passes]; omega)]
  rfl

/-- A list that starts at a page and holds junk behind it is not the old free list. -/
theorem not_recovered_of_junk (mirror : Mirror state (before ++ node :: behind) [])
    {after : Heap} {r : Nat} (result : runSurgery state broken = some after)
    (start : after.freelist = r) (physical : IsPage r) (astray : after.addr r = novalue) :
    ¬SurgeryRecovered state broken := by
  rintro ⟨other, passes, old, again, walked, left, -⟩
  obtain rfl := Option.some.inj (result.symm.trans again)
  have nonzero : after.freelist ≠ 0 := start ▸ physical.ne_zero
  have leads : after.addr after.freelist = novalue := start ▸ astray
  have met := mem_walk_next left nonzero (by rw [leads]; decide)
  rw [leads] at met
  have list := mirror.free
  rw [walk_of_trail list.trail list.physical walked] at met
  exact absurd (list.physical novalue (List.mem_of_mem_erase met)) (by decide)

/-- The free list starts at the page before the broken one, and no page is before that:
the free list is right. -/
theorem recovered_of_cut (mirror : Mirror state (before ++ node :: behind) [])
    (hit : state.heap.addr node = broken) {front rest : List Nat} {place r link : Nat}
    (split : state.runList :: before = front ++ [place])
    (result : runSurgery state broken = some (cutHeap state.heap place node r link))
    (left : (before ++ behind).map state.heap.addr = r :: link :: rest)
    (trail : Trail state.heap.addr link (link :: rest) 0) : SurgeryRecovered state broken := by
  have list := mirror.free
  have once := list.once
  rw [List.append_nil] at once
  have old : ((before ++ node :: behind).map state.heap.addr).erase broken =
      (before ++ behind).map state.heap.addr := by
    rw [map_append, map_cons, hit] at once ⊢
    have absent : broken ∉ before.map state.heap.addr := fun inside =>
      (nodup_append.mp once).2.2 broken inside broken (by simp) rfl
    rw [List.erase_append_right _ absent, List.erase_cons_head, map_append]
  have kept : ∀ page ∈ (before ++ behind).map state.heap.addr,
      page ∈ (before ++ node :: behind).map state.heap.addr := fun page member =>
    List.mem_of_mem_erase (old ▸ member)
  have distinct : (r :: link :: rest).Nodup := by
    rw [← left, ← old]
    exact once.erase broken
  obtain ⟨walked, start, hop, others⟩ :=
    mirror.cut split (kept r (left ▸ mem_cons_self)) (rfl : cutHeap _ _ _ r link = _)
  have whole : Trail (cutHeap state.heap place node r link).addr r (r :: link :: rest) 0 := by
    refine ⟨rfl, ?_⟩
    rw [hop]
    refine trail.congr fun page inside => others page ?_ ?_
    · exact kept page (left ▸ List.mem_cons_of_mem r inside)
    · rintro rfl
      exact (nodup_cons.mp distinct).1 inside
  have physical : ∀ page ∈ r :: link :: rest, IsPage page := fun page inside =>
    list.physical page (List.mem_append_left _ (kept page (left ▸ inside)))
  have size := mirror.run.length_le
  have enough := length_nodeSlots_lt (state.lists state.runList)
  have count := congrArg List.length left
  rw [length_map, length_append] at count
  rw [length_append, length_cons] at size
  refine ⟨_, state.passes state.runList, _, result,
    loop_freePass list.trail list.physical [] ?_, ?_, ?_⟩
  · rw [List.append_nil, length_map, length_append, length_cons, State.passes]
    omega
  · rw [List.nil_append, List.append_nil, old, left, walkFree, start]
    refine loop_freePass whole physical [] ?_
    rw [State.passes]
    omega
  · rw [List.nil_append, List.append_nil, old]
    exact walked

theorem first_recovered_iff (mirror : Mirror state (node :: behind) [])
    (junk : state.heap.addr state.runList = novalue) (hit : state.heap.addr node = broken) :
    SurgeryRecovered state broken ↔ 2 ≤ behind.length := by
  have apart := (nodup_cons.mp mirror.run.ring.once).1
  obtain ⟨-, hop, trail⟩ := mirror.run.ring.trail
  have cut : runSurgery state broken = cutRun state.heap state.runList state.runList :=
    Mirror.runSurgery_eq (show Mirror state ([] ++ node :: behind) [] from mirror) hit
  cases behind with
  | nil =>
    have back : state.heap.next node = state.runList := trail
    have fault : cutRun state.heap state.runList state.runList = none := by
      have novalue : ¬IsPage novalue := by decide
      simp [cutRun, Heap.setNext, hop, back, junk, novalue]
    refine ⟨?_, fun enough => absurd enough (by simp)⟩
    rintro ⟨after, passes, old, returned, -⟩
    rw [cut, fault] at returned
    cases returned
  | cons second behind =>
    obtain ⟨follow, trail⟩ := trail
    have inner : state.heap.next node ≠ state.runList := by
      rw [follow]
      rintro rfl
      exact apart (by simp)
    have physical : IsPage (state.heap.addr second) := mirror.free.physical _ (by simp)
    rw [cutRun_first hop inner, follow, if_neg (not_not.mpr physical)] at cut
    cases behind with
    | nil =>
      have back : state.heap.next second = state.runList := trail
      rw [back, junk] at cut
      refine ⟨fun recovered => absurd recovered ?_, fun enough => absurd enough (by simp)⟩
      have mirror : Mirror state ([] ++ [node, second]) [] := mirror
      have member : second ∈ [node, second] := by simp
      obtain ⟨-, start, link, -⟩ := mirror.cut
        (show state.runList :: [] = [] ++ [state.runList] from rfl)
        (List.mem_map_of_mem member) rfl
      exact not_recovered_of_junk mirror cut start physical link
    | cons third behind =>
      obtain ⟨further, -⟩ := trail
      rw [further] at cut
      refine ⟨fun _ => by simp, fun _ => ?_⟩
      obtain ⟨middle, -, line⟩ := trail_append.mp
        (show Trail state.heap.addr state.heap.freelist
          ([state.heap.addr node, state.heap.addr second] ++
            state.heap.addr third :: behind.map state.heap.addr) 0 by
          simpa using mirror.free.trail)
      obtain ⟨rfl, line⟩ := line
      exact recovered_of_cut
        (show Mirror state ([] ++ node :: second :: third :: behind) [] from mirror) hit
        (show state.runList :: [] = [] ++ [state.runList] from rfl) cut rfl ⟨rfl, line⟩

theorem later_recovered_iff {front : List Nat} {place : Nat}
    (mirror : Mirror state ((front ++ [place]) ++ node :: behind) [])
    (junk : state.heap.addr state.runList = novalue) (hit : state.heap.addr node = broken) :
    SurgeryRecovered state broken ↔ front = [] ∧ behind ≠ [] := by
  have split : state.runList :: (front ++ [place]) = (state.runList :: front) ++ [place] := rfl
  have cut := mirror.runSurgery_eq hit
  have final : (state.runList :: (front ++ [place])).getLast (cons_ne_nil _ _) = place := by
    simp
  rw [final] at cut
  have whole := mirror.run.ring.once
  rw [List.append_assoc] at whole
  obtain ⟨header, once⟩ := nodup_cons.mp whole
  have inner : place ≠ state.runList := by
    rintro rfl
    exact header (by simp)
  have different : node ≠ place := by
    have later := (nodup_append.mp once).2.1
    rintro rfl
    simp at later
  have trail := mirror.run.ring.trail
  rw [← List.cons_append, split, List.append_assoc] at trail
  obtain ⟨middle, -, -, hop, behindTrail⟩ := trail_append.mp trail
  have member : state.heap.addr place ∈
      ((front ++ [place]) ++ node :: behind).map state.heap.addr :=
    List.mem_map_of_mem (by simp)
  have physical : IsPage (state.heap.addr place) :=
    mirror.free.physical _ (List.mem_append_left _ member)
  rw [cutRun_later hop inner different, if_neg (not_not.mpr physical)] at cut
  obtain ⟨-, start, link, -⟩ := mirror.cut split member
    (rfl : cutHeap _ _ _ (state.heap.addr place) (state.heap.addr (state.heap.next node)) = _)
  cases behind with
  | nil =>
    have back : state.heap.next node = state.runList := behindTrail
    rw [back, junk] at cut link start
    refine ⟨fun recovered => absurd recovered ?_, fun right => absurd rfl right.2⟩
    exact not_recovered_of_junk mirror cut start physical link
  | cons second behind =>
    obtain ⟨follow, -⟩ := behindTrail
    rw [follow] at cut start
    cases front with
    | nil =>
      refine ⟨fun _ => ⟨rfl, cons_ne_nil _ _⟩, fun _ => ?_⟩
      obtain ⟨middle, -, line⟩ := trail_append.mp
        (show Trail state.heap.addr state.heap.freelist
          ([state.heap.addr place, state.heap.addr node] ++
            state.heap.addr second :: behind.map state.heap.addr) 0 by
          simpa using mirror.free.trail)
      obtain ⟨rfl, line⟩ := line
      exact recovered_of_cut mirror hit split cut rfl ⟨rfl, line⟩
    | cons first front =>
      refine ⟨?_, fun right => absurd right.1 (cons_ne_nil _ _)⟩
      rintro ⟨after, passes, old, returned, walked, left, -⟩
      obtain rfl := Option.some.inj (cut.symm.trans returned)
      have list := mirror.free
      have same := walk_of_trail list.trail list.physical walked
      have distinct := list.once
      simp only [List.cons_append, map_cons, map_append, List.append_nil,
        nodup_cons, mem_append, mem_cons] at distinct
      have other : state.heap.addr first ≠ broken := by
        rintro equal
        rw [hit] at distinct
        exact distinct.1 (by simp [equal])
      have walkedLeft := left
      rw [same, List.cons_append, List.cons_append, map_cons, List.cons_append,
        List.erase_cons_tail (by simpa using other)] at walkedLeft
      have leads := walkFree_headD walkedLeft
      rw [start, List.headD_cons] at leads
      exact absurd (by simp [leads]) distinct.1

end Positions

/-- The surgery is right for the first and for the second page of a free list of at
least three pages, and for no other. The `addr` of the header is as `kalloc` has filled
it, since it is never written. -/
theorem surgery_recovered_iff {state : State} {nodes before behind : List Nat} {broken : Nat}
    (mirror : Mirror state nodes []) (junk : state.heap.addr state.runList = novalue)
    (position : nodes.map state.heap.addr = before ++ broken :: behind) :
    SurgeryRecovered state broken ↔ before.length ≤ 1 ∧ 2 ≤ before.length + behind.length := by
  obtain ⟨front, rest, rfl, rfl, tail⟩ := List.map_eq_append_iff.mp position
  obtain ⟨node, back, rfl, hit, rfl⟩ := List.map_eq_cons_iff.mp tail
  rcases List.eq_nil_or_concat front with rfl | ⟨front, place, rfl⟩
  · rw [first_recovered_iff mirror junk hit]
    simp
  · rw [List.concat_eq_append] at mirror ⊢
    rw [later_recovered_iff mirror junk hit]
    cases front with
    | nil =>
      cases back with
      | nil => simp
      | cons second back =>
        refine ⟨fun _ => ⟨by simp, ?_⟩, fun _ => ⟨rfl, cons_ne_nil second back⟩⟩
        simp only [length_map, length_append, length_cons]
        omega
    | cons first front => simp

/-- The files of pipes have references, and their pipes have been allocated. -/
structure FileTable.Used (table : FileTable) (held : List Nat) : Prop where
  positive : ∀ i < nfile, (table.files i).isPipe = true → 0 < (table.files i).ref
  held : ∀ i < nfile, (table.files i).isPipe = true → (table.files i).pipe ∈ held

/-- The handler is right exactly where its surgery is and its after-treatment leaves every pipe an
end. -/
theorem run_recovered_iff {state : State} {nodes before behind : List Nat} {broken : Nat}
    (mirror : Mirror state nodes []) (junk : state.heap.addr state.runList = novalue)
    (position : nodes.map state.heap.addr = before ++ broken :: behind)
    (fault : Logging.Fault) {table : FileTable} (used : table.Used state.held) :
    RunRecovered state fault table broken ↔
      (before.length ≤ 1 ∧ 2 ≤ before.length + behind.length) ∧
        KeepsPipes table (closings fault fault.pcs) := by
  rw [← surgery_recovered_iff mirror junk position]
  constructor
  · rintro ⟨after, passes, old, returned, walked, left, right⟩
    obtain ⟨heap, cut, treated⟩ := Option.bind_eq_some_iff.mp returned
    obtain ⟨final, closed, rfl⟩ := Option.map_eq_some_iff.mp treated
    rcases afterTreatment_frees used.positive closed with ⟨same, keeps⟩ | ⟨i, low, isPipe, start⟩
    · change final.heap = heap at same
      exact ⟨⟨heap, passes, old, cut, walked, same ▸ left, same ▸ right⟩, keeps⟩
    · -- a pipe is not one of the old free pages
      have held := used.held i low isPipe
      have physical := mirror.owned.held_physical _ held
      have list := mirror.free
      have same := walk_of_trail list.trail list.physical walked
      have first : (table.files i).pipe = (old.erase broken).headD 0 :=
        start.symm.trans (walkFree_headD left)
      cases rest : old.erase broken with
      | nil =>
        rw [rest] at first
        exact absurd first physical.ne_zero
      | cons page more =>
        rw [rest, List.headD_cons] at first
        have member : page ∈ old.erase broken := rest ▸ mem_cons_self
        rw [← first] at member
        exact absurd (same ▸ List.mem_of_mem_erase member) (mirror.owned.held_free _ held)
  · rintro ⟨⟨heap, passes, old, cut, walked, left, right⟩, keeps⟩
    obtain ⟨final, closed, same⟩ :=
      @afterTreatment_keeps state ⟨table, heap⟩ fault fault.pcs used.positive keeps
    refine ⟨heap, passes, old, ?_, walked, left, right⟩
    rw [recoveryHandlerRun, cut, Option.bind_some, closed, Option.map_some, same]

/-- The sample boot, with two pages that have been allocated before. -/
def sampleHeld : State := { sampleBooting with held := [samplePage 4, samplePage 5] }

theorem booting_held : Booting sampleHeld [samplePage 2, samplePage 3] := by
  have sound := booting_sample
  have cases : ∀ page ∈ [samplePage 4, samplePage 5], page = samplePage 4 ∨ page = samplePage 5 := by
    simp
  have apart : ∀ header, ∀ page ∈ [samplePage 4, samplePage 5],
      page ∉ sampleBooting.lists header := by
    intro header page member inside
    obtain ⟨rfl, same | same⟩ := sampleBooting_lists inside
    all_goals
      rcases cases page member with rfl | rfl
      all_goals revert same; decide
  refine ⟨sound.run, sound.list, sound.filled, sound.others, ?_⟩
  refine ⟨by decide, ?_, ?_, sound.owned.lists_apart, ?_, sound.owned.lists_free⟩
  · intro page member
    rcases cases page member with rfl | rfl <;> decide
  · intro page member
    rcases cases page member with rfl | rfl <;> decide
  · exact fun header page inside member => apart header page member inside

/-- Three pages have been freed, after the pages of the boot had been allocated. -/
def sampleThree : Option State :=
  (initRunList 2 sampleHeld).bind fun init =>
    LabelledSystem.exec allowedStep init
      [.kalloc, .kalloc, .kfree (samplePage 2), .kfree (samplePage 3), .kfree (samplePage 4)]

/-- The run list of the sample state mirrors its free list of three pages. -/
theorem sample_three : ∃ state nodes, sampleThree = some state ∧ Mirror state nodes [] ∧
    state.heap.addr state.runList = novalue ∧ samplePage 5 ∈ state.held ∧
    nodes.map state.heap.addr = [samplePage 4, samplePage 3, samplePage 2] := by
  have found : (sampleThree.any fun state =>
      decide (state.tail = none ∧ state.heap.addr state.runList = novalue ∧
        samplePage 5 ∈ state.held ∧
        walkFree 4 state.heap = some [samplePage 4, samplePage 3, samplePage 2])) = true := by
    decide +kernel
  obtain ⟨state, freed, facts⟩ := (Option.any_eq_true _ _).mp found
  obtain ⟨tail, junk, held, walked⟩ := of_decide_eq_true facts
  obtain ⟨init, built, result⟩ := Option.bind_eq_some_iff.mp freed
  obtain ⟨first, nodes, again, mirror, -⟩ := initRunList_spec booting_held
  obtain rfl := initRunList_unique again built
  obtain ⟨nodes, mirror⟩ := mirror_allowed result ⟨nodes, mirror⟩
  rw [tail] at mirror
  have same := walk_of_trail mirror.free.trail mirror.free.physical walked
  exact ⟨state, nodes, freed, mirror, junk, held, by simpa using same.symm⟩

/-- A process in `pipealloc`. -/
def piping : Logging.Fault :=
  ⟨fun routine => if routine = .pipealloc then (1, 3) else (1, 0), .aggressive, [2], 1, 1, false⟩

/-- A process in no function of interest. -/
def elsewhere : Logging.Fault := { piping with pcs := [] }

/-- The two files of an open pipe. -/
def openPipe : FileTable where
  files i := ⟨1, decide (i < 2), samplePage 5, decide (i = 1)⟩
  pipes _ := ⟨true, true⟩

theorem used_openPipe {held : List Nat} (member : samplePage 5 ∈ held) : openPipe.Used held :=
  ⟨fun _ _ _ => Nat.one_pos, fun _ _ _ => member⟩

theorem keepsPipes_openPipe : KeepsPipes openPipe 0 :=
  fun _ _ _ few => absurd few (Nat.not_succ_le_zero 0)

/-- Of three pages, the second is taken out, and the third is not; in `pipealloc`, the pipe
comes in. -/
theorem run_recovered_iff_sample : ∃ state, sampleThree = some state ∧
    RunRecovered state elsewhere openPipe (samplePage 3) ∧
    ¬RunRecovered state elsewhere openPipe (samplePage 2) ∧
    ¬RunRecovered state piping openPipe (samplePage 3) := by
  obtain ⟨state, nodes, freed, mirror, junk, held, pages⟩ := sample_three
  have second := run_recovered_iff mirror junk
    (show _ = [samplePage 4] ++ samplePage 3 :: [samplePage 2] from pages)
  have third := run_recovered_iff mirror junk
    (show _ = [samplePage 4, samplePage 3] ++ samplePage 2 :: [] from pages)
  have used := used_openPipe held
  refine ⟨state, freed, (second elsewhere used).mpr ⟨by decide, keepsPipes_openPipe⟩,
    fun recovered => ?_, fun recovered => ?_⟩
  · exact absurd ((third elsewhere used).mp recovered).1 (by decide)
  · have keeps := ((second piping used).mp recovered).2 0 (by decide) rfl (by decide)
    exact absurd (keeps.2 1 (by decide) rfl rfl rfl) (by decide)

/-- The last of three pages is broken, and the free list starts at the one before. -/
theorem free_list_starts_before_broken : ¬∀ state nodes before behind broken fault table,
    Mirror state nodes [] → state.heap.addr state.runList = novalue →
    nodes.map state.heap.addr = before ++ broken :: behind →
    FileTable.Used table state.held → RunRecovered state fault table broken := by
  intro always
  obtain ⟨state, nodes, freed, mirror, junk, held, pages⟩ := sample_three
  have used := used_openPipe held
  obtain ⟨after, passes, old, result, walked, left, -⟩ :=
    always state nodes [samplePage 4, samplePage 3] [] (samplePage 2) elsewhere openPipe mirror junk
      pages used
  have found : (sampleThree.any fun state =>
      (recoveryHandlerRun state elsewhere openPipe (samplePage 2)).any fun after =>
        decide (after.freelist = samplePage 3)) = true := by
    decide +kernel
  rw [freed, Option.any_some, result] at found
  have start : after.freelist = samplePage 3 := of_decide_eq_true found
  have same := walk_of_trail mirror.free.trail mirror.free.physical walked
  rw [pages, List.append_nil] at same
  have kept : old.erase (samplePage 2) = [samplePage 4, samplePage 3] := by
    rw [same]
    decide
  rw [kept] at left
  exact absurd (start.symm.trans (walkFree_headD left)) (by decide)

end Ev6.Allocator
