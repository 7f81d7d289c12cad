import Ev6.MList.NodeList
import Ev6.Support.LabelledSystem
import Mathlib.Data.List.Dedup

/-!
# Registering and deleting memory objects

Sequences of `register_memobj` and `delete_memobj` calls on one list. The page
that `my_kalloc` gives to a full list is part of the call; on the run list
`my_kalloc` also deletes that page from the list. `listed_of_sound_run` states
what the list is for along every run whose calls all meet `Sound`.
-/

namespace Ev6.MList

open List (mem_map)
open Support

/-- An address that can be registered. -/
abbrev Object := { address : Nat // IsObject address }

/-- The memory of a list and its header. `pages` are the pages that the list has
been given so far; no function reads it. -/
structure ObjectList where
  heap : Heap
  header : Nat
  pages : List Nat

/-- More passes than a loop along the list makes. -/
def ObjectList.passes (list : ObjectList) : Nat := 256 * (list.pages.length + 1)

/-- The calls on the list, with the page that `my_kalloc` gives when it is called. -/
inductive MemobjCall where
  | register (address : Object) (answer : Option Page)
  | delete (address : Object)

/-- `my_kalloc` as a list sees it: it returns a page that `kfree` has filled with
ones, and deletes it from the run list. -/
def giving (isRunList : Bool) (passes header : Nat) (answer : Option Page) (heap : Heap)
    (_avoid : Nat) : Option (Heap × Nat) :=
  match answer with
  | none => some (heap, 0)
  | some page =>
    let freed := heap.memset page emptyMark
    if isRunList then (deleteMemobj passes freed page header 0).map fun heap => (heap, page.val)
    else some (freed, page.val)

/-- One call. -/
def memobjStep (isRunList : Bool) (list : ObjectList) : MemobjCall → Option ObjectList
  | .register address answer =>
    (registerMemobj (giving isRunList list.passes list.header answer) list.passes list.heap
      address list.header).map fun heap =>
        { list with heap := heap, pages := list.pages ++ (answer.map Subtype.val).toList }
  | .delete address =>
    (deleteMemobj list.passes list.heap address list.header 0).map fun heap =>
      { list with heap := heap }

/-- `my_kalloc` is called when the scan ends at the last node of the last page;
it gives neither a page of the list nor the address that is registered. -/
def Given (list : ObjectList) : MemobjCall → Prop
  | .register address (some page) =>
    (∃ node, loop (registerPass list.heap address) list.passes (list.header + nodeSize) =
      some (.full node)) ∧ page.val ∉ list.pages ∧ page.val ≠ address.val
  | _ => True

/-- The list as `mlistinit` leaves it: a page of junk whose first node is linked
to itself. -/
structure Fresh (list : ObjectList) : Prop where
  physical : IsPage list.header
  single : list.pages = [list.header]
  junk : ∀ index < 256, index ≠ 0 → list.heap.addr (nodeAt list.header index) = novalue
  link : list.heap.next list.header = list.header

/-- Sequences of calls on one list. -/
def memobjSystem (isRunList : Bool) : LabelledSystem ObjectList MemobjCall where
  Initial := Fresh
  Step list call next := Given list call ∧ memobjStep isRunList list call = some next

/-- The effect of a call on the registered addresses, the latest first. -/
def listedAfter (isRunList : Bool) (addresses : List Nat) : MemobjCall → List Nat
  | .register address answer =>
    let left :=
      match answer with
      | some page => if isRunList then addresses.erase page else addresses
      | none => addresses
    if address.val ∈ left then left else address.val :: left
  | .delete address => addresses.erase address

/-- The addresses registered and not deleted since. -/
def listed (isRunList : Bool) (calls : List MemobjCall) : List Nat :=
  calls.foldl (listedAfter isRunList) []

@[simp] theorem listed_snoc (isRunList : Bool) (calls : List MemobjCall) (call : MemobjCall) :
    listed isRunList (calls ++ [call]) = listedAfter isRunList (listed isRunList calls) call := by
  simp [listed]

/-- The condition on the state before a call: no free node precedes the node of
an address that is registered again. -/
def Sound (list : ObjectList) : MemobjCall → Prop
  | .register address _ =>
    address.val ∈ (nodeSlots list.pages).map list.heap.addr →
      ∀ node ∈ (nodeSlots list.pages).takeWhile (list.heap.addr · ≠ address.val),
        freeMark (list.heap.addr node) = false
  | .delete _ => True

/-- A node that holds an object. -/
def InUse (list : ObjectList) (node : Nat) : Prop :=
  node ∈ nodeSlots list.pages ∧ freeMark (list.heap.addr node) = false

/-- The address that a call takes out of the list. -/
def removed (isRunList : Bool) : MemobjCall → Option Nat
  | .register _ answer => if isRunList then answer.map Subtype.val else none
  | .delete address => some address

/-- The addresses of a list are exactly the given ones, each once. -/
structure Lists (addresses : List Nat) (list : ObjectList) : Prop where
  nodes : ∃ nodes, Listing list.heap list.header list.pages nodes ∧
    nodes.map list.heap.addr = addresses
  once : addresses.Nodup

/-! ## One call -/

variable {list : ObjectList}

theorem lists_fresh (fresh : Fresh list) : Lists [] list where
  nodes := by
    have slots : nodeSlots [list.header] = pageNodes 1 list.header := by simp [nodeSlots]
    have junk : ∀ node ∈ nodeSlots [list.header], list.heap.addr node = novalue := by
      intro node slot
      rw [slots] at slot
      obtain ⟨index, low, high, rfl⟩ := mem_pageNodes.mp slot
      rw [lastNode_eq] at high
      exact fresh.junk index (by omega) (by omega)
    refine ⟨[], ⟨⟨?_, ?_, ?_, ?_, ?_⟩, ⟨?_, by simp⟩, by simp, by simp, ?_⟩, rfl⟩
    · rw [fresh.single]
      rfl
    · rw [fresh.single]
      simpa using fresh.physical
    · rw [fresh.single]
      exact List.nodup_singleton _
    · rw [fresh.single]
      change list.heap.addr (nodeAt list.header lastNode) ≠ 0
      rw [fresh.junk _ (by decide) (by decide)]
      decide
    · rw [fresh.single]
      intro node slot
      rw [junk node slot]
      decide
    · exact ⟨rfl, fresh.link⟩
    · rw [fresh.single]
      intro node slot _
      rw [junk node slot]
      decide
  once := List.nodup_nil

/-- A call that meets `Sound` links a free slot only for a new address. -/
theorem not_listed_of_sound {address : Object} {answer : Option Page}
    {nodes : List Nat} {node : Nat} (listing : Listing list.heap list.header list.pages nodes)
    (sound : Sound list (.register address answer))
    (found : (nodeSlots list.pages).find? (stopsAt list.heap address) = some node)
    (free : freeMark (list.heap.addr node) = true) : address.val ∉ nodes.map list.heap.addr := by
  intro member
  obtain ⟨holder, inside, same⟩ := mem_map.mp member
  have held : address.val ∈ (nodeSlots list.pages).map list.heap.addr :=
    mem_map.mpr ⟨holder, listing.inside holder inside, same⟩
  obtain ⟨-, before, behind, split, passed⟩ := List.find?_eq_some_iff_append.mp found
  have skipped : ∀ other ∈ before, decide (list.heap.addr other ≠ address.val) = true := by
    intro other early
    have missed := passed other early
    simp only [stopsAt, Bool.not_eq_true', Bool.or_eq_false_iff, decide_eq_false_iff_not] at missed
    simpa using missed.2
  have other : list.heap.addr node ≠ address.val := by
    intro holds
    rw [holds, address.property.2] at free
    cases free
  have early : node ∈ (nodeSlots list.pages).takeWhile (list.heap.addr · ≠ address.val) := by
    rw [split, List.takeWhile_append_of_pos skipped,
      List.takeWhile_cons_of_pos (by simpa using other)]
    simp
  rw [sound held node early] at free
  cases free

/-- What `my_kalloc` leaves: a blank page, and the list without that page. -/
theorem giving_spec (isRunList : Bool) {nodes : List Nat} {page : Page}
    (listing : Listing list.heap list.header list.pages nodes) (fresh : page.val ∉ list.pages)
    (avoid : Nat) :
    ∃ taken left, giving isRunList list.passes list.header (some page) list.heap avoid =
        some (taken, page.val) ∧ Listing taken list.header list.pages left ∧
      left.map taken.addr = (if isRunList then (nodes.map list.heap.addr).erase page
        else nodes.map list.heap.addr) ∧ BlankPage taken page ∧
      ∀ node ∈ nodeSlots list.pages, (isRunList = true → list.heap.addr node ≠ page.val) →
        taken.addr node = list.heap.addr node := by
  have physical := listing.layout.physical
  have outside : ∀ other ∈ list.pages, SamePage list.heap (list.heap.memset page emptyMark) other :=
    fun other member => same_memset list.heap emptyMark page.property (physical other member)
      fun equal => fresh (equal ▸ member)
  have freed := listing.congr outside
  have kept : ∀ node ∈ nodeSlots list.pages,
      (list.heap.memset page emptyMark).addr node = list.heap.addr node :=
    fun node slot => (same_slot outside slot).1
  have same : nodes.map (list.heap.memset page emptyMark).addr = nodes.map list.heap.addr :=
    List.map_congr_left fun node member => kept node (listing.inside node member)
  cases isRunList with
  | false => exact ⟨_, nodes, rfl, freed, same, blank_memset _ _ (by decide), fun node slot _ => kept node slot⟩
  | true =>
    obtain ⟨taken, result, after, addr, addresses, -, -⟩ :=
      freed.delete page 0 (length_nodeSlots_lt list.pages)
    refine ⟨taken, _, ?_, after, ?_, ?_, ?_⟩
    · simp only [giving, if_true]
      rw [ObjectList.passes, result]
      rfl
    · rw [addresses, same, if_pos rfl, List.erase_eq_eraseP, deleteTest_zero]
    · intro index inside nonzero
      rw [addr _ (.inl fun member => slot_outside physical fresh
        (listing.inside _ member) inside rfl)]
      exact blank_memset _ _ (by decide) index inside nonzero
    · intro node slot different
      rw [addr node (.inr ?_), kept node slot]
      rw [deleteTest_zero, kept node slot]
      exact beq_eq_false_iff_ne.mpr (Ne.symm (different rfl))

/-- A registration that needs a page and gets none. -/
def OutOfMemory (list : ObjectList) (call : MemobjCall) : Prop :=
  ∃ address, call = .register address none ∧
    ∃ node, loop (registerPass list.heap address) list.passes (list.header + nodeSize) =
      some (.full node)

/-- What a call does: the addresses change as they should, and no node in use is
overwritten, unless its address is the one that the call removes. -/
structure Effect (isRunList : Bool) (addresses : List Nat) (list : ObjectList)
    (call : MemobjCall) (next : ObjectList) : Prop where
  lists : Lists (listedAfter isRunList addresses call) next
  kept : ∀ node, InUse list node → removed isRunList call ≠ some (list.heap.addr node) →
    next.heap.addr node = list.heap.addr node

variable {isRunList : Bool} {addresses : List Nat}

theorem effect_delete (lists : Lists addresses list) (address : Object) :
    ∃ next, memobjStep isRunList list (.delete address) = some next ∧
      Effect isRunList addresses list (.delete address) next := by
  obtain ⟨nodes, listing, same⟩ := lists.nodes
  obtain ⟨after, result, kept, addr, left, -, -⟩ :=
    listing.delete address 0 (length_nodeSlots_lt list.pages)
  refine ⟨{ list with heap := after }, ?_, ⟨⟨_, kept, ?_⟩, ?_⟩, ?_⟩
  · rw [memobjStep, ObjectList.passes, result]
    rfl
  · rw [left, same, deleteTest_zero, ← List.erase_eq_eraseP]
    rfl
  · exact lists.once.erase _
  · intro node _ other
    refine addr node (.inr ?_)
    have different : address.val ≠ list.heap.addr node := fun equal => other (congrArg some equal)
    simpa [deleteTest_zero] using different

theorem effect_register {address : Object} {answer : Option Page} (lists : Lists addresses list)
    (given : Given list (.register address answer)) (sound : Sound list (.register address answer)) :
    OutOfMemory list (.register address answer) ∨
      ∃ next, memobjStep isRunList list (.register address answer) = some next ∧
        Effect isRunList addresses list (.register address answer) next := by
  obtain ⟨nodes, listing, same⟩ := lists.nodes
  have enough := length_nodeSlots_lt list.pages
  obtain ⟨front, final, split⟩ := listing.layout.split
  have scan := loop_registerPass address listing.layout split enough
  cases found : (nodeSlots list.pages).find? (stopsAt list.heap address) with
  | some node =>
    rw [found] at scan
    obtain rfl : answer = none := by
      cases answer with
      | none => rfl
      | some page =>
        obtain ⟨⟨full, ended⟩, -⟩ := given
        rw [ObjectList.passes, scan] at ended
        cases free : freeMark (list.heap.addr node) <;> simp [foundAt, free] at ended
    right
    obtain ⟨slot, ⟨free, outside⟩ | ⟨busy, inside, holds⟩⟩ := listing.stop found
    · have new := not_listed_of_sound listing sound found free
      refine ⟨⟨list.heap.link node address list.header, list.header, list.pages⟩, ?_,
        ⟨⟨node :: nodes, listing.link slot free address.property, ?_⟩, ?_⟩, ?_⟩
      · rw [memobjStep, ObjectList.passes, listing.layout.register_free enough found free]
        simp
      · rw [listing.link_addresses free, same]
        simp [listedAfter, ← same, new]
      · rw [same] at new
        have pushed : listedAfter isRunList addresses (.register address none) =
            address.val :: addresses := by
          simp [listedAfter, new]
        rw [pushed]
        exact List.nodup_cons.mpr ⟨new, lists.once⟩
      · intro other use _
        have apart : other ≠ node := by
          rintro rfl
          rw [use.2] at free
          cases free
        change (list.heap.link node address list.header).addr other = _
        rw [link_addr free, Function.update_of_ne apart]
    · have member : address.val ∈ addresses := by
        rw [← same]
        exact mem_map.mpr ⟨node, inside, holds⟩
      refine ⟨list, ?_, ⟨⟨nodes, listing, ?_⟩, ?_⟩, fun _ _ _ => rfl⟩
      · rw [memobjStep, ObjectList.passes, listing.layout.register_exists enough found busy]
        simp
      · simp [listedAfter, same, member]
      · simpa [listedAfter, member] using lists.once
  | none =>
    rw [found] at scan
    cases answer with
    | none => exact .inl ⟨address, rfl, _, scan⟩
    | some page =>
      right
      obtain ⟨-, fresh, -⟩ := given
      obtain ⟨taken, left, gave, after, remaining, blank, kept⟩ :=
        giving_spec isRunList listing fresh address
      have known := listing.layout.physical
      have last : final ∈ list.pages := by simp [split]
      have different : page.val ≠ final := by
        rintro equal
        exact fresh (equal ▸ last)
      have extended := after.extend split page.property fresh blank
      obtain ⟨slot, free⟩ := extended_slot page.property (known final last) different blank
        (List.ne_nil_of_mem last)
      have old : ∀ node ∈ nodeSlots list.pages,
          (taken.extend (nodeAt final lastNode) page).addr node = taken.addr node :=
        fun node member => extend_slot known fresh page.property (known final last) member
      have stay : left.map (taken.extend (nodeAt final lastNode) page).addr =
          left.map taken.addr :=
        List.map_congr_left fun node member => old node (after.inside node member)
      have absent : address.val ∉ addresses := same ▸ listing.not_registered found
      have new : address.val ∉ if isRunList then addresses.erase page else addresses := by
        split_ifs
        · exact fun member => absent (List.mem_of_mem_erase member)
        · exact absent
      have shorter : (if isRunList then addresses.erase page else addresses).Nodup := by
        split_ifs
        · exact lists.once.erase _
        · exact lists.once
      have pushed : listedAfter isRunList addresses (.register address (some page)) =
          address.val :: if isRunList then addresses.erase page else addresses := by
        simp only [listedAfter]
        rw [if_neg new]
      refine ⟨⟨(taken.extend (nodeAt final lastNode) page).link page address list.header,
        list.header, list.pages ++ [page.val]⟩, ?_,
        ⟨⟨_, extended.link slot free address.property, ?_⟩, ?_⟩, ?_⟩
      · have positive : page.val ≠ 0 := by
          have bounds := page.property.bounds
          omega
        rw [ObjectList.passes] at gave
        rw [memobjStep, ObjectList.passes, listing.layout.register_full split enough found, gave]
        simp [positive]
      · rw [extended.link_addresses free, stay, remaining, same, pushed]
      · rw [pushed]
        exact List.nodup_cons.mpr ⟨new, shorter⟩
      · intro node use other
        have apart : node ≠ page.val := by
          have start : nodeAt page 0 = page.val := rfl
          rw [← start]
          exact Ne.symm (slot_outside known fresh use.1 (by decide))
        change ((taken.extend (nodeAt final lastNode) page).link page address
          list.header).addr node = _
        rw [link_addr free, Function.update_of_ne apart, old node use.1]
        refine kept node use.1 fun run equal => other ?_
        simp [removed, run, equal]

/-- What a call that meets `Sound` does. It returns, unless it needs a page that
`my_kalloc` does not have. -/
theorem effect_call {call : MemobjCall} (lists : Lists addresses list) (given : Given list call)
    (sound : Sound list call) :
    OutOfMemory list call ∨ ∃ next, memobjStep isRunList list call = some next ∧
      Effect isRunList addresses list call next := by
  cases call with
  | register address answer => exact effect_register lists given sound
  | delete address => exact .inr (effect_delete lists address)

/-- A registration that runs out of memory does not return. -/
theorem memobjStep_outOfMemory {call : MemobjCall} (empty : OutOfMemory list call) :
    memobjStep isRunList list call = none := by
  obtain ⟨address, rfl, node, scan⟩ := empty
  simp [memobjStep, registerMemobj, scan, giving]

/-- In every run whose calls all meet `Sound`, walking the list from its header
yields exactly the addresses registered and not deleted since, each once, and
returns to the header; every such call returns unless it finds no page, and
overwrites no node in use but the one that it deletes. -/
theorem listed_of_sound_run {isRunList : Bool} {calls : List MemobjCall} {list : ObjectList}
    (run : ((memobjSystem isRunList).guarded Sound).Runs calls list) :
    walkList list.passes list.heap list.header = some (listed isRunList calls) ∧
    (listed isRunList calls).Nodup ∧ (∃ nodes, Ring list.heap.next list.header nodes ∧
      nodes.map list.heap.addr = listed isRunList calls) ∧
    ∀ call, Given list call → Sound list call → OutOfMemory list call ∨
      ∃ next, memobjStep isRunList list call = some next ∧
        ∀ node, InUse list node → removed isRunList call ≠ some (list.heap.addr node) →
          next.heap.addr node = list.heap.addr node := by
  have lists : Lists (listed isRunList calls) list := by
    refine run.history_invariant (fun calls list => Lists (listed isRunList calls) list) ?_ ?_
    · intro list fresh
      exact lists_fresh fresh
    · intro calls list call next lists ⟨sound, given, taken⟩
      rcases effect_call lists given sound with empty | ⟨after, result, effect⟩
      · rw [memobjStep_outOfMemory empty] at taken
        cases taken
      · obtain rfl : after = next := Option.some.inj (result.symm.trans taken)
        rw [listed_snoc]
        exact effect.lists
  obtain ⟨nodes, listing, same⟩ := lists.nodes
  refine ⟨?_, lists.once, ⟨nodes, listing.ring, same⟩, fun call given sound => ?_⟩
  · rw [← same]
    exact listing.walk (length_nodeSlots_lt list.pages)
  · rcases effect_call lists given sound with empty | ⟨next, result, effect⟩
    · exact .inl empty
    · exact .inr ⟨next, result, effect.kept⟩

/-- A fresh list in the first page of physical memory. -/
def sampleList : ObjectList where
  heap := { addr _ := novalue, next _ := kernbase, freelist := 0 }
  header := kernbase
  pages := [kernbase]

theorem fresh_sampleList : Fresh sampleList where
  physical := by decide
  single := rfl
  junk _ _ _ := rfl
  link := rfl

/-- Two objects. -/
def sampleObject (number : Fin 2) : Object :=
  ⟨kernbase + 0x5000 + 0x100 * number, by revert number; decide⟩

/-- Both are registered, and the first is deleted. -/
def sampleCalls : List MemobjCall :=
  let first := sampleObject ⟨0, Nat.zero_lt_two⟩
  [.register first none, .register (sampleObject ⟨1, Nat.one_lt_two⟩) none, .delete first]

theorem listed_of_sound_run_sample :
    ∃ list, ((memobjSystem false).guarded Sound).Runs sampleCalls list ∧
      walkList list.passes list.heap list.header = some (listed false sampleCalls) ∧
      (listed false sampleCalls).Nodup ∧
      (∃ nodes, Ring list.heap.next list.header nodes ∧
        nodes.map list.heap.addr = listed false sampleCalls) ∧
      ∀ call, Given list call → Sound list call → OutOfMemory list call ∨
        ∃ next, memobjStep false list call = some next ∧
          ∀ node, InUse list node → removed false call ≠ some (list.heap.addr node) →
            next.heap.addr node = list.heap.addr node := by
  have found : ((memobjStep false sampleList (.register (sampleObject 0) none)).any fun first =>
      (nodeSlots first.pages).all (fun node => first.heap.addr node ≠ (sampleObject 1).val) &&
        (memobjStep false first (.register (sampleObject 1) none)).any fun second =>
          (memobjStep false second (.delete (sampleObject 0))).isSome) = true := by decide +kernel
  obtain ⟨first, registered, facts⟩ := (Option.any_eq_true _ _).mp found
  obtain ⟨other, facts⟩ := (Bool.and_eq_true _ _).mp facts
  obtain ⟨second, both, facts⟩ := (Option.any_eq_true _ _).mp facts
  obtain ⟨list, deleted⟩ := Option.isSome_iff_exists.mp facts
  have sound : Sound sampleList (.register (sampleObject 0) none) := by
    intro held
    obtain ⟨node, -, junk⟩ := mem_map.mp held
    have word : novalue = (sampleObject 0).val := junk
    exact absurd word (by decide)
  have soundToo : Sound first (.register (sampleObject 1) none) := by
    intro held
    obtain ⟨node, slot, same⟩ := mem_map.mp held
    exact absurd same (of_decide_eq_true (List.all_eq_true.mp other node slot))
  have start : ((memobjSystem false).guarded Sound).Runs [] sampleList :=
    .initial fresh_sampleList
  have registrations := (start.step ⟨sound, trivial, registered⟩).step ⟨soundToo, trivial, both⟩
  have step : ((memobjSystem false).guarded Sound).Step second (.delete (sampleObject 0)) list :=
    ⟨trivial, trivial, deleted⟩
  have run : ((memobjSystem false).guarded Sound).Runs sampleCalls list := registrations.step step
  exact ⟨list, run, listed_of_sound_run run⟩

/-- Two objects are registered, the first is deleted, and the second is
registered again: the scan meets the freed node first, and the second object is
listed twice. -/
theorem registered_twice :
    ¬ ∀ isRunList calls list, (memobjSystem isRunList).Runs calls list →
      walkList list.passes list.heap list.header = some (listed isRunList calls) := by
  intro claimed
  let calls : List MemobjCall := [.register (sampleObject 0) none,
    .register (sampleObject 1) none, .delete (sampleObject 0), .register (sampleObject 1) none]
  have found : (LabelledSystem.exec (memobjStep false) sampleList calls).bind
      (fun list => walkList list.passes list.heap list.header) =
        some [(sampleObject 1).val, (sampleObject 1).val] := by decide
  obtain ⟨list, result, walked⟩ := Option.bind_eq_some_iff.mp found
  have given : ∀ list call, call ∈ calls → Given list call := by
    intro list call member
    simp only [calls, List.mem_cons, List.not_mem_nil, or_false] at member
    rcases member with rfl | rfl | rfl | rfl <;> trivial
  have start : (memobjSystem false).Runs [] sampleList := .initial fresh_sampleList
  have sound : ∀ list call next, call ∈ calls → memobjStep false list call = some next →
      (memobjSystem false).Step list call next :=
    fun list call _ member taken => ⟨given list call member, taken⟩
  have run : (memobjSystem false).Runs calls list := LabelledSystem.Runs.append_exec sound start result
  rw [claimed false calls list run] at walked
  exact absurd walked (by decide)

end Ev6.MList
