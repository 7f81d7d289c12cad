import Ev6.MList.ObjectList

/-!
# Calls on several lists

The recovery handlers register and delete memory objects on the lists of
`struct mlist_header`. `Performed` is a sequence of such calls that all return, and
`listedBy` what the calls leave on a list when they register new addresses only.
A list takes a page from `my_kalloc` where it needs one, which deletes that page from
the run list.
-/

namespace Ev6.MList.Relisting

open List (mem_append_right mem_cons mem_map nodup_append not_mem_nil)
open Function (update update_of_ne update_self)
open Support

/-- The lists of `struct mlist_header` that the recovery handlers change. -/
inductive ListId where
  | run
  | buf
  | fil
  | ino
  | log
  | pip
  | slp
  | spn
  | con
  | pr
  | kmm
deriving DecidableEq

/-- `mlist`, each list in its own pages. -/
abbrev MlistHeader := ListId → ObjectList

/-- A call of `register_memobj` or `delete_memobj`. -/
inductive Call where
  | register (list : ListId) (address : Nat)
  | delete (list : ListId) (address size : Nat)

/-- `register_memobj` on a list, with the page that `my_kalloc` gives it. -/
def registerOn (list : ObjectList) (address : Nat) (answer : Option Page) : Option ObjectList :=
  (registerMemobj (giving false list.passes list.header answer) list.passes list.heap address
    list.header).map fun heap =>
      { list with heap := heap, pages := list.pages ++ (answer.map Subtype.val).toList }

/-- `delete_memobj` on a list. -/
def deleteOn (list : ObjectList) (address size : Nat) : Option ObjectList :=
  (deleteMemobj list.passes list.heap address list.header size).map fun heap =>
    { list with heap := heap }

/-- `my_kalloc` deletes the page that it gives from the run list. -/
def takePage (mlist : MlistHeader) : Option Page → Option MlistHeader
  | none => some mlist
  | some page => (deleteOn (mlist .run) page 0).map (update mlist .run)

/-- One call. -/
def perform (mlist : MlistHeader) (answer : Option Page) : Call → Option MlistHeader
  | .register list address =>
    (registerOn (mlist list) address answer).bind fun after =>
      takePage (update mlist list after) answer
  | .delete list address size =>
    (deleteOn (mlist list) address size).map (update mlist list)

/-- `my_kalloc` is called when the scan ends at the last node of the last page; it
gives neither a page of the list nor the address that is registered. -/
def PageGiven (list : ObjectList) (address : Nat) (answer : Option Page) : Prop :=
  ∀ page, answer = some page →
    (∃ node, loop (registerPass list.heap address) list.passes (list.header + nodeSize) =
      some (.full node)) ∧ page.val ∉ list.pages ∧ page.val ≠ address

/-- Calls that are made one after the other and all return. -/
inductive Performed : List Call → MlistHeader → MlistHeader → Prop where
  | done (mlist : MlistHeader) : Performed [] mlist mlist
  | call {call : Call} {calls : List Call} {mlist next final : MlistHeader}
      (answer : Option Page)
      (given : ∀ list address, call = .register list address →
        PageGiven (mlist list) address answer)
      (returned : perform mlist answer call = some next) (rest : Performed calls next final) :
      Performed (call :: calls) mlist final

variable {mlist : MlistHeader}

theorem Performed.split {front back : List Call} {final : MlistHeader}
    (performed : Performed (front ++ back) mlist final) :
    ∃ middle, Performed front mlist middle ∧ Performed back middle final := by
  induction front generalizing mlist with
  | nil => exact ⟨mlist, .done mlist, performed⟩
  | cons call front ih =>
    cases performed with
    | call answer given returned rest =>
      obtain ⟨middle, first, second⟩ := ih rest
      exact ⟨middle, .call answer given returned first, second⟩

/-! ## One call -/

section Call

variable {mlist next : MlistHeader} {answer : Option Page} {list : ListId} {address size : Nat}

/-- A registration changes its list and, when it takes a page, the run list. -/
theorem perform_register (returned : perform mlist answer (.register list address) = some next) :
    ∃ after, registerOn (mlist list) address answer = some after ∧
      takePage (update mlist list after) answer = some next :=
  Option.bind_eq_some_iff.mp returned

theorem perform_delete (returned : perform mlist answer (.delete list address size) = some next) :
    ∃ after, deleteOn (mlist list) address size = some after ∧
      next = update mlist list after := by
  obtain ⟨after, result, same⟩ := Option.map_eq_some_iff.mp returned
  exact ⟨after, result, same.symm⟩

/-- Taking a page changes no list but the run list. -/
theorem takePage_other (taken : takePage mlist answer = some next) (other : list ≠ .run) :
    next list = mlist list := by
  cases answer with
  | none =>
    cases taken
    rfl
  | some page =>
    obtain ⟨after, -, rfl⟩ := Option.map_eq_some_iff.mp taken
    exact update_of_ne other _ _

end Call

/-! ## What a call does to the addresses of a list -/

section Lists

variable {addresses : List Nat} {list next : ObjectList} {address size : Nat}
  {answer : Option Page}

/-- A page that is given, as the calls on one list state it. -/
theorem PageGiven.given (granted : PageGiven list address answer) (object : IsObject address) :
    Given list (.register ⟨address, object⟩ answer) := by
  cases answer with
  | none => trivial
  | some page => exact granted page rfl

/-- A new address is put in front of the others, and no node in use changes. -/
theorem effect_registerOn (lists : Lists addresses list) (object : IsObject address)
    (fresh : address ∉ addresses) (granted : PageGiven list address answer)
    (returned : registerOn list address answer = some next) :
    Lists (address :: addresses) next ∧
      ∀ node, InUse list node → next.heap.addr node = list.heap.addr node := by
  have step : memobjStep false list (.register ⟨address, object⟩ answer) = some next := returned
  have sound : Sound list (.register ⟨address, object⟩ answer) := by
    intro held
    obtain ⟨node, slot, same⟩ := mem_map.mp held
    obtain ⟨nodes, listing, equal⟩ := lists.nodes
    refine absurd ?_ fresh
    rw [← equal]
    by_cases member : node ∈ nodes
    · exact mem_map.mpr ⟨node, member, same⟩
    · have free := listing.unused node slot member
      rw [same, object.2] at free
      cases free
  have call : OutOfMemory list (.register ⟨address, object⟩ answer) ∨
      ∃ after, memobjStep false list (.register ⟨address, object⟩ answer) = some after ∧
        Effect false addresses list (.register ⟨address, object⟩ answer) after :=
    effect_register lists (granted.given object) sound
  rcases call with empty | ⟨after, result, effect⟩
  · rw [memobjStep_outOfMemory empty] at step
    cases step
  · obtain rfl : after = next := Option.some.inj (result.symm.trans step)
    have pushed : listedAfter false addresses (.register ⟨address, object⟩ answer) =
        address :: addresses := by
      cases answer <;> simp [listedAfter, fresh]
    refine ⟨pushed ▸ effect.lists, fun node use => effect.kept node use ?_⟩
    simp [removed]

/-- A deletion takes out the first address that its test selects, and frees the node
that held it. -/
theorem effect_deleteOn (lists : Lists addresses list)
    (returned : deleteOn list address size = some next) :
    Lists (addresses.eraseP (deleteTest address size)) next ∧
      next.pages = list.pages ∧
      (∀ node, deleteTest address size (list.heap.addr node) = false →
        next.heap.addr node = list.heap.addr node) ∧
      ∀ node ∈ nodeSlots list.pages, freeMark (list.heap.addr node) = true →
        freeMark (next.heap.addr node) = true := by
  obtain ⟨nodes, listing, same⟩ := lists.nodes
  obtain ⟨after, result, left, addr, remaining, -, -⟩ :=
    listing.delete address size (length_nodeSlots_lt list.pages)
  obtain rfl : ({ list with heap := after } : ObjectList) = next := by
    rw [deleteOn, ObjectList.passes, result] at returned
    exact Option.some.inj returned
  refine ⟨⟨⟨_, left, ?_⟩, ?_⟩, rfl, fun node other => addr node (.inr other), ?_⟩
  · rw [← same]
    exact remaining
  · exact lists.once.sublist (List.eraseP_sublist)
  · intro node _ free
    have kept : after.addr node = list.heap.addr node :=
      addr node (.inl (listing.not_mem_of_free free))
    change freeMark (after.addr node) = true
    rw [kept, free]

/-- The node that held the address is free afterwards. -/
theorem deleteOn_frees (lists : Lists addresses list)
    (returned : deleteOn list address 0 = some next) {node : Nat}
    (slot : node ∈ nodeSlots list.pages) (holds : list.heap.addr node = address) :
    freeMark (next.heap.addr node) = true := by
  obtain ⟨nodes, listing, same⟩ := lists.nodes
  obtain ⟨after, result, left, addr, remaining, -, -⟩ :=
    listing.delete address 0 (length_nodeSlots_lt list.pages)
  obtain rfl : ({ list with heap := after } : ObjectList) = next := by
    rw [deleteOn, ObjectList.passes, result] at returned
    exact Option.some.inj returned
  refine left.unused node slot fun member => ?_
  have erased : (nodes.eraseP fun node => deleteTest address 0 (list.heap.addr node)).map
      list.heap.addr = addresses.erase address := by
    have test : (fun node => deleteTest address 0 (list.heap.addr node)) =
        (deleteTest address 0) ∘ list.heap.addr := rfl
    rw [test, ← List.eraseP_map, same, deleteTest_zero, List.erase_eq_eraseP]
  have still : list.heap.addr node ∈ addresses.erase address :=
    erased ▸ List.mem_map_of_mem member
  rw [holds] at still
  exact (List.Nodup.not_mem_erase lists.once) still

end Lists

/-! ## What the calls leave on a list -/

/-- The address that a call registers on a list. -/
def registers (list : ListId) : Call → Option Nat
  | .register other address => if other = list then some address else none
  | .delete _ _ _ => none

/-- The addresses that calls register on a list, in order. -/
def registered (list : ListId) (calls : List Call) : List Nat := calls.filterMap (registers list)

/-- The effect of a call on the addresses of a list, where it registers new ones. -/
def listedAfter (list : ListId) (addresses : List Nat) : Call → List Nat
  | .register other address => if other = list then address :: addresses else addresses
  | .delete other address size =>
    if other = list then addresses.eraseP (deleteTest address size) else addresses

/-- The effect of calls on the addresses of a list. -/
def listedBy (list : ListId) (addresses : List Nat) (calls : List Call) : List Nat :=
  calls.foldl (listedAfter list) addresses

@[simp] theorem listedBy_nil (list : ListId) (addresses : List Nat) :
    listedBy list addresses [] = addresses := rfl

@[simp] theorem listedBy_cons (list : ListId) (addresses : List Nat) (call : Call)
    (calls : List Call) :
    listedBy list addresses (call :: calls) = listedBy list (listedAfter list addresses call) calls :=
  rfl

/-- Calls that register each address once, on a list that does not have it. -/
structure Registrable (calls : List Call) (addresses : ListId → List Nat) : Prop where
  objects : ∀ list, ∀ address ∈ registered list calls, IsObject address
  once : ∀ list, (registered list calls).Nodup
  fresh : ∀ list, ∀ address ∈ registered list calls, address ∉ addresses list
  notRun : registered .run calls = []

@[simp] theorem registered_nil (list : ListId) : registered list [] = [] := rfl

@[simp] theorem registered_register (list other : ListId) (address : Nat) (calls : List Call) :
    registered list (.register other address :: calls) =
      if other = list then address :: registered list calls else registered list calls := by
  by_cases same : other = list <;> simp [registered, registers, same]

@[simp] theorem registered_delete (list other : ListId) (address size : Nat) (calls : List Call) :
    registered list (.delete other address size :: calls) = registered list calls := rfl

@[simp] theorem registered_append (list : ListId) (front back : List Call) :
    registered list (front ++ back) = registered list front ++ registered list back :=
  List.filterMap_append

/-- The addresses registered by a list of calls, its first call apart. -/
theorem registered_cons (list : ListId) (call : Call) (calls : List Call) :
    registered list (call :: calls) = (registers list call).toList ++ registered list calls := by
  cases first : registers list call <;> simp [registered, first]

variable {call : Call} {addresses : List Nat} {list : ListId} {address : Nat}

/-- A call adds the address that it registers, and no other. -/
theorem mem_listedAfter (member : address ∈ listedAfter list addresses call) :
    registers list call = some address ∨ address ∈ addresses := by
  cases call with
  | register other new =>
    by_cases same : other = list
    · simp only [listedAfter, if_pos same, mem_cons] at member
      rcases member with rfl | old
      · exact .inl (if_pos same)
      · exact .inr old
    · simp only [listedAfter, if_neg same] at member
      exact .inr member
  | delete other start size =>
    by_cases same : other = list
    · simp only [listedAfter, if_pos same] at member
      exact .inr (List.mem_of_mem_eraseP member)
    · simp only [listedAfter, if_neg same] at member
      exact .inr member

variable {calls : List Call}

theorem Registrable.tail {addresses after : ListId → List Nat}
    (registrable : Registrable (call :: calls) addresses)
    (changed : ∀ list, list ≠ .run → after list = listedAfter list (addresses list) call) :
    Registrable calls after where
  objects := by
    intro list address member
    refine registrable.objects list address ?_
    rw [registered_cons]
    exact mem_append_right _ member
  once := by
    intro list
    have whole := registrable.once list
    rw [registered_cons] at whole
    exact (nodup_append.mp whole).2.1
  fresh := by
    intro list address later member
    have whole := registrable.once list
    have fresh := registrable.fresh list address
    rw [registered_cons] at whole fresh
    by_cases run : list = .run
    · subst run
      have empty := registrable.notRun
      rw [registered_cons, List.append_eq_nil_iff] at empty
      rw [empty.2] at later
      cases later
    · rw [changed list run] at member
      rcases mem_listedAfter member with first | old
      · refine (nodup_append.mp whole).2.2 address ?_ address later rfl
        simp [first]
      · exact fresh (mem_append_right _ later) old
  notRun := by
    have empty := registrable.notRun
    rw [registered_cons, List.append_eq_nil_iff] at empty
    exact empty.2

/-- One call keeps account of every list; on the run list it deletes at most. -/
theorem lists_perform {addresses : ListId → List Nat} {next : MlistHeader} {answer : Option Page}
    (lists : ∀ list, Lists (addresses list) (mlist list))
    (registrable : Registrable (call :: calls) addresses)
    (given : ∀ list address, call = .register list address → PageGiven (mlist list) address answer)
    (returned : perform mlist answer call = some next) :
    ∃ after : ListId → List Nat, (∀ list, Lists (after list) (next list)) ∧
      (∀ list, list ≠ .run → after list = listedAfter list (addresses list) call) ∧
      after .run ⊆ addresses .run := by
  cases call with
  | register target address =>
    obtain ⟨changed, result, taken⟩ := perform_register returned
    have member : address ∈ registered target (.register target address :: calls) := by
      simp [registered_cons, registers]
    have notRun : target ≠ .run := by
      rintro rfl
      rw [registrable.notRun] at member
      cases member
    have here := (effect_registerOn (lists target) (registrable.objects target address member)
      (registrable.fresh target address member) (given target address rfl) result).1
    have others : ∀ list, list ≠ .run →
        Lists (listedAfter list (addresses list) (.register target address)) (next list) := by
      intro list run
      rw [takePage_other taken run]
      by_cases same : list = target
      · subst same
        simpa [listedAfter] using here
      · simpa [listedAfter, same, Ne.symm same] using lists list
    have run : ∃ left, Lists left (next .run) ∧ left ⊆ addresses .run := by
      have before : Lists (addresses .run) (update mlist target changed .run) := by
        simpa [Ne.symm notRun] using lists .run
      cases answer with
      | none =>
        cases taken
        exact ⟨_, before, List.Subset.refl _⟩
      | some page =>
        obtain ⟨left, deleted, rfl⟩ := Option.map_eq_some_iff.mp taken
        rw [update_self]
        exact ⟨_, (effect_deleteOn before deleted).1, List.eraseP_subset⟩
    obtain ⟨left, remaining, fewer⟩ := run
    refine ⟨update (fun list => listedAfter list (addresses list)
      (.register target address)) .run left, fun list => ?_, fun list other => ?_, ?_⟩
    · by_cases same : list = .run
      · subst same
        simpa using remaining
      · simpa [same] using others list same
    · exact update_of_ne other _ _
    · simpa using fewer
  | delete target address size =>
    obtain ⟨changed, result, rfl⟩ := perform_delete returned
    have here := (effect_deleteOn (lists target) result).1
    refine ⟨fun list => listedAfter list (addresses list) (.delete target address size),
      fun list => ?_, fun list _ => rfl, ?_⟩
    · by_cases same : list = target
      · subst same
        simpa [listedAfter] using here
      · simpa [listedAfter, same, Ne.symm same] using lists list
    · intro page member
      exact (mem_listedAfter member).resolve_left (by simp [registers])

theorem Performed.lists {addresses : ListId → List Nat}
    {final : MlistHeader} (performed : Performed calls mlist final)
    (lists : ∀ list, Lists (addresses list) (mlist list))
    (registrable : Registrable calls addresses) :
    ∃ after : ListId → List Nat, (∀ list, Lists (after list) (final list)) ∧
      (∀ list, list ≠ .run → after list = listedBy list (addresses list) calls) ∧
      after .run ⊆ addresses .run := by
  induction performed generalizing addresses with
  | done mlist => exact ⟨addresses, lists, fun _ _ => rfl, List.Subset.refl _⟩
  | call answer given returned rest ih =>
    obtain ⟨middle, held, changed, fewer⟩ := lists_perform lists registrable given returned
    obtain ⟨after, holds, result, left⟩ := ih held (registrable.tail changed)
    refine ⟨after, holds, fun list other => ?_, List.Subset.trans left fewer⟩
    rw [result list other, listedBy_cons, changed list other]

/-- An address that is left was registered, or it was there and no call deletes just it. -/
theorem mem_listedBy (once : addresses.Nodup) (registeredOnce : (registered list calls).Nodup)
    (fresh : ∀ other ∈ registered list calls, other ∉ addresses)
    (member : address ∈ listedBy list addresses calls) : address ∈ registered list calls ∨
      address ∈ addresses ∧ Call.delete list address 0 ∉ calls := by
  induction calls generalizing addresses with
  | nil => exact .inr ⟨member, not_mem_nil⟩
  | cons call calls ih =>
    rw [registered_cons] at registeredOnce fresh ⊢
    obtain ⟨-, onceBehind, apart⟩ := nodup_append.mp registeredOnce
    have onceAfter : (listedAfter list addresses call).Nodup := by
      cases call with
      | register other new =>
        by_cases same : other = list
        · have new : new ∉ addresses := fresh new (by simp [registers, same])
          simpa [listedAfter, same] using ⟨new, once⟩
        · simpa [listedAfter, same] using once
      | delete other start size =>
        by_cases same : other = list
        · simpa [listedAfter, same] using once.sublist List.eraseP_sublist
        · simpa [listedAfter, same] using once
    have freshAfter : ∀ other ∈ registered list calls, other ∉ listedAfter list addresses call := by
      intro other later here
      rcases mem_listedAfter here with first | old
      · exact apart other (by simp [first]) other later rfl
      · exact fresh other (mem_append_right _ later) old
    rcases ih onceAfter onceBehind freshAfter member with later | ⟨here, kept⟩
    · exact .inl (mem_append_right _ later)
    · rcases mem_listedAfter here with first | old
      · exact .inl (by simp [first])
      · refine .inr ⟨old, fun deleted => ?_⟩
        rcases mem_cons.mp deleted with rfl | behind
        · rw [listedAfter, if_pos rfl, deleteTest_zero, ← List.erase_eq_eraseP] at here
          exact (List.Nodup.not_mem_erase once) here
        · exact kept behind

/-- An address that no call selects stays, and so does one that is registered. -/
theorem listedBy_keeps (there : address ∈ addresses ∨ address ∈ registered list calls)
    (missed : ∀ start size, Call.delete list start size ∈ calls →
      deleteTest start size address = false) : address ∈ listedBy list addresses calls := by
  induction calls generalizing addresses with
  | nil => exact there.resolve_right not_mem_nil
  | cons call calls ih =>
    refine ih ?_ fun start size member => missed start size (List.mem_cons_of_mem call member)
    rw [registered_cons, List.mem_append] at there
    cases call with
    | register other new =>
      by_cases same : other = list
      · simp only [registers, if_pos same, Option.toList_some, List.mem_singleton] at there
        simp only [listedAfter, if_pos same, mem_cons]
        tauto
      · simpa [listedAfter, registers, same] using there
    | delete other start size =>
      by_cases same : other = list
      · subst same
        have other := missed start size List.mem_cons_self
        simp only [registers, Option.toList_none, not_mem_nil, false_or] at there
        simp only [listedAfter, if_true]
        refine there.imp_left fun old => ?_
        exact (List.mem_eraseP_of_neg (by simp [other])).mpr old
      · simpa [listedAfter, registers, same] using there

end Ev6.MList.Relisting
