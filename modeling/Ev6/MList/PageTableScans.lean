import Ev6.MList.PageTables
import Mathlib.Tactic.Ring

/-!
# What the loops over the page-table list do

Each loop is related to the slots of the chain it walks. Registration and
deletion find the first slot that meets their test. The other two loops never
look at slot 0 of a page after the first, and do look at the link words.
-/

namespace Ev6.MList.PageTables

open List (length_cons mem_cons_self)
open Support

/-! ## The loops that test every slot -/

section SlotPass

variable {onLast : PtbMList → Nat → Option Cursor} {hit : Nat → Bool} {value : Nat}

/-- The test of a slot. -/
def PtbMList.hitAt (list : PtbMList) (hit : Nat → Bool) (slot : Nat × Nat) : Bool :=
  hit (list.memory slot.1 slot.2)

variable {index page : Nat} {list : PtbMList}

theorem slotPass_hit (slot : index < linkIndex) (found : list.hitAt hit (page, index) = true) :
    slotPass onLast hit value ⟨list, page, index⟩ = .leave (list.store page index value) := by
  have inside : ¬entrySize ≤ index := by rw [linkIndex_eq] at slot; rw [entrySize_eq]; omega
  have tested : hit (list.memory page index) = true := found
  simp [slotPass, inside, Nat.ne_of_lt slot, Cursor.word, tested]

theorem slotPass_miss (slot : index < linkIndex) (missed : list.hitAt hit (page, index) = false) :
    slotPass onLast hit value ⟨list, page, index⟩ = .again ⟨list, page, index + 1⟩ := by
  have inside : ¬entrySize ≤ index := by rw [linkIndex_eq] at slot; rw [entrySize_eq]; omega
  have tested : hit (list.memory page index) = false := missed
  simp [slotPass, inside, Nat.ne_of_lt slot, Cursor.word, tested]

/-- At the link word of an inner page the pass goes on with the next page. -/
theorem slotPass_hop (inner : list.memory page linkIndex ≠ list.ptbList) :
    slotPass onLast hit value ⟨list, page, linkIndex⟩ =
      slotPass onLast hit value ⟨list, list.memory page linkIndex, 0⟩ := by
  have positive : (0 : Nat) ≠ linkIndex := by decide
  have inside : ¬entrySize ≤ linkIndex := by decide
  have front : ¬entrySize ≤ 0 := by decide
  simp [slotPass, inside, front, positive, Cursor.word, inner]

/-- A page without a hit is walked to its link word. -/
theorem loop_row_clear
    (clear : ∀ index < linkIndex, list.hitAt hit (page, index) = false) (fuel : Nat) :
    loop (slotPass onLast hit value) (fuel + linkIndex) ⟨list, page, 0⟩ =
      loop (slotPass onLast hit value) fuel ⟨list, page, linkIndex⟩ :=
  loop_advance (Cursor.mk list page) (fun index low => slotPass_miss low (clear index low)) fuel

theorem loop_row_hit (slot : index < linkIndex) (found : list.hitAt hit (page, index) = true)
    (clear : ∀ earlier < index, list.hitAt hit (page, earlier) = false) {fuel : Nat}
    (enough : linkIndex ≤ fuel) : loop (slotPass onLast hit value) fuel ⟨list, page, 0⟩ =
      some (list.store page index value) := by
  have walk : loop (slotPass onLast hit value) (1 + index) ⟨list, page, 0⟩ =
      loop (slotPass onLast hit value) 1 ⟨list, page, index⟩ :=
    loop_advance (Cursor.mk list page)
      (fun earlier low => slotPass_miss (Nat.lt_trans low slot) (clear earlier low)) 1
  rw [loop_leave (slotPass_hit slot found) 0] at walk
  exact loop_mono (by omega) walk

/-- A hit somewhere in the chain: the loop overwrites the first one. -/
theorem loop_slotPass_hit {rest : List Nat} {slot : Nat × Nat}
    (linked : Linked list.memory linkIndex list.ptbList (page :: rest))
    (inner : list.ptbList ∉ rest)
    (found : (slots linkIndex (page :: rest)).find? (list.hitAt hit) = some slot) {fuel : Nat}
    (enough : linkIndex * (rest.length + 1) ≤ fuel) :
    loop (slotPass onLast hit value) fuel ⟨list, page, 0⟩ =
      some (list.store slot.1 slot.2 value) := by
  induction rest generalizing page fuel with
  | nil =>
    rw [slots_cons, slots_nil, List.append_nil, find?_row_eq_some] at found
    obtain ⟨rfl, inside, holds, clear⟩ := found
    exact loop_row_hit inside holds clear (by simpa using enough)
  | cons next rest ih =>
    obtain ⟨link, behind⟩ := linked
    obtain ⟨other, deeper⟩ : list.ptbList ≠ next ∧ list.ptbList ∉ rest := by
      simpa using inner
    rw [slots_cons, List.find?_append] at found
    cases here : (row linkIndex page).find? (list.hitAt hit) with
    | some first =>
      rw [here] at found
      obtain rfl : first = slot := by simpa using found
      obtain ⟨rfl, inside, holds, clear⟩ := find?_row_eq_some.mp here
      exact loop_row_hit inside holds clear (by simp only [length_cons] at enough; lia)
    | none =>
      rw [here, Option.none_or] at found
      obtain ⟨more, rfl⟩ : ∃ more, fuel = more + linkIndex :=
        ⟨fuel - linkIndex, by simp only [length_cons] at enough; lia⟩
      have hop : list.memory page linkIndex ≠ list.ptbList := by
        rw [link]
        exact Ne.symm other
      rw [loop_row_clear (find?_row_eq_none.mp here), loop_congr (slotPass_hop hop), link]
      exact ih behind deeper found (by simp only [length_cons] at enough; lia)

/-- No hit in the chain: the loop arrives at the link word of the last page. -/
theorem loop_slotPass_none {rest : List Nat}
    (linked : Linked list.memory linkIndex list.ptbList (page :: rest))
    (inner : list.ptbList ∉ rest)
    (clear : ∀ slot ∈ slots linkIndex (page :: rest), list.hitAt hit slot = false) (fuel : Nat) :
    loop (slotPass onLast hit value) (fuel + linkIndex * (rest.length + 1)) ⟨list, page, 0⟩ =
      loop (slotPass onLast hit value) fuel
        ⟨list, (page :: rest).getLast (List.cons_ne_nil _ _), linkIndex⟩ := by
  induction rest generalizing page with
  | nil =>
    refine loop_row_clear (fun index inside => clear (page, index) ?_) fuel
    simpa using inside
  | cons next rest ih =>
    obtain ⟨link, behind⟩ := linked
    obtain ⟨other, deeper⟩ : list.ptbList ≠ next ∧ list.ptbList ∉ rest := by
      simpa using inner
    have here : ∀ index < linkIndex, list.hitAt hit (page, index) = false :=
      fun index inside => clear (page, index) (by simp [inside])
    have later : ∀ slot ∈ slots linkIndex (next :: rest), list.hitAt hit slot = false :=
      fun slot member => clear slot (by rw [slots_cons]; exact List.mem_append_right _ member)
    have hop : list.memory page linkIndex ≠ list.ptbList := by
      rw [link]
      exact Ne.symm other
    have passes : fuel + linkIndex * ((next :: rest).length + 1) =
        fuel + linkIndex * (rest.length + 1) + linkIndex := by
      simp only [length_cons]
      ring
    rw [passes, loop_row_clear here, loop_congr (slotPass_hop hop), link, ih behind deeper later]
    simp

/-- On the last page the pass does `onLast`, and tests the slot it gives. -/
theorem slotPass_last (last : list.memory page linkIndex = list.ptbList) :
    slotPass onLast hit value ⟨list, page, linkIndex⟩ =
      match onLast list page with
      | none => .leave list | some here =>
        if hit here.word then .leave (here.list.store here.page here.index value)
        else .again { here with index := here.index + 1 } := by
  have inside : ¬entrySize ≤ linkIndex := by decide
  cases moved : onLast list page <;> simp [slotPass, inside, Cursor.word, last, moved]

end SlotPass

/-! ## The loops that skip slot 0 of later pages -/

/-- The slots that a walk from slot `first` of `page` on looks at. -/
def Seen (first page : Nat) (rest : List Nat) (slot : Nat × Nat) : Prop :=
  (slot.1 = page ∧ first ≤ slot.2 ∨ slot.1 ∈ rest ∧ 1 ≤ slot.2) ∧ slot.2 < linkIndex

instance (first page : Nat) (rest : List Nat) : DecidablePred (Seen first page rest) :=
  fun slot => by unfold Seen; infer_instance

/-- The slots of a page from one index up to another. -/
def Between (page first stop : Nat) (slot : Nat × Nat) : Prop :=
  slot.1 = page ∧ first ≤ slot.2 ∧ slot.2 < stop

instance (page first stop : Nat) : DecidablePred (Between page first stop) :=
  fun slot => by unfold Between; infer_instance

/-- On the last page a walk sees the slots of the page. -/
theorem seen_nil {first page : Nat} {slot : Nat × Nat} :
    Seen first page [] slot ↔ Between page first linkIndex slot := by
  simp [Seen, Between, and_assoc]

/-- On an inner page a walk sees the slots of the page and what is seen from
slot 1 of the next. -/
theorem seen_cons {first page next : Nat} {rest : List Nat} {slot : Nat × Nat} :
    Seen first page (next :: rest) slot ↔
      Between page first linkIndex slot ∨ Seen 1 next rest slot := by
  simp only [Seen, Between, List.mem_cons]
  tauto

section Search

variable {list : PtbMList} {target : Nat}

variable {page : Nat}

theorem searchPass_hit {index : Nat} (inside : index < entrySize)
    (found : covers (list.memory page index) target = true) :
    searchPass target ⟨list, page, index⟩ = .leave (list.memory page index) := by
  simp [searchPass, Nat.not_le.mpr inside, Cursor.word, found]

theorem searchPass_miss {index : Nat} (slot : index < linkIndex)
    (missed : covers (list.memory page index) target = false) :
    searchPass target ⟨list, page, index⟩ = .again ⟨list, page, index + 1⟩ := by
  have inside : ¬entrySize ≤ index := by rw [linkIndex_eq] at slot; rw [entrySize_eq]; omega
  simp [searchPass, inside, Nat.ne_of_lt slot, Cursor.word, missed]

theorem searchPass_last (last : list.memory page linkIndex = list.ptbList)
    (missed : covers (list.memory page linkIndex) target = false) :
    searchPass target ⟨list, page, linkIndex⟩ = .leave 0 := by
  have inside : ¬entrySize ≤ linkIndex := by decide
  rw [last] at missed
  simp [searchPass, inside, Cursor.word, missed, last]

theorem searchPass_hop (inner : list.memory page linkIndex ≠ list.ptbList)
    (missed : covers (list.memory page linkIndex) target = false) :
    searchPass target ⟨list, page, linkIndex⟩ = .again ⟨list, list.memory page linkIndex, 1⟩ := by
  have inside : ¬entrySize ≤ linkIndex := by decide
  simp [searchPass, inside, Cursor.word, missed, inner]

/-- Walking over slots that do not cover the target. -/
theorem loop_search_advance (page : Nat) {first count : Nat} (room : first + count ≤ linkIndex)
    (missed : ∀ index, first ≤ index → index < first + count →
      covers (list.memory page index) target = false) (fuel : Nat) :
    loop (searchPass target) (fuel + count) ⟨list, page, first⟩ =
      loop (searchPass target) fuel ⟨list, page, first + count⟩ :=
  loop_advance (fun walked => Cursor.mk list page (first + walked))
    (fun walked low => searchPass_miss (by omega) (missed _ (by omega) (by omega))) fuel

/-- In one page the walk stops at a covering word or arrives at the link word. -/
theorem loop_search_row (list : PtbMList) (target page : Nat) {first : Nat} (start : first ≤ linkIndex) :
    (∃ index, first ≤ index ∧ index < linkIndex ∧
      covers (list.memory page index) target = true ∧ ∀ fuel, entrySize ≤ fuel →
        loop (searchPass target) fuel ⟨list, page, first⟩ = some (list.memory page index)) ∨
    ((∀ index, first ≤ index → index < linkIndex →
        covers (list.memory page index) target = false) ∧ ∀ fuel,
      loop (searchPass target) (fuel + (linkIndex - first)) ⟨list, page, first⟩ =
        loop (searchPass target) fuel ⟨list, page, linkIndex⟩) := by
  by_cases present : ∃ index, first ≤ index ∧ index < linkIndex ∧
      covers (list.memory page index) target = true
  · obtain ⟨low, slot, found⟩ := Nat.find_spec present
    have before := fun earlier => Nat.find_min present (m := earlier)
    generalize Nat.find present = index at low slot found before
    refine .inl ⟨index, low, slot, found, fun fuel enough => ?_⟩
    have clear : ∀ earlier, first ≤ earlier → earlier < first + (index - first) →
        covers (list.memory page earlier) target = false := by
      intro earlier above below
      by_contra other
      exact before earlier (by omega) ⟨above, by omega, by simpa using other⟩
    have walk := loop_search_advance page (by omega) clear 1
    have inside : index < entrySize := by rw [linkIndex_eq] at slot; rw [entrySize_eq]; omega
    rw [Nat.add_sub_cancel' low, loop_leave (searchPass_hit inside found) 0] at walk
    exact loop_mono (by omega) walk
  · have missed : ∀ index, first ≤ index → index < linkIndex →
        covers (list.memory page index) target = false := by
      intro index low slot
      by_contra other
      exact present ⟨index, low, slot, by simpa using other⟩
    refine .inr ⟨missed, fun fuel => ?_⟩
    have clear : ∀ index, first ≤ index → index < first + (linkIndex - first) →
        covers (list.memory page index) target = false :=
      fun index low high => missed index low (by omega)
    have walk := loop_search_advance page (by omega) clear fuel
    rwa [Nat.add_sub_cancel' start] at walk

/-- Where no link word covers the target, the walk returns a word it has seen
that does, or zero when it has seen none. -/
theorem loop_searchPass (first : Nat) {rest : List Nat}
    (linked : Linked list.memory linkIndex list.ptbList (page :: rest))
    (inner : list.ptbList ∉ rest) (start : first ≤ linkIndex)
    (links : ∀ other ∈ page :: rest, covers (list.memory other linkIndex) target = false)
    {fuel : Nat} (enough : entrySize * (rest.length + 1) ≤ fuel) :
    ∃ word, loop (searchPass target) fuel ⟨list, page, first⟩ = some word ∧
      ((∃ slot, Seen first page rest slot ∧ word = list.memory slot.1 slot.2 ∧
          covers word target = true) ∨ word = 0 ∧ ∀ slot, Seen first page rest slot →
          covers (list.memory slot.1 slot.2) target = false) := by
  induction rest generalizing page first fuel with
  | nil =>
    have missed := links page mem_cons_self
    rcases loop_search_row list target page start with
      ⟨index, low, slot, found, walk⟩ | ⟨clear, walk⟩
    · exact ⟨_, walk fuel (by simpa using enough), .inl ⟨(page, index),
        ⟨.inl ⟨rfl, low⟩, slot⟩, rfl, found⟩⟩
    · refine ⟨0, ?_, .inr ⟨rfl, ?_⟩⟩
      · have ended := walk 1
        rw [loop_leave (searchPass_last linked missed) 0] at ended
        refine loop_mono ?_ ended
        rw [entrySize_eq, List.length_nil] at enough
        rw [linkIndex_eq]
        omega
      · rintro ⟨owner, index⟩ ⟨⟨rfl, low⟩ | ⟨member, -⟩, slot⟩
        · exact clear index low slot
        · cases member
  | cons next rest ih =>
    obtain ⟨link, behind⟩ := linked
    obtain ⟨other, deeper⟩ : list.ptbList ≠ next ∧ list.ptbList ∉ rest := by
      simpa using inner
    have missed := links page mem_cons_self
    have later := fun member within => links member (List.mem_cons_of_mem page within)
    rw [length_cons] at enough
    rcases loop_search_row list target page start with
      ⟨index, low, slot, found, walk⟩ | ⟨clear, walk⟩
    · have one : entrySize ≤ fuel := by rw [entrySize_eq] at enough ⊢; omega
      exact ⟨_, walk fuel one, .inl ⟨(page, index), ⟨.inl ⟨rfl, low⟩, slot⟩, rfl, found⟩⟩
    · rw [entrySize_eq] at enough
      rw [linkIndex_eq] at start
      obtain ⟨more, rfl⟩ : ∃ more, fuel = more + 1 + (linkIndex - first) :=
        ⟨fuel - 1 - (linkIndex - first), by rw [linkIndex_eq]; omega⟩
      rw [linkIndex_eq] at enough
      have hop : list.memory page linkIndex ≠ list.ptbList := by
        rw [link]
        exact Ne.symm other
      have left : entrySize * (rest.length + 1) ≤ more := by rw [entrySize_eq]; omega
      obtain ⟨word, result, meaning⟩ := ih 1 behind deeper (by decide) later left
      refine ⟨word, ?_, ?_⟩
      · rw [walk, loop_again (searchPass_hop hop missed), link, result]
      · rcases meaning with ⟨slot, seen, same, found⟩ | ⟨zero, unseen⟩
        · exact .inl ⟨slot, seen_cons.mpr (.inr seen), same, found⟩
        · refine .inr ⟨zero, fun slot seen => ?_⟩
          rcases seen_cons.mp seen with ⟨owner, low, inside⟩ | later
          · rw [owner]
            exact clear slot.2 low inside
          · exact unseen slot later

end Search

section DeleteAll

variable {pid : Nat}

/-- Zero the words of a process in some slots. -/
def wipe (pid : Nat) (places : Nat × Nat → Prop) [DecidablePred places]
    (memory : PageMemory Nat) : PageMemory Nat :=
  fun page index =>
    if places (page, index) ∧ mlnode2pid (memory page index) = pid then 0
    else memory page index

/-- The list with the words of a process zeroed in some slots. -/
def PtbMList.wiped (list : PtbMList) (pid : Nat) (places : Nat × Nat → Prop)
    [DecidablePred places] : PtbMList :=
  { list with memory := wipe pid places list.memory }

/-- Zeroing changes nothing where no slot holds a word of the process. -/
theorem PtbMList.wiped_eq_self (list : PtbMList) {places : Nat × Nat → Prop} [DecidablePred places]
    (others : ∀ slot, places slot → mlnode2pid (list.memory slot.1 slot.2) ≠ pid) :
    list.wiped pid places = list := by
  have same : wipe pid places list.memory = list.memory := by
    funext page index
    by_cases within : places (page, index)
    · simp [wipe, others (page, index) within]
    · simp [wipe, within]
  simp [PtbMList.wiped, same]

/-- Zeroing in two groups of slots, one after the other. -/
theorem PtbMList.wiped_wiped (list : PtbMList) (nonzero : pid ≠ 0)
    {first second both : Nat × Nat → Prop} [DecidablePred first] [DecidablePred second]
    [DecidablePred both] (union : ∀ slot, both slot ↔ first slot ∨ second slot) :
    (list.wiped pid first).wiped pid second = list.wiped pid both := by
  have zero : mlnode2pid 0 ≠ pid := by simpa [mlnode2pid] using Ne.symm nonzero
  have same : wipe pid second (wipe pid first list.memory) = wipe pid both list.memory := by
    funext page index
    by_cases own : mlnode2pid (list.memory page index) = pid
    · by_cases early : first (page, index) <;> by_cases late : second (page, index) <;>
        simp [wipe, union, own, early, late, zero]
    · simp [wipe, own]
  simp [PtbMList.wiped, same]

theorem PtbMList.wiped_congr (list : PtbMList) {first second : Nat × Nat → Prop}
    [DecidablePred first] [DecidablePred second] (same : ∀ slot, first slot ↔ second slot) :
    list.wiped pid first = list.wiped pid second := by
  have words : wipe pid first list.memory = wipe pid second list.memory := by
    funext page index
    simp [wipe, same]
  simp [PtbMList.wiped, words]

variable {page : Nat} {list : PtbMList}

theorem deleteAllPass_slot {index : Nat} (slot : index < linkIndex) :
    deleteAllPass pid ⟨list, page, index⟩ =
      .again ⟨list.wiped pid (· = (page, index)), page, index + 1⟩ := by
  have inside : ¬entrySize ≤ index := by rw [linkIndex_eq] at slot; rw [entrySize_eq]; omega
  by_cases own : mlnode2pid (list.memory page index) = pid
  · have stored : list.store page index 0 = list.wiped pid (· = (page, index)) := by
      have same : list.memory.write page index 0 =
          wipe pid (· = (page, index)) list.memory := by
        funext other position
        rw [PageMemory.write_apply]
        by_cases here : other = page ∧ position = index
        · obtain ⟨rfl, rfl⟩ := here
          simp [wipe, own]
        · simp [wipe, here]
      simp [PtbMList.store, PtbMList.wiped, same]
    simp [deleteAllPass, inside, Cursor.word, own, stored]
  · have kept : list.wiped pid (· = (page, index)) = list :=
      list.wiped_eq_self (by rintro slot rfl; exact own)
    simp [deleteAllPass, inside, Cursor.word, own, Nat.ne_of_lt slot, kept]

theorem deleteAllPass_last (last : list.memory page linkIndex = list.ptbList)
    (other : mlnode2pid (list.memory page linkIndex) ≠ pid) :
    deleteAllPass pid ⟨list, page, linkIndex⟩ = .leave list := by
  have inside : ¬entrySize ≤ linkIndex := by decide
  rw [last] at other
  simp [deleteAllPass, inside, Cursor.word, last, other]

theorem deleteAllPass_hop (inner : list.memory page linkIndex ≠ list.ptbList)
    (other : mlnode2pid (list.memory page linkIndex) ≠ pid) :
    deleteAllPass pid ⟨list, page, linkIndex⟩ = .again ⟨list, list.memory page linkIndex, 1⟩ := by
  have inside : ¬entrySize ≤ linkIndex := by decide
  simp [deleteAllPass, inside, Cursor.word, inner, other]

theorem PtbMList.wiped_link (list : PtbMList) {places : Nat × Nat → Prop}
    [DecidablePred places] (below : ∀ slot, places slot → slot.2 < linkIndex) (page : Nat) :
    (list.wiped pid places).memory page linkIndex = list.memory page linkIndex := by
  have outside : ¬places (page, linkIndex) := fun within =>
    Nat.lt_irrefl _ (below (page, linkIndex) within)
  simp [PtbMList.wiped, wipe, outside]

variable {first : Nat}

/-- Walking through a page zeroes the words of the process in its slots. -/
theorem loop_deleteAll_row (nonzero : pid ≠ 0) (list : PtbMList) (page : Nat)
    (start : first ≤ linkIndex) (fuel : Nat) :
    loop (deleteAllPass pid) (fuel + (linkIndex - first)) ⟨list, page, first⟩ =
      loop (deleteAllPass pid) fuel
        ⟨list.wiped pid (Between page first linkIndex), page, linkIndex⟩ := by
  have along : ∀ walked < linkIndex - first,
      deleteAllPass pid ⟨list.wiped pid (Between page first (first + walked)), page,
        first + walked⟩ =
      .again ⟨list.wiped pid (Between page first (first + (walked + 1))), page,
        first + (walked + 1)⟩ := by
    intro walked low
    have grown : ∀ slot, Between page first (first + (walked + 1)) slot ↔
        Between page first (first + walked) slot ∨ slot = (page, first + walked) := by
      rintro ⟨owner, index⟩
      simp only [Between, Prod.mk.injEq]
      omega
    rw [deleteAllPass_slot (by omega), list.wiped_wiped nonzero grown]
    rfl
  have none : list.wiped pid (Between page first (first + 0)) = list := by
    refine list.wiped_eq_self ?_
    rintro slot ⟨-, low, high⟩
    omega
  have walk := loop_advance
    (fun walked => Cursor.mk (list.wiped pid (Between page first (first + walked))) page
      (first + walked)) along fuel
  rw [none, Nat.add_sub_cancel' start] at walk
  exact walk

/-- The words of the process in the slots of a page from `first` on are zeroed. -/
abbrev PtbMList.wipedRow (list : PtbMList) (pid page first : Nat) : PtbMList :=
  list.wiped pid (Between page first linkIndex)

theorem PtbMList.wipedRow_link (list : PtbMList) (pid page first other : Nat) :
    (list.wipedRow pid page first).memory other linkIndex = list.memory other linkIndex :=
  list.wiped_link (fun _ within => within.2.2) other

/-- On the last page the loop ends at the link word. -/
theorem loop_deleteAll_last (nonzero : pid ≠ 0)
    (start : first ≤ linkIndex) (last : list.memory page linkIndex = list.ptbList)
    (other : mlnode2pid (list.memory page linkIndex) ≠ pid) {fuel : Nat}
    (enough : entrySize ≤ fuel) :
    loop (deleteAllPass pid) fuel ⟨list, page, first⟩ = some (list.wipedRow pid page first) := by
  have size := linkIndex_eq
  rw [entrySize_eq] at enough
  obtain ⟨more, rfl⟩ : ∃ more, fuel = more + 1 + (linkIndex - first) :=
    ⟨fuel - 1 - (linkIndex - first), by omega⟩
  have link := list.wipedRow_link pid page first page
  rw [loop_deleteAll_row nonzero list page start]
  exact loop_leave (deleteAllPass_last (link.trans last) (link ▸ other)) more

/-- On an inner page the loop goes on with slot 1 of the next page. -/
theorem loop_deleteAll_hop (nonzero : pid ≠ 0)
    (start : first ≤ linkIndex) (inner : list.memory page linkIndex ≠ list.ptbList)
    (other : mlnode2pid (list.memory page linkIndex) ≠ pid) (fuel : Nat) :
    loop (deleteAllPass pid) (fuel + 1 + (linkIndex - first)) ⟨list, page, first⟩ =
      loop (deleteAllPass pid) fuel
        ⟨list.wipedRow pid page first, list.memory page linkIndex, 1⟩ := by
  have link := list.wipedRow_link pid page first page
  have hop : (list.wipedRow pid page first).memory page linkIndex ≠
      (list.wipedRow pid page first).ptbList := by
    rw [link]
    exact inner
  rw [loop_deleteAll_row nonzero list page start,
    loop_again (deleteAllPass_hop hop (link ▸ other)), link]

/-- The walk zeroes the words of the process in the slots it sees. -/
theorem loop_deleteAllPass (nonzero : pid ≠ 0) (first : Nat)
    {rest : List Nat} (linked : Linked list.memory linkIndex list.ptbList (page :: rest))
    (inner : list.ptbList ∉ rest) (start : first ≤ linkIndex)
    (links : ∀ other ∈ page :: rest, mlnode2pid (list.memory other linkIndex) ≠ pid)
    {fuel : Nat} (enough : entrySize * (rest.length + 1) ≤ fuel) :
    loop (deleteAllPass pid) fuel ⟨list, page, first⟩ =
      some (list.wiped pid (Seen first page rest)) := by
  induction rest generalizing list page first fuel with
  | nil =>
    have here := links page mem_cons_self
    rw [loop_deleteAll_last nonzero start linked here (by simpa using enough)]
    exact congrArg some (list.wiped_congr fun slot => seen_nil.symm)
  | cons next rest ih =>
    obtain ⟨link, behind⟩ := linked
    obtain ⟨other, deeper⟩ : list.ptbList ≠ next ∧ list.ptbList ∉ rest := by
      simpa using inner
    have kept := list.wipedRow_link pid page first
    have size := linkIndex_eq
    rw [entrySize_eq, length_cons] at enough
    obtain ⟨more, rfl⟩ : ∃ more, fuel = more + 1 + (linkIndex - first) :=
      ⟨fuel - 1 - (linkIndex - first), by omega⟩
    have linkedAfter := behind.congr fun owner _ => kept owner
    have linksAfter : ∀ owner ∈ next :: rest,
        mlnode2pid ((list.wipedRow pid page first).memory owner linkIndex) ≠ pid := by
      intro owner member
      rw [kept]
      exact links owner (List.mem_cons_of_mem page member)
    rw [loop_deleteAll_hop nonzero start (link ▸ Ne.symm other)
      (links page mem_cons_self), link,
      ih 1 linkedAfter deeper (by decide) linksAfter (by rw [entrySize_eq]; omega),
      list.wiped_wiped nonzero fun slot => seen_cons]

end DeleteAll

end Ev6.MList.PageTables
