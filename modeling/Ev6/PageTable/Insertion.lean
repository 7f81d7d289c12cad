import Ev6.PageTable.Ptdup

/-!
# Insertion into a chain of records

`PTDS_PTED_add` on the words of its pages. The pages are linked through their last words,
and the last one back to the first, the header; the scan tells the link of the last page
by its value. `inserts_iff` says when an entry is added to a chain: not when its pages are
full, because the entry then takes the first word of the last page.
-/

namespace Ev6.PageTable

open Support

/-! ## The code -/

/-- A word at which the scan of `PTDS_PTED_add` stops. -/
def stopsScan (header word : Nat) : Bool := emptyRecord word || word = header

/-- One pass of the loops of `PTDS_PTED_add`, which end at a page and an index. The next
page is `p[ENTRY_SIZE-1]`. -/
def scanPass (memory : PageMemory Nat) (header : Nat) (here : Nat × Nat) :
    Pass (Nat × Nat) (Nat × Nat) :=
  if stopsScan header (memory here.1 here.2) then .leave here
  else if here.2 + 1 < entrySize then .again (here.1, here.2 + 1)
  else .again (memory here.1 pageRecords, 0)

/-- The stores of `PTDS_PTED_add` when it links a new page. -/
def linkPage (memory : PageMemory Nat) (header content next : Nat) (place : Nat × Nat) :
    PageMemory Nat :=
  (((allocated memory next).write next place.2 header).write place.1 place.2 next).write place.1
    0 content

/-- What `PTDS_PTED_add` does where the scan has stopped. It panics when it needs a page
and `kalloc` has none. -/
def storeEntry (memory : PageMemory Nat) (header content : Nat) (answer : Option Page)
    (place : Nat × Nat) : Option (PageMemory Nat) :=
  if emptyRecord (memory place.1 place.2) then some (memory.write place.1 place.2 content)
  else answer.map fun (next : Page) => linkPage memory header content next.val place

/-- `PTDS_PTED_add`. -/
def addEntry (passes : Nat) (memory : PageMemory Nat) (header content : Nat)
    (answer : Option Page) : Option (PageMemory Nat) :=
  (loop (scanPass memory header) passes (header, 0)).bind (storeEntry memory header content answer)

/-- The memory, `idx_ptdup`, and the two chains of each `struct ptdup_head`. -/
structure RecordChains where
  memory : PageMemory Nat
  idxPtdup : Nat → Nat
  l0Ptds : Nat → Nat
  l0Pted : Nat → Nat

/-- The header of the chain that `L0_ptes_add` chooses, if it finds an index. -/
def RecordChains.header (chains : RecordChains) (l2 : Nat) (flag : Bool) : Option Nat :=
  (firstSlot (fun idx => chains.idxPtdup idx = l2) ptdupSize).map fun idx =>
    if flag then chains.l0Ptds idx else chains.l0Pted idx

/-- `L0_ptes_add`. It panics without an index. -/
def addRecord (passes : Nat) (chains : RecordChains) (l2 content : Nat) (flag : Bool)
    (answer : Option Page) : Option RecordChains :=
  match chains.header l2 flag with
  | none => none
  | some header =>
    if header = 0 then some chains
    else
      (addEntry passes chains.memory header content answer).map fun memory =>
        { chains with memory := memory }

/-! ## What it is for -/

/-- The live entries of some pages. -/
def liveWords (memory : PageMemory Nat) (pages : List Nat) : List Nat :=
  (contents memory (slots pageRecords pages)).filter fun word => !emptyRecord word

/-- `L0_ptes_add` returns, the pages and perhaps more of them form one cycle, and the
entries are the earlier ones and the new one. -/
def Inserts (chains : RecordChains) (l2 content : Nat) (flag : Bool) (answer : Option Page)
    (header : Nat) (pages : List Nat) : Prop :=
  ∃ passes after more, addRecord passes chains l2 content flag answer = some after ∧
    Chain after.memory pageRecords header (pages ++ more) ∧
    (liveWords after.memory (pages ++ more)).Perm (content :: liveWords chains.memory pages)

/-- Some slot is free, and no slot before it holds a word that is taken for the link of
the last page. -/
def Roomy (memory : PageMemory Nat) (header : Nat) (pages : List Nat) : Prop :=
  ∃ front place back, slots pageRecords pages = front ++ place :: back ∧
    emptyRecord (memory place.1 place.2) = true ∧
    ∀ earlier ∈ front, memory earlier.1 earlier.2 ≠ header

/-! ## The scan -/

theorem entrySize_split : entrySize = pageRecords + 1 := rfl

section Scan

variable {memory : PageMemory Nat} {header : Nat}

/-- The test of the scan at a slot. -/
def stopsAt (memory : PageMemory Nat) (header : Nat) (place : Nat × Nat) : Bool :=
  stopsScan header (memory place.1 place.2)

/-- The scan of the words of one page from an index on. -/
theorem route_words (page : Nat) (first count : Nat) (full : first + count = entrySize) :
    Route (scanPass memory header) (stopsAt memory header) id
      ((List.range' first count).map (page, ·)) (memory page pageRecords, 0) := by
  induction count generalizing first with
  | zero => trivial
  | succ count ih =>
    rw [List.range'_succ, List.map_cons]
    refine ⟨?_, ih (first + 1) (by omega)⟩
    by_cases hit : stopsAt memory header (page, first) = true
    · have stops : stopsScan header (memory page first) = true := hit
      rw [if_pos hit, scanPass, if_pos stops]
      rfl
    · have goes : ¬stopsScan header (memory page first) = true := hit
      rw [if_neg hit, scanPass, if_neg goes]
      cases count with
      | zero =>
        rw [if_neg (by omega)]
        exact ⟨_, rfl, rfl⟩
      | succ count =>
        rw [if_pos (by omega)]
        exact ⟨_, rfl, rfl⟩

theorem route_row (page : Nat) {count : Nat} (full : count = entrySize) :
    Route (scanPass memory header) (stopsAt memory header) id (row count page)
      (memory page pageRecords, 0) := by
  rw [row, List.range_eq_range']
  exact route_words page 0 count (by omega)

theorem headD_slots (last page : Nat) (pages : List Nat) (stop : Nat × Nat) :
    (slots (last + 1) (page :: pages)).headD stop = (page, 0) := by
  simp [row, List.range_succ_eq_map]

theorem row_succ (last page : Nat) : row (last + 1) page = row last page ++ [(page, last)] := by
  simp [row, List.range_succ]

variable {pages : List Nat}

/-- The scan of the pages of a chain, links included. -/
theorem route_slots {home last : Nat} (full : last + 1 = entrySize)
    (linked : Linked memory pageRecords home pages) :
    Route (scanPass memory header) (stopsAt memory header) id (slots (last + 1) pages)
      (home, 0) := by
  induction pages with
  | nil => trivial
  | cons page pages ih =>
    have here : Route (scanPass memory header) (stopsAt memory header) id (row (last + 1) page)
        (memory page pageRecords, 0) := route_row page full
    rw [slots_cons]
    cases pages with
    | nil =>
      have link : memory page pageRecords = home := linked
      rw [link] at here
      rw [slots_nil, List.append_nil]
      exact here
    | cons next rest =>
      obtain ⟨link, behind⟩ := linked
      rw [link] at here
      refine here.append (ih behind) ?_
      rw [headD_slots]

theorem loop_slots {home page last : Nat} {place : Nat × Nat}
    (full : last + 1 = entrySize) (linked : Linked memory pageRecords home (page :: pages))
    (found : (slots (last + 1) (page :: pages)).find? (stopsAt memory header) = some place) :
    ∃ passes, loop (scanPass memory header) passes (page, 0) = some place := by
  have ends := loop_route_hit (route_slots full linked) found (Nat.le_refl _)
  rw [headD_slots] at ends
  exact ⟨_, ends⟩

/-- The first stop of a scan is a slot, or the link of the last page. -/
theorem find?_words {page : Nat}
    (linked : Linked memory pageRecords header (page :: pages)) (inner : header ∉ pages)
    (physical : ∀ other ∈ pages, IsPage other) :
    (slots entrySize (page :: pages)).find? (stopsAt memory header) =
      ((slots pageRecords (page :: pages)).find? (stopsAt memory header)).or
        (some ((page :: pages).getLast (List.cons_ne_nil _ _), pageRecords)) := by
  induction pages generalizing page with
  | nil =>
    have link : memory page pageRecords = header := linked
    have last : stopsAt memory header (page, pageRecords) = true := by
      simp [stopsAt, stopsScan, link]
    simp only [entrySize_split, slots_cons, slots_nil, List.append_nil, row_succ,
      List.find?_append, List.find?_cons_of_pos last, List.getLast_singleton]
  | cons next rest ih =>
    obtain ⟨different, deeper⟩ : header ≠ next ∧ header ∉ rest := by simpa using inner
    obtain ⟨link, behind⟩ := linked
    have bounds := (physical next List.mem_cons_self).bounds
    have used : emptyRecord next = false := by
      have nonzero : next ≠ 0 := by omega
      have other : next ≠ novalue := by
        rw [novalue]
        omega
      simp [emptyRecord, nonzero, other]
    have passed : ¬stopsAt memory header (page, pageRecords) = true := by
      simp [stopsAt, stopsScan, link, used, Ne.symm different]
    have later := ih behind deeper fun other member => physical other (List.mem_cons_of_mem _ member)
    rw [slots_cons entrySize page, slots_cons pageRecords page, List.find?_append, later,
      entrySize_split, row_succ, List.find?_append, List.find?_cons_of_neg passed, List.find?_nil,
      Option.or_none, List.find?_append, Option.or_assoc,
      List.getLast_cons (List.cons_ne_nil _ _)]

/-- The scan of a chain ends at the first stop among its slots, or else at the link of the
last page. -/
theorem loop_scanPass {front : List Nat} {final : Nat}
    (chain : Chain memory pageRecords header (front ++ [final]))
    (physical : ∀ page ∈ front ++ [final], IsPage page) :
    ∃ passes, loop (scanPass memory header) passes (header, 0) =
      some (((slots pageRecords (front ++ [final])).find? (stopsAt memory header)).getD
        (final, pageRecords)) := by
  obtain ⟨rest, same⟩ : ∃ rest, front ++ [final] = header :: rest :=
    List.head?_eq_some_iff.mp chain.first
  have last : (header :: rest).getLast (List.cons_ne_nil _ _) = final := by
    simp only [← same, List.getLast_append_singleton]
  rw [same] at chain physical ⊢
  have inner := (List.nodup_cons.mp chain.once).1
  have found := find?_words chain.linked inner
    fun other member => physical other (List.mem_cons_of_mem header member)
  rw [last, Option.or_some] at found
  exact loop_slots entrySize_split.symm chain.linked found

end Scan

/-! ## The stores -/

section Stores

variable {memory after : PageMemory Nat} {header content next : Nat} {pages : List Nat}
  {place : Nat × Nat}

theorem liveWords_append (memory : PageMemory Nat) (front back : List Nat) :
    liveWords memory (front ++ back) = liveWords memory front ++ liveWords memory back := by
  simp [liveWords, contents]

/-- The number of live entries depends on which slots are free. -/
theorem length_liveWords (same : ∀ slot ∈ slots pageRecords pages,
      emptyRecord (after slot.1 slot.2) = emptyRecord (memory slot.1 slot.2)) :
    (liveWords after pages).length = (liveWords memory pages).length := by
  simp only [liveWords, contents, ← List.countP_eq_length_filter, List.countP_map]
  refine List.countP_congr fun slot member => ?_
  simp [same slot member]

theorem liveWords_write (once : pages.Nodup) (live : emptyRecord content = false)
    (member : place ∈ slots pageRecords pages)
    (free : emptyRecord (memory place.1 place.2) = true) :
    (liveWords (memory.write place.1 place.2 content) pages).Perm
      (content :: liveWords memory pages) := by
  obtain ⟨front, back, split⟩ := List.append_of_mem member
  have distinct : (slots pageRecords pages).Nodup := nodup_slots once
  rw [split] at distinct
  rw [liveWords, liveWords, split, contents_write_split distinct]
  simp [contents, live, free]

/-- A word of an old page after a new one has been linked. -/
theorem linkPage_old {page index : Nat} (old : page ≠ next) :
    linkPage memory header content next place page index =
      if page = place.1 ∧ index = 0 then content
      else if page = place.1 ∧ index = place.2 then next
      else memory page index := by
  simp [linkPage, PageMemory.write_apply, old, allocated_of_ne]

theorem linkPage_new {index : Nat} (old : place.1 ≠ next) :
    linkPage memory header content next place next index =
      if index = place.2 then header else novalue := by
  simp [linkPage, PageMemory.write_apply, old.symm]

/-- Linking a page frees and takes no slot of the old pages. -/
theorem linkPage_free (fresh : next ∉ pages) (used : emptyRecord next = false)
    (live : emptyRecord content = false) (taken : emptyRecord (memory place.1 place.2) = false)
    (first : emptyRecord (memory place.1 0) = false) :
    ∀ slot ∈ slots pageRecords pages,
      emptyRecord (linkPage memory header content next place slot.1 slot.2) =
        emptyRecord (memory slot.1 slot.2) := by
  rintro ⟨page, index⟩ member
  have inside := (mem_slots.mp member).1
  have old : page ≠ next := fun same => fresh (same ▸ inside)
  rw [linkPage_old old]
  by_cases atFirst : page = place.1 ∧ index = 0
  · rw [if_pos atFirst, atFirst.1, atFirst.2, live, first]
  · rw [if_neg atFirst]
    by_cases atPlace : page = place.1 ∧ index = place.2
    · rw [if_pos atPlace, atPlace.1, atPlace.2, used, taken]
    · rw [if_neg atPlace]

theorem liveWords_new (old : place.1 ≠ next) (link : pageRecords ≤ place.2) :
    liveWords (linkPage memory header content next place) [next] = [] := by
  rw [liveWords, List.filter_eq_nil_iff]
  intro word member
  obtain ⟨⟨page, index⟩, slot, rfl⟩ := List.mem_map.mp member
  obtain ⟨inside, low⟩ := mem_slots.mp slot
  obtain rfl := List.mem_singleton.mp inside
  have other : index ≠ place.2 := by
    have low : index < pageRecords := low
    omega
  rw [linkPage_new old, if_neg other]
  simp [emptyRecord]

end Stores

/-! ## Room -/

theorem emptyRecord_page {page : Nat} (physical : IsPage page) : emptyRecord page = false := by
  have bounds := physical.bounds
  have nonzero : page ≠ 0 := physical.ne_zero
  have other : page ≠ novalue := by
    rw [novalue]
    omega
  simp [emptyRecord, nonzero, other]

variable {header : Nat} {memory : PageMemory Nat}

/-- There is room if the scan stops at a free slot. -/
theorem roomy_iff {pages : List Nat} : Roomy memory header pages ↔
      ∃ place, (slots pageRecords pages).find? (stopsAt memory header) = some place ∧
        emptyRecord (memory place.1 place.2) = true := by
  constructor
  · rintro ⟨front, place, back, split, free, others⟩
    have atPlace : stopsAt memory header place = true := by simp [stopsAt, stopsScan, free]
    rw [split, List.find?_append, List.find?_cons_of_pos atPlace]
    cases early : front.find? (stopsAt memory header) with
    | none => exact ⟨place, rfl, free⟩
    | some earlier =>
      have stops := List.find?_some early
      have different := others earlier (List.mem_of_find?_eq_some early)
      refine ⟨earlier, rfl, ?_⟩
      simpa [stopsAt, stopsScan, different] using stops
  · rintro ⟨place, found, free⟩
    obtain ⟨-, front, back, split, before⟩ := List.find?_eq_some_iff_append.mp found
    refine ⟨front, place, back, split, free, fun earlier member same => ?_⟩
    have passed := before earlier member
    simp [stopsAt, stopsScan, same] at passed

/-- Where the scan of a chain without room stops, neither that word nor the first one of its
page is free. -/
theorem tight_stop {final : Nat} {front : List Nat}
    {place : Nat × Nat} (chain : Chain memory pageRecords header (front ++ [final]))
    (home : IsPage header) (tight : ¬Roomy memory header (front ++ [final]))
    (stops : place = ((slots pageRecords (front ++ [final])).find? (stopsAt memory header)).getD
      (final, pageRecords)) :
    place.1 ∈ front ++ [final] ∧ emptyRecord (memory place.1 place.2) = false ∧
      emptyRecord (memory place.1 0) = false ∧
      (place.2 < pageRecords ∨ place = (final, pageRecords)) := by
  have passed : ∀ slot, stopsAt memory header slot = false →
      emptyRecord (memory slot.1 slot.2) = false := by
    intro slot goes
    cases free : emptyRecord (memory slot.1 slot.2) with
    | false => rfl
    | true => simp [stopsAt, stopsScan, free] at goes
  cases found : (slots pageRecords (front ++ [final])).find? (stopsAt memory header) with
  | none =>
    rw [found, Option.getD_none] at stops
    subst stops
    have inside : final ∈ front ++ [final] := by simp
    have link : memory final pageRecords = header := chain.linked.final
    have slot : (final, 0) ∈ slots pageRecords (front ++ [final]) :=
      mem_slots.mpr ⟨inside, by simp [pageRecords_eq]⟩
    refine ⟨inside, ?_, passed (final, 0) ?_, .inr rfl⟩
    · rw [link, emptyRecord_page home]
    · simpa using List.find?_eq_none.mp found (final, 0) slot
  | some hit =>
    rw [found, Option.getD_some] at stops
    subst stops
    obtain ⟨inside, low⟩ := mem_slots.mp (List.mem_of_find?_eq_some found)
    have taken : emptyRecord (memory place.1 place.2) = false := by
      cases free : emptyRecord (memory place.1 place.2) with
      | false => rfl
      | true => exact absurd (roomy_iff.mpr ⟨place, found, free⟩) tight
    refine ⟨inside, taken, ?_, .inl low⟩
    rcases Nat.eq_zero_or_pos place.2 with zero | later
    · rw [← zero, taken]
    · exact passed (place.1, 0) (find?_slots_before found 0 later)

/-- The pages that a chain gets when a page is linked have no live entry. -/
theorem liveWords_more {content final next : Nat} {front more : List Nat} {place : Nat × Nat}
    (chain : Chain memory pageRecords header (front ++ [final])) (fresh : next ∉ front ++ [final])
    (stops : place.2 < pageRecords ∨ place = (final, pageRecords))
    (grown : Chain (linkPage memory header content next place) pageRecords header
      (front ++ [final] ++ more)) :
    liveWords (linkPage memory header content next place) more = [] := by
  have home : header ∈ front ++ [final] := List.mem_of_mem_head? chain.first
  have old : final ≠ next := fun same => fresh (by simp [same])
  have link : memory final pageRecords = header := chain.linked.final
  have single := List.disjoint_of_nodup_append grown.once
  cases more with
  | nil => rfl
  | cons first rest =>
    have linked := grown.linked
    have named : linkPage memory header content next place final pageRecords = first := by
      rw [List.append_assoc, List.singleton_append] at linked
      exact linked.next
    rcases stops with low | rfl
    · -- The link of the last page is as it was, so that no page can follow.
      have other : ¬(final = place.1 ∧ pageRecords = place.2) := by omega
      have kept : linkPage memory header content next place final pageRecords = header := by
        rw [linkPage_old old, if_neg (by simp [pageRecords_eq]), if_neg other, link]
      obtain rfl : header = first := kept.symm.trans named
      exact absurd List.mem_cons_self (single home)
    · obtain rfl : next = first := by
        rw [linkPage_old old] at named
        simpa [pageRecords_eq] using named
      cases rest with
      | nil => exact liveWords_new old (Nat.le_refl _)
      | cons second rest =>
        have back : linkPage memory header content next (final, pageRecords) next pageRecords =
            second := by
          have linked : Linked (linkPage memory header content next (final, pageRecords))
              pageRecords header ((front ++ [final]) ++ next :: second :: rest) := linked
          exact linked.next
        rw [linkPage_new old, if_pos rfl] at back
        exact absurd (by simp [back]) (single home)

section Insertion

variable {chains : RecordChains} {l2 content header : Nat} {flag : Bool} {answer : Option Page}
  {pages : List Nat}

/-- `L0_ptes_add` scans the chain and stores the entry. -/
theorem addRecord_eq (selected : chains.header l2 flag = some header) (home : IsPage header)
    (passes : Nat) :
    addRecord passes chains l2 content flag answer =
      (addEntry passes chains.memory header content answer).map fun memory =>
        { chains with memory := memory } := by
  simp [addRecord, selected, home.ne_zero]

theorem inserts_of_roomy (chain : Chain chains.memory pageRecords header pages)
    (physical : ∀ page ∈ pages, IsPage page)
    (selected : chains.header l2 flag = some header) (live : emptyRecord content = false)
    (roomy : Roomy chains.memory header pages) :
    Inserts chains l2 content flag answer header pages := by
  obtain ⟨place, found, free⟩ := roomy_iff.mp roomy
  have member := List.mem_of_find?_eq_some found
  obtain ⟨inside, low⟩ := mem_slots.mp member
  have home : IsPage header := physical header (List.mem_of_mem_head? chain.first)
  obtain ⟨front, final, rfl⟩ := chain.final
  obtain ⟨passes, ends⟩ := loop_scanPass chain physical
  rw [found, Option.getD_some] at ends
  refine ⟨passes, { chains with memory := chains.memory.write place.1 place.2 content }, [], ?_, ?_, ?_⟩
  · simp [addRecord_eq selected home, addEntry, ends, storeEntry, free]
  · rw [List.append_nil]
    exact chain.write place.1 content low
  · rw [List.append_nil]
    exact liveWords_write chain.once live member free

/-- Without room a page is linked, but no entry is added. -/
theorem roomy_of_inserts (chain : Chain chains.memory pageRecords header pages)
    (physical : ∀ page ∈ pages, IsPage page) (selected : chains.header l2 flag = some header)
    (fresh : ∀ page, answer = some page → page.val ∉ pages) (live : emptyRecord content = false)
    (inserts : Inserts chains l2 content flag answer header pages) :
    Roomy chains.memory header pages := by
  by_contra tight
  have home : IsPage header := physical header (List.mem_of_mem_head? chain.first)
  obtain ⟨front, final, rfl⟩ := chain.final
  obtain ⟨passes, after, more, returns, cycle, entries⟩ := inserts
  obtain ⟨enough, ends⟩ := loop_scanPass chain physical
  rw [addRecord_eq selected home] at returns
  obtain ⟨memory, added, rfl⟩ := Option.map_eq_some_iff.mp returns
  obtain ⟨place, stops, stored⟩ := Option.bind_eq_some_iff.mp added
  obtain ⟨inside, taken, first, low⟩ := tight_stop chain home tight (loop_unique stops ends)
  have full : ¬emptyRecord (chains.memory place.1 place.2) = true := by simp [taken]
  rw [storeEntry, if_neg full] at stored
  obtain ⟨next, answered, rfl⟩ := Option.map_eq_some_iff.mp stored
  have new := fresh next answered
  have none := liveWords_more chain new low cycle
  have lengths := entries.length_eq
  -- One entry more is needed, but the same slots are free as before.
  rw [liveWords_append, none, List.append_nil, List.length_cons,
    length_liveWords (linkPage_free new (emptyRecord_page next.property) live taken first)] at lengths
  omega

/-- `L0_ptes_add` adds an entry to a chain exactly if the scan comes to a free slot first. -/
theorem inserts_iff (chain : Chain chains.memory pageRecords header pages)
    (physical : ∀ page ∈ pages, IsPage page) (selected : chains.header l2 flag = some header)
    (fresh : ∀ page, answer = some page → page.val ∉ pages) (live : emptyRecord content = false) :
    Inserts chains l2 content flag answer header pages ↔ Roomy chains.memory header pages :=
  ⟨roomy_of_inserts chain physical selected fresh live,
    inserts_of_roomy chain physical selected live⟩

end Insertion

/-! ## A chain of one page -/

/-- The only page of the list. -/
def lonePage : Page := ⟨0x87f00000, by decide⟩

/-- The page that `kalloc` returns next. -/
def sparePage : Page := ⟨0x87f01000, by decide⟩

/-- The PTDS list of the table at 1 has one page with these words before the link. -/
def loneChains (words : Nat → Nat) : RecordChains where
  memory := fun _ index => if index = pageRecords then lonePage.val else words index
  idxPtdup := fun idx => if idx = 0 then 1 else 0
  l0Ptds := fun _ => lonePage.val
  l0Pted := fun _ => 0

theorem loneChains_chain (words : Nat → Nat) :
    Chain (loneChains words).memory pageRecords lonePage.val [lonePage.val] := by
  have link : (loneChains words).memory lonePage.val pageRecords = lonePage.val := by
    simp [loneChains]
  exact ⟨rfl, List.nodup_singleton _, link⟩

theorem loneChains_header (words : Nat → Nat) :
    (loneChains words).header 1 true = some lonePage.val := by
  have found : firstSlot (fun idx => (loneChains words).idxPtdup idx = 1) ptdupSize = some 0 :=
    firstSlot_eq_some.mpr ⟨by decide, by simp [loneChains], by simp⟩
  rw [RecordChains.header, found]
  rfl

theorem loneChains_word (words : Nat → Nat) {index : Nat} (slot : index < pageRecords) :
    (loneChains words).memory lonePage.val index = words index :=
  if_neg (Nat.ne_of_lt slot)

/-- A page as `kalloc` returns it takes an entry. -/
theorem inserts_iff_sample :
    Inserts (loneChains fun _ => novalue) 1 1 true none lonePage.val [lonePage.val] := by
  refine (inserts_iff (loneChains_chain _) (by simp [lonePage.property]) (loneChains_header _)
    (by simp) (by decide)).mpr ?_
  refine roomy_iff.mpr ⟨(lonePage.val, 0), ?_, ?_⟩
  · rw [slots_cons, slots_nil, List.append_nil]
    refine find?_row_eq_some.mpr ⟨rfl, by decide, ?_, by simp⟩
    rw [stopsAt, loneChains_word _ (by decide)]
    rfl
  · rw [loneChains_word _ (by decide)]
    rfl

/-- A page without a free slot loses its first entry to the new one. -/
theorem full_page_not_inserted :
    ¬Inserts (loneChains fun index => index + 1) 1 1000 true (some sparePage) lonePage.val
      [lonePage.val] := by
  intro inserts
  have fresh : ∀ page : Page, some sparePage = some page → page.val ∉ [lonePage.val] := by
    rintro page ⟨⟩
    decide
  obtain ⟨front, ⟨page, index⟩, back, split, free, -⟩ :=
    roomy_of_inserts (loneChains_chain _) (by simp [lonePage.property]) (loneChains_header _)
      fresh (by decide) inserts
  have member : (page, index) ∈ slots pageRecords [lonePage.val] := by simp [split]
  obtain ⟨inside, low⟩ := mem_slots.mp member
  obtain rfl := List.mem_singleton.mp inside
  have live : emptyRecord (index + 1) = false := by
    have low : index < 511 := low
    have other : index + 1 ≠ novalue := by
      rw [novalue]
      omega
    simp [emptyRecord, other]
  rw [loneChains_word _ low, live] at free
  cases free

end Ev6.PageTable
