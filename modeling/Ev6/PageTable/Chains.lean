import Ev6.PageTable.Insertion
import Ev6.PageTable.Records

/-!
# Duplicates and their pages

The functions of `ptdup.c` with the pages of the lists in memory, each page linked to the
next one through its last word, and what they do to the chain of pages: insertions make it
longer, deletions leave it as it is unless they cut a run in two.
-/

namespace Ev6.PageTable

open List (map_append map_nil mem_append_left mem_map)
open Support

/-! ## The code -/

/-- `struct ptdup_head`, without its lock. -/
structure PtdupPages where
  l2 : Nat
  l1 : Nat
  l0Ptds : Nat
  l0Pted : Nat

/-- The header of one of the two lists: of the PTDS list if `flag`. -/
def PtdupPages.list (head : PtdupPages) (flag : Bool) : Nat :=
  if flag then head.l0Ptds else head.l0Pted

/-- The memory, `ptdup_head`, `idx_ptdup`, and the pages on `kmem->freelist`. `kernelEnd` is
the first address behind the kernel. -/
structure Stock where
  memory : PageMemory Nat
  head : Nat → PtdupPages
  idxPtdup : Nat → Nat
  free : List Page
  kernelEnd : Nat

namespace Stock

/-- `page[index] = value`. -/
def write (stock : Stock) (page index value : Nat) : Stock :=
  { stock with memory := stock.memory.write page index value }

/-- Store to `ptdup_head[idx]`. -/
def setHead (stock : Stock) (idx : Nat) (head : PtdupPages) : Stock :=
  { stock with head := Function.update stock.head idx head }

/-- `kalloc` and `memset` of the page with zeros. -/
def kzalloc (stock : Stock) : Option (Page × Stock) :=
  match stock.free with
  | [] => none
  | page :: rest =>
    some (page, { stock with
      free := rest
      memory := memsetPage (allocated stock.memory page) page 0 })

/-- `kalloc`. -/
def kalloc (stock : Stock) : Option (Page × Stock) :=
  match stock.free with
  | [] => none
  | page :: rest => some (page, { stock with free := rest, memory := allocated stock.memory page })

/-- The word of a page that `kfree` has filled with junk, `memset(pa, 1, PGSIZE)`. -/
def freedMark : Nat := 0x0101010101010101

/-- `kfree`. -/
def kfree (stock : Stock) (pa : Nat) : Option Stock :=
  if physical : IsPage pa ∧ stock.kernelEnd ≤ pa then
    let next := (stock.free.head?.map Subtype.val).getD 0
    some { stock with
      free := ⟨pa, physical.1⟩ :: stock.free
      memory := (memsetPage stock.memory pa freedMark).write pa 0 next }
  else none

/-- The scan of `idx_ptdup` for a page table. -/
def ptdupIndex (stock : Stock) (pagetable : Nat) : Option Nat :=
  firstSlot (fun i => stock.idxPtdup i = pagetable) ptdupSize

/-- `ptdup_init`, without the page at which it faults when `kalloc` has none. -/
def ptdupInit (stock : Stock) (l2 : Nat) : Option Stock :=
  match stock.ptdupIndex 0 with
  | none => none
  | some idx =>
    if l2 = 0 then none
    else
      stock.kzalloc.bind fun (copy, stock) =>
        stock.kzalloc.bind fun (directory, stock) =>
          stock.kalloc.bind fun (ptds, stock) =>
            stock.kalloc.bind fun (pted, stock) =>
              let linked := (stock.write ptds pageRecords ptds).write pted pageRecords pted
              let head : PtdupPages :=
                { l2 := copy, l1 := directory, l0Ptds := ptds, l0Pted := pted }
              some { linked.setHead idx head with
                idxPtdup := Function.update stock.idxPtdup idx l2 }

/-- The index of an L1 table in its L2 table. -/
def l1Index (stock : Stock) (l2 l1 : Nat) : Option Nat :=
  firstSlot (fun i => l1 = pte2pa (stock.memory l2 i)) entrySize

/-- `ptdup_create_l1`. -/
def ptdupCreateL1 (stock : Stock) (l2 l1 content : Nat) : Option Stock :=
  match stock.ptdupIndex l2 with
  | none => none
  | some idx =>
    if l1 = 0 then none
    else
      match stock.l1Index l2 l1 with
      | none => some stock
      | some i =>
        stock.kzalloc.map fun (copy, stock) =>
          (stock.write (stock.head idx).l1 i copy).write (stock.head idx).l2 i content

/-- `ptdup_update`. -/
def ptdupUpdate (stock : Stock) (l2 l1 content index : Nat) : Option Stock :=
  match stock.ptdupIndex l2 with
  | none => none
  | some idx =>
    if l1 = 0 then none
    else
      let target := (stock.l1Index (stock.head idx).l2 l1).elim 0
        (stock.memory (stock.head idx).l1)
      if target = 0 then none else some (stock.write target index content)

/-- `PTDS_PTED_add`. -/
def ptdsPtedAdd (passes : Nat) (stock : Stock) (header content : Nat) : Option Stock :=
  (loop (scanPass stock.memory header) passes (header, 0)).bind fun place =>
    if emptyRecord (stock.memory place.1 place.2) then
      some (stock.write place.1 place.2 content)
    else
      match stock.free with
      | [] => none
      | next :: rest =>
        some { stock with
          free := rest
          memory := linkPage stock.memory header content next place }

/-- `L0_ptes_add`. -/
def l0PtesAdd (passes : Nat) (stock : Stock) (l2 content : Nat) (flag : Bool) : Option Stock :=
  match stock.ptdupIndex l2 with
  | none => none
  | some idx =>
    let header := (stock.head idx).list flag
    if header = 0 then some stock else stock.ptdsPtedAdd passes header content

/-- Where a loop over the words of a list stands: at the word `i` of `dnode`. -/
structure Sweep where
  stock : Stock
  dnode : Nat
  next : Nat
  i : Nat

/-- One pass of the loops of `PTDS_delete` and `PTED_delete`, which do `body` to every word of
a list. The link of a page is read before its words are looked at. -/
def sweepPass (header : Nat) (body : Stock → Nat → Nat → Option Stock) (here : Sweep) :
    Pass Sweep (Option Stock) :=
  if here.i < pageRecords then
    match body here.stock here.dnode here.i with
    | none => .leave none
    | some stock => .again { here with stock := stock, i := here.i + 1 }
  else if here.next = header then .leave (some here.stock)
  else .again ⟨here.stock, here.next, here.stock.memory here.next pageRecords, 0⟩

/-- The start of such a loop. -/
def sweepStart (stock : Stock) (header : Nat) : Sweep :=
  ⟨stock, header, stock.memory header pageRecords, 0⟩

/-- The loop as a whole. -/
def sweep (passes : Nat) (header : Nat) (body : Stock → Nat → Nat → Option Stock)
    (stock : Stock) : Option Stock :=
  (loop (sweepPass header body) passes (sweepStart stock header)).join

/-- One word in the loop of `PTDS_delete`. -/
def ptdsDeleteSlot (passes l2 vaStart vaEnd : Nat) (stock : Stock) (dnode i : Nat) :
    Option Stock :=
  let word := stock.memory dnode i
  let first := ptds2va word
  let last := runLast word
  let size := ptds2size word
  if vaStart ≤ first ∧ last ≤ vaEnd then some (stock.write dnode i 0)
  else if vaStart = first ∧ vaEnd < last then some (stock.write dnode i (cutFront word vaEnd))
  else if first < vaStart ∧ last = vaEnd then
    some (stock.write dnode i (word ||| (2 ^ 64 - 0x200) ||| subWord (word &&& 0x1FF) size))
  else if first < vaStart ∧ vaEnd < last then
    (stock.l0PtesAdd passes l2 (cutFront word vaEnd) true).map fun stock =>
      stock.write dnode i ((stock.memory dnode i + size) % 2 ^ 64)
  else some stock

/-- One word in the loop of `PTED_delete`. -/
def ptedDeleteSlot (vaStart vaEnd : Nat) (stock : Stock) (dnode i : Nat) : Option Stock :=
  let va := ptds2va (stock.memory dnode i)
  if vaStart ≤ va ∧ va < vaEnd then some (stock.write dnode i novalue) else some stock

/-- The end of the range of `L0_ptes_delete`. -/
def deleteEnd (vaStart sz : Nat) : Nat :=
  (vaStart + signExtend ((sz + 1) * pgsize)) % 2 ^ 64

/-- `PTED_delete`, if there is a list. -/
def deletePted (passes : Nat) (stock : Stock) (idx vaStart vaEnd : Nat) : Option Stock :=
  let header := (stock.head idx).list false
  if header = 0 then some stock
  else sweep passes header (ptedDeleteSlot vaStart vaEnd) stock

/-- `PTDS_delete`, if there is a list. -/
def deletePtds (passes : Nat) (stock : Stock) (l2 idx vaStart vaEnd : Nat) : Option Stock :=
  let header := (stock.head idx).list true
  if header = 0 then some stock
  else sweep passes header (ptdsDeleteSlot passes l2 vaStart vaEnd) stock

/-- `L0_ptes_delete`. -/
def l0PtesDelete (passes : Nat) (stock : Stock) (l2 vaStart sz : Nat) : Option Stock :=
  let vaEnd := deleteEnd vaStart sz
  match stock.ptdupIndex l2 with
  | none => some stock
  | some idx =>
    if idx > 0 then
      (stock.deletePted passes idx vaStart vaEnd).bind fun stock =>
        stock.deletePtds passes l2 idx vaStart vaEnd
    else some stock

/-- One word of the directory in `ptdup_delete_all`. -/
def freeCopy (directory : Nat) (stock : Stock) (i : Nat) : Option Stock :=
  let copy := stock.memory directory i
  if copy ≠ 0 ∧ copy ≠ novalue then stock.kfree copy else some stock

/-- One pass of the loops of `ptdup_delete_all` over a list, with the page to be freed and the
link that has been read from it. -/
def freePass (header : Nat) : Stock × Nat × Nat → Pass (Stock × Nat × Nat) (Option Stock)
  | (stock, target, next) =>
    match stock.kfree target with
    | none => .leave none
    | some stock =>
      if next ≠ header then .again (stock, next, stock.memory next pageRecords)
      else .leave (some stock)

/-- A list in `ptdup_delete_all`. -/
def freeList (passes : Nat) (stock : Stock) (header : Nat) : Option Stock :=
  if header = 0 then some stock
  else (loop (freePass header) passes (stock, header, stock.memory header pageRecords)).join

/-- The directory and the copies in `ptdup_delete_all`. -/
def freeUpper (stock : Stock) (head : PtdupPages) : Option Stock :=
  (if head.l1 = 0 then some stock
    else ((List.range entrySize).foldlM (freeCopy head.l1) stock).bind fun stock =>
      stock.kfree head.l1).bind fun stock =>
    if head.l2 = 0 then some stock else stock.kfree head.l2

/-- `ptdup_delete_all`. -/
def ptdupDeleteAll (passes : Nat) (stock : Stock) (l2 : Nat) : Option Stock :=
  match stock.ptdupIndex l2 with
  | none => some stock
  | some idx =>
    let head := stock.head idx
    (stock.freeUpper head).bind fun stock =>
      (stock.freeList passes head.l0Ptds).bind fun stock =>
        (stock.freeList passes head.l0Pted).map fun stock =>
          { stock.setHead idx ⟨0, 0, 0, 0⟩ with
            idxPtdup := Function.update stock.idxPtdup idx 0 }

end Stock

/-! ## A list grows -/

/-- The pages of a list, of which the allocator holds none. -/
structure Listed (header : Nat) (pages : List Nat) (stock : Stock) : Prop where
  chain : Chain stock.memory pageRecords header pages
  physical : ∀ page ∈ pages, IsPage page
  apart : ∀ page ∈ stock.free, page.val ∉ pages
  distinct : stock.free.Nodup

/-- The list gets some pages from the allocator, and only the words of its pages change. -/
structure Lengthens (header : Nat) (pages : List Nat) (stock after : Stock) (more : List Page) :
    Prop where
  free : stock.free = more ++ after.free
  chain : Chain after.memory pageRecords header (pages ++ more.map Subtype.val)
  elsewhere : ∀ page, page ∉ pages ++ more.map Subtype.val →
    after.memory page = stock.memory page
  head : after.head = stock.head
  index : after.idxPtdup = stock.idxPtdup
  kernelEnd : after.kernelEnd = stock.kernelEnd

section Lengthens

variable {header : Nat} {pages : List Nat} {stock middle after : Stock} {more extra : List Page}

theorem Lengthens.refl (listed : Listed header pages stock) : Lengthens header pages stock stock [] where
  free := rfl
  chain := by simpa using listed.chain
  elsewhere _ _ := rfl
  head := rfl
  index := rfl
  kernelEnd := rfl

/-- The pages of the longer list are still apart from those of the allocator. -/
theorem Lengthens.listed (listed : Listed header pages stock)
    (grows : Lengthens header pages stock after more) :
    Listed header (pages ++ more.map Subtype.val) after := by
  have distinct := listed.distinct
  rw [grows.free] at distinct
  refine ⟨grows.chain, ?_, ?_, distinct.of_append_right⟩
  · intro page member
    rcases List.mem_append.mp member with old | new
    · exact listed.physical page old
    · obtain ⟨fresh, -, rfl⟩ := mem_map.mp new
      exact fresh.property
  · intro page left member
    rcases List.mem_append.mp member with old | new
    · refine listed.apart page ?_ old
      rw [grows.free]
      exact List.mem_append_right more left
    · obtain ⟨fresh, taken, same⟩ := mem_map.mp new
      obtain rfl := Subtype.ext same
      exact List.disjoint_of_nodup_append distinct taken left

theorem Lengthens.trans (first : Lengthens header pages stock middle more)
    (second : Lengthens header (pages ++ more.map Subtype.val) middle after extra) :
    Lengthens header pages stock after (more ++ extra) where
  free := by rw [first.free, second.free, List.append_assoc]
  chain := by
    rw [map_append, ← List.append_assoc]
    exact second.chain
  elsewhere page outside := by
    rw [map_append, ← List.append_assoc] at outside
    have before : page ∉ pages ++ more.map Subtype.val := fun member =>
      outside (mem_append_left _ member)
    rw [second.elsewhere page outside, first.elsewhere page before]
  head := second.head.trans first.head
  index := second.index.trans first.index
  kernelEnd := second.kernelEnd.trans first.kernelEnd

theorem Lengthens.write (listed : Listed header pages stock) {page i : Nat} (member : page ∈ pages)
    (slot : i < pageRecords) (value : Nat) :
    Lengthens header pages stock (stock.write page i value) [] where
  free := rfl
  chain := by
    rw [map_nil, List.append_nil]
    exact listed.chain.write page value slot
  elsewhere other outside := by
    rw [map_nil, List.append_nil] at outside
    exact stock.memory.write_of_page_ne i value fun same => outside (same ▸ member)
  head := rfl
  index := rfl
  kernelEnd := rfl

/-- No word of the list is taken for the link of its last page. -/
def Unmarked (header : Nat) (pages : List Nat) (memory : PageMemory Nat) : Prop :=
  ∀ page ∈ pages, ∀ i < pageRecords, memory page i ≠ header

theorem chain_linkPage {memory : PageMemory Nat} {content final : Nat} {front : List Nat}
    {next : Nat} (chain : Chain memory pageRecords header (front ++ [final]))
    (fresh : next ∉ front ++ [final]) :
    Chain (linkPage memory header content next (final, pageRecords)) pageRecords header
      (front ++ [final] ++ [next]) := by
  have old : final ≠ next := fun same => fresh (by simp [same])
  refine ⟨?_, ?_, ?_⟩
  · rw [List.head?_append_of_ne_nil _ (by simp)]
    exact chain.first
  · exact chain.once.append (List.nodup_singleton next) (by simpa using fresh)
  · rw [List.append_assoc, List.singleton_append]
    refine chain.linked.extend (fun page member => ?_) ?_ ?_
    · have inside : page ≠ next := fun same => fresh (by simp [← same, member])
      have other : page ≠ final := by
        rintro rfl
        exact List.disjoint_of_nodup_append chain.once member (List.mem_singleton_self _)
      rw [linkPage_old inside]
      simp [other]
    · rw [linkPage_old old]
      simp [pageRecords_eq]
    · rw [linkPage_new old, if_pos rfl]

/-- `PTDS_PTED_add` on a list without such a word. -/
theorem ptdsPtedAdd_lengthens (listed : Listed header pages stock)
    (unmarked : Unmarked header pages stock.memory) {passes content : Nat}
    (added : stock.ptdsPtedAdd passes header content = some after) :
    ∃ more, Lengthens header pages stock after more := by
  obtain ⟨front, final, rfl⟩ := listed.chain.final
  obtain ⟨enough, ends⟩ := loop_scanPass listed.chain listed.physical
  obtain ⟨place, stops, stored⟩ := Option.bind_eq_some_iff.mp added
  have stopped := loop_unique stops ends
  cases found : (slots pageRecords (front ++ [final])).find? (stopsAt stock.memory header) with
  | some slot =>
    rw [found, Option.getD_some] at stopped
    subst stopped
    obtain ⟨inside, low⟩ := mem_slots.mp (List.mem_of_find?_eq_some found)
    have stop := List.find?_some found
    have free : emptyRecord (stock.memory place.1 place.2) = true := by
      have other := unmarked place.1 inside place.2 low
      simpa [stopsAt, stopsScan, other] using stop
    rw [if_pos free] at stored
    cases stored
    exact ⟨[], Lengthens.write listed inside low content⟩
  | none =>
    rw [found, Option.getD_none] at stopped
    subst stopped
    have link : stock.memory final pageRecords = header := listed.chain.linked.final
    have home : IsPage header := listed.physical header (List.mem_of_mem_head? listed.chain.first)
    have used : ¬emptyRecord (stock.memory final pageRecords) = true := by
      rw [link, emptyRecord_page home]
      simp
    rw [if_neg used] at stored
    cases supply : stock.free with
    | nil =>
      rw [supply] at stored
      cases stored
    | cons next rest =>
      rw [supply] at stored
      cases stored
      have fresh : next.val ∉ front ++ [final] :=
        listed.apart next (by rw [supply]; exact List.mem_cons_self)
      refine ⟨[next], supply, chain_linkPage listed.chain fresh, ?_, rfl, rfl, rfl⟩
      intro page outside
      funext index
      have new : page ≠ next.val := fun same => outside (by simp [same])
      have old : page ≠ final := fun same => outside (by simp [same])
      change linkPage stock.memory header content next.val (final, pageRecords) page index = _
      rw [linkPage_old new]
      simp [old]

end Lengthens

/-! ## A list is swept -/

/-- No word of the list that starts at a header is taken for a link. -/
def Clear (header : Nat) (memory : PageMemory Nat) : Prop :=
  ∀ pages, Chain memory pageRecords header pages → Unmarked header pages memory

section Sweep

open Stock

variable {header : Nat} {pages : List Nat} {stock after : Stock}
  {body : Stock → Nat → Nat → Option Stock}

/-- A loop over the words of a list that stores words there, or makes the list longer. -/
theorem sweep_lengthens (listed : Listed header pages stock)
    (slots : ∀ here more, Reached (sweepPass header body) (sweepStart stock header) here →
      Lengthens header pages stock here.stock more → here.dnode ∈ pages ++ more.map Subtype.val →
      here.i < pageRecords → ∀ next, body here.stock here.dnode here.i = some next →
        ∃ extra, Lengthens header (pages ++ more.map Subtype.val) here.stock next extra)
    {passes : Nat} (done : sweep passes header body stock = some after) :
    ∃ more, Lengthens header pages stock after more := by
  have linked {more : List Page} {memory : PageMemory Nat} {page : Nat}
      (chain : Chain memory pageRecords header (pages ++ more.map Subtype.val))
      (member : page ∈ pages ++ more.map Subtype.val) :
      memory page pageRecords ∈ pages ++ more.map Subtype.val := by
    rcases chain.linked.mem member with home | inside
    · rw [home]
      exact List.mem_of_mem_head? chain.first
    · exact inside
  refine loop_invariant_reached
    (fun here : Sweep => ∃ more, Lengthens header pages stock here.stock more ∧
      here.dnode ∈ pages ++ more.map Subtype.val ∧ here.next ∈ pages ++ more.map Subtype.val)
    (fun result => result = some after → ∃ more, Lengthens header pages stock after more) ?_ ?_
    (Option.join_eq_some_iff.mp done) rfl
  · rintro here reached ⟨more, grows, inside, behind⟩
    by_cases slot : here.i < pageRecords
    · cases step : body here.stock here.dnode here.i with
      | none => exact .inl ⟨none, by simp [sweepPass, slot, step], fun same => by cases same⟩
      | some next =>
        obtain ⟨extra, further⟩ := slots here more reached grows inside slot next step
        refine .inr ⟨{ here with stock := next, i := here.i + 1 }, ?_, more ++ extra,
          grows.trans further, ?_, ?_⟩
        · rw [sweepPass, if_pos slot, step]
        · rw [map_append, ← List.append_assoc]
          exact mem_append_left _ inside
        · rw [map_append, ← List.append_assoc]
          exact mem_append_left _ behind
    · by_cases last : here.next = header
      · refine .inl ⟨some here.stock, by rw [sweepPass, if_neg slot, if_pos last], fun same => ?_⟩
        cases same
        exact ⟨more, grows⟩
      · refine .inr ⟨⟨here.stock, here.next, here.stock.memory here.next pageRecords, 0⟩, ?_, more,
          grows, behind, linked grows.chain behind⟩
        rw [sweepPass, if_neg slot, if_neg last]
  · have home : header ∈ pages ++ ([] : List Page).map Subtype.val := by
      rw [map_nil, List.append_nil]
      exact List.mem_of_mem_head? listed.chain.first
    have chain := (Lengthens.refl listed).chain
    exact ⟨[], Lengthens.refl listed, home, linked chain home⟩

theorem ptedSweep_lengthens (listed : Listed header pages stock) {passes vaStart vaEnd : Nat}
    (done : sweep passes header (ptedDeleteSlot vaStart vaEnd) stock = some after) :
    ∃ more, Lengthens header pages stock after more := by
  refine sweep_lengthens listed (fun here more _ grows inside slot next step => ?_) done
  have listedHere := grows.listed listed
  unfold ptedDeleteSlot at step
  dsimp only at step
  split at step
  · cases step
    exact ⟨[], Lengthens.write listedHere inside slot novalue⟩
  · cases step
    exact ⟨[], Lengthens.refl listedHere⟩

/-- `PTDS_delete`, if no word of the list is ever taken for a link. -/
theorem ptdsSweep_lengthens (listed : Listed header pages stock) {passes l2 idx vaStart vaEnd : Nat}
    (found : stock.ptdupIndex l2 = some idx) (home : (stock.head idx).list true = header)
    (clear : ∀ here, Reached (sweepPass header (ptdsDeleteSlot passes l2 vaStart vaEnd))
      (sweepStart stock header) here → Clear header here.stock.memory)
    (done : sweep passes header (ptdsDeleteSlot passes l2 vaStart vaEnd) stock = some after) :
    ∃ more, Lengthens header pages stock after more := by
  refine sweep_lengthens listed (fun here more reached grows inside slot next step => ?_) done
  have listedHere := grows.listed listed
  have foundHere : here.stock.ptdupIndex l2 = some idx := by
    rw [ptdupIndex, grows.index]
    exact found
  unfold ptdsDeleteSlot at step
  dsimp only at step
  split at step
  · cases step
    exact ⟨[], Lengthens.write listedHere inside slot _⟩
  · split at step
    · cases step
      exact ⟨[], Lengthens.write listedHere inside slot _⟩
    · split at step
      · cases step
        exact ⟨[], Lengthens.write listedHere inside slot _⟩
      · split at step
        · -- A run is cut in two: the rest of it is added to the list first.
          obtain ⟨longer, added, rfl⟩ := Option.map_eq_some_iff.mp step
          have physical : IsPage header :=
            listed.physical header (List.mem_of_mem_head? listed.chain.first)
          unfold l0PtesAdd at added
          rw [foundHere] at added
          dsimp only at added
          rw [grows.head, home, if_neg physical.ne_zero] at added
          obtain ⟨extra, further⟩ :=
            ptdsPtedAdd_lengthens listedHere (clear here reached _ grows.chain) added
          have write := Lengthens.write (further.listed listedHere)
            (mem_append_left _ inside) slot
            ((longer.memory here.dnode here.i +
              ptds2size (here.stock.memory here.dnode here.i)) % 2 ^ 64)
          have whole := further.trans write
          rw [List.append_nil] at whole
          exact ⟨extra, whole⟩
        · cases step
          exact ⟨[], Lengthens.refl listedHere⟩

end Sweep

end Ev6.PageTable
