import Ev6.PageTable.Mappings

/-!
# Clearing the user bit of a page

`uvmclear` in the records of a process. `L0_ptes_clear_user` stops at the first slot of the
PTDS list whose address is not above the page, a free one included, and then at the first
slot of the PTED list that begins at the page or at the next one. `cleared_iff` says when
that leaves the mappings right: a run has to begin at the page and to have two pages.
-/

namespace Ev6.PageTable

open Multiset (card_map card_singleton exists_cons_of_mem map_id map_singleton mem_add mem_cons
  mem_map mem_singleton notMem_zero singleton_add)
open Nat (shiftLeft_eq shiftRight_eq_div_pow)
open Support

/-! ## What it is for -/

/-- A mapping whose user bit is cleared if it is that of the page. -/
def withoutUser (va : Nat) (mapping : Mapping) : Mapping :=
  if mapping.va = va then { mapping with user := false } else mapping

/-- What the records of a process are: each page is described once, runs are pages of
memory below `MAXVA`, and no record is taken for something else. -/
structure Content (head : PtdupHead) : Prop where
  words : head.Words
  once : Once head.mappings
  low : ∀ records ∈ head.l0Ptds, ∀ n < records.size, ¬Blank (records.word n) →
    runEnd (records.word n) ≤ maxva
  memory : ∀ records ∈ head.l0Ptds, ∀ mapping ∈ records.describe runPages, IsPage mapping.pa
  plain : ∀ records ∈ head.l0Ptds, records.Plain
  outside : ∀ records ∈ head.l0Ptds, ∀ n < records.size, ¬Blank (records.word n) →
    ¬InJunk (ptds2va (records.word n)) (runEnd (records.word n))
  unlinked : ∀ entries ∈ head.l0Pted, entries.Unlinked
  flags : ∀ entries ∈ head.l0Pted, ∀ n < entries.size, emptyRecord (entries.word n) = false →
    emptyRecord (entries.word n &&& (2 ^ 64 - 1 - pteU)) = false

/-- After `uvmclear` the records describe what they did, with the user bit of the page
cleared. -/
def Cleared (world : World) (pagetable idx va : Nat) : Prop :=
  ∃ after, world.uvmclear pagetable va = .ok after ∧
    (after.tables.head idx).mappings = (world.tables.head idx).mappings.map (withoutUser va)

/-- The first word of the PTED list on which `L0_ptes_clear_user` stops. -/
def searchPted (entries : Option Records) (targetVa : Nat) : Option Nat :=
  entries.bind fun entries =>
    (firstSlot (fun n => targetVa ≤ ptds2va (entries.word n) ∧
      ptds2va (entries.word n) ≤ (targetVa + pgsize) % 2 ^ 64) entries.size).map entries.word

/-- The page is not the user's as it is. -/
def Private (head : PtdupHead) (va : Nat) : Prop :=
  ∀ mapping ∈ head.mappings, mapping.va = va → mapping.user = false

/-- The scans stop at a run of two pages that begins at the page, with room for two entries,
or, if all runs are above the page, at its own entry; or nothing has to be cleared, and they
stop where nothing is changed. -/
def Clearable (head : PtdupHead) (va : Nat) : Prop :=
  (∃ word, World.searchPtds head.l0Ptds va = some word ∧
    ((ptds2size word ≤ 1 ∧ Private head va) ∨
      (ptds2size word = 2 ∧ (∃ entries ∈ head.l0Pted, 2 ≤ entries.room) ∧
        (ptds2va word = va ∨ ptds2ub word = 0 ∧ Private head va)))) ∨
  (World.searchPtds head.l0Ptds va = none ∧ ∃ word, searchPted head.l0Pted va = some word ∧
    ((emptyRecord word = true ∧ Private head va) ∨
      (emptyRecord word = false ∧
        (ptds2va word = va ∨ (entryMapping word).user = false ∧ Private head va))))

/-! ## One record changes -/

section Change

variable {before after : Multiset Mapping} {mapping changed : Mapping} {va : Nat}

theorem withoutUser_self (mapping : Mapping) :
    withoutUser mapping.va mapping = { mapping with user := false } := if_pos rfl

theorem Once.apart (once : Once (mapping ::ₘ before)) :
    ∀ other ∈ before, other.va ≠ mapping.va := by
  intro other member same
  have few := once mapping.va
  rw [Multiset.countP_cons, if_pos rfl] at few
  have more : 0 < before.countP fun other => other.va = mapping.va :=
    Multiset.countP_pos.mpr ⟨other, member, same⟩
  omega

theorem swap_last (one two three four : Multiset Mapping) :
    one + two + three + four = one + three + four + two := by ac_rfl

theorem cancel_pair {one two three four five six : Multiset Mapping}
    (sums : one + (two + three) + four = five + (four + six + three)) :
    one + two = five + six := by
  have moved : one + two + (three + four) = five + six + (three + four) := by
    calc one + two + (three + four) = one + (two + three) + four := by ac_rfl
      _ = five + (four + six + three) := sums
      _ = five + six + (three + four) := by ac_rfl
  exact add_right_cancel moved

theorem Once.left (once : Once (before + after)) : Once before := fun va =>
  (Multiset.countP_le_of_le _ (Multiset.le_add_right before after)).trans (once va)

/-- The mappings with the user bit of one page cleared. -/
theorem map_withoutUser (once : Once (mapping ::ₘ before)) :
    (mapping ::ₘ before).map (withoutUser mapping.va) =
      { mapping with user := false } ::ₘ before := by
  rw [Multiset.map_cons, withoutUser_self]
  congr 1
  refine (Multiset.map_congr rfl fun other member => ?_).trans (map_id _)
  exact if_neg (once.apart other member)

theorem same_right_iff (once : Once before) (member : mapping ∈ before) :
    before = before.map (withoutUser mapping.va) ↔ mapping.user = false := by
  obtain ⟨rest, rfl⟩ := exists_cons_of_mem member
  rw [map_withoutUser once, Multiset.cons_inj_left]
  constructor
  · intro same
    rw [same]
  · intro clear
    rw [← clear]

theorem changed_right_iff (once : Once before) (member : mapping ∈ before)
    (other : changed ∈ before)
    (change : after + {changed} = before + {{ changed with user := false }}) :
    after = before.map (withoutUser mapping.va) ↔
      changed.va = mapping.va ∨ changed.user = false ∧ mapping.user = false := by
  obtain ⟨rest, rfl⟩ := exists_cons_of_mem member
  rw [map_withoutUser once]
  rcases mem_cons.mp other with rfl | behind
  · refine iff_of_true ?_ (.inl rfl)
    have moved : after + {changed} = { changed with user := false } ::ₘ rest + {changed} := by
      rw [change, ← singleton_add, ← singleton_add, add_comm,
        add_comm {changed} rest, add_assoc]
    exact add_right_cancel moved
  · have apart := once.apart changed behind
    constructor
    · rintro rfl
      have pair : ({{ mapping with user := false }} + {changed} : Multiset Mapping) =
          {mapping} + {{ changed with user := false }} := by
        refine add_left_cancel (a := rest) ?_
        rw [← singleton_add, ← singleton_add, add_comm _ rest,
          add_comm _ rest, add_assoc, add_assoc] at change
        exact change
      have first : mapping ∈ ({{ mapping with user := false }} + {changed} : Multiset Mapping) := by
        rw [pair]
        exact mem_add.mpr (.inl (Multiset.mem_singleton_self _))
      have clear : mapping = { mapping with user := false } := by
        rcases mem_add.mp first with one | two
        · exact mem_singleton.mp one
        · exact absurd (congrArg Mapping.va (mem_singleton.mp two)).symm apart
      rw [← clear] at pair
      have second := Multiset.singleton_inj.mp (add_left_cancel pair)
      exact .inr ⟨by rw [second], by rw [clear]⟩
    · rintro (same | ⟨clear, mine⟩)
      · exact absurd same apart
      · have unchanged : { changed with user := false } = changed := by rw [← clear]
        have kept : { mapping with user := false } = mapping := by rw [← mine]
        rw [unchanged] at change
        rw [kept]
        exact add_right_cancel change

end Change

/-! ## Words -/

section Words

variable {word va : Nat}

/-- Without its user bit a word has the same addresses. -/
theorem clear_fields (bound : word < 2 ^ 64) :
    entryMapping (word &&& (2 ^ 64 - 1 - pteU)) = { entryMapping word with user := false } := by
  have small : word >>> 26 < 2 ^ 38 := by
    rw [shiftRight_eq_div_pow]
    omega
  have address : ptds2va (word &&& (2 ^ 64 - 1 - pteU)) = ptds2va word := by
    have shifted : (2 ^ 64 - 1 - pteU) >>> 26 = 2 ^ 38 - 1 := by decide
    rw [ptds2va, ptds2va, Nat.shiftRight_and_distrib, shifted,
      Nat.and_two_pow_sub_one_of_lt_two_pow small]
  have number : ptds2ppn (word &&& (2 ^ 64 - 1 - pteU)) = ptds2ppn word := by
    have mask : (2 ^ 64 - 1 - pteU) &&& 0x3FFFFFF800 = 0x3FFFFFF800 := by decide
    rw [ptds2ppn, ptds2ppn, Nat.and_assoc, mask]
  have flags : pted2flags (word &&& (2 ^ 64 - 1 - pteU)) &&& pteU = 0 := by
    have mask : (2 ^ 64 - 1 - pteU) &&& 0x1FF &&& pteU = 0 := by decide
    rw [pted2flags, Nat.and_assoc, Nat.and_assoc, ← Nat.and_assoc (2 ^ 64 - 1 - pteU), mask,
      Nat.and_zero]
  rw [entryMapping, entryMapping, address, number, flags]
  rfl

theorem clear_empty (empty : emptyRecord word = true) : word &&& (2 ^ 64 - 1 - pteU) = word := by
  rw [emptyRecord, Bool.or_eq_true, decide_eq_true_eq, decide_eq_true_eq] at empty
  rcases empty with rfl | rfl <;> decide

/-- A record that `PTDS_decompose_clear` makes is not free, nor the address of a page. -/
theorem live_entry {ppn flags : Nat} (small : flags < pgsize) (some : flags ≠ 0)
    (used : flags ≠ novalue % pgsize) : Live (va2ptds va ||| ppn2ptds ppn ||| flags) := by
  refine live_flags ?_ small some used
  have number : ppn2ptds ppn % 2 ^ 12 = 0 := by
    have low : (ppn &&& (2 ^ 64 - 2 ^ 10)) % 2 ^ 10 = 0 := by
      rw [Nat.and_mod_two_pow, show (2 ^ 64 - 2 ^ 10) % 2 ^ 10 = 0 from rfl, Nat.and_zero]
    rw [ppn2ptds, shiftLeft_eq]
    omega
  have page : va2ptds va % 2 ^ 12 = 0 := by
    rw [va2ptds, shiftLeft_eq]
    omega
  rw [pgsize_eq, show 4096 = 2 ^ 12 from rfl, Nat.or_mod_two_pow, number, page]
  rfl

theorem ptds2ub_cases (word : Nat) : ptds2ub word = 0 ∨ ptds2ub word = pteU := by
  rw [ptds2ub, show (0x10 : Nat) = 2 ^ 4 from rfl, Nat.and_two_pow]
  cases (word >>> 5).testBit 4
  · exact .inl rfl
  · exact .inr rfl

end Words

/-- The flags of a record of the user, or of the kernel. -/
theorem entryMapping_pack {va pa flags : Nat} (vaAligned : va % pgsize = 0) (vaLow : va < maxva)
    (memory : IsPage pa) (known : flags &&& userPerm = flags) :
    entryMapping (va2ptds va ||| ppn2ptds (pa2pte pa) ||| flags) =
      ⟨va, pa, flags &&& pteU ≠ 0⟩ := by
  have bounds := memory.bounds
  obtain ⟨address, number, bits⟩ :=
    fields_packPage_flags vaAligned vaLow bounds.1 memory.2.2 known
  rw [packPage, Nat.lor_comm (ppn2ptds (pa2pte pa))] at address number bits
  have page : pte2pa (pa2pte pa) = pa := by
    rw [pte2pa, pa2pte, shiftRight_eq_div_pow, shiftRight_eq_div_pow, shiftLeft_eq,
      shiftLeft_eq]
    omega
  rw [entryMapping, address, number, bits, page]

/-! ## A run of two pages -/

section Pair

variable {word : Nat}

theorem not_blank_of_two (size : ptds2size word = 2) : ¬Blank word := by
  rintro (empty | none)
  · rw [emptyRecord, Bool.or_eq_true, decide_eq_true_eq, decide_eq_true_eq] at empty
    rcases empty with rfl | rfl <;> exact absurd size (by decide)
  · rw [none] at size
    cases size

theorem runPages_two (size : ptds2size word = 2) :
    runPages word = {runMapping word 0} + {runMapping word 1} := by
  rw [runPages, if_neg fun empty => not_blank_of_two size (.inl empty), size]
  rfl

theorem runMapping_zero_va (word : Nat) : (runMapping word 0).va = ptds2va word := by
  simp [runMapping]

theorem runMapping_zero_user (word : Nat) : (runMapping word 0).user = false ↔ ptds2ub word = 0 := by
  simp [runMapping]

/-- The pages of a run are not below it, nor at the end of the addresses. -/
theorem mem_runPages_bounds {mapping : Mapping} (bound : word < 2 ^ 64)
    (member : mapping ∈ runPages word) :
    ptds2va word ≤ mapping.va ∧ mapping.va ≤ (mapping.va + 4096 - 1) % 2 ^ 64 := by
  have field := ptds2va_bounds bound
  have size := ptds2size_lt word
  rw [runPages] at member
  split at member
  · exact absurd member (notMem_zero mapping)
  · obtain ⟨j, inside, rfl⟩ := mem_map.mp member
    have low := Multiset.mem_range.mp inside
    dsimp only [runMapping]
    rw [pgsize_eq]
    omega

theorem next_aligned {va : Nat} (aligned : va % pgsize = 0) : (va + pgsize) % pgsize = 0 := by
  rw [Nat.add_mod_right, aligned]

/-- The physical addresses of the pages, as `PTDS_decompose_clear` computes them. -/
theorem pair_pages (first : IsPage (runMapping word 0).pa) :
    pte2pa (ptds2ppn word) = (runMapping word 0).pa ∧
      ppn2ptds (ptds2ppn word) = ppn2ptds (pa2pte (runMapping word 0).pa) ∧
      (if ptds2order word ≠ 0 then (pte2pa (ptds2ppn word) + pgsize) % 2 ^ 64
        else subWord (pte2pa (ptds2ppn word)) pgsize) = (runMapping word 1).pa := by
  have small : ptds2ppn word < 2 ^ 36 := by
    have masked : word &&& 0x3FFFFFF800 ≤ 0x3FFFFFF800 := Nat.and_le_right
    rw [ptds2ppn, shiftRight_eq_div_pow]
    omega
  have zero : runPpn word 0 = ptds2ppn word := by
    rw [runPpn, subWord]
    split <;> omega
  have page : (runMapping word 0).pa = ptds2ppn word / 2 ^ 10 * 2 ^ 12 := by
    change pte2pa (runPpn word 0) = _
    rw [zero, pte2pa, shiftRight_eq_div_pow, shiftLeft_eq]
    omega
  have bounds := first.bounds
  rw [page] at bounds ⊢
  have start : pte2pa (ptds2ppn word) = ptds2ppn word / 2 ^ 10 * 2 ^ 12 := by
    rw [pte2pa, shiftRight_eq_div_pow, shiftLeft_eq]
    omega
  refine ⟨start, ?_, ?_⟩
  · have entry : pa2pte (ptds2ppn word / 2 ^ 10 * 2 ^ 12) = ptds2ppn word / 2 ^ 10 * 2 ^ 10 := by
      rw [pa2pte, shiftRight_eq_div_pow, shiftLeft_eq]
      omega
    rw [entry, ppn2ptds, ppn2ptds, and_highMask (by omega) (by decide),
      and_highMask (by omega) (by decide)]
    congr 3
    omega
  · change _ = pte2pa (runPpn word 1)
    rw [start, runPpn, pgsize_eq]
    split
    · rw [pte2pa, shiftRight_eq_div_pow, shiftLeft_eq]
      omega
    · rw [pte2pa, shiftRight_eq_div_pow, shiftLeft_eq, subWord, subWord]
      omega

end Pair

/-! ## The two entries -/

/-- The first entry of `PTDS_decompose_clear`. -/
def firstEntry (startVa startPpn : Nat) : Nat :=
  va2ptds startVa ||| ppn2ptds startPpn ||| (pteW ||| pteX ||| pteR)

/-- The second one. -/
def secondEntry (entry startVa startPa : Nat) : Nat :=
  let nextPa :=
    if ptds2order entry ≠ 0 then (startPa + pgsize) % 2 ^ 64 else subWord startPa pgsize
  va2ptds (startVa + pgsize) ||| ppn2ptds (pa2pte nextPa) ||| (pteW ||| pteX ||| pteR) |||
    ptds2ub entry

theorem live_firstEntry (startVa startPpn : Nat) : Live (firstEntry startVa startPpn) :=
  live_entry (by decide) (by decide) (by decide)

theorem live_secondEntry (entry startVa startPa : Nat) :
    Live (secondEntry entry startVa startPa) := by
  rw [secondEntry, Nat.lor_assoc]
  rcases ptds2ub_cases entry with none | user
  · rw [none]
    exact live_entry (by decide) (by decide) (by decide)
  · rw [user]
    exact live_entry (by decide) (by decide) (by decide)

theorem Live.ne_header {word : Nat} (live : Live word) (records : Records) :
    word ≠ records.header := by
  rintro rfl
  exact live.2 records.header.2.bounds.1

section Added

variable {world next : World} {idx content : Nat} {records after : Records} {free : List Page}

theorem addPted_ok (lists : (world.tables.head idx).l0Pted = some records)
    (added : ptdsPtedAdd records content world.free = some (after, free)) :
    world.addPted idx content = .ok (World.setHead { world with free := free } idx
      { world.tables.head idx with l0Pted := some after }) := by
  unfold World.addPted
  split
  next none => cases none.symm.trans lists
  next same =>
    obtain rfl := Option.some.inj (same.symm.trans lists)
    unfold World.addRecord
    split
    next missing => cases missing.symm.trans added
    next found =>
      obtain ⟨rfl, rfl⟩ := Prod.mk.inj (Option.some.inj (found.symm.trans added))
      rfl

theorem addPted_inv (done : world.addPted idx content = .ok next) :
    ∃ records after free, (world.tables.head idx).l0Pted = some records ∧
      ptdsPtedAdd records content world.free = some (after, free) ∧
      next = World.setHead { world with free := free } idx
        { world.tables.head idx with l0Pted := some after } := by
  unfold World.addPted at done
  split at done
  next => cases done
  next records lists =>
    unfold World.addRecord at done
    split at done
    next => cases done
    next after free added => exact ⟨records, after, free, lists, added, (Except.ok.inj done).symm⟩

variable {entry startVa startPpn startPa : Nat}

theorem addPair_eq : world.addPair idx entry startVa startPpn startPa =
    (world.addPted idx (firstEntry startVa startPpn)).bind fun world =>
      world.addPted idx (secondEntry entry startVa startPa) := rfl

theorem addPair_ok (lists : (world.tables.head idx).l0Pted = some records)
    (unlinked : records.Unlinked) (room : 2 ≤ records.room) :
    ∃ two, world.addPair idx entry startVa startPpn startPa =
        .ok (world.setHead idx { world.tables.head idx with l0Pted := some two }) ∧
      two.describe entryPages = records.describe entryPages +
        entryPages (firstEntry startVa startPpn) + entryPages (secondEntry entry startVa startPa) := by
  have first := live_firstEntry startVa startPpn
  have second := live_secondEntry entry startVa startPa
  obtain ⟨one, two, added, again, pages⟩ := @add_twice records world.free
    (firstEntry startVa startPpn) (secondEntry entry startVa startPa) unlinked first.1 second.1
    (first.ne_header records) (second.ne_header records) room
  refine ⟨two, ?_, pages⟩
  have lists' : ((World.setHead world idx
      { world.tables.head idx with l0Pted := some one }).tables.head idx).l0Pted = some one := by
    simp [World.setHead]
  rw [addPair_eq, addPted_ok lists added, Except.bind, addPted_ok lists' again]
  simp [World.setHead]

/-- The entries that are described when the addition has succeeded. -/
theorem addPair_inv (unlinked : ∀ records ∈ (world.tables.head idx).l0Pted, records.Unlinked)
    (done : world.addPair idx entry startVa startPpn startPa = .ok next) :
    ∃ records two free, (world.tables.head idx).l0Pted = some records ∧
      next = World.setHead { world with free := free } idx
        { world.tables.head idx with l0Pted := some two } ∧
      Multiset.card (two.describe entryPages) =
        Multiset.card (records.describe entryPages) + if 2 ≤ records.room then 2 else 1 := by
  rw [addPair_eq] at done
  obtain ⟨middle, before, last⟩ : ∃ middle,
      world.addPted idx (firstEntry startVa startPpn) = .ok middle ∧
        middle.addPted idx (secondEntry entry startVa startPa) = .ok next := by
    cases result : world.addPted idx (firstEntry startVa startPpn) with
    | error panic =>
      rw [result] at done
      cases done
    | ok middle =>
      rw [result] at done
      exact ⟨middle, rfl, done⟩
  obtain ⟨records, one, free, lists, added, rfl⟩ := addPted_inv before
  obtain ⟨again, two, left, listsOne, addedTwo, rfl⟩ := addPted_inv last
  have same : again = one := by
    simpa [World.setHead] using listsOne.symm
  subst same
  have first := live_firstEntry startVa startPpn
  have second := live_secondEntry entry startVa startPa
  refine ⟨records, two, left, lists, ?_, card_add_twice (unlinked records lists) first.1 second.1
    (first.ne_header records) (second.ne_header records) added addedTwo⟩
  simp [World.setHead]

end Added

/-! ## A run is taken apart -/

section Decompose

variable {world after : World} {idx va : Nat} {records : Records} {word : Nat}

theorem head_setHead (world : World) (idx : Nat) (head : PtdupHead) :
    (world.setHead idx head).tables.head idx = head := Function.update_self ..

theorem PtdupHead.mappings_eq {head : PtdupHead} {records entries : Records}
    (runs : head.l0Ptds = some records) (singles : head.l0Pted = some entries) :
    head.mappings = records.describe runPages + entries.describe entryPages := by
  simp only [PtdupHead.mappings, runs, singles, Option.elim_some]

theorem Content.once_runs {head : PtdupHead} (content : Content head)
    (lists : head.l0Ptds = some records) : Once (records.describe runPages) := by
  have once := content.once
  simp only [PtdupHead.mappings, lists, Option.elim_some] at once
  exact once.left

/-- `PTDS_delete` of the two pages of a run. -/
theorem delete_pair (content : Content (world.tables.head idx))
    (lists : (world.tables.head idx).l0Ptds = some records) {t : Nat} (low : t < records.size)
    (size : ptds2size (records.word t) = 2) (supply : List Page) :
    ∃ left rest, ptdsDelete records (ptds2va (records.word t))
        (ptds2va (records.word t) + 2 * pgsize) supply = some (left, rest) ∧
      left.describe runPages + runPages (records.word t) = records.describe runPages := by
  have words := content.words.1 records lists
  have field := ptds2va_bounds (words t)
  have live := not_blank_of_two size
  have stop : runEnd (records.word t) = ptds2va (records.word t) + 2 * pgsize := by
    rw [runEnd, size]
  have long := lt_runEnd live
  have high := content.low records lists t low live
  have outside := content.outside records lists t low live
  rw [stop] at long high outside
  refine describe_ptdsDelete ⟨?_, ?_, long, high⟩ outside words (fun _ => content.plain records lists)
    low ⟨Nat.le_refl _, stop.le⟩ (fun n inside different used => ?_) supply
  · exact field.1
  · rw [pgsize_eq]
    exact (Nat.add_mul_mod_self_right _ 2 4096).trans field.1
  · rw [← stop]
    exact apart_of_once (content.once_runs lists) words inside low different used live

/-- What is left of the runs when a pair has been added and the run deleted. -/
theorem decompose_two (content : Content (world.tables.head idx))
    (lists : (world.tables.head idx).l0Ptds = some records) {t : Nat} (low : t < records.size)
    (size : ptds2size (records.word t) = 2) {entries two : Records}
    {middle : World} {free : List Page} (singles : (world.tables.head idx).l0Pted = some entries)
    (added : world.addPair idx (records.word t) (ptds2va (records.word t))
      (ptds2ppn (records.word t)) (pte2pa (ptds2ppn (records.word t))) = .ok middle)
    (same : middle = World.setHead { world with free := free } idx
      { world.tables.head idx with l0Pted := some two }) :
    ∃ after, world.ptdsDecomposeClear idx (records.word t) = .ok after ∧
      (after.tables.head idx).mappings + runPages (records.word t) +
          entries.describe entryPages =
        (world.tables.head idx).mappings + two.describe entryPages := by
  obtain ⟨left, rest, deleted, pages⟩ := delete_pair content lists low size middle.free
  have head : middle.tables.head idx = { world.tables.head idx with l0Pted := some two } := by
    rw [same]
    simp [World.setHead]
  have runs : (middle.tables.head idx).l0Ptds = some records := by
    rw [head]
    exact lists
  refine ⟨World.setHead { middle with free := rest } idx
    { middle.tables.head idx with l0Ptds := some left }, ?_, ?_⟩
  · unfold World.ptdsDecomposeClear
    rw [if_pos size, added, Except.bind]
    dsimp only
    split
    next none => cases none.symm.trans runs
    next found =>
      obtain rfl := Option.some.inj (found.symm.trans runs)
      split
      next missing => cases missing.symm.trans deleted
      next gone =>
        obtain ⟨rfl, rfl⟩ := Prod.mk.inj (Option.some.inj (gone.symm.trans deleted))
        rfl
  · have changed : ((World.setHead { middle with free := rest } idx
        { middle.tables.head idx with l0Ptds := some left }).tables.head idx).mappings =
          left.describe runPages + two.describe entryPages := by
      rw [head_setHead]
      refine PtdupHead.mappings_eq rfl ?_
      rw [head]
    rw [changed, PtdupHead.mappings_eq lists singles, ← pages]
    exact swap_last ..

theorem Content.page {head : PtdupHead} (content : Content head)
    (lists : head.l0Ptds = some records) {t : Nat} (low : t < records.size) {mapping : Mapping}
    (member : mapping ∈ runPages (records.word t)) : IsPage mapping.pa := by
  refine content.memory records lists mapping ?_
  rw [mem_describe]
  exact ⟨t, low, member⟩

/-- A run of two pages is taken apart rightly where the list of entries has two free slots. -/
theorem decompose_ok (content : Content (world.tables.head idx))
    (lists : (world.tables.head idx).l0Ptds = some records) {t : Nat} (low : t < records.size)
    (size : ptds2size (records.word t) = 2) {entries : Records}
    (singles : (world.tables.head idx).l0Pted = some entries) (room : 2 ≤ entries.room) :
    ∃ after, world.ptdsDecomposeClear idx (records.word t) = .ok after ∧
      (after.tables.head idx).mappings + {runMapping (records.word t) 0} =
        (world.tables.head idx).mappings +
          {{ runMapping (records.word t) 0 with user := false }} := by
  have bound := content.words.1 records lists t
  have field := ptds2va_bounds bound
  have pair := runPages_two size
  have first : IsPage (runMapping (records.word t) 0).pa := content.page lists low (by simp [pair])
  have second : IsPage (runMapping (records.word t) 1).pa := content.page lists low (by simp [pair])
  obtain ⟨-, number, along⟩ := pair_pages first
  obtain ⟨two, added, pages⟩ := @addPair_ok world idx entries (records.word t)
    (ptds2va (records.word t)) (ptds2ppn (records.word t)) (pte2pa (ptds2ppn (records.word t)))
    singles (content.unlinked entries singles) room
  have kept : world.setHead idx { world.tables.head idx with l0Pted := some two } =
      World.setHead { world with free := world.free } idx
        { world.tables.head idx with l0Pted := some two } := rfl
  obtain ⟨after, done, sums⟩ := decompose_two content lists low size singles added kept
  refine ⟨after, done, ?_⟩
  have high := content.low records lists t low (not_blank_of_two size)
  rw [runEnd, size] at high
  have next : ptds2va (records.word t) + pgsize < maxva := by
    rw [pgsize_eq] at high ⊢
    omega
  have cleared : entryPages (firstEntry (ptds2va (records.word t)) (ptds2ppn (records.word t))) =
      {{ runMapping (records.word t) 0 with user := false }} := by
    rw [entryPages_of_live (live_firstEntry _ _).1, firstEntry, number,
      entryMapping_pack field.1 field.2 first rfl]
    simp [runMapping, pteW, pteX, pteR, pteU]
  have other : entryPages (secondEntry (records.word t) (ptds2va (records.word t))
      (pte2pa (ptds2ppn (records.word t)))) = {runMapping (records.word t) 1} := by
    rw [entryPages_of_live (live_secondEntry _ _ _).1, secondEntry]
    rw [along, Nat.lor_assoc, entryMapping_pack (next_aligned field.1) next second]
    · rcases ptds2ub_cases (records.word t) with none | user
      · simp [runMapping, none, pteW, pteX, pteR, pteU]
      · simp [runMapping, user, pteW, pteX, pteR, pteU]
    · rcases ptds2ub_cases (records.word t) with none | user
      · rw [none]
        decide
      · rw [user]
        decide
  rw [pages, cleared, other, pair] at sums
  exact cancel_pair sums

theorem decompose_card (content : Content (world.tables.head idx))
    (lists : (world.tables.head idx).l0Ptds = some records) {t : Nat} (low : t < records.size)
    (size : ptds2size (records.word t) = 2)
    (done : world.ptdsDecomposeClear idx (records.word t) = .ok after) :
    ∃ entries, (world.tables.head idx).l0Pted = some entries ∧
      Multiset.card (after.tables.head idx).mappings + (if 2 ≤ entries.room then 0 else 1) =
        Multiset.card (world.tables.head idx).mappings := by
  cases added : world.addPair idx (records.word t) (ptds2va (records.word t))
      (ptds2ppn (records.word t)) (pte2pa (ptds2ppn (records.word t))) with
  | error panic =>
    unfold World.ptdsDecomposeClear at done
    rw [if_pos size, added] at done
    cases done
  | ok middle =>
    obtain ⟨entries, two, free, singles, same, card⟩ := addPair_inv content.unlinked added
    obtain ⟨found, again, sums⟩ := decompose_two content lists low size singles added same
    obtain rfl := Except.ok.inj (again.symm.trans done)
    refine ⟨entries, singles, ?_⟩
    have cards := congrArg Multiset.card sums
    rw [runPages_two size, Multiset.card_add, Multiset.card_add, Multiset.card_add,
      Multiset.card_add, card, card_singleton, card_singleton] at cards
    split <;> split at cards <;> omega

/-- A longer run is left as it is, and its last two pages are described again. -/
theorem decompose_long (content : Content (world.tables.head idx)) (long : 2 < ptds2size word)
    (done : world.ptdsDecomposeClear idx word = .ok after) :
    Multiset.card (world.tables.head idx).mappings <
      Multiset.card (after.tables.head idx).mappings := by
  unfold World.ptdsDecomposeClear at done
  rw [if_neg (Nat.ne_of_gt long), if_pos long] at done
  obtain ⟨entries, two, free, singles, rfl, card⟩ := addPair_inv content.unlinked done
  rw [head_setHead, PtdupHead.mappings, PtdupHead.mappings, singles, Multiset.card_add,
    Multiset.card_add]
  simp only [Option.elim_some]
  rw [card]
  split <;> omega

end Decompose

/-! ## The scans -/

section Scans

variable {head : PtdupHead} {word va : Nat} {mapping : Mapping}

theorem searchPtds_inv (found : World.searchPtds head.l0Ptds va = some word) :
    ∃ records, head.l0Ptds = some records ∧ ∃ t < records.size, word = records.word t := by
  obtain ⟨records, lists, found⟩ := Option.bind_eq_some_iff.mp found
  obtain ⟨t, first, rfl⟩ := Option.map_eq_some_iff.mp found
  exact ⟨records, lists, t, (firstSlot_eq_some.mp first).1, rfl⟩

theorem private_iff (once : Once head.mappings) (member : mapping ∈ head.mappings) :
    Private head mapping.va ↔ mapping.user = false := by
  constructor
  · intro clear
    exact clear mapping member rfl
  · intro clear other inside same
    obtain ⟨rest, whole⟩ := exists_cons_of_mem member
    rw [whole] at once inside
    rcases mem_cons.mp inside with rfl | behind
    · exact clear
    · exact absurd same (once.apart other behind)

/-- The first page of a run is among the pages that are described. -/
theorem runMapping_mem {records : Records} {t : Nat} (lists : head.l0Ptds = some records)
    (low : t < records.size) (size : ptds2size (records.word t) = 2) :
    runMapping (records.word t) 0 ∈ head.mappings := by
  rw [PtdupHead.mappings, lists, mem_add]
  refine .inl ?_
  simp only [Option.elim_some]
  rw [mem_describe]
  exact ⟨t, low, by simp [runPages_two size]⟩

theorem entryMapping_mem {records : Records} {t : Nat} (lists : head.l0Pted = some records)
    (low : t < records.size) (live : emptyRecord (records.word t) = false) :
    entryMapping (records.word t) ∈ head.mappings := by
  rw [PtdupHead.mappings, lists, mem_add]
  refine .inr ?_
  simp only [Option.elim_some]
  rw [mem_describe]
  exact ⟨t, low, by simp [entryPages_of_live live]⟩

/-- A page below which no slot of the PTDS list lies is that of an entry. -/
theorem entry_of_search_none (words : head.Words) (member : mapping ∈ head.mappings)
    (none : World.searchPtds head.l0Ptds mapping.va = none) :
    ∃ records, head.l0Pted = some records ∧ ∃ t < records.size,
      ptds2va (records.word t) = mapping.va := by
  rw [PtdupHead.mappings, mem_add] at member
  rcases member with run | entry
  · cases lists : head.l0Ptds with
    | none =>
      rw [lists] at run
      exact absurd run (notMem_zero mapping)
    | some records =>
      rw [lists, Option.elim_some, mem_describe] at run
      obtain ⟨n, low, inside⟩ := run
      rw [lists, World.searchPtds, Option.bind_some, Option.map_eq_none_iff,
        firstSlot_eq_none] at none
      have beyond := none n low
      have range := mem_runPages_bounds (words.1 records lists n) inside
      rw [decide_eq_false_iff_not, pgsize_eq] at beyond
      exact absurd ⟨range.1, range.2⟩ beyond
  · cases lists : head.l0Pted with
    | none =>
      rw [lists] at entry
      exact absurd entry (notMem_zero mapping)
    | some records =>
      rw [lists, Option.elim_some, mem_describe] at entry
      obtain ⟨n, low, inside⟩ := entry
      refine ⟨records, rfl, n, low, ?_⟩
      rw [entryPages] at inside
      split at inside
      · exact absurd inside (notMem_zero mapping)
      · rw [mem_singleton.mp inside]
        rfl

/-- The scan of the PTED list stops at a record of the page, if not before. -/
theorem entry_slot {records : Records} {t : Nat} (bound : records.word t < 2 ^ 64)
    (inside : t < records.size) (here : ptds2va (records.word t) = va) :
    ∃ i, firstSlot (fun n => decide (va ≤ ptds2va (records.word n) ∧
        ptds2va (records.word n) ≤ (va + pgsize) % 2 ^ 64)) records.size = some i ∧
      i < records.size := by
  have field := ptds2va_bounds bound
  rw [here] at field
  have hit : va ≤ ptds2va (records.word t) ∧
      ptds2va (records.word t) ≤ (va + pgsize) % 2 ^ 64 := by
    rw [here, pgsize_eq]
    omega
  cases found : firstSlot (fun n => decide (va ≤ ptds2va (records.word n) ∧
      ptds2va (records.word n) ≤ (va + pgsize) % 2 ^ 64)) records.size with
  | none =>
    have missed := firstSlot_eq_none.mp found t inside
    exact absurd hit (decide_eq_false_iff_not.mp missed)
  | some i => exact ⟨i, rfl, (firstSlot_eq_some.mp found).1⟩

end Scans

/-! ## When the user bit is cleared -/

section Clear

variable {world : World} {pagetable idx va word : Nat} {mapping : Mapping}

theorem cleared_run_iff (content : Content (world.tables.head idx))
    (member : mapping ∈ (world.tables.head idx).mappings)
    (search : World.searchPtds (world.tables.head idx).l0Ptds mapping.va = some word) :
    (∃ after, world.ptdsDecomposeClear idx word = .ok after ∧
      (after.tables.head idx).mappings =
        (world.tables.head idx).mappings.map (withoutUser mapping.va)) ↔
      (ptds2size word ≤ 1 ∧ Private (world.tables.head idx) mapping.va) ∨
        (ptds2size word = 2 ∧ (∃ entries ∈ (world.tables.head idx).l0Pted, 2 ≤ entries.room) ∧
          (ptds2va word = mapping.va ∨
            ptds2ub word = 0 ∧ Private (world.tables.head idx) mapping.va)) := by
  obtain ⟨records, lists, t, low, rfl⟩ := searchPtds_inv search
  rw [private_iff content.once member]
  rcases Nat.lt_trichotomy (ptds2size (records.word t)) 2 with small | two | long
  · have done : world.ptdsDecomposeClear idx (records.word t) = .ok world := by
      rw [World.ptdsDecomposeClear, if_neg (Nat.ne_of_lt small), if_neg (Nat.not_lt_of_lt small)]
    rw [done]
    constructor
    · rintro ⟨after, same, right⟩
      obtain rfl := Except.ok.inj same
      exact .inl ⟨Nat.le_of_lt_succ small, (same_right_iff content.once member).mp right⟩
    · rintro (⟨-, clear⟩ | ⟨size, -⟩)
      · exact ⟨world, rfl, (same_right_iff content.once member).mpr clear⟩
      · exact absurd size (Nat.ne_of_lt small)
  · have first := runMapping_mem lists low two
    have place := runMapping_zero_va (records.word t)
    have bit := runMapping_zero_user (records.word t)
    constructor
    · rintro ⟨after, done, right⟩
      obtain ⟨entries, singles, card⟩ := decompose_card content lists low two done
      rw [right, card_map] at card
      have room : 2 ≤ entries.room := by
        by_contra few
        rw [if_neg few] at card
        omega
      obtain ⟨again, found, change⟩ := decompose_ok content lists low two singles room
      obtain rfl := Except.ok.inj (found.symm.trans done)
      have answer := (changed_right_iff content.once member first change).mp right
      rw [place, bit] at answer
      exact .inr ⟨two, ⟨entries, singles, room⟩, answer⟩
    · rintro (⟨small, -⟩ | ⟨-, ⟨entries, singles, room⟩, answer⟩)
      · omega
      · obtain ⟨after, done, change⟩ := decompose_ok content lists low two singles room
        rw [← place, ← bit] at answer
        exact ⟨after, done, (changed_right_iff content.once member first change).mpr answer⟩
  · constructor
    · rintro ⟨after, done, right⟩
      have more := decompose_long content long done
      rw [right, card_map] at more
      exact absurd more (Nat.lt_irrefl _)
    · rintro (⟨small, -⟩ | ⟨size, -⟩) <;> omega

theorem entry_cleared {head : PtdupHead} {records : Records} {i : Nat} (content : Content head)
    (singles : head.l0Pted = some records) (low : i < records.size) :
    entryPages (records.word i &&& (2 ^ 64 - 1 - pteU)) =
      (entryPages (records.word i)).map fun mapping => { mapping with user := false } := by
  cases empty : emptyRecord (records.word i) with
  | true =>
    rw [clear_empty empty, entryPages_of_empty empty, Multiset.map_zero]
  | false =>
    rw [entryPages_of_live empty, entryPages_of_live (content.flags records singles i low empty),
      clear_fields (content.words.2 records singles i), map_singleton]

/-- The pages that are described when a word of the PTED list has lost its user bit. -/
theorem clear_entry {head : PtdupHead} {records : Records} {i : Nat} (content : Content head)
    (singles : head.l0Pted = some records) (low : i < records.size) :
    PtdupHead.mappings { head with
        l0Pted := some (records.set i (records.word i &&& (2 ^ 64 - 1 - pteU))) } +
        entryPages (records.word i) =
      head.mappings +
        (entryPages (records.word i)).map fun mapping => { mapping with user := false } := by
  have sums := @describe_set records entryPages i low (records.word i &&& (2 ^ 64 - 1 - pteU))
  rw [entry_cleared content singles low] at sums
  rw [PtdupHead.mappings, PtdupHead.mappings, singles]
  simp only [Option.elim_some]
  rw [add_assoc, sums, add_assoc]

theorem cleared_entry_iff {head : PtdupHead} {records : Records} {i : Nat} (content : Content head)
    (member : mapping ∈ head.mappings) (singles : head.l0Pted = some records)
    (low : i < records.size) :
    PtdupHead.mappings { head with
        l0Pted := some (records.set i (records.word i &&& (2 ^ 64 - 1 - pteU))) } =
      head.mappings.map (withoutUser mapping.va) ↔
      (emptyRecord (records.word i) = true ∧ Private head mapping.va) ∨
        (emptyRecord (records.word i) = false ∧
          (ptds2va (records.word i) = mapping.va ∨
            (entryMapping (records.word i)).user = false ∧ Private head mapping.va)) := by
  rw [private_iff content.once member]
  have change := clear_entry content singles low
  cases empty : emptyRecord (records.word i) with
  | true =>
    rw [entryPages_of_empty empty, Multiset.map_zero, add_zero, add_zero] at change
    rw [change, same_right_iff content.once member]
    simp
  | false =>
    rw [entryPages_of_live empty, map_singleton] at change
    rw [changed_right_iff content.once member (entryMapping_mem singles low empty) change]
    simp [entryMapping]

/-- `uvmclear` on a page that is mapped goes through the records. -/
theorem uvmclear_eq {page index : Nat}
    (mapped : world.walk pagetable va false = .ok (some (page, index), world)) :
    world.uvmclear pagetable va = World.l0PtesClearUser (world.write page index
      (world.tables.memory page index &&& (2 ^ 64 - 1 - pteU))) pagetable va := by
  rw [World.uvmclear, mapped]
  rfl

section Search

variable {page index : Nat} (found : world.tables.ptdupIndex pagetable = some idx)
  (mapped : world.walk pagetable mapping.va false = .ok (some (page, index), world))
  (content : Content (world.tables.head idx))
  (member : mapping ∈ (world.tables.head idx).mappings)

include found mapped content member

/-- `uvmclear` where the scan of the PTDS list stops. -/
theorem cleared_iff_of_run
    (search : World.searchPtds (world.tables.head idx).l0Ptds mapping.va = some word) :
    Cleared world pagetable idx mapping.va ↔
      (ptds2size word ≤ 1 ∧ Private (world.tables.head idx) mapping.va) ∨
        (ptds2size word = 2 ∧ (∃ entries ∈ (world.tables.head idx).l0Pted, 2 ≤ entries.room) ∧
          (ptds2va word = mapping.va ∨
            ptds2ub word = 0 ∧ Private (world.tables.head idx) mapping.va)) := by
  rw [Cleared, uvmclear_eq mapped]
  -- The store to the table touches none of the records.
  generalize written : world.write page index
    (world.tables.memory page index &&& (2 ^ 64 - 1 - pteU)) = later
  have same : later.tables.head = world.tables.head := by rw [← written]; rfl
  have place : later.tables.ptdupIndex pagetable = some idx := by
    rw [← written]
    exact found
  rw [← same] at content member search ⊢
  have step : later.l0PtesClearUser pagetable mapping.va = later.ptdsDecomposeClear idx word := by
    simp only [World.l0PtesClearUser, place, search]
  rw [step, cleared_run_iff content member search]

theorem cleared_iff_of_entry
    (search : World.searchPtds (world.tables.head idx).l0Ptds mapping.va = none) :
    ∃ word, searchPted (world.tables.head idx).l0Pted mapping.va = some word ∧
      (Cleared world pagetable idx mapping.va ↔
        (emptyRecord word = true ∧ Private (world.tables.head idx) mapping.va) ∨
          (emptyRecord word = false ∧ (ptds2va word = mapping.va ∨
            (entryMapping word).user = false ∧ Private (world.tables.head idx) mapping.va))) := by
  obtain ⟨records, singles, t, inside, here⟩ := entry_of_search_none content.words member search
  obtain ⟨i, first, low⟩ := entry_slot (content.words.2 records singles t) inside here
  refine ⟨records.word i, ?_, ?_⟩
  · simp only [searchPted, singles, Option.bind_some, first, Option.map_some]
  · rw [Cleared, uvmclear_eq mapped]
    generalize written : world.write page index
      (world.tables.memory page index &&& (2 ^ 64 - 1 - pteU)) = later
    have same : later.tables.head = world.tables.head := by rw [← written]; rfl
    have place : later.tables.ptdupIndex pagetable = some idx := by
      rw [← written]
      exact found
    rw [← same] at content member search singles ⊢
    have step : later.l0PtesClearUser pagetable mapping.va =
        .ok (later.setHead idx { later.tables.head idx with
          l0Pted := some (records.set i (records.word i &&& (2 ^ 64 - 1 - pteU))) }) := by
      simp only [World.l0PtesClearUser, place, search, singles, first]
    rw [step, ← cleared_entry_iff content member singles low]
    simp only [Except.ok.injEq, exists_eq_left', head_setHead]

end Search

/-- `uvmclear` clears the user bit in the records, and changes nothing else, exactly when the
scans stop at the right places. -/
theorem cleared_iff {page index : Nat} (found : world.tables.ptdupIndex pagetable = some idx)
    (mapped : world.walk pagetable va false = .ok (some (page, index), world))
    (content : Content (world.tables.head idx))
    (described : ∃ mapping ∈ (world.tables.head idx).mappings, mapping.va = va) :
    Cleared world pagetable idx va ↔ Clearable (world.tables.head idx) va := by
  obtain ⟨mapping, member, rfl⟩ := described
  cases search : World.searchPtds (world.tables.head idx).l0Ptds mapping.va with
  | some word =>
    rw [cleared_iff_of_run found mapped content member search, Clearable, search]
    simp
  | none =>
    obtain ⟨word, stop, answer⟩ := cleared_iff_of_entry found mapped content member search
    rw [answer, Clearable, search, stop]
    simp

end Clear

/-! ## A program that is loaded -/

/-- The text of a program: two pages at address zero. -/
def textRun : Nat :=
  va2ptds 0 ||| ppn2ptds (pa2pte 0x87f50000) ||| ub2ptds pteU ||| order2ptds 1 ||| 2

/-- The two pages behind it, of which the first one becomes the guard page of the stack. -/
def stackRun : Nat :=
  va2ptds 0x2000 ||| ppn2ptds (pa2pte 0x87f60000) ||| ub2ptds pteU ||| order2ptds 1 ||| 2

/-- The runs of the program. -/
def loadedRuns : Records where
  header := ⟨0x87f40000, by decide⟩
  behind := 0
  word n := if n = 0 then textRun else if n = 1 then stackRun else novalue

/-- The list of its entries, all of them free. -/
def noEntries : Records := ⟨⟨0x87f41000, by decide⟩, 0, fun _ => novalue⟩

/-- A process whose program has been read in, at index 1. -/
def loaded : World where
  tables :=
    { memory := fun page index =>
        if page = 0x87f10000 then if index = 0 then pa2pte 0x87f11000 ||| pteV else 0
        else if page = 0x87f11000 then if index = 0 then pa2pte 0x87f12000 ||| pteV else 0
        else if 4 ≤ index then 0
        else if index < 2 then pa2pte (0x87f50000 + index * pgsize) ||| userPerm ||| pteV
        else pa2pte (0x87f60000 + (index - 2) * pgsize) ||| userPerm ||| pteV
      head := fun _ =>
        { l2 := 0x87f42000
          l1 := 0x87f43000
          l0Ptds := some loadedRuns
          l0Pted := some noEntries }
      idxPtdup := fun i => if i = 1 then 0x87f10000 else 0 }
  nextpid := 3
  free := []
  kernelEnd := 0x80030000
  mlistFull := []

theorem describe_two {records : Records} {view : Nat → Multiset Mapping} (long : 2 ≤ records.size)
    (behind : ∀ n, 2 ≤ n → view (records.word n) = 0) :
    records.describe view = view (records.word 0) + view (records.word 1) := by
  have few : ∑ n ∈ Finset.range 2, view (records.word n) =
      ∑ n ∈ Finset.range records.size, view (records.word n) := by
    refine Finset.sum_subset (Finset.range_mono long) fun n _ high => behind n ?_
    rw [Finset.mem_range] at high
    exact Nat.not_lt.mp high
  rw [describe_eq, ← few, Finset.sum_range_succ, Finset.sum_range_one]

theorem loadedRuns_behind (n : Nat) (high : 2 ≤ n) : loadedRuns.word n = novalue := by
  change (if n = 0 then textRun else if n = 1 then stackRun else novalue) = novalue
  rw [if_neg (by omega), if_neg (by omega)]

theorem loaded_mappings : (loaded.tables.head 1).mappings =
    {runMapping textRun 0} + {runMapping textRun 1} +
      ({runMapping stackRun 0} + {runMapping stackRun 1}) := by
  have runs : loadedRuns.describe runPages = runPages textRun + runPages stackRun :=
    @describe_two loadedRuns runPages (by decide) fun n high => by
      rw [loadedRuns_behind n high, runPages_of_blank (.inl rfl)]
  have entries : noEntries.describe entryPages = 0 := by
    rw [describe_eq]
    exact Finset.sum_eq_zero fun n _ => entryPages_of_empty rfl
  have whole := @PtdupHead.mappings_eq (loaded.tables.head 1) loadedRuns noEntries rfl rfl
  rw [whole, runs, entries, add_zero, runPages_two (by decide), runPages_two (by decide)]

/-- What holds of the two runs and of free slots holds of all words of the program. -/
theorem loadedRuns_all {property : Nat → Prop} (text : property textRun)
    (stack : property stackRun) (free : property novalue) (n : Nat) :
    property (loadedRuns.word n) := by
  change property (if n = 0 then textRun else if n = 1 then stackRun else novalue)
  split
  · exact text
  · split
    · exact stack
    · exact free

theorem once_of_nodup {mappings : Multiset Mapping} (nodup : (mappings.map Mapping.va).Nodup) :
    Once mappings := by
  intro va
  have few := Multiset.nodup_iff_count_le_one.mp nodup va
  rw [Multiset.count_map] at few
  rw [Multiset.countP_eq_card_filter]
  simpa [eq_comm] using few

theorem isPage_of_two {word : Nat} {mapping : Mapping} (size : ptds2size word = 2)
    (first : IsPage (runMapping word 0).pa) (second : IsPage (runMapping word 1).pa)
    (member : mapping ∈ runPages word) : IsPage mapping.pa := by
  rw [runPages_two size, mem_add, mem_singleton, mem_singleton] at member
  rcases member with rfl | rfl
  · exact first
  · exact second

theorem pages_of_words {records : Records}
    (pages : ∀ n, ∀ mapping ∈ runPages (records.word n), IsPage mapping.pa) :
    ∀ mapping ∈ records.describe runPages, IsPage mapping.pa := by
  intro mapping
  rw [mem_describe]
  rintro ⟨n, -, inside⟩
  exact pages n mapping inside

theorem loaded_content : Content (loaded.tables.head 1) where
  words := by
    refine ⟨fun records lists => ?_, fun entries lists n => ?_⟩
    · cases lists
      exact @loadedRuns_all (fun word => word < 2 ^ 64) (by decide) (by decide) (by decide)
    · cases lists
      exact (by decide : novalue < 2 ^ 64)
  once := by
    rw [loaded_mappings]
    exact once_of_nodup (by decide +kernel)
  low := by
    intro records lists n _
    cases lists
    exact @loadedRuns_all (fun word => ¬Blank word → runEnd word ≤ maxva)
      (fun _ => by decide +kernel) (fun _ => by decide +kernel) (fun live => absurd (.inl rfl) live) n
  memory := by
    intro records lists
    cases lists
    refine pages_of_words fun n mapping => ?_
    refine @loadedRuns_all (fun word => mapping ∈ runPages word → IsPage mapping.pa) ?_ ?_ ?_ n
    · exact isPage_of_two (by decide) (by decide +kernel) (by decide +kernel)
    · exact isPage_of_two (by decide) (by decide +kernel) (by decide +kernel)
    · rw [runPages_of_blank (.inl rfl)]
      exact fun none => absurd none (notMem_zero mapping)
  plain := by
    intro records lists n _
    cases lists
    exact @loadedRuns_all (fun word => emptyRecord word = false →
      ¬(ptds2va word = 0 ∧ ptds2size word = 0)) (fun _ => by decide +kernel)
      (fun _ => by decide +kernel) (fun live => absurd live (by decide)) n
  outside := by
    intro records lists n _
    cases lists
    exact @loadedRuns_all (fun word => ¬Blank word → ¬InJunk (ptds2va word) (runEnd word))
      (fun _ inside => absurd inside.1 (by decide +kernel))
      (fun _ inside => absurd inside.1 (by decide +kernel)) (fun live => absurd (.inl rfl) live) n
  unlinked := by
    intro entries lists n _
    cases lists
    exact (by decide : novalue ≠ 0x87f41000)
  flags := by
    intro entries lists n _ live
    cases lists
    have junk : emptyRecord novalue = true := rfl
    exact absurd (junk.symm.trans live) (by decide)

theorem loaded_found : loaded.tables.ptdupIndex 0x87f10000 = some 1 := by decide +kernel

theorem loaded_walk {va index : Nat} (low : va < maxva) (top : px 2 va = 0) (middle : px 1 va = 0)
    (place : px 0 va = index) :
    loaded.walk 0x87f10000 va false = .ok (some (0x87f12000, index), loaded) := by
  rw [World.walk, if_neg (Nat.not_le_of_lt low), World.walkLevel, top]
  change (loaded.walkLevel 0x87f10000 0x87f11000 1 va false).map _ = _
  rw [World.walkLevel, middle, ← place]
  rfl

/-- The first page of the text. -/
theorem cleared_iff_loaded : Cleared loaded 0x87f10000 1 0 := by
  refine (cleared_iff loaded_found (loaded_walk (by decide) (by decide) (by decide) rfl)
    loaded_content ⟨runMapping textRun 0, ?_, by decide +kernel⟩).mpr (.inl ⟨textRun, ?_, .inr ⟨?_, ?_, ?_⟩⟩)
  · rw [loaded_mappings]
    decide +kernel
  · decide +kernel
  · decide +kernel
  · refine ⟨noEntries, rfl, ?_⟩
    have all : noEntries.room = noEntries.size := countSlots_all fun n _ => rfl
    rw [all]
    decide
  · exact .inl (by decide +kernel)

theorem stackRun_mem : runMapping stackRun 0 ∈ (loaded.tables.head 1).mappings := by
  rw [loaded_mappings]
  decide +kernel

theorem stackRun_described : ∃ mapping ∈ (loaded.tables.head 1).mappings,
    mapping.va = (runMapping stackRun 0).va := by
  exact ⟨runMapping stackRun 0, stackRun_mem, rfl⟩

/-- When the guard page of the stack is to lose its user bit, the first page of the text
loses it. -/
theorem guard_page_not_cleared : ¬∀ (world : World) (pagetable idx va page index : Nat),
    world.tables.ptdupIndex pagetable = some idx →
    world.walk pagetable va false = .ok (some (page, index), world) →
    Content (world.tables.head idx) →
    (∃ mapping ∈ (world.tables.head idx).mappings, mapping.va = va) →
    Cleared world pagetable idx va := by
  intro always
  have place : (runMapping stackRun 0).va = 0x2000 := by decide +kernel
  have mapped : loaded.walk 0x87f10000 (runMapping stackRun 0).va false =
      .ok (some (0x87f12000, 2), loaded) := by
    rw [place]
    exact loaded_walk (by decide) (by decide) (by decide) rfl
  have search : World.searchPtds (loaded.tables.head 1).l0Ptds (runMapping stackRun 0).va =
      some textRun := by decide +kernel
  have right := always loaded 0x87f10000 1 (runMapping stackRun 0).va 0x87f12000 2 loaded_found
    mapped loaded_content stackRun_described
  have answer := (@cleared_iff_of_run loaded 0x87f10000 1 textRun (runMapping stackRun 0)
    0x87f12000 2 loaded_found mapped loaded_content stackRun_mem search).mp right
  rcases answer with ⟨small, -⟩ | ⟨-, -, same | ⟨kernel, -⟩⟩
  · exact absurd small (by decide)
  · exact absurd same (by decide +kernel)
  · exact absurd kernel (by decide)

end Ev6.PageTable
