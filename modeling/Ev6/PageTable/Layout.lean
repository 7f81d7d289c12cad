import Ev6.PageTable.Walk
import Ev6.Support.Holdings

/-!
# Where page tables lie

A page table and its duplicate are a tree of pages. `Shows` says which tree the memory
holds, `Laid` that no page has two places in the trees of all processes, and that the free
pages have none. What is written to a page without a place, or to an L0 table, leaves all
trees as they are.
-/

namespace Ev6.PageTable

open Support

/-- The places of a page table and its duplicate: the L2 table, the copy of it, the array
of the duplicated L1 tables, and for each index the L1 table, the copy of it, and its L0
tables. -/
inductive Role where
  | top
  | topCopy
  | directory
  | l1 (i : Nat)
  | copy (i : Nat)
  | l0 (i j : Nat)
deriving DecidableEq

/-- The page at each place of the table with each index of `idx_ptdup`. -/
abbrev Layout := Nat × Role → Option Page

/-- The table with an index is in use. A table that is taken down has no places any more. -/
def Standing (place : Layout) (idx : Nat) : Prop := ∃ page, place (idx, .top) = some page

/-- The entry that leads to a page, or to none. -/
def pde : Option Page → Nat
  | none => 0
  | some page => pa2pte page ||| pteV

/-- The address of a page, or 0. -/
def address : Option Page → Nat
  | none => 0
  | some page => page

/-- A page is one of the L0 tables. -/
def Role.IsL0 : Role → Prop
  | .l0 _ _ => True
  | _ => False

/-- The memory holds the tree of the table with an index. -/
structure Shows (tables : Tables) (place : Layout) (idx : Nat) : Prop where
  top : ∃ page, place (idx, .top) = some page ∧ tables.idxPtdup idx = page
  topCopy : ∃ page, place (idx, .topCopy) = some page ∧ (tables.head idx).l2 = page
  directory : ∃ page, place (idx, .directory) = some page ∧ (tables.head idx).l1 = page
  entry : ∀ i < entrySize, tables.memory (tables.idxPtdup idx) i = pde (place (idx, .l1 i))
  copied : ∀ i < entrySize, tables.memory (tables.head idx).l2 i =
    if (place (idx, .copy i)).isSome then pde (place (idx, .l1 i)) else 0
  listed : ∀ i < entrySize,
    tables.memory (tables.head idx).l1 i = address (place (idx, .copy i))
  inner : ∀ i (page : Page), place (idx, .l1 i) = some page →
    ∀ j < entrySize, tables.memory page j = pde (place (idx, .l0 i j))
  innerCopy : ∀ i (page : Page), place (idx, .copy i) = some page →
    ∀ j < entrySize, tables.memory page j = pde (place (idx, .l0 i j))
  below : ∀ i, place (idx, .l1 i) = none →
    place (idx, .copy i) = none ∧ ∀ j, place (idx, .l0 i j) = none
  inside : ∀ i page, place (idx, .l1 i) = some page → i < entrySize
  insideL0 : ∀ i j page, place (idx, .l0 i j) = some page → j < entrySize

/-- No page has two places, and the free pages have none. `idx_ptdup` names each page once. -/
structure Laid (world : World) (place : Layout) : Prop where
  apart : Separate place
  live : ∀ idx role page, place (idx, role) = some page → idx < ptdupSize ∧ Standing place idx
  shows : ∀ idx < ptdupSize, Standing place idx → Shows world.tables place idx
  single : ∀ idx < ptdupSize, ∀ other < ptdupSize, world.tables.idxPtdup idx ≠ 0 →
    world.tables.idxPtdup idx = world.tables.idxPtdup other → idx = other
  once : world.free.Nodup
  free : ∀ page ∈ world.free, Unheld place page
  recorded : ∀ idx i page, place (idx, .copy i) = some page → 2 < world.nextpid

/-- A page that is neither part of a tree nor free. -/
structure Spare (world : World) (place : Layout) (page : Page) : Prop where
  unheld : Unheld place page
  taken : page ∉ world.free

/-- The indices, the heads of the upper levels and `nextpid` are as before. -/
structure Steady (before after : World) : Prop where
  index : after.tables.idxPtdup = before.tables.idxPtdup
  l2 : ∀ idx, (after.tables.head idx).l2 = (before.tables.head idx).l2
  l1 : ∀ idx, (after.tables.head idx).l1 = (before.tables.head idx).l1
  nextpid : after.nextpid = before.nextpid

theorem Steady.refl (world : World) : Steady world world := ⟨rfl, fun _ => rfl, fun _ => rfl, rfl⟩

theorem Steady.trans {before between after : World} (first : Steady before between)
    (second : Steady between after) : Steady before after :=
  ⟨second.index.trans first.index, fun idx => (second.l2 idx).trans (first.l2 idx),
    fun idx => (second.l1 idx).trans (first.l1 idx), second.nextpid.trans first.nextpid⟩

/-- Besides, the spare pages stay as they are. -/
structure Leaves (place : Layout) (before after : World) : Prop where
  steady : Steady before after
  spare : ∀ page, Spare before place page →
    Spare after place page ∧ after.tables.memory page = before.tables.memory page

theorem Leaves.trans {place : Layout} {before between after : World}
    (first : Leaves place before between) (second : Leaves place between after) :
    Leaves place before after := by
  refine ⟨first.steady.trans second.steady, fun page spare => ?_⟩
  obtain ⟨still, same⟩ := first.spare page spare
  obtain ⟨stays, equal⟩ := second.spare page still
  exact ⟨stays, equal.trans same⟩

/-! ## Entries -/

section Entries

variable (page : Page)

theorem pde_page_eq : pde (some page) = page.val / 4096 * 1024 + 1 := by
  have split : page.val / 4096 * 1024 ||| 1 = page.val / 4096 * 1024 + 1 :=
    @or_eq_add _ _ 10 (Nat.dvd_mul_left _ _) (by decide)
  rw [pde, pa2pte, Nat.shiftRight_eq_div_pow, Nat.shiftLeft_eq, pteV]
  exact split

@[simp] theorem pte2pa_pde : pte2pa (pde (some page)) = page := by
  have bounds := page.property.bounds
  rw [pde_page_eq, pte2pa, Nat.shiftRight_eq_div_pow, Nat.shiftLeft_eq]
  omega

@[simp] theorem pte2pa_zero : pte2pa 0 = 0 := rfl

theorem isValid_pde (slot : Option Page) : isValid (pde slot) = slot.isSome := by
  cases slot with
  | none => rfl
  | some page =>
    have odd : (page.val / 4096 * 1024 + 1) &&& 1 = 1 := by
      rw [Nat.and_one_is_mod]
      omega
    rw [isValid, pde_page_eq, pteV, odd]
    rfl

/-- An entry leads to a page only if it is the entry of the page. -/
theorem pte2pa_pde_eq {slot : Option Page} (leads : page.val = pte2pa (pde slot)) :
    slot = some page := by
  cases slot with
  | none => exact absurd leads page.property.ne_zero
  | some other =>
    rw [pte2pa_pde] at leads
    rw [Subtype.ext leads]

end Entries

/-! ## What is left alone -/

section Frame

variable {before after : Tables} {place : Layout} {idx : Nat}

theorem Shows.frame (shows : Shows before place idx)
    (index : after.idxPtdup idx = before.idxPtdup idx)
    (l2 : (after.head idx).l2 = (before.head idx).l2)
    (l1 : (after.head idx).l1 = (before.head idx).l1)
    (same : ∀ role (page : Page), ¬role.IsL0 → place (idx, role) = some page →
      after.memory page = before.memory page) : Shows after place idx := by
  obtain ⟨top, atTop, isTop⟩ := shows.top
  obtain ⟨topCopy, atCopy, isCopy⟩ := shows.topCopy
  obtain ⟨directory, atDirectory, isDirectory⟩ := shows.directory
  refine ⟨⟨top, atTop, index.trans isTop⟩, ⟨topCopy, atCopy, l2.trans isCopy⟩,
    ⟨directory, atDirectory, l1.trans isDirectory⟩, ?_, ?_, ?_, ?_, ?_, shows.below,
    shows.inside, shows.insideL0⟩
  · intro i low
    rw [index, isTop, same .top top id atTop, ← isTop]
    exact shows.entry i low
  · intro i low
    rw [l2, isCopy, same .topCopy topCopy id atCopy, ← isCopy]
    exact shows.copied i low
  · intro i low
    rw [l1, isDirectory, same .directory directory id atDirectory, ← isDirectory]
    exact shows.listed i low
  · intro i page holds j low
    rw [same (.l1 i) page id holds]
    exact shows.inner i page holds j low
  · intro i page holds j low
    rw [same (.copy i) page id holds]
    exact shows.innerCopy i page holds j low

/-- A tree does not depend on the places of the others. -/
theorem Shows.congr {other : Layout} (shows : Shows before place idx)
    (same : ∀ role, other (idx, role) = place (idx, role)) : Shows before other idx where
  top := by simpa [same] using shows.top
  topCopy := by simpa [same] using shows.topCopy
  directory := by simpa [same] using shows.directory
  entry := by simpa [same] using shows.entry
  copied := by simpa [same] using shows.copied
  listed := by simpa [same] using shows.listed
  inner := by simpa [same] using shows.inner
  innerCopy := by simpa [same] using shows.innerCopy
  below := by simpa [same] using shows.below
  inside := by simpa [same] using shows.inside
  insideL0 := by simpa [same] using shows.insideL0

end Frame

section Keep

variable {world after : World} {place : Layout}

/-- A table in use is in `idx_ptdup`. -/
theorem Laid.index_ne_zero (kept : Laid world place) {idx : Nat} (low : idx < ptdupSize)
    (used : Standing place idx) : world.tables.idxPtdup idx ≠ 0 := by
  obtain ⟨top, -, isTop⟩ := (kept.shows idx low used).top
  exact isTop ▸ top.property.ne_zero

/-- A table stays in use when a page takes a place. -/
theorem Standing.claim {idx : Nat} (used : Standing place idx) (key : Nat × Role) (page : Page) :
    Standing (Function.update place key (some page)) idx := by
  obtain ⟨top, holds⟩ := used
  by_cases here : (idx, Role.top) = key
  · exact ⟨page, here ▸ Function.update_self ..⟩
  · exact ⟨top, (Function.update_of_ne here ..).trans holds⟩

/-- A step that leaves the upper pages alone leaves the trees alone. -/
theorem Laid.frame (kept : Laid world place) (steady : Steady world after)
    (same : ∀ key (page : Page), ¬key.2.IsL0 → place key = some page →
      after.tables.memory page = world.tables.memory page)
    (once : after.free.Nodup) (free : ∀ page ∈ after.free, Unheld place page) :
    Laid after place where
  apart := kept.apart
  live := kept.live
  shows idx low used :=
    (kept.shows idx low used).frame (congrFun steady.index idx) (steady.l2 idx) (steady.l1 idx)
      fun role page upper holds => same (idx, role) page upper holds
  single := steady.index ▸ kept.single
  once := once
  free := free
  recorded idx i page holds := steady.nextpid ▸ kept.recorded idx i page holds

theorem Laid.frame_unheld (kept : Laid world place) (steady : Steady world after) {page : Nat}
    (unheld : ∀ key (other : Page), place key = some other → other.val ≠ page)
    (same : ∀ other ≠ page, after.tables.memory other = world.tables.memory other)
    (free : after.free = world.free) : Laid after place :=
  kept.frame steady (fun key other _ holds => same other (unheld key other holds))
    (free ▸ kept.once) (free ▸ kept.free)

theorem Unheld.val_ne {page : Page} (unheld : Unheld place page) (key : Nat × Role) (other : Page)
    (holds : place key = some other) : other.val ≠ page :=
  fun same => unheld.ne holds (Subtype.ext same)

theorem memsetPage_of_ne (memory : PageMemory Nat) {page other : Nat} (value : Nat)
    (different : other ≠ page) : memsetPage memory page value other = memory other := by
  simp [memsetPage, different]

theorem memsetPage_self (memory : PageMemory Nat) (page value : Nat) {n : Nat}
    (low : n < entrySize) : memsetPage memory page value page n = value := by
  simp [memsetPage, low]

theorem steady_memset (world : World) (page value : Nat) : Steady world (world.memset page value) :=
  ⟨rfl, fun _ => rfl, fun _ => rfl, rfl⟩

theorem steady_write (world : World) (page index value : Nat) :
    Steady world (world.write page index value) :=
  ⟨rfl, fun _ => rfl, fun _ => rfl, rfl⟩

theorem Laid.memset (kept : Laid world place) {page : Page} (unheld : Unheld place page)
    (value : Nat) : Laid (world.memset page value) place :=
  kept.frame_unheld (steady_memset world page value) (Unheld.val_ne unheld)
    (fun _ different => memsetPage_of_ne _ value different) rfl

theorem Laid.store (kept : Laid world place) {page : Nat} (index value : Nat)
    (unheld : ∀ key (other : Page), place key = some other → other.val ≠ page) :
    Laid (world.write page index value) place :=
  kept.frame_unheld (steady_write world page index value) unheld
    (fun _ different => PageMemory.write_of_page_ne _ index value different) rfl

theorem Laid.store_l0 (kept : Laid world place) {idx i j : Nat} {page : Page}
    (holds : place (idx, .l0 i j) = some page) (index value : Nat) :
    Laid (world.write page index value) place := by
  refine kept.frame (steady_write world page index value) ?_ kept.once kept.free
  intro key other upper there
  have different : other.val ≠ page := by
    intro same
    obtain rfl := kept.apart (Subtype.ext same ▸ there) holds
    exact upper trivial
  exact PageMemory.write_of_page_ne _ index value different

/-- What `kalloc` gives has no place, and does not come again. -/
theorem kalloc_spec (kept : Laid world place) {page : Page}
    (answer : world.kalloc = some (page, after)) :
    Laid after place ∧ Spare after place page ∧ Leaves place world after := by
  unfold World.kalloc at answer
  cases free : world.free with
  | nil => simp [free] at answer
  | cons first rest =>
    rw [free] at answer
    obtain ⟨rfl, rfl⟩ := Prod.mk.inj (Option.some.inj answer)
    have once := kept.once
    rw [free, List.nodup_cons] at once
    have unheld := kept.free first (free ▸ List.mem_cons_self)
    have steady : Steady world { world with free := rest } :=
      ⟨rfl, fun _ => rfl, fun _ => rfl, rfl⟩
    have popped : Laid { world with free := rest } place :=
      kept.frame steady (fun _ _ _ _ => rfl) once.2 fun other member =>
        kept.free other (free ▸ List.mem_cons_of_mem first member)
    refine ⟨popped.memset unheld novalue, ⟨unheld, once.1⟩,
      ⟨steady.trans (steady_memset _ _ _), fun other spare => ⟨⟨spare.unheld, ?_⟩, ?_⟩⟩⟩
    · intro member
      exact spare.taken (free ▸ List.mem_cons_of_mem first member)
    · have different : other.val ≠ first := by
        intro same
        exact spare.taken (free ▸ Subtype.ext same ▸ List.mem_cons_self)
      exact memsetPage_of_ne _ _ different

/-- The M-List may take a page, but none that has been given out. -/
theorem registerPtbMlist_spec (kept : Laid world place) :
    Laid world.registerPtbMlist place ∧ Leaves place world world.registerPtbMlist := by
  have steady : Steady world { world with mlistFull := world.mlistFull.tail } :=
    ⟨rfl, fun _ => rfl, fun _ => rfl, rfl⟩
  have called : Laid { world with mlistFull := world.mlistFull.tail } place :=
    kept.frame steady (fun _ _ _ _ => rfl) kept.once kept.free
  have idle : Leaves place world { world with mlistFull := world.mlistFull.tail } :=
    ⟨steady, fun page spare => ⟨⟨spare.unheld, spare.taken⟩, rfl⟩⟩
  unfold World.registerPtbMlist
  dsimp only
  split
  · cases answer : World.kalloc { world with mlistFull := world.mlistFull.tail } with
    | none => exact ⟨called, idle⟩
    | some given =>
      obtain ⟨page, after⟩ := given
      have given := kalloc_spec called answer
      exact ⟨given.1, idle.trans given.2.2⟩
  · exact ⟨called, idle⟩

end Keep

end Ev6.PageTable
