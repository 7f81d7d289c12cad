import Ev6.PageTable.Extension
import Ev6.Support.RadixTree

/-!
# The tree of one page table

What a page table maps, the pages it consists of and those of its duplicate, and the steps
that leave them alone. The rest of the kernel may take pages, give pages back and write to
other pages in between.
-/

namespace Ev6.PageTable

open List (mem_cons mem_cons_self mem_map mem_range nodup_cons nodup_range)
open Support

/-! ## What a page table consists of -/

namespace World

/-- The entry that `walk(pagetable, va, 0)` finds, where it is valid. -/
def translation (world : World) (pagetable va : Nat) : Option Nat :=
  match world.walk pagetable va false with
  | .ok (some (page, index), after) => (some (after.tables.memory page index)).filter isValid
  | _ => none

/-- The pages that the entries of a page lead to. -/
def lowerTables (world : World) (page : Nat) : List Nat :=
  (List.range entrySize).filterMap fun i =>
    ((some (world.tables.memory page i)).filter isValid).map pte2pa

/-- The table pages of all levels. -/
def tablePages (world : World) (pagetable : Nat) : List Nat :=
  pagetable :: (world.lowerTables pagetable ++
    (world.lowerTables pagetable).flatMap world.lowerTables)

/-- The pages of the duplicate: the copy of the L2 table, the array of the duplicated L1
tables, and these. -/
def duplicatePages (world : World) (pagetable : Nat) : List Nat :=
  (world.tables.ptdupIndex pagetable).elim [] fun idx =>
    (world.tables.head idx).l2 :: (world.tables.head idx).l1 ::
      ((List.range entrySize).map (world.tables.memory (world.tables.head idx).l1)).filter (· ≠ 0)

/-- A page that is no table page of a page table or its duplicate, and not free. -/
def InUseElsewhere (world : World) (pagetable page : Nat) : Prop :=
  page ∉ world.tablePages pagetable ∧ page ∉ world.duplicatePages pagetable ∧
    ∀ free ∈ world.free, free.val ≠ page

instance (world : World) (pagetable page : Nat) :
    Decidable (world.InUseElsewhere pagetable page) := by
  unfold InUseElsewhere
  infer_instance

end World

/-! ## The tree -/

/-- The three levels of a page table. -/
def pageFormat : RadixFormat Page Nat := ⟨entrySize, 2, pde⟩

/-- The words of a page. -/
def World.words (world : World) (page : Page) : Nat → Nat := world.tables.memory page

/-- A place in the memory that belongs to a page table or its duplicate. -/
def Owns (world : World) (root : Page) (tree : NodeTree Page) (address : Nat) : Prop :=
  (∃ path page, tree path = some page ∧ page.val = address) ∨
    address ∈ world.duplicatePages root

/-- The duplicate of a table lies apart from it. -/
structure Beside (world : World) (root : Page) (tree : NodeTree Page) : Prop where
  apart : ∀ address ∈ world.duplicatePages root, ∀ path page, tree path = some page →
    page.val ≠ address
  taken : ∀ address ∈ world.duplicatePages root, ∀ page ∈ world.free, page.val ≠ address
  distinct : ∀ idx, world.tables.ptdupIndex root = some idx →
    (world.tables.head idx).l2 ≠ (world.tables.head idx).l1
  copies : ∀ idx, world.tables.ptdupIndex root = some idx → ∀ i < entrySize,
    world.tables.memory (world.tables.head idx).l1 i ≠ 0 →
      world.tables.memory (world.tables.head idx).l1 i ≠ (world.tables.head idx).l1 ∧
        world.tables.memory (world.tables.head idx).l1 i ≠ (world.tables.head idx).l2

/-- The memory holds the tree of a page table, of which no page is free. -/
structure Rooted (world : World) (root : Page) (tree : NodeTree Page) : Prop where
  top : tree [] = some root
  holds : pageFormat.Holds world.words tree
  once : world.free.Nodup
  free : ∀ page ∈ world.free, Unheld tree page
  beside : Beside world root tree

/-- The duplicate of a table has a copy of each of its L1 tables. -/
structure Covered (world : World) (root : Page) (tree : NodeTree Page) (idx : Nat) : Prop where
  index : world.tables.ptdupIndex root = some idx
  copied : ∀ i < entrySize, world.tables.memory (world.tables.head idx).l2 i = pde (tree [i])
  listed : ∀ i, (tree [i]).isSome → world.tables.memory (world.tables.head idx).l1 i ≠ 0

section Owns

variable {world : World} {root : Page} {tree : NodeTree Page}

theorem Owns.held {path : List Nat} {page : Page} (there : tree path = some page) :
    Owns world root tree page := .inl ⟨path, page, there, rfl⟩

theorem mem_duplicatePages {idx : Nat} (index : world.tables.ptdupIndex root = some idx)
    {address : Nat} : address ∈ world.duplicatePages root ↔
      address = (world.tables.head idx).l2 ∨ address = (world.tables.head idx).l1 ∨
        ∃ i < entrySize, world.tables.memory (world.tables.head idx).l1 i = address ∧
          address ≠ 0 := by
  simp only [World.duplicatePages, index, Option.elim_some, mem_cons, List.mem_filter,
    mem_map, mem_range, decide_eq_true_eq]
  refine or_congr_right (or_congr_right ⟨?_, ?_⟩)
  · rintro ⟨⟨i, low, same⟩, nonzero⟩
    exact ⟨i, low, same, nonzero⟩
  · rintro ⟨i, low, same, nonzero⟩
    exact ⟨⟨i, low, same⟩, nonzero⟩

theorem Rooted.not_owns_free (rooted : Rooted world root tree) {page : Page}
    (member : page ∈ world.free) : ¬Owns world root tree page := by
  rintro (⟨path, other, there, same⟩ | copy)
  · exact rooted.free page member path (Subtype.ext same ▸ there)
  · exact rooted.beside.taken page copy page member rfl

end Owns

/-! ## The table pages -/

section Pages

variable {world : World} {root : Page} {tree : NodeTree Page}

/-- The places of the three levels. -/
def places : List (List Nat) :=
  [] :: ((List.range entrySize).map (fun i => [i]) ++
    (List.range entrySize).flatMap fun i => (List.range entrySize).map fun j => [j, i])

/-- The address of the page at a place. -/
def addressAt (tree : NodeTree Page) (path : List Nat) : Option Nat := (tree path).map Subtype.val

theorem addressAt_eq_some {path : List Nat} {address : Nat} :
    addressAt tree path = some address ↔ ∃ page, tree path = some page ∧ page.val = address :=
  Option.map_eq_some_iff

theorem nodup_places : places.Nodup := by
  have single : ((List.range entrySize).map fun i => [i]).Nodup :=
    nodup_range.map fun _ _ same => (List.cons.inj same).1
  have pairs : ((List.range entrySize).flatMap fun i =>
      (List.range entrySize).map fun j => [j, i]).Nodup := by
    refine List.nodup_flatMap.mpr ⟨fun i _ => ?_, ?_⟩
    · exact nodup_range.map fun _ _ same => (List.cons.inj same).1
    · refine nodup_range.imp fun {i k} different => ?_
      intro place inFirst inSecond
      obtain ⟨j, -, rfl⟩ := mem_map.mp inFirst
      obtain ⟨l, -, same⟩ := mem_map.mp inSecond
      exact different (List.cons.inj (List.cons.inj same).2).1.symm
  refine nodup_cons.mpr ⟨?_, List.nodup_append.mpr ⟨single, pairs, ?_⟩⟩
  · simp
  · intro one inFirst two inSecond same
    obtain ⟨i, -, rfl⟩ := mem_map.mp inFirst
    obtain ⟨k, -, inner⟩ := List.mem_flatMap.mp inSecond
    obtain ⟨l, -, rfl⟩ := mem_map.mp inner
    cases same

theorem Rooted.lowerTables_eq (rooted : Rooted world root tree) {path : List Nat} {page : Page}
    (there : tree path = some page) (inner : path.length < 2) :
    world.lowerTables page =
      (List.range entrySize).filterMap fun i => addressAt tree (i :: path) := by
  refine List.filterMap_congr fun i member => ?_
  have entry := rooted.holds.entries path page there inner i (mem_range.mp member)
  rw [show world.tables.memory page i = pde (tree (i :: path)) from entry, addressAt]
  cases tree (i :: path) with
  | none => rfl
  | some below =>
    have valid : isValid (pde (some below)) = true := isValid_pde (some below)
    rw [Option.filter_some_pos valid, Option.map_some, Option.map_some, pte2pa_pde]

/-- The lists of the values that are there, one after the other. -/
theorem flatMap_filterMap_eq {Index Value Other : Type} (indices : List Index)
    (value : Index → Option Value) (next : Value → List Other) :
    (indices.filterMap value).flatMap next =
      indices.flatMap fun i => (value i).elim [] next := by
  induction indices with
  | nil => rfl
  | cons i indices ih =>
    rw [List.flatMap_cons, ← ih]
    cases there : value i with
    | none => rw [List.filterMap_cons_none there, Option.elim_none, List.nil_append]
    | some found => rw [List.filterMap_cons_some there, List.flatMap_cons, Option.elim_some]

theorem Rooted.tablePages_eq (rooted : Rooted world root tree) :
    world.tablePages root = places.filterMap (addressAt tree) := by
  have top : addressAt tree [] = some root.val := addressAt_eq_some.mpr ⟨root, rooted.top, rfl⟩
  have upper : world.lowerTables root =
      (List.range entrySize).filterMap fun i => addressAt tree [i] :=
    rooted.lowerTables_eq rooted.top Nat.zero_lt_two
  rw [World.tablePages, places, List.filterMap_cons_some top, upper, List.filterMap_append,
    List.filterMap_map, List.filterMap_flatMap, flatMap_filterMap_eq]
  refine congrArg (root.val :: ·) (congrArg _ (List.flatMap_congr fun i _ => ?_))
  rw [List.filterMap_map]
  cases there : tree [i] with
  | none =>
    have gone (j : Nat) : addressAt tree [j, i] = none := by
      rw [addressAt, rooted.holds.none_below there]
      rfl
    rw [show addressAt tree [i] = none by rw [addressAt, there]; rfl]
    exact (List.filterMap_eq_nil_iff.mpr fun j _ => gone j).symm
  | some l1 =>
    rw [addressAt_eq_some.mpr ⟨l1, there, rfl⟩, Option.elim_some,
      rooted.lowerTables_eq there Nat.one_lt_two]
    exact List.filterMap_congr fun _ _ => rfl

theorem Rooted.nodup_tablePages (rooted : Rooted world root tree) :
    (world.tablePages root).Nodup := by
  rw [rooted.tablePages_eq]
  refine nodup_places.filterMap fun one two address first second => ?_
  obtain ⟨page, there, rfl⟩ := addressAt_eq_some.mp first
  obtain ⟨other, held, same⟩ := addressAt_eq_some.mp second
  exact rooted.holds.apart there (Subtype.ext same ▸ held)

theorem Rooted.mem_places (rooted : Rooted world root tree) {path : List Nat} {page : Page}
    (there : tree path = some page) : path ∈ places := by
  cases path with
  | nil => exact mem_cons_self
  | cons j upper =>
    obtain ⟨isSome, low, inner⟩ := rooted.holds.above j upper page there
    refine List.mem_cons_of_mem _ (List.mem_append.mpr ?_)
    cases upper with
    | nil => exact .inl (mem_map.mpr ⟨j, mem_range.mpr low, rfl⟩)
    | cons i above =>
      obtain rfl : above = [] := List.length_eq_zero_iff.mp (by
        have bound : above.length + 1 < 2 := inner
        omega)
      obtain ⟨l1, held⟩ := Option.isSome_iff_exists.mp isSome
      have lowUpper := (rooted.holds.above i [] l1 held).2.1
      exact .inr (List.mem_flatMap.mpr ⟨i, mem_range.mpr lowUpper,
        mem_map.mpr ⟨j, mem_range.mpr low, rfl⟩⟩)

theorem Rooted.mem_tablePages (rooted : Rooted world root tree) {address : Nat} :
    address ∈ world.tablePages root ↔ ∃ path page, tree path = some page ∧ page.val = address := by
  rw [rooted.tablePages_eq, List.mem_filterMap]
  constructor
  · rintro ⟨path, -, there⟩
    exact ⟨path, addressAt_eq_some.mp there⟩
  · rintro ⟨path, page, held, same⟩
    exact ⟨path, rooted.mem_places held, addressAt_eq_some.mpr ⟨page, held, same⟩⟩

end Pages

/-! ## Steps that leave the tree alone -/

section Aloof

variable {world between after : World} {root : Page} {tree : NodeTree Page}

/-- A step writes to no page of a table or its duplicate, and none of them is freed. -/
structure Aloof (world after : World) (root : Page) (tree : NodeTree Page) : Prop where
  steady : Steady world after
  same : ∀ address, Owns world root tree address →
    after.tables.memory address = world.tables.memory address
  once : after.free.Nodup
  free : ∀ page ∈ after.free, ¬Owns world root tree page

theorem Steady.ptdupIndex (steady : Steady world after) (pagetable : Nat) :
    after.tables.ptdupIndex pagetable = world.tables.ptdupIndex pagetable := by
  rw [Tables.ptdupIndex, Tables.ptdupIndex, steady.index]

/-- The duplicate is where it was, with the same words. -/
theorem duplicatePages_congr (steady : Steady world after)
    (same : ∀ address ∈ world.duplicatePages root,
      after.tables.memory address = world.tables.memory address) :
    after.duplicatePages root = world.duplicatePages root := by
  cases index : world.tables.ptdupIndex root with
  | none => simp [World.duplicatePages, steady.ptdupIndex, index]
  | some idx =>
    have member : (world.tables.head idx).l1 ∈ world.duplicatePages root :=
      (mem_duplicatePages index).mpr (.inr (.inl rfl))
    simp only [World.duplicatePages, steady.ptdupIndex, index, Option.elim_some,
      steady.l1 idx, steady.l2 idx, same _ member]

/-- The duplicate lies beside the tree as long as it is not written to, and its pages are
neither entered nor freed. -/
theorem Beside.transfer {grown : NodeTree Page} (beside : Beside world root tree)
    (steady : Steady world after) (same : ∀ address ∈ world.duplicatePages root,
      after.tables.memory address = world.tables.memory address)
    (apart : ∀ address ∈ world.duplicatePages root, ∀ path page, grown path = some page →
      page.val ≠ address)
    (taken : ∀ address ∈ world.duplicatePages root, ∀ page ∈ after.free, page.val ≠ address) :
    Beside after root grown := by
  have pages := duplicatePages_congr steady same
  constructor
  · intro address member
    exact apart address (pages ▸ member)
  · intro address member
    exact taken address (pages ▸ member)
  · intro idx index
    rw [steady.l1, steady.l2]
    exact beside.distinct idx (steady.ptdupIndex root ▸ index)
  · intro idx index
    rw [steady.ptdupIndex] at index
    have member : (world.tables.head idx).l1 ∈ world.duplicatePages root :=
      (mem_duplicatePages index).mpr (.inr (.inl rfl))
    rw [steady.l1, steady.l2, same _ member]
    exact beside.copies idx index

theorem Aloof.duplicatePages (aloof : Aloof world after root tree) :
    after.duplicatePages root = world.duplicatePages root :=
  duplicatePages_congr aloof.steady fun address member => aloof.same address (.inr member)

theorem Aloof.owns (aloof : Aloof world after root tree) (address : Nat) :
    Owns after root tree address ↔ Owns world root tree address := by
  rw [Owns, Owns, aloof.duplicatePages]

/-- The words of the copied L2 table and of the array of L1 tables are as before. -/
theorem Aloof.heads (aloof : Aloof world after root tree) {idx : Nat}
    (index : world.tables.ptdupIndex root = some idx) :
    after.tables.memory (after.tables.head idx).l1 =
        world.tables.memory (world.tables.head idx).l1 ∧
      after.tables.memory (after.tables.head idx).l2 =
        world.tables.memory (world.tables.head idx).l2 := by
  rw [aloof.steady.l1, aloof.steady.l2]
  constructor
  · exact aloof.same _ (.inr ((mem_duplicatePages index).mpr (.inr (.inl rfl))))
  · exact aloof.same _ (.inr ((mem_duplicatePages index).mpr (.inl rfl)))

theorem Aloof.words (aloof : Aloof world after root tree) {path : List Nat} {page : Page}
    (there : tree path = some page) : after.words page = world.words page :=
  aloof.same page (.held there)

theorem Aloof.rooted (aloof : Aloof world after root tree) (rooted : Rooted world root tree) :
    Rooted after root tree where
  top := rooted.top
  holds := rooted.holds.frame fun _ _ there _ => aloof.words there
  once := aloof.once
  free page member _ there := aloof.free page member (.held there)
  beside := rooted.beside.transfer aloof.steady
    (fun address member => aloof.same address (.inr member)) rooted.beside.apart
    fun _ member page free same => aloof.free page free (same ▸ .inr member)

theorem Aloof.covered (aloof : Aloof world after root tree) {before : NodeTree Page} {idx : Nat}
    (covered : Covered world root before idx) : Covered after root before idx where
  index := (aloof.steady.ptdupIndex root).trans covered.index
  copied := by
    rw [(aloof.heads covered.index).2]
    exact covered.copied
  listed := by
    rw [(aloof.heads covered.index).1]
    exact covered.listed

theorem Aloof.refl (rooted : Rooted world root tree) : Aloof world world root tree :=
  ⟨.refl _, fun _ _ => rfl, rooted.once, fun _ member => rooted.not_owns_free member⟩

theorem Aloof.trans (first : Aloof world between root tree)
    (second : Aloof between after root tree) : Aloof world after root tree where
  steady := first.steady.trans second.steady
  same address owned :=
    (second.same address ((first.owns address).mpr owned)).trans (first.same address owned)
  once := second.once
  free page member owned := second.free page member ((first.owns page).mpr owned)

/-- A step that takes pages and leaves the memory alone, or only the pages that are free. -/
theorem Aloof.take (rooted : Rooted world root tree) (steady : Steady world after)
    (same : ∀ address, (∀ page ∈ world.free, page.val ≠ address) →
      after.tables.memory address = world.tables.memory address)
    (suffix : after.free <:+ world.free) : Aloof world after root tree where
  steady := steady
  same address owned := same address fun _ member equal =>
    rooted.not_owns_free member (equal ▸ owned)
  once := rooted.once.sublist suffix.sublist
  free _ member := rooted.not_owns_free (suffix.subset member)

theorem Aloof.idle (rooted : Rooted world root tree) (idle : Idle world after) :
    Aloof world after root tree :=
  .take rooted idle.steady (fun _ _ => by rw [idle.memory]) idle.free

theorem Aloof.write (rooted : Rooted world root tree) {page : Nat}
    (other : ¬Owns world root tree page) (index value : Nat) :
    Aloof world (world.write page index value) root tree where
  steady := steady_write world page index value
  same _ owned := PageMemory.write_of_page_ne _ index value fun equal => other (equal ▸ owned)
  once := rooted.once
  free _ member := rooted.not_owns_free member

theorem Aloof.memset (rooted : Rooted world root tree) {page : Nat}
    (other : ¬Owns world root tree page) (value : Nat) :
    Aloof world (world.memset page value) root tree where
  steady := steady_memset world page value
  same _ owned := memsetPage_of_ne _ value fun equal => other (equal ▸ owned)
  once := rooted.once
  free _ member := rooted.not_owns_free member

theorem kalloc_eq_some {page : Page} (answer : world.kalloc = some (page, after)) :
    world.free = page :: after.free ∧ Steady world after ∧
      after.tables.memory = memsetPage world.tables.memory page novalue := by
  unfold World.kalloc at answer
  cases free : world.free with
  | nil => simp [free] at answer
  | cons first rest =>
    rw [free] at answer
    cases answer
    exact ⟨rfl, ⟨rfl, fun _ => rfl, fun _ => rfl, rfl⟩, rfl⟩

theorem kalloc_aloof (rooted : Rooted world root tree) {page : Page}
    (answer : world.kalloc = some (page, after)) :
    Aloof world after root tree ∧ ¬Owns world root tree page ∧ page ∉ after.free := by
  obtain ⟨free, steady, memory⟩ := kalloc_eq_some answer
  have member : page ∈ world.free := free ▸ mem_cons_self
  have once := rooted.once
  rw [free, nodup_cons] at once
  refine ⟨.take rooted steady ?_ (free ▸ List.suffix_cons page after.free),
    rooted.not_owns_free member, once.1⟩
  intro address outside
  rw [memory]
  exact memsetPage_of_ne _ _ fun equal => outside page member equal.symm

theorem registerPtbMlist_take (world : World) :
    Steady world world.registerPtbMlist ∧
      (∀ address, (∀ page ∈ world.free, page.val ≠ address) →
        world.registerPtbMlist.tables.memory address = world.tables.memory address) ∧
      world.registerPtbMlist.free <:+ world.free ∧
      world.free.length ≤ world.registerPtbMlist.free.length + 1 := by
  unfold World.registerPtbMlist
  dsimp only
  split
  · cases answer : World.kalloc { world with mlistFull := world.mlistFull.tail } with
    | none =>
      exact ⟨⟨rfl, fun _ => rfl, fun _ => rfl, rfl⟩, fun _ _ => rfl, List.suffix_refl _,
        Nat.le_succ _⟩
    | some given =>
      obtain ⟨free, steady, memory⟩ := kalloc_eq_some answer
      have whole : world.free = given.1 :: given.2.free := free
      refine ⟨⟨steady.index, steady.l2, steady.l1, steady.nextpid⟩, ?_, ?_, ?_⟩
      · intro address outside
        have different : address ≠ given.1 := fun equal =>
          outside given.1 (whole ▸ mem_cons_self) equal.symm
        exact (congrFun memory address).trans (memsetPage_of_ne _ _ different)
      · rw [whole]
        exact List.suffix_cons _ _
      · rw [whole]
        exact Nat.le_refl _
  · exact ⟨⟨rfl, fun _ => rfl, fun _ => rfl, rfl⟩, fun _ _ => rfl, List.suffix_refl _,
      Nat.le_succ _⟩

theorem registerPtbMlist_aloof (rooted : Rooted world root tree) :
    Aloof world world.registerPtbMlist root tree := by
  obtain ⟨steady, same, suffix, -⟩ := registerPtbMlist_take world
  exact .take rooted steady same suffix

theorem kfree_aloof (rooted : Rooted world root tree) {pa : Nat}
    (other : ¬Owns world root tree pa) (taken : ∀ page ∈ world.free, page.val ≠ pa)
    (done : world.kfree pa = .ok after) :
    Aloof world after root tree ∧
      ∃ page : Page, page.val = pa ∧ after.free = page :: world.free := by
  unfold World.kfree at done
  split at done
  · next physical =>
     obtain rfl := Except.ok.inj done
     refine ⟨⟨⟨rfl, fun _ => rfl, fun _ => rfl, rfl⟩, ?_, ?_, ?_⟩, ⟨pa, physical.1⟩, rfl, rfl⟩
     · intro address owned
       have different : address ≠ pa := fun equal => other (equal ▸ owned)
       simp only [World.write, World.memset]
       rw [PageMemory.write_of_page_ne _ _ _ different, memsetPage_of_ne _ _ different]
     · exact nodup_cons.mpr ⟨fun member => taken _ member rfl, rooted.once⟩
     · intro page member
       rcases mem_cons.mp member with rfl | behind
       · exact other
       · exact rooted.not_owns_free behind
  · cases done

end Aloof

end Ev6.PageTable
