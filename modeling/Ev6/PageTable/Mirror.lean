import Ev6.PageTable.Layout

/-!
# Page tables that grow

What `walk` adds to a page table it adds to the duplicate, so that the tree of the table
stays a tree: for each level one lemma says which place the new page takes.
-/

namespace Ev6.PageTable

open Function (update update_apply update_comm update_of_ne update_self)
open Support
open PageMemory (write_apply write_of_page_ne)

/-! ## A page takes its place -/

section Claim

variable {world after : World} {place : Layout} {idx : Nat}

variable {page : Page}

/-- A spare page takes a place in one tree, and the other trees are left alone. -/
theorem Laid.claim (kept : Laid world place) (steady : Steady world after)
    (free : after.free = world.free) (low : idx < ptdupSize)
    (used : Standing place idx) {role : Role} (spare : Spare world place page)
    (same : ∀ key (other : Page), key.1 ≠ idx → ¬key.2.IsL0 → place key = some other →
      after.tables.memory other = world.tables.memory other)
    (shows : Shows after.tables (update place (idx, role) (some page)) idx)
    (recorded : ∀ i, role = .copy i → 2 < world.nextpid) :
    Laid after (update place (idx, role) (some page)) where
  apart := kept.apart.claim spare.unheld
  live key role' other holds := by
    by_cases here : (key, role') = (idx, role)
    · cases here
      exact ⟨low, used.claim _ _⟩
    · rw [update_of_ne here] at holds
      obtain ⟨inside, live⟩ := kept.live key role' other holds
      exact ⟨inside, live.claim _ _⟩
  shows key inside live := by
    by_cases here : key = idx
    · rw [here]
      exact shows
    · have apart : (key, Role.top) ≠ (idx, role) := fun same => here (Prod.mk.inj same).1
      rw [Standing, update_of_ne apart] at live
      have framed := (kept.shows key inside live).frame (congrFun steady.index key) (steady.l2 key)
        (steady.l1 key) fun role' other upper holds => same (key, role') other here upper holds
      refine framed.congr fun role' => update_of_ne ?_ _ _
      simp [here]
  single := steady.index ▸ kept.single
  once := free ▸ kept.once
  free other member := by
    rw [free] at member
    refine (kept.free other member).claim ?_
    rintro rfl
    exact spare.taken member
  recorded key i other holds := by
    rw [steady.nextpid]
    by_cases here : (key, Role.copy i) = (idx, role)
    · exact recorded i (Prod.mk.inj here).2.symm
    · rw [update_of_ne here] at holds
      exact kept.recorded key i other holds

theorem Laid.val_ne (kept : Laid world place) {first second : Nat × Role} {one two : Page}
    (holds : place first = some one) (other : place second = some two)
    (different : first ≠ second) : one.val ≠ two :=
  fun same => kept.apart.ne holds other different (Subtype.ext same)

variable (kept : Laid world place) (low : idx < ptdupSize)
  (used : Standing place idx)

include kept low used

variable {i : Nat}

theorem Laid.attach_l1 (slot : i < entrySize) (empty : place (idx, .l1 i) = none)
    (spare : Spare world place page) (zero : ∀ n < entrySize, world.tables.memory page n = 0) :
    Laid (world.write (world.tables.idxPtdup idx) i (pde (some page)))
      (update place (idx, .l1 i) (some page)) := by
  have shows := kept.shows idx low used
  obtain ⟨top, atTop, isTop⟩ := shows.top
  obtain ⟨topCopy, atCopy, isCopy⟩ := shows.topCopy
  obtain ⟨directory, atDirectory, isDirectory⟩ := shows.directory
  obtain ⟨noCopy, noL0⟩ := shows.below i empty
  rw [isTop]
  have same (key : Nat × Role) (other : Page) (elsewhere : key ≠ (idx, .top))
      (holds : place key = some other) :
      (world.tables.memory.write top i (pde (some page))) other = world.tables.memory other :=
    write_of_page_ne _ _ _ (kept.val_ne holds atTop elsewhere)
  refine kept.claim (steady_write _ _ _ _) rfl low used spare
    (fun key other different _ holds => same key other (fun equal => different (congrArg Prod.fst equal)) holds)
    ?_ (by simp)
  constructor
  · exact ⟨top, by simpa [update_apply] using atTop, isTop⟩
  · exact ⟨topCopy, by simpa [update_apply] using atCopy, isCopy⟩
  · exact ⟨directory, by simpa [update_apply] using atDirectory, isDirectory⟩
  · intro k inside
    have entry := shows.entry k inside
    rw [isTop] at entry
    simp only [World.write, isTop, write_apply, true_and, update_apply,
      Prod.mk.injEq, Role.l1.injEq]
    split
    · rfl
    · exact entry
  · intro k inside
    have copied := shows.copied k inside
    rw [isCopy] at copied
    simp only [World.write, isCopy, same _ topCopy (by simp) atCopy, copied]
    by_cases here : k = i
    · simp [here, noCopy]
    · simp [here]
  · intro k inside
    have listed := shows.listed k inside
    rw [isDirectory] at listed
    simpa [World.write, isDirectory, same _ directory (by simp) atDirectory, update_apply]
      using listed
  · intro k other holds j inside
    by_cases here : k = i
    · subst here
      obtain rfl : page = other := by simpa using holds
      have different : page.val ≠ top := (Unheld.val_ne spare.unheld _ _ atTop).symm
      simp [World.write, write_of_page_ne _ _ _ different, zero j inside, noL0, pde]
    · have held : place (idx, .l1 k) = some other := by
        simpa [update_apply, here] using holds
      simpa [World.write, same _ other (by simp) held, update_apply]
        using shows.inner k other held j inside
  · intro k other holds j inside
    have held : place (idx, .copy k) = some other := by
      simpa [update_apply] using holds
    simpa [World.write, same _ other (by simp) held, update_apply]
      using shows.innerCopy k other held j inside
  · intro k none
    by_cases here : k = i
    · simp [here] at none
    · simpa [update_apply] using
        shows.below k (by simpa [update_apply, here] using none)
  · intro k other holds
    by_cases here : k = i
    · exact here ▸ slot
    · exact shows.inside k other (by simpa [update_apply, here] using holds)
  · intro k j other holds
    exact shows.insideL0 k j other (by simpa [update_apply] using holds)

/-- A zeroed page becomes the copy of an L1 table without L0 tables, and the copy of the
L2 table is given the entry of that table. -/
theorem Laid.attach_copy {l1 : Page} (holds : place (idx, .l1 i) = some l1)
    (empty : place (idx, .copy i) = none) (noL0 : ∀ j, place (idx, .l0 i j) = none)
    (spare : Spare world place page) (zero : ∀ n < entrySize, world.tables.memory page n = 0)
    (late : 2 < world.nextpid) :
    Laid ((world.write (world.tables.head idx).l1 i page).write (world.tables.head idx).l2 i
        (pde (some l1))) (update place (idx, .copy i) (some page)) := by
  have shows := kept.shows idx low used
  have slot := shows.inside i l1 holds
  obtain ⟨top, atTop, isTop⟩ := shows.top
  obtain ⟨topCopy, atCopy, isCopy⟩ := shows.topCopy
  obtain ⟨directory, atDirectory, isDirectory⟩ := shows.directory
  rw [isCopy, isDirectory]
  have same (other : Nat) (first : other ≠ directory) (second : other ≠ topCopy) :
      ((world.write directory i page).write topCopy i (pde (some l1))).tables.memory other =
        world.tables.memory other := by
    simp only [World.write, write_of_page_ne _ _ _ second,
      write_of_page_ne _ _ _ first]
  have left (key : Nat × Role) (other : Page) (first : key ≠ (idx, .directory))
      (second : key ≠ (idx, .topCopy)) (there : place key = some other) :=
    same other (kept.val_ne there atDirectory first) (kept.val_ne there atCopy second)
  have apartCopy := kept.val_ne atDirectory atCopy (by simp)
  refine kept.claim ((steady_write _ _ _ _).trans (steady_write _ _ _ _)) rfl low used spare
    (fun key other different _ there => left key other
      (fun equal => different (congrArg Prod.fst equal))
      (fun equal => different (congrArg Prod.fst equal)) there) ?_ (fun _ _ => late)
  constructor
  · exact ⟨top, by simpa [update_apply] using atTop, isTop⟩
  · exact ⟨topCopy, by simpa [update_apply] using atCopy, isCopy⟩
  · exact ⟨directory, by simpa [update_apply] using atDirectory, isDirectory⟩
  · intro k inside
    have entry := shows.entry k inside
    rw [isTop] at entry
    rw [show ((world.write directory i page).write topCopy i (pde (some l1))).tables.idxPtdup idx =
      top from isTop, left _ top (by simp) (by simp) atTop, entry]
    simp
  · intro k inside
    have copied := shows.copied k inside
    rw [isCopy] at copied
    rw [show (((world.write directory i page).write topCopy i (pde (some l1))).tables.head idx).l2 =
      topCopy from isCopy]
    by_cases here : k = i
    · simp [World.write, here, holds]
    · simp [World.write, write_apply, here, apartCopy.symm, copied]
  · intro k inside
    have listed := shows.listed k inside
    rw [isDirectory] at listed
    rw [show (((world.write directory i page).write topCopy i (pde (some l1))).tables.head idx).l1 =
      directory from isDirectory]
    by_cases here : k = i
    · simp [World.write, write_apply, here, apartCopy, address]
    · simp [World.write, write_apply, here, listed]
  · intro k other there j inside
    have held : place (idx, .l1 k) = some other := by
      simpa [update_apply] using there
    rw [left _ other (by simp) (by simp) held, shows.inner k other held j inside]
    simp
  · intro k other there j inside
    by_cases here : k = i
    · subst here
      obtain rfl : page = other := by simpa using there
      have first : page.val ≠ directory := (Unheld.val_ne spare.unheld _ _ atDirectory).symm
      have second : page.val ≠ topCopy := (Unheld.val_ne spare.unheld _ _ atCopy).symm
      rw [same page first second, zero j inside]
      simp [noL0, pde]
    · have held : place (idx, .copy k) = some other := by
        simpa [update_apply, here] using there
      rw [left _ other (by simp) (by simp) held, shows.innerCopy k other held j inside]
      simp
  · intro k none
    have missing : place (idx, .l1 k) = Option.none := by
      simpa [update_apply] using none
    by_cases here : k = i
    · rw [here, holds] at missing
      cases missing
    · simpa [update_apply, here] using shows.below k missing
  · intro k other there
    exact shows.inside k other (by simpa [update_apply] using there)
  · intro k j other there
    exact shows.insideL0 k j other (by simpa [update_apply] using there)

/-- A page becomes an L0 table: its entry goes into the L1 table and into the copy of that
table, if there is one. -/
theorem Laid.attach_l0 {j : Nat} {l1 : Page} (holds : place (idx, .l1 i) = some l1)
    (slot : j < entrySize) (spare : Spare world place page)
    (steady : Steady world after) (free : after.free = world.free)
    (entry : after.tables.memory l1 = update (world.tables.memory l1) j (pde (some page)))
    (copied : ∀ copy : Page, place (idx, .copy i) = some copy →
      after.tables.memory copy = update (world.tables.memory copy) j (pde (some page)))
    (same : ∀ key (other : Page), key ≠ (idx, .l1 i) → key ≠ (idx, .copy i) →
      place key = some other → after.tables.memory other = world.tables.memory other) :
    Laid after (update place (idx, .l0 i j) (some page)) := by
  have shows := kept.shows idx low used
  obtain ⟨top, atTop, isTop⟩ := shows.top
  obtain ⟨topCopy, atCopy, isCopy⟩ := shows.topCopy
  obtain ⟨directory, atDirectory, isDirectory⟩ := shows.directory
  have index : after.tables.idxPtdup idx = top := (congrFun steady.index idx).trans isTop
  have l2 := (steady.l2 idx).trans isCopy
  have l1Same := (steady.l1 idx).trans isDirectory
  refine kept.claim steady free low used spare
    (fun key other different _ there => same key other
      (fun equal => different (congrArg Prod.fst equal))
      (fun equal => different (congrArg Prod.fst equal)) there) ?_ (by simp)
  constructor
  · exact ⟨top, by simpa [update_apply] using atTop, index⟩
  · exact ⟨topCopy, by simpa [update_apply] using atCopy, l2⟩
  · exact ⟨directory, by simpa [update_apply] using atDirectory, l1Same⟩
  · intro k inside
    have before := shows.entry k inside
    rw [isTop] at before
    rw [index, same _ top (by simp) (by simp) atTop, before]
    simp
  · intro k inside
    have before := shows.copied k inside
    rw [isCopy] at before
    rw [l2, same _ topCopy (by simp) (by simp) atCopy, before]
    simp
  · intro k inside
    have before := shows.listed k inside
    rw [isDirectory] at before
    rw [l1Same, same _ directory (by simp) (by simp) atDirectory, before]
    simp
  · intro k other there n inside
    have held : place (idx, .l1 k) = some other := by
      simpa [update_apply] using there
    by_cases here : k = i
    · subst here
      obtain rfl : l1 = other := Option.some.inj (holds.symm.trans held)
      rw [entry]
      by_cases slot : n = j
      · simp [slot]
      · simp [slot, shows.inner k l1 held n inside]
    · rw [same _ other (by simpa using here) (by simp) held, shows.inner k other held n inside]
      simp [here]
  · intro k other there n inside
    have held : place (idx, .copy k) = some other := by
      simpa [update_apply] using there
    by_cases here : k = i
    · subst here
      rw [copied other held]
      by_cases slot : n = j
      · simp [slot]
      · simp [slot, shows.innerCopy k other held n inside]
    · rw [same _ other (by simp) (by simpa using here) held,
        shows.innerCopy k other held n inside]
      simp [here]
  · intro k none
    have missing : place (idx, .l1 k) = Option.none := by
      simpa [update_apply] using none
    have different : k ≠ i := by
      rintro rfl
      rw [holds] at missing
      cases missing
    simpa [update_apply, different] using shows.below k missing
  · intro k other there
    exact shows.inside k other (by simpa [update_apply] using there)
  · intro k n other there
    by_cases here : k = i ∧ n = j
    · exact here.2 ▸ slot
    · exact shows.insideL0 k n other (by simpa [update_apply, here] using there)

end Claim

/-! ## The scans -/

section Scans

variable {world : World} {place : Layout} {idx : Nat} (kept : Laid world place)
  (low : idx < ptdupSize) (used : Standing place idx)

include kept low used

theorem Laid.ptdupIndex_eq : world.tables.ptdupIndex (world.tables.idxPtdup idx) = some idx := by
  refine firstSlot_eq_some.mpr ⟨low, by simp, fun earlier before => ?_⟩
  rw [decide_eq_false_iff_not]
  intro equal
  have nonzero : world.tables.idxPtdup earlier ≠ 0 := equal ▸ kept.index_ne_zero low used
  have same := kept.single earlier (Nat.lt_trans before low) idx low nonzero equal
  exact Nat.ne_of_lt before same

variable {i : Nat} {l1 : Page} (holds : place (idx, .l1 i) = some l1)

include holds

theorem Laid.search_l2 :
    firstSlot (fun k => l1.val = pte2pa (world.tables.memory (world.tables.idxPtdup idx) k))
      entrySize = some i := by
  have shows := kept.shows idx low used
  have slot := shows.inside i l1 holds
  refine firstSlot_eq_some.mpr ⟨slot, ?_, fun earlier before => ?_⟩
  · rw [shows.entry i slot, holds, pte2pa_pde, decide_eq_true_iff]
  · rw [decide_eq_false_iff_not, shows.entry earlier (Nat.lt_trans before slot)]
    intro leads
    have key := kept.apart (pte2pa_pde_eq l1 leads) holds
    exact Nat.ne_of_lt before (Role.l1.inj (Prod.mk.inj key).2)

/-- The copy of the L2 table has it if the L1 table is duplicated. -/
theorem Laid.search_l2Copy :
    firstSlot (fun k => l1.val = pte2pa (world.tables.memory (world.tables.head idx).l2 k))
      entrySize = if (place (idx, .copy i)).isSome then some i else none := by
  have shows := kept.shows idx low used
  have slot := shows.inside i l1 holds
  have test (k : Nat) (inside : k < entrySize)
      (leads : l1.val = pte2pa (world.tables.memory (world.tables.head idx).l2 k)) :
      k = i ∧ (place (idx, .copy i)).isSome := by
    rw [shows.copied k inside] at leads
    split at leads
    · next copied =>
       have key := kept.apart (pte2pa_pde_eq l1 leads) holds
       obtain rfl := Role.l1.inj (Prod.mk.inj key).2
       exact ⟨rfl, copied⟩
    · exact absurd leads l1.property.ne_zero
  split
  · next copied =>
     refine firstSlot_eq_some.mpr ⟨slot, ?_, fun earlier before => ?_⟩
     · rw [shows.copied i slot, if_pos copied, holds, pte2pa_pde, decide_eq_true_iff]
     · rw [decide_eq_false_iff_not]
       exact fun leads => Nat.ne_of_lt before (test earlier (Nat.lt_trans before slot) leads).1
  · next missing =>
     refine firstSlot_eq_none.mpr fun k inside => ?_
     rw [decide_eq_false_iff_not]
     exact fun leads => missing (test k inside leads).2

/-- `ptdup_create_l1` for an L1 table. -/
theorem Laid.ptdupCreateL1_eq (content : Nat) :
    world.ptdupCreateL1 (world.tables.idxPtdup idx) l1 content =
      match world.kalloc with
      | none => .error .ptdupCreateL1Kalloc
      | some (copy, after) =>
        .ok (((after.memset copy 0).write (after.tables.head idx).l1 i copy).write
          (after.tables.head idx).l2 i content) := by
  unfold World.ptdupCreateL1
  rw [kept.ptdupIndex_eq low used]
  cases answer : world.kalloc with
  | none => simp only [l1.property.ne_zero, if_false, kept.search_l2 low used holds]
  | some given => simp only [l1.property.ne_zero, if_false, kept.search_l2 low used holds]

/-- `ptdup_update` for an L1 table, after an entry has been written to it. -/
theorem Laid.ptdupUpdate_eq (index value content : Nat) :
    (world.write l1 index value).ptdupUpdate (world.tables.idxPtdup idx) l1 content index =
      match place (idx, .copy i) with
      | none => .error .ptdupUpdateNoPagetable
      | some copy => .ok ((world.write l1 index value).write copy index content) := by
  have shows := kept.shows idx low used
  obtain ⟨topCopy, atCopy, isCopy⟩ := shows.topCopy
  obtain ⟨directory, atDirectory, isDirectory⟩ := shows.directory
  have copyRead : (world.tables.memory.write l1 index value) (world.tables.head idx).l2 =
      world.tables.memory (world.tables.head idx).l2 :=
    write_of_page_ne _ _ _ (isCopy ▸ kept.val_ne atCopy holds (by simp))
  have directoryRead : (world.tables.memory.write l1 index value) (world.tables.head idx).l1 =
      world.tables.memory (world.tables.head idx).l1 :=
    write_of_page_ne _ _ _ (isDirectory ▸ kept.val_ne atDirectory holds (by simp))
  have found : (world.write l1 index value).tables.ptdupIndex (world.tables.idxPtdup idx) =
      some idx := kept.ptdupIndex_eq low used
  unfold World.ptdupUpdate
  rw [found]
  simp only [l1.property.ne_zero, if_false, World.write, copyRead, directoryRead,
    kept.search_l2Copy low used holds]
  cases copied : place (idx, .copy i) with
  | none => rfl
  | some copy =>
    have listed := shows.listed i (shows.inside i l1 holds)
    rw [copied] at listed
    simp [listed, address, copy.property.ne_zero]

end Scans

/-! ## The loop of `walk` -/

/-- The tree of one table grows. A new L1 table is duplicated if the first process is not
alone any more. -/
structure Grown (nextpid idx : Nat) (place grown : Layout) : Prop where
  others : ∀ other role, other ≠ idx → grown (other, role) = place (other, role)
  old : ∀ role page, place (idx, role) = some page → grown (idx, role) = some page
  copies : ∀ i page, place (idx, .l1 i) = some page →
    grown (idx, .copy i) = place (idx, .copy i)
  new : ∀ i, place (idx, .l1 i) = none → (grown (idx, .l1 i)).isSome →
    ((grown (idx, .copy i)).isSome ↔ 2 < nextpid)

section Grown

variable {nextpid idx : Nat} {place between grown : Layout}

theorem Grown.refl (nextpid idx : Nat) (place : Layout) : Grown nextpid idx place place where
  others _ _ _ := rfl
  old _ _ holds := holds
  copies _ _ _ := rfl
  new i none isSome := by
    rw [none] at isSome
    cases isSome

theorem Grown.trans (first : Grown nextpid idx place between)
    (second : Grown nextpid idx between grown) : Grown nextpid idx place grown where
  others other role different :=
    (second.others other role different).trans (first.others other role different)
  old role page holds := second.old role page (first.old role page holds)
  copies i page holds :=
    (second.copies i page (first.old _ page holds)).trans (first.copies i page holds)
  new i none isSome := by
    cases held : between (idx, .l1 i) with
    | none => exact second.new i held isSome
    | some page =>
      rw [second.copies i page held]
      exact first.new i none (by simp [held])

end Grown

theorem px_lt (level va : Nat) : px level va < entrySize := by
  have masked : px level va = (va >>> (12 + 9 * level)) % 2 ^ 9 :=
    Nat.and_two_pow_sub_one_eq_mod _ 9
  rw [masked, entrySize_eq]
  exact Nat.mod_lt _ (by decide)

theorem registerPtbMlist_write (world : World) {page : Nat} (index value : Nat)
    (other : ∀ free ∈ world.free, free.val ≠ page) :
    (world.write page index value).registerPtbMlist =
      world.registerPtbMlist.write page index value := by
  unfold World.registerPtbMlist World.kalloc World.write World.memset
  dsimp only
  split
  · cases free : world.free with
    | nil => rfl
    | cons first rest =>
      have different : first.val ≠ page := other first (free ▸ List.mem_cons_self)
      simp only [Option.map_some, Option.getD_some]
      congr 2
      simp only [memsetPage, PageMemory.write,
        update_comm different.symm, update_of_ne different,
        update_of_ne different.symm]
  · rfl

/-- No page is added where none is asked for, or free. -/
theorem walkLevel_none {world : World} {l2 pagetable level va : Nat} {alloc : Bool}
    (invalid : isValid (world.tables.memory pagetable (px level va)) = false)
    (without : alloc = false ∨ world.kalloc = none) :
    world.walkLevel l2 pagetable level va alloc = .ok (none, world) := by
  unfold World.walkLevel
  rcases without with rfl | dry
  · simp [invalid]
  · cases alloc <;> simp [invalid, dry]

/-- A page is cleared, and an entry is made to lead to it. -/
def World.link (world : World) (pagetable index : Nat) (page : Page) : World :=
  (world.memset page 0).write pagetable index (pde (some page))

/-- A page is added and, if the first process is not alone, duplicated. -/
theorem walkLevel_new {world given : World} {l2 pagetable level va : Nat} {page : Page}
    (invalid : isValid (world.tables.memory pagetable (px level va)) = false)
    (answer : world.kalloc = some (page, given)) :
    world.walkLevel l2 pagetable level va true =
      if given.nextpid ≤ 2 then .ok (some page.val, given.link pagetable (px level va) page)
      else
        (if level = 2 then
          (given.link pagetable (px level va) page).registerPtbMlist.ptdupCreateL1 l2 page
            (pde (some page))
        else
          (given.link pagetable (px level va) page).registerPtbMlist.ptdupUpdate l2 pagetable
            (pde (some page)) (px 1 va)).map fun world => (some page.val, world) := by
  unfold World.walkLevel
  simp only [invalid, answer, Bool.false_eq_true, if_false, Bool.true_eq_false]
  rfl

section Levels

variable {world : World} {place : Layout} {idx : Nat} (kept : Laid world place)
  (low : idx < ptdupSize) (used : Standing place idx)

include kept low used

theorem Laid.isValid_l2 (va : Nat) :
    isValid (world.tables.memory (world.tables.idxPtdup idx) (px 2 va)) =
      (place (idx, .l1 (px 2 va))).isSome := by
  rw [(kept.shows idx low used).entry _ (px_lt 2 va), isValid_pde]

variable {i : Nat} {l1 : Page}

theorem Laid.isValid_l1 (holds : place (idx, .l1 i) = some l1) (va : Nat) :
    isValid (world.tables.memory l1 (px 1 va)) = (place (idx, .l0 i (px 1 va))).isSome := by
  rw [(kept.shows idx low used).inner i l1 holds _ (px_lt 1 va), isValid_pde]

theorem Laid.walkLevel_two_old {va : Nat} (alloc : Bool)
    (holds : place (idx, .l1 (px 2 va)) = some l1) :
    world.walkLevel (world.tables.idxPtdup idx) (world.tables.idxPtdup idx) 2 va alloc =
      .ok (some l1.val, world) := by
  have valid := kept.isValid_l2 low used va
  rw [holds, Option.isSome_some] at valid
  have entry := (kept.shows idx low used).entry _ (px_lt 2 va)
  rw [holds] at entry
  rw [World.walkLevel, if_pos valid, entry, pte2pa_pde]

theorem Laid.walkLevel_one_old {va : Nat} {l0 : Page} (alloc : Bool)
    (holds : place (idx, .l1 i) = some l1) (there : place (idx, .l0 i (px 1 va)) = some l0) :
    world.walkLevel (world.tables.idxPtdup idx) l1 1 va alloc = .ok (some l0.val, world) := by
  have valid := kept.isValid_l1 low used holds va
  rw [there, Option.isSome_some] at valid
  have entry := (kept.shows idx low used).inner i l1 holds _ (px_lt 1 va)
  rw [there] at entry
  rw [World.walkLevel, if_pos valid, entry, pte2pa_pde]

variable {va : Nat} {page : Page} {given : World}

section NewL1

variable (empty : place (idx, .l1 (px 2 va)) = none) (answer : world.kalloc = some (page, given))

include empty answer

/-- The new L1 table has its place before it is duplicated. -/
theorem Laid.linked_l1 :
    Laid (given.link (world.tables.idxPtdup idx) (px 2 va) page)
        (update place (idx, .l1 (px 2 va)) (some page)) ∧
      Steady world (given.link (world.tables.idxPtdup idx) (px 2 va) page) := by
  obtain ⟨keptGiven, spare, leaves⟩ := kalloc_spec kept answer
  have keptZero := keptGiven.memset spare.unheld 0
  have index : world.tables.idxPtdup idx = (given.memset page 0).tables.idxPtdup idx :=
    (congrFun leaves.steady.index idx).symm
  have steady := leaves.steady.trans (steady_memset given page 0)
  refine ⟨?_, steady.trans (steady_write _ _ _ _)⟩
  rw [World.link, index]
  exact keptZero.attach_l1 low used (px_lt 2 va) empty ⟨spare.unheld, spare.taken⟩
    fun n inside => memsetPage_self _ _ _ inside

/-- While the first process is alone, an L1 table is not duplicated. -/
theorem Laid.walkLevel_two_alone (alone : world.nextpid ≤ 2) :
    world.walkLevel (world.tables.idxPtdup idx) (world.tables.idxPtdup idx) 2 va true =
      .ok (some page.val, given.link (world.tables.idxPtdup idx) (px 2 va) page) := by
  have invalid := kept.isValid_l2 low used va
  rw [empty] at invalid
  have early : given.nextpid ≤ 2 := (kalloc_spec kept answer).2.2.steady.nextpid ▸ alone
  rw [walkLevel_new invalid answer, if_pos early]

theorem Laid.walkLevel_two_late (late : 2 < world.nextpid) :
    world.walkLevel (world.tables.idxPtdup idx) (world.tables.idxPtdup idx) 2 va true =
      match (given.link (world.tables.idxPtdup idx) (px 2 va) page).registerPtbMlist.kalloc with
      | none => .error .ptdupCreateL1Kalloc
      | some (copy, after) =>
        .ok (some page.val,
          ((after.memset copy 0).write (after.tables.head idx).l1 (px 2 va) copy).write
            (after.tables.head idx).l2 (px 2 va) (pde (some page))) := by
  have invalid := kept.isValid_l2 low used va
  rw [empty] at invalid
  obtain ⟨linked, steady⟩ := kept.linked_l1 low used empty answer
  obtain ⟨registered, leaves⟩ := registerPtbMlist_spec linked
  have index := congrFun (steady.trans leaves.steady).index idx
  have early : ¬given.nextpid ≤ 2 := by
    rw [(kalloc_spec kept answer).2.2.steady.nextpid]
    exact Nat.not_le.mpr late
  have created := registered.ptdupCreateL1_eq low (used.claim _ _)
    (update_self _ _ _) (pde (some page))
  rw [index] at created
  rw [walkLevel_new invalid answer, if_neg early, if_pos rfl, created]
  cases (given.link (world.tables.idxPtdup idx) (px 2 va) page).registerPtbMlist.kalloc with
  | none => rfl
  | some answer => rfl

theorem Laid.linked_copy {copy : Page} {after : World} (late : 2 < world.nextpid)
    (copied : (given.link (world.tables.idxPtdup idx) (px 2 va) page).registerPtbMlist.kalloc =
      some (copy, after)) :
    Laid (((after.memset copy 0).write (after.tables.head idx).l1 (px 2 va) copy).write
          (after.tables.head idx).l2 (px 2 va) (pde (some page)))
        (update (update place (idx, .l1 (px 2 va)) (some page))
          (idx, .copy (px 2 va)) (some copy)) ∧
      Steady world (((after.memset copy 0).write (after.tables.head idx).l1 (px 2 va) copy).write
        (after.tables.head idx).l2 (px 2 va) (pde (some page))) := by
  obtain ⟨linked, steady⟩ := kept.linked_l1 low used empty answer
  obtain ⟨registered, leaves⟩ := registerPtbMlist_spec linked
  obtain ⟨keptAfter, spare, leavesAfter⟩ := kalloc_spec registered copied
  have keptZero := keptAfter.memset spare.unheld 0
  have still := ((steady.trans leaves.steady).trans leavesAfter.steady).trans
    (steady_memset after copy 0)
  obtain ⟨noCopy, noL0⟩ := (kept.shows idx low used).below _ empty
  refine ⟨?_, (still.trans (steady_write _ _ _ _)).trans (steady_write _ _ _ _)⟩
  exact keptZero.attach_copy low (used.claim _ _)
    (update_self _ _ _) (by simpa using noCopy) (by simpa using noL0)
    ⟨spare.unheld, spare.taken⟩ (fun n inside => memsetPage_self _ _ _ inside)
    (by rw [still.nextpid]; exact late)

end NewL1

/-- The tree with the new L0 table, when there is no copy to enter it in. -/
theorem Laid.linked_l0 (holds : place (idx, .l1 i) = some l1)
    (answer : world.kalloc = some (page, given)) (uncopied : place (idx, .copy i) = none) :
    Laid (given.link l1 (px 1 va) page) (update place (idx, .l0 i (px 1 va)) (some page)) ∧
      Steady world (given.link l1 (px 1 va) page) := by
  obtain ⟨keptGiven, spare, leaves⟩ := kalloc_spec kept answer
  have keptZero := keptGiven.memset spare.unheld 0
  have steady := leaves.steady.trans (steady_memset given page 0)
  refine ⟨keptZero.attach_l0 low used holds (px_lt 1 va) ⟨spare.unheld, spare.taken⟩
    (steady_write _ _ _ _) rfl (update_self _ _ _) ?_ ?_,
    steady.trans (steady_write _ _ _ _)⟩
  · intro copy there
    rw [uncopied] at there
    cases there
  · intro key other different _ there
    exact write_of_page_ne _ _ _ (kept.val_ne there holds different)

/-- The tree with the new L0 table, which is entered in the copy too. -/
theorem Laid.linked_l0_copied {copy : Page}
    (holds : place (idx, .l1 i) = some l1) (answer : world.kalloc = some (page, given))
    (copied : place (idx, .copy i) = some copy) :
    Laid (((given.memset page 0).registerPtbMlist.write l1 (px 1 va) (pde (some page))).write copy
          (px 1 va) (pde (some page))) (update place (idx, .l0 i (px 1 va)) (some page)) ∧
      Steady world (((given.memset page 0).registerPtbMlist.write l1 (px 1 va)
        (pde (some page))).write copy (px 1 va) (pde (some page))) := by
  obtain ⟨keptGiven, spare, leaves⟩ := kalloc_spec kept answer
  have keptZero := keptGiven.memset spare.unheld 0
  obtain ⟨registered, leavesAfter⟩ := registerPtbMlist_spec keptZero
  have steady := (leaves.steady.trans (steady_memset given page 0)).trans leavesAfter.steady
  have apart := kept.val_ne holds copied (by simp)
  have written := (steady_write (given.memset page 0).registerPtbMlist l1 (px 1 va)
    (pde (some page))).trans (steady_write _ copy (px 1 va) (pde (some page)))
  refine ⟨registered.attach_l0 low used holds (px_lt 1 va)
    (leavesAfter.spare page ⟨spare.unheld, spare.taken⟩).1 written rfl ?_ ?_ ?_,
    steady.trans written⟩
  · simp only [World.write]
    rw [write_of_page_ne _ _ _ apart]
    exact update_self _ _ _
  · intro other there
    obtain rfl := Option.some.inj (copied.symm.trans there)
    simp only [World.write, PageMemory.write, update_self,
      update_of_ne apart.symm]
  · intro key other first second there
    simp only [World.write]
    rw [write_of_page_ne _ _ _ (kept.val_ne there copied second),
      write_of_page_ne _ _ _ (kept.val_ne there holds first)]

section NewL0

variable {i : Nat} {l1 : Page} (holds : place (idx, .l1 i) = some l1)
  (empty : place (idx, .l0 i (px 1 va)) = none) (answer : world.kalloc = some (page, given))

include holds empty answer

/-- While the first process is alone, an L0 table is entered once. -/
theorem Laid.walkLevel_one_alone (alone : world.nextpid ≤ 2) :
    world.walkLevel (world.tables.idxPtdup idx) l1 1 va true =
      .ok (some page.val, given.link l1 (px 1 va) page) := by
  have invalid := kept.isValid_l1 low used holds va
  rw [empty] at invalid
  have early : given.nextpid ≤ 2 := (kalloc_spec kept answer).2.2.steady.nextpid ▸ alone
  rw [walkLevel_new invalid answer, if_pos early]

/-- Otherwise it is also entered in the copy of the L1 table. -/
theorem Laid.walkLevel_one_late (late : 2 < world.nextpid) :
    world.walkLevel (world.tables.idxPtdup idx) l1 1 va true =
      match place (idx, .copy i) with
      | none => .error .ptdupUpdateNoPagetable
      | some copy =>
        .ok (some page.val,
          ((given.memset page 0).registerPtbMlist.write l1 (px 1 va) (pde (some page))).write copy
            (px 1 va) (pde (some page))) := by
  have invalid := kept.isValid_l1 low used holds va
  rw [empty] at invalid
  obtain ⟨keptGiven, spare, leaves⟩ := kalloc_spec kept answer
  have keptZero := keptGiven.memset spare.unheld 0
  obtain ⟨registered, leavesAfter⟩ := registerPtbMlist_spec keptZero
  have still := (leaves.steady.trans (steady_memset given page 0)).trans leavesAfter.steady
  have index := congrFun still.index idx
  have early : ¬given.nextpid ≤ 2 := by
    rw [leaves.steady.nextpid]
    exact Nat.not_le.mpr late
  have other : ∀ free ∈ (given.memset page 0).free, free.val ≠ l1 := by
    intro free member same
    exact keptZero.free free member _ (Subtype.ext same ▸ holds)
  have updated := registered.ptdupUpdate_eq low used holds (px 1 va)
    (pde (some page)) (pde (some page))
  rw [index] at updated
  rw [walkLevel_new invalid answer, if_neg early, if_neg (by decide), World.link,
    registerPtbMlist_write _ _ _ other, updated]
  cases place (idx, .copy i) with
  | none => rfl
  | some copy => rfl

end NewL0

end Levels

end Ev6.PageTable
