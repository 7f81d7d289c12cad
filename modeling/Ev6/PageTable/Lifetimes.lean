import Ev6.PageTable.Growth

/-!
# Page tables that come and go

`proc_pagetable` gives a tree to an index that has none, and the end of a table takes it
away.
-/

namespace Ev6.PageTable

open Function (update update_of_ne update_self)
open Support

section Opening

variable {world after : World} {place : Layout} {idx : Nat}

theorem Laid.dead (kept : Laid world place) (unused : world.tables.idxPtdup idx = 0) (role : Role) :
    place (idx, role) = none := by
  cases holds : place (idx, role) with
  | none => rfl
  | some page =>
    obtain ⟨low, used⟩ := kept.live idx role page holds
    exact absurd unused (kept.index_ne_zero low used)

/-- The layout with a new table. -/
def opened (place : Layout) (idx : Nat) (top topCopy directory : Page) : Layout :=
  update (update (update place (idx, .top) (some top))
    (idx, .topCopy) (some topCopy)) (idx, .directory) (some directory)

variable {other : Nat} {top : Page}

theorem opened_of_ne {topCopy directory : Page} (role : Role) (different : other ≠ idx) :
    opened place idx top topCopy directory (other, role) = place (other, role) := by
  simp [opened, different]

/-- Three spare pages become an empty table with its duplicate. -/
theorem Laid.open {topCopy directory : Page} {l0Ptds l0Pted : Option Records}
    (kept : Laid world place) (low : idx < ptdupSize) (unused : world.tables.idxPtdup idx = 0)
    (fresh : ∀ other < ptdupSize, world.tables.idxPtdup other ≠ top)
    (spareTop : Spare world place top) (spareCopy : Spare world place topCopy)
    (spareDirectory : Spare world place directory) (first : top ≠ topCopy)
    (second : top ≠ directory) (third : topCopy ≠ directory)
    (zero : ∀ page ∈ [top, topCopy, directory], ∀ n < entrySize, world.tables.memory page n = 0) :
    Laid { world with tables := { world.tables with
          head := update world.tables.head idx ⟨topCopy, directory, l0Ptds, l0Pted⟩
          idxPtdup := update world.tables.idxPtdup idx top } }
      (opened place idx top topCopy directory) := by
  have unheldCopy : Unheld (update place (idx, .top) (some top)) topCopy :=
    spareCopy.unheld.claim first
  have unheldDirectory : Unheld (update (update place (idx, .top) (some top))
      (idx, .topCopy) (some topCopy)) directory :=
    (spareDirectory.unheld.claim second).claim third
  have dead (role : Role) : place (idx, role) = none := kept.dead unused role
  have clear (page : Page) (member : page ∈ [top, topCopy, directory]) (n : Nat)
      (inside : n < entrySize) : world.tables.memory page n = 0 := zero page member n inside
  constructor
  · exact ((kept.apart.claim spareTop.unheld).claim unheldCopy).claim unheldDirectory
  · intro other role page holds
    by_cases here : other = idx
    · exact ⟨here ▸ low, top, by simp [opened, here]⟩
    · rw [opened_of_ne role here] at holds
      obtain ⟨inside, used⟩ := kept.live other role page holds
      exact ⟨inside, by rwa [Standing, opened_of_ne .top here]⟩
  · intro other inside live
    by_cases here : other = idx
    · subst here
      constructor
      · exact ⟨top, by simp [opened], by simp⟩
      · exact ⟨topCopy, by simp [opened], by simp⟩
      · exact ⟨directory, by simp [opened], by simp⟩
      · intro i slot
        simpa [opened, dead, pde] using clear top (by simp) i slot
      · intro i slot
        simpa [opened, dead] using clear topCopy (by simp) i slot
      · intro i slot
        simpa [opened, dead, address] using clear directory (by simp) i slot
      · intro i page holds
        simp [opened, dead] at holds
      · intro i page holds
        simp [opened, dead] at holds
      · intro i _
        simp [opened, dead]
      · intro i page holds
        simp [opened, dead] at holds
      · intro i j page holds
        simp [opened, dead] at holds
    · have before : Standing place other := by rwa [Standing, opened_of_ne .top here] at live
      refine Shows.congr ((kept.shows other inside before).frame ?_ ?_ ?_ fun _ _ _ _ => rfl)
        fun role => opened_of_ne role here
      · simp [here]
      · simp [here]
      · simp [here]
  · intro one inside two inside' nonzero same
    by_cases first : one = idx <;> by_cases second : two = idx
    · exact first.trans second.symm
    · exact absurd (by simpa [first, second] using same.symm) (fresh two inside')
    · exact absurd (by simpa [first, second] using same) (fresh one inside)
    · simp only [update_of_ne first, update_of_ne second] at nonzero same
      exact kept.single one inside two inside' nonzero same
  · exact kept.once
  · intro page member
    have unheld := kept.free page member
    refine ((unheld.claim ?_).claim ?_).claim ?_
    · rintro rfl
      exact spareTop.taken member
    · rintro rfl
      exact spareCopy.taken member
    · rintro rfl
      exact spareDirectory.taken member
  · intro other i page holds
    by_cases here : other = idx
    · subst here
      simp [opened, dead] at holds
    · rw [opened_of_ne _ here] at holds
      exact kept.recorded other i page holds

variable {page : Page}

theorem kalloc_free (answer : world.kalloc = some (page, after)) :
    world.free = page :: after.free := by
  unfold World.kalloc at answer
  split at answer
  · cases answer
  · next first rest free =>
     cases answer
     exact free

theorem kallocOrFault_eq (done : world.kallocOrFault = .ok (page, after)) :
    world.kalloc = some (page, after) ∧ page ∈ world.free := by
  unfold World.kallocOrFault at done
  cases answer : world.kalloc with
  | none =>
    rw [answer] at done
    cases done
  | some given =>
    rw [answer] at done
    obtain rfl := Except.ok.inj done
    exact ⟨rfl, kalloc_free answer ▸ List.mem_cons_self⟩

theorem take_spec (kept : Laid world place) (done : world.kallocOrFault = .ok (page, after)) :
    Laid (after.memset page 0) place ∧ Spare (after.memset page 0) place page ∧
      Leaves place world (after.memset page 0) ∧
      ∀ other, Spare world place other → other ≠ page := by
  obtain ⟨answer, free⟩ := kallocOrFault_eq done
  obtain ⟨keptAfter, spare, leaves⟩ := kalloc_spec kept answer
  have different (other : Page) (before : Spare world place other) : other ≠ page := by
    rintro rfl
    exact before.taken free
  refine ⟨keptAfter.memset spare.unheld 0, ⟨spare.unheld, spare.taken⟩,
    ⟨leaves.steady.trans (steady_memset _ _ _), fun other before => ?_⟩, different⟩
  obtain ⟨still, same⟩ := leaves.spare other before
  refine ⟨⟨still.unheld, still.taken⟩, ?_⟩
  have apart : other.val ≠ page := fun equal => different other before (Subtype.ext equal)
  exact (memsetPage_of_ne _ 0 apart).trans same

/-- `ptdup_init` gives an empty tree to an index without one. -/
theorem ptdupInit_spec (kept : Laid world place) (spare : Spare world place top)
    (zero : ∀ n < entrySize, world.tables.memory top n = 0)
    (fresh : ∀ other < ptdupSize, world.tables.idxPtdup other ≠ top)
    (done : world.ptdupInit top = .ok after) : ∃ idx < ptdupSize, world.tables.idxPtdup idx = 0 ∧
      after.tables.idxPtdup = update world.tables.idxPtdup idx top ∧ after.nextpid = world.nextpid ∧
      ∃ topCopy directory, Laid after (opened place idx top topCopy directory) := by
  unfold World.ptdupInit at done
  split at done
  · cases done
  · next idx found =>
     obtain ⟨low, unused, -⟩ := firstSlot_eq_some.mp found
     rw [decide_eq_true_iff] at unused
     rw [if_neg top.property.ne_zero] at done
     obtain ⟨⟨copy, first⟩, one, done⟩ := bind_eq_ok.mp done
     obtain ⟨⟨directory, second⟩, two, done⟩ := bind_eq_ok.mp done
     obtain ⟨⟨ptds, third⟩, three, done⟩ := bind_eq_ok.mp done
     obtain ⟨⟨pted, fourth⟩, four, done⟩ := bind_eq_ok.mp done
     obtain rfl := Except.ok.inj done
     obtain ⟨keptOne, spareOne, leavesOne, apartOne⟩ := take_spec kept one
     obtain ⟨keptTwo, spareTwo, leavesTwo, apartTwo⟩ := take_spec keptOne two
     obtain ⟨keptThree, -, leavesThree⟩ := kalloc_spec keptTwo (kallocOrFault_eq three).1
     obtain ⟨keptFour, -, leavesFour⟩ := kalloc_spec keptThree (kallocOrFault_eq four).1
     have behind := leavesThree.trans leavesFour
     obtain ⟨topOne, sameOne⟩ := leavesOne.spare top spare
     obtain ⟨topTwo, sameTwo⟩ := leavesTwo.spare top topOne
     obtain ⟨topLast, sameTop⟩ := behind.spare top topTwo
     obtain ⟨copyTwo, sameCopy⟩ := leavesTwo.spare copy spareOne
     obtain ⟨copyLast, sameCopy'⟩ := behind.spare copy copyTwo
     obtain ⟨directoryLast, sameDirectory⟩ := behind.spare directory spareTwo
     have steady := (leavesOne.steady.trans leavesTwo.steady).trans behind.steady
     refine ⟨idx, low, unused, by simp [steady.index], steady.nextpid, copy, directory, ?_⟩
     refine keptFour.open low (by rw [steady.index]; exact unused)
       (by rw [steady.index]; exact fresh) topLast copyLast directoryLast (apartOne top spare) (apartTwo top topOne) (apartTwo copy spareOne) ?_
     intro page member n inside
     simp only [List.mem_cons, List.not_mem_nil, or_false] at member
     rcases member with rfl | rfl | rfl
     · rw [sameTop, sameTwo, sameOne, zero n inside]
     · rw [sameCopy', sameCopy]
       exact memsetPage_self _ _ _ inside
     · rw [sameDirectory]
       exact memsetPage_self _ _ _ inside

/-- A page of `proc_pagetable`, with its record. -/
theorem mapRecorded_spec {idx va pa perm : Nat} (kept : Laid world place) (low : idx < ptdupSize)
    (used : Standing place idx)
    (done : world.mapRecorded (world.tables.idxPtdup idx) va pa perm = .ok after) :
    ∃ grown, Advance idx world after place grown := by
  obtain ⟨⟨res, between⟩, mapped, added⟩ := bind_eq_ok.mp done
  obtain ⟨grown, advance⟩ := mappages_spec kept low used mapped
  have idle := l0PtesAdd_idle added
  exact ⟨grown, advance.trans (.stay (advance.kept.idle idle) idle.steady)⟩

/-- What a step leaves of the trees: those of the old tables may lose or gain pages, but no
L1 table that stays gains or loses its copy, and a new one is duplicated if the first
process is not alone. -/
structure Follows (nextpid : Nat) (place later : Layout) : Prop where
  old : ∀ idx i, (place (idx, .l1 i)).isSome → (later (idx, .l1 i)).isSome →
    ((later (idx, .copy i)).isSome ↔ (place (idx, .copy i)).isSome)
  new : ∀ idx i, place (idx, .l1 i) = none → (later (idx, .l1 i)).isSome →
    ((later (idx, .copy i)).isSome ↔ 2 < nextpid)

theorem Follows.refl (nextpid : Nat) (place : Layout) : Follows nextpid place place where
  old _ _ _ _ := Iff.rfl
  new idx i none isSome := by
    rw [none] at isSome
    cases isSome

theorem Grown.follows {nextpid : Nat} {grown : Layout} (grows : Grown nextpid idx place grown) :
    Follows nextpid place grown where
  old other i before _ := by
    obtain ⟨page, holds⟩ := Option.isSome_iff_exists.mp before
    by_cases here : other = idx
    · subst here
      rw [grows.copies i page holds]
    · rw [grows.others other _ here]
  new other i none isSome := by
    by_cases here : other = idx
    · subst here
      exact grows.new i none isSome
    · rw [grows.others other _ here, none] at isSome
      cases isSome

/-- What `proc_pagetable` leaves: a tree with an index that had none. -/
structure Opens (world after : World) (place later : Layout) (idx : Nat) : Prop where
  kept : Laid after later
  nextpid : after.nextpid = world.nextpid
  follows : Follows world.nextpid place later
  unused : world.tables.idxPtdup idx = 0
  stands : Standing later idx
  index : ∀ other ≠ idx, after.tables.idxPtdup other = world.tables.idxPtdup other
  others : ∀ other ≠ idx, Standing later other ↔ Standing place other

theorem procPagetable_spec {trampoline tf : Nat} {pagetable : Page} (kept : Laid world place)
    (fresh : ∀ page ∈ world.free.head?, ∀ other < ptdupSize, world.tables.idxPtdup other ≠ page)
    (done : world.procPagetable trampoline tf = .ok (pagetable, after)) :
    ∃ later idx, Opens world after place later idx := by
  unfold World.procPagetable at done
  split at done
  · cases done
  · next top given answer =>
     obtain ⟨keptGiven, spare, leaves⟩ := kalloc_spec kept answer
     have keptZero := keptGiven.memset spare.unheld 0
     obtain ⟨initialized, init, done⟩ := bind_eq_ok.mp done
     obtain ⟨first, trampolined, done⟩ := bind_eq_ok.mp done
     obtain ⟨second, trapframed, same⟩ := map_eq_ok.mp done
     obtain ⟨rfl, rfl⟩ := Prod.mk.inj same
     obtain ⟨idx, low, unused, index, nextpid, topCopy, directory, keptInit⟩ :=
       ptdupInit_spec keptZero ⟨spare.unheld, spare.taken⟩
         (fun n inside => memsetPage_self _ _ _ inside)
         (fun other inside => leaves.steady.index ▸
           fresh top (by simp [kalloc_free answer]) other inside) init
     obtain ⟨registered, leavesInit⟩ := registerPtbMlist_spec keptInit
     have here : initialized.registerPtbMlist.tables.idxPtdup idx = top := by
       rw [leavesInit.steady.index, index, update_self]
     have used : Standing (opened place idx top topCopy directory) idx :=
       ⟨top, by simp [opened]⟩
     rw [← here] at trampolined
     obtain ⟨middle, advance⟩ := mapRecorded_spec registered low used trampolined
     rw [← here, ← congrFun advance.steady.index idx] at trapframed
     obtain ⟨later, further⟩ := mapRecorded_spec advance.kept low (advance.used used) trapframed
     have both := advance.trans further
     have alike : initialized.registerPtbMlist.nextpid = world.nextpid := by
       rw [leavesInit.steady.nextpid, nextpid]
       exact leaves.steady.nextpid
     have dead (role : Role) : place (idx, role) = none :=
       keptZero.dead unused role
     refine ⟨later, idx, both.kept, both.steady.nextpid.trans alike, ⟨?_, ?_⟩,
       leaves.steady.index ▸ unused, both.used used, fun other elsewhere => ?_, fun other elsewhere => ?_⟩
     · intro other i before still
       have elsewhere : other ≠ idx := by
         rintro rfl
         rw [dead] at before
         cases before
       rw [both.grown.others other _ elsewhere, opened_of_ne _ elsewhere]
     · intro other i none isSome
       by_cases fresh : other = idx
       · subst fresh
         rw [← alike]
         exact both.grown.new i (by simp [opened, dead]) isSome
       · rw [both.grown.others other _ fresh, opened_of_ne _ fresh, none] at isSome
         cases isSome
     · rw [both.steady.index, leavesInit.steady.index, index, update_of_ne elsewhere]
       exact congrFun leaves.steady.index other
     · rw [Standing, Standing, both.grown.others other _ elsewhere, opened_of_ne _ elsewhere]

/-- The layout without the table with an index. -/
def closed (place : Layout) (idx : Nat) : Layout :=
  fun key => if key.1 = idx then none else place key

theorem closed_eq_some {key : Nat × Role} (holds : closed place idx key = some page) :
    key.1 ≠ idx ∧ place key = some page := by
  unfold closed at holds
  split at holds
  · cases holds
  · next other => exact ⟨other, holds⟩

theorem closed_follows (nextpid : Nat) : Follows nextpid place (closed place idx) where
  old other i _ still := by
    by_cases here : other = idx
    · simp [closed, here] at still
    · simp [closed, here]
  new other i none isSome := by
    by_cases here : other = idx
    · simp [closed, here] at isSome
    · simp [closed, here, none] at isSome

theorem standing_closed (different : other ≠ idx) :
    Standing (closed place idx) other ↔ Standing place other := by
  rw [Standing, Standing, closed, if_neg different]

theorem ne_of_standing_closed (stands : Standing (closed place idx) other) : other ≠ idx := by
  obtain ⟨top, holds⟩ := stands
  exact (closed_eq_some holds).1

/-- From the time on when a table is taken down, its pages have no place any more. -/
theorem Laid.close (kept : Laid world place) : Laid world (closed place idx) where
  apart := kept.apart.of_subset fun _ _ holds => (closed_eq_some holds).2
  live other role page holds := by
    obtain ⟨elsewhere, held⟩ := closed_eq_some holds
    obtain ⟨inside, top, atTop⟩ := kept.live other role page held
    exact ⟨inside, top, (if_neg elsewhere).trans atTop⟩
  shows other inside live := by
    obtain ⟨top, atTop⟩ := live
    obtain ⟨elsewhere, held⟩ := closed_eq_some atTop
    exact (kept.shows other inside ⟨top, held⟩).congr fun role => if_neg elsewhere
  single := kept.single
  once := kept.once
  free page member key holds := kept.free page member key (closed_eq_some holds).2
  recorded other i page holds := kept.recorded other i page (closed_eq_some holds).2

theorem retire_spec (kept : Laid world place) {pagetable : Nat}
    (found : world.tables.ptdupIndex pagetable = some idx) :
    Laid (world.retire pagetable) (closed place idx) ∧
      (world.retire pagetable).nextpid = world.nextpid := by
  have closing : Laid world (closed place idx) := kept.close
  rw [World.retire, found]
  refine ⟨⟨closing.apart, closing.live, ?_, ?_, closing.once, closing.free, closing.recorded⟩, rfl⟩
  · intro other inside live
    have elsewhere := ne_of_standing_closed live
    refine (closing.shows other inside live).frame ?_ ?_ ?_ fun _ _ _ _ => rfl
    · simp [elsewhere]
    · simp [elsewhere]
    · simp [elsewhere]
  · intro one inside two inside' nonzero same
    have apart (other : Nat) (used : update world.tables.idxPtdup idx 0 other ≠ 0) :
        other ≠ idx := by
      rintro rfl
      simp at used
    have first := apart one nonzero
    have second := apart two fun zero => nonzero (same.trans zero)
    simp only [update_of_ne first, update_of_ne second] at nonzero same
    exact closing.single one inside two inside' nonzero same

end Opening

end Ev6.PageTable
