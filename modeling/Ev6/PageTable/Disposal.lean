import Ev6.PageTable.OwnedPages
import Mathlib.Data.List.Perm.Basic

/-!
# The end of a duplicate

`ptdup_delete_all` reads the links of the pages that it frees. `disposed_of_proper` says that
it frees what `kalloc` had given out, page by page, if no L1 table has been given two copies
and no record has been taken for a link.
-/

namespace Ev6.PageTable

open Option (all_some any_eq_true map_eq_some_iff)
open Support

/-! ## The pages are freed -/

/-- Some pages have been put on the free list, and nothing but their words has changed. -/
structure Released (stock after : Stock) (pages : List Nat) : Prop where
  free : ∃ freed : List Page, after.free = freed ++ stock.free ∧
    (freed.map Subtype.val).Perm pages
  elsewhere : ∀ page, page ∉ pages → after.memory page = stock.memory page
  head : after.head = stock.head
  index : after.idxPtdup = stock.idxPtdup
  kernelEnd : after.kernelEnd = stock.kernelEnd

section Released

variable {stock middle after : Stock} {pages more : List Nat} {header : Nat}

theorem Released.refl (stock : Stock) : Released stock stock [] :=
  ⟨⟨[], rfl, .refl _⟩, fun _ _ => rfl, rfl, rfl, rfl⟩

theorem Released.trans (first : Released stock middle pages) (second : Released middle after more) :
    Released stock after (pages ++ more) := by
  obtain ⟨freed, before, same⟩ := first.free
  obtain ⟨further, behind, equal⟩ := second.free
  refine ⟨⟨further ++ freed, by rw [behind, before, List.append_assoc], ?_⟩, ?_,
    second.head.trans first.head, second.index.trans first.index,
    second.kernelEnd.trans first.kernelEnd⟩
  · rw [List.map_append]
    exact (equal.append same).trans List.perm_append_comm
  · intro page outside
    rw [second.elsewhere page fun member => outside (List.mem_append_right _ member),
      first.elsewhere page fun member => outside (List.mem_append_left _ member)]

theorem kfree_released {page : Nat} (physical : IsPage page) (usable : stock.kernelEnd ≤ page) :
    ∃ after, stock.kfree page = some after ∧ Released stock after [page] := by
  refine ⟨_, dif_pos ⟨physical, usable⟩, ⟨[⟨page, physical⟩], rfl, .refl _⟩, ?_, rfl, rfl, rfl⟩
  intro other outside
  have different : other ≠ page := fun same => outside (same ▸ List.mem_singleton_self _)
  change PageMemory.write (memsetPage stock.memory page Stock.freedMark) page 0 _ other = _
  rw [PageMemory.write_of_page_ne _ _ _ different, memsetPage, Function.update_of_ne different]

theorem freeCopies_released {directory : Nat}
    (entries : ∀ i < entrySize, stock.memory directory i ≠ novalue)
    (distinct : (copies stock.memory directory ++ [directory]).Nodup)
    (physical : ∀ page ∈ copies stock.memory directory, IsPage page ∧ stock.kernelEnd ≤ page) :
    ∃ after, (List.range entrySize).foldlM (Stock.freeCopy directory) stock = some after ∧
      Released stock after (copies stock.memory directory) := by
  let used : Nat → Bool := fun word => decide (word ≠ 0)
  have walked := @foldlM_range_total Stock (Stock.freeCopy directory)
    (fun i here => Released stock here
      (((List.range i).map (stock.memory directory)).filter used)) entrySize stock
    (Released.refl stock) ?_
  · exact walked
  intro i low here released
  have part : ((List.range i).map (stock.memory directory)).filter used ⊆
      copies stock.memory directory := by
    refine fun page member => ?_
    obtain ⟨inside, nonzero⟩ := List.mem_filter.mp member
    obtain ⟨j, earlier, rfl⟩ := List.mem_map.mp inside
    exact mem_copies (Nat.lt_trans (List.mem_range.mp earlier) low) (by simpa [used] using nonzero)
  have outside : directory ∉ ((List.range i).map (stock.memory directory)).filter used :=
    fun member => List.disjoint_of_nodup_append distinct (part member) (List.mem_singleton_self _)
  have word := congrFun (released.elsewhere directory outside) i
  rw [List.range_succ, List.map_append, List.filter_append]
  by_cases zero : stock.memory directory i = 0
  · refine ⟨here, ?_, ?_⟩
    · simp [Stock.freeCopy, word, zero]
    · simpa [used, zero] using released
  · obtain ⟨page, usable⟩ := physical _ (mem_copies low zero)
    rw [← released.kernelEnd] at usable
    obtain ⟨next, freed, one⟩ := kfree_released page usable
    refine ⟨next, ?_, ?_⟩
    · simpa [Stock.freeCopy, word, zero, entries i low] using freed
    · have single : ([i].map (stock.memory directory)).filter used = [stock.memory directory i] := by
        simp [used, zero]
      rw [single]
      exact released.trans one

theorem freePass_released {page : Nat} {rest : List Nat}
    (linked : Linked stock.memory pageRecords header (page :: rest)) (inner : header ∉ rest)
    (distinct : (page :: rest).Nodup)
    (physical : ∀ other ∈ page :: rest, IsPage other ∧ stock.kernelEnd ≤ other) :
    ∃ passes after, loop (Stock.freePass header) passes
        (stock, page, stock.memory page pageRecords) = some (some after) ∧
      Released stock after (page :: rest) := by
  induction rest generalizing stock page with
  | nil =>
    obtain ⟨isPage, usable⟩ := physical page List.mem_cons_self
    obtain ⟨after, freed, released⟩ := kfree_released isPage usable
    have link : stock.memory page pageRecords = header := linked
    refine ⟨1, after, loop_leave ?_ 0, released⟩
    simp [Stock.freePass, freed, link]
  | cons next rest ih =>
    obtain ⟨isPage, usable⟩ := physical page List.mem_cons_self
    obtain ⟨middle, freed, released⟩ := kfree_released isPage usable
    obtain ⟨link, behind⟩ := linked
    obtain ⟨different, deeper⟩ : header ≠ next ∧ header ∉ rest := by simpa using inner
    obtain ⟨fresh, once⟩ := List.nodup_cons.mp distinct
    have kept : Linked middle.memory pageRecords header (next :: rest) := by
      refine behind.congr fun other member => ?_
      rw [released.elsewhere other]
      rintro same
      exact fresh (List.mem_singleton.mp same ▸ member)
    obtain ⟨passes, after, ends, others⟩ := ih kept deeper once fun other member => by
      rw [released.kernelEnd]
      exact physical other (List.mem_cons_of_mem page member)
    refine ⟨passes + 1, after, ?_, released.trans others⟩
    have again : Stock.freePass header (stock, page, stock.memory page pageRecords) =
        .again (middle, next, middle.memory next pageRecords) := by
      simp [Stock.freePass, freed, link, Ne.symm different]
    rw [loop_again again, ends]

theorem freeList_released (chain : Chain stock.memory pageRecords header pages)
    (physical : ∀ page ∈ pages, IsPage page ∧ stock.kernelEnd ≤ page) :
    ∃ passes after, stock.freeList passes header = some after ∧ Released stock after pages := by
  obtain ⟨rest, rfl⟩ : ∃ rest, pages = header :: rest := List.head?_eq_some_iff.mp chain.first
  have home := (physical header List.mem_cons_self).1
  obtain ⟨passes, after, ends, released⟩ := freePass_released chain.linked
    (List.nodup_cons.mp chain.once).1 chain.once physical
  refine ⟨passes, after, ?_, released⟩
  rw [Stock.freeList, if_neg home.ne_zero, ends]
  rfl

theorem freeList_mono {passes enough : Nat} (less : passes ≤ enough)
    (done : stock.freeList passes header = some after) :
    stock.freeList enough header = some after := by
  unfold Stock.freeList at done ⊢
  split at done
  next zero => rw [if_pos zero, done]
  next nonzero =>
    rw [if_neg nonzero]
    rw [Option.join_eq_some_iff] at done ⊢
    exact loop_mono less done

theorem freeUpper_released {head : PtdupPages}
    (entries : ∀ i < entrySize, stock.memory head.l1 i ≠ novalue)
    (distinct : (upperPages stock.memory head).Nodup)
    (physical : ∀ page ∈ upperPages stock.memory head, IsPage page ∧ stock.kernelEnd ≤ page) :
    ∃ after, stock.freeUpper head = some after ∧
      Released stock after (upperPages stock.memory head) := by
  have one := physical _ (mem_upperPages_l1 stock.memory head)
  have two := physical _ (mem_upperPages_l2 stock.memory head)
  have front : (copies stock.memory head.l1 ++ [head.l1]).Nodup := by
    refine distinct.sublist ?_
    exact (List.Sublist.refl _).append (List.Sublist.cons_cons _ (List.nil_sublist _))
  obtain ⟨first, freed, released⟩ := freeCopies_released entries front
    fun page member => physical page (List.mem_append_left _ member)
  have usable : first.kernelEnd ≤ head.l1 := released.kernelEnd ▸ one.2
  obtain ⟨second, freedOne, releasedOne⟩ := kfree_released one.1 usable
  have usable : second.kernelEnd ≤ head.l2 := by
    rw [releasedOne.kernelEnd, released.kernelEnd]
    exact two.2
  obtain ⟨third, freedTwo, releasedTwo⟩ := kfree_released two.1 usable
  refine ⟨third, ?_, released.trans (releasedOne.trans releasedTwo)⟩
  rw [Stock.freeUpper, if_neg one.1.ne_zero, freed, Option.bind_some, freedOne, Option.bind_some,
    if_neg two.1.ne_zero, freedTwo]

end Released

/-! ## The whole life -/

section Disposal

variable {l2 idx : Nat} {lists : Bool → List Nat} {stock : Stock} {life : Life}

/-- `ptdup_delete_all` frees what the duplicate has. -/
theorem ptdupDeleteAll_released (owned : Owned l2 idx lists stock) :
    ∃ passes after freed, stock.ptdupDeleteAll passes l2 = some after ∧
      after.free = freed ++ stock.free ∧
      (freed.map Subtype.val).Perm (ownedPages stock.memory (stock.head idx) lists) := by
  have pages := owned.distinct.of_append_left
  have physical : ∀ page ∈ ownedPages stock.memory (stock.head idx) lists,
      IsPage page ∧ stock.kernelEnd ≤ page := fun page member =>
    ⟨owned.physical page member, owned.usable page (List.mem_append_left _ member)⟩
  obtain ⟨upper, freedUpper, first⟩ := freeUpper_released owned.directory pages.of_append_left
    fun page member => physical page (List.mem_append_left _ member)
  have ptdsChain : Chain upper.memory pageRecords (stock.head idx).l0Ptds (lists true) :=
    (owned.chain true).congr fun page member => by
      rw [first.elsewhere page fun inside => owned.upper inside true member]
  obtain ⟨passes, middle, freedPtds, second⟩ := freeList_released ptdsChain fun page member => by
    rw [first.kernelEnd]
    exact physical page (List.mem_append_right _ (List.mem_append_left _ member))
  have ptedChain : Chain middle.memory pageRecords (stock.head idx).l0Pted (lists false) :=
    (owned.chain false).congr fun page member => by
      have apart : page ∉ lists true := fun inside =>
        List.disjoint_of_nodup_append pages.of_append_right inside member
      rw [second.elsewhere page apart,
        first.elsewhere page fun inside => owned.upper inside false member]
  obtain ⟨more, last, freedPted, third⟩ := freeList_released ptedChain fun page member => by
    rw [second.kernelEnd, first.kernelEnd]
    exact physical page (List.mem_append_right _ (List.mem_append_right _ member))
  obtain ⟨freed, free, same⟩ := (first.trans (second.trans third)).free
  have one := freeList_mono (Nat.le_max_left passes more) freedPtds
  have two := freeList_mono (Nat.le_max_right passes more) freedPted
  refine ⟨max passes more, { last.setHead idx ⟨0, 0, 0, 0⟩ with
    idxPtdup := Function.update last.idxPtdup idx 0 }, freed, ?_, free, same⟩
  rw [Stock.ptdupDeleteAll, owned.index]
  dsimp only
  rw [freedUpper, Option.bind_some, one, Option.bind_some, two, Option.map_some]

theorem disposed_of_sound (sound : Sound l2 life) : Disposed l2 life := by
  obtain ⟨idx, lists, owned, pages⟩ := sound
  obtain ⟨passes, after, freed, done, free, same⟩ := ptdupDeleteAll_released owned
  have whole := same.trans pages
  have distinct : (freed.map Subtype.val).Nodup :=
    same.nodup_iff.mpr owned.distinct.of_append_left
  exact ⟨passes, after, freed, done, free,
    (List.map_perm_map_iff Subtype.val_injective).mp whole, List.Nodup.of_map _ distinct⟩

/-- `ptdup_delete_all` frees exactly the pages that the duplicate has got, each once. -/
theorem disposed_of_proper {events : List DupCall}
    (runs : ((lifeSystem l2).guarded (Proper l2)).Runs events life) : Disposed l2 life := by
  refine disposed_of_sound (runs.invariant (Sound l2) ?_ ?_)
  · rintro start ⟨before, ready, done, taken⟩
    have sound := sound_init ready done
    rw [← taken] at sound
    exact sound
  · rintro state call next sound ⟨proper, step⟩
    exact sound_step sound proper step

end Disposal

/-! ## A table with one L1 table -/

/-- A list of one page, none of whose words is its address. -/
def lonely (stock : Stock) (header : Nat) : Bool :=
  stock.memory header pageRecords = header &&
    (List.range pageRecords).all fun i => stock.memory header i ≠ header

/-- A call that is proper for the reason that an L1 table has no copy yet, or that a list is
still short. -/
def early (l2 : Nat) (life : Life) : DupCall → Bool
  | .createL1 l1 _ =>
    (life.stock.ptdupIndex l2).all fun idx => (life.stock.l1Index l2 l1).all fun i =>
      life.stock.memory (life.stock.head idx).l1 i = 0
  | .add _ flag =>
    (life.stock.ptdupIndex l2).all fun idx => lonely life.stock ((life.stock.head idx).list flag)
  | _ => false

/-- The calls as a function of the state. -/
def lifeStep (l2 : Nat) (life : Life) (call : DupCall) : Option Life :=
  (perform 1 l2 life.stock call).map fun stock => ⟨stock, life.taken ++ took life.stock stock⟩

section Sample

variable {l2 : Nat} {life next : Life} {call : DupCall}

theorem clear_of_lonely {stock : Stock} {header : Nat} (lone : lonely stock header = true) :
    Clear header stock.memory := by
  rw [lonely, Bool.and_eq_true, decide_eq_true_eq, List.all_eq_true] at lone
  obtain ⟨link, words⟩ := lone
  intro pages chain page member i low
  have single : pages = [header] := by
    obtain ⟨rest, rfl⟩ := List.head?_eq_some_iff.mp chain.first
    cases rest with
    | nil => rfl
    | cons second rest =>
      have linked : stock.memory header pageRecords = second := chain.linked.1
      have same : header = second := link.symm.trans linked
      have once := chain.once
      rw [← same] at once
      simp at once
  rw [single, List.mem_singleton] at member
  rw [member]
  simpa using words i (List.mem_range.mpr low)

theorem proper_of_early (check : early l2 life call = true) : Proper l2 life call := by
  cases call with
  | createL1 l1 content =>
    intro idx i place entry
    rw [early, place, all_some, entry, all_some, decide_eq_true_eq] at check
    exact check
  | add content flag =>
    intro idx place
    rw [early, place, all_some] at check
    exact clear_of_lonely check
  | update | delete | elsewhere => cases check

theorem step_of_lifeStep (done : lifeStep l2 life call = some next) :
    (lifeSystem l2).Step life call next := by
  obtain ⟨stock, performed, rfl⟩ := map_eq_some_iff.mp done
  exact .inl ⟨1, performed, rfl⟩

end Sample

/-- Its L2 table is at 0x87f10000, and the first entry of it names the L1 table. -/
def sampleStock : Stock where
  memory page index :=
    if page = 0x87f10000 ∧ index = 0 then pa2pte 0x87f11000 ||| pteV else 0
  head _ := ⟨0, 0, 0, 0⟩
  idxPtdup i := if i = 0 then 0x87f20000 else 0
  free := [⟨0x87f80000, by decide⟩, ⟨0x87f81000, by decide⟩, ⟨0x87f82000, by decide⟩,
    ⟨0x87f83000, by decide⟩, ⟨0x87f84000, by decide⟩, ⟨0x87f85000, by decide⟩,
    ⟨0x87f86000, by decide⟩]
  kernelEnd := 0x80030000

theorem ready_sampleStock : Ready 0x87f10000 sampleStock where
  index := by decide +kernel
  distinct := by decide +kernel
  usable := by decide +kernel

/-- Its duplicate just after `ptdup_init`. -/
def sampleInit : Option Life :=
  (sampleStock.ptdupInit 0x87f10000).map fun stock => ⟨stock, took sampleStock stock⟩

theorem initial_sampleInit {life : Life} (made : sampleInit = some life) :
    (lifeSystem 0x87f10000).Initial life := by
  obtain ⟨stock, done, rfl⟩ := map_eq_some_iff.mp made
  exact ⟨sampleStock, ready_sampleStock, done, rfl⟩

/-- The L1 table is copied, and an entry recorded. -/
def copyCalls : List DupCall :=
  [.createL1 0x87f11000 (pa2pte 0x87f11000 ||| pteV), .add (va2ptds 0x3000 ||| userPerm) true]

/-- A duplicate of five pages. -/
theorem disposed_of_proper_sample : ∃ life, life.taken.length = 5 ∧ Disposed 0x87f10000 life := by
  let checked : Life → DupCall → Option Life := fun life call =>
    if early 0x87f10000 life call then lifeStep 0x87f10000 life call else none
  have found : (sampleInit.any fun start =>
      (LabelledSystem.exec checked start copyCalls).any fun life =>
        decide (life.taken.length = 5)) = true := by decide +kernel
  obtain ⟨start, made, rest⟩ := (any_eq_true _ _).mp found
  obtain ⟨life, result, five⟩ := (any_eq_true _ _).mp rest
  have first : ((lifeSystem 0x87f10000).guarded (Proper 0x87f10000)).Runs [] start :=
    .initial (initial_sampleInit made)
  refine ⟨life, of_decide_eq_true five, disposed_of_proper (first.append_exec ?_ result)⟩
  intro state call next _ taken
  obtain ⟨check, step⟩ := Option.ite_none_right_eq_some.mp taken
  exact ⟨proper_of_early check, step_of_lifeStep step⟩

/-- The L1 table is copied twice. -/
def doubleCalls : List DupCall :=
  [.createL1 0x87f11000 (pa2pte 0x87f11000 ||| pteV),
    .createL1 0x87f11000 (pa2pte 0x87f11000 ||| pteV)]

theorem ptdupDeleteAll_mono {passes enough l2 : Nat} {stock after : Stock}
    (less : passes ≤ enough) (done : stock.ptdupDeleteAll passes l2 = some after) :
    stock.ptdupDeleteAll enough l2 = some after := by
  unfold Stock.ptdupDeleteAll at done ⊢
  split at done
  next => exact done
  next idx place =>
    obtain ⟨upper, freedUpper, done⟩ := Option.bind_eq_some_iff.mp done
    obtain ⟨middle, freedPtds, done⟩ := Option.bind_eq_some_iff.mp done
    obtain ⟨last, freedPted, rfl⟩ := map_eq_some_iff.mp done
    dsimp only
    rw [freedUpper, Option.bind_some, freeList_mono less freedPtds, Option.bind_some,
      freeList_mono less freedPted, Option.map_some]

/-- Calls after which the duplicate has got one page more than `ptdup_delete_all` frees. -/
theorem leak_of_exec {calls : List DupCall} {count : Nat} (found : (sampleInit.any fun start =>
      (LabelledSystem.exec (lifeStep 0x87f10000) start calls).any fun life =>
        decide (life.taken.length = count + 1) &&
          (life.stock.ptdupDeleteAll 2 0x87f10000).any fun after =>
            decide (after.free.length = life.stock.free.length + count)) = true) :
    ∃ life, (lifeSystem 0x87f10000).Runs calls life ∧ ¬Disposed 0x87f10000 life := by
  obtain ⟨start, made, rest⟩ := (any_eq_true _ _).mp found
  obtain ⟨life, result, facts⟩ := (any_eq_true _ _).mp rest
  obtain ⟨more, left⟩ := Bool.and_eq_true_iff.mp facts
  obtain ⟨after, deleted, freedCount⟩ := (any_eq_true _ _).mp left
  have first : (lifeSystem 0x87f10000).Runs [] start := .initial (initial_sampleInit made)
  have runs := first.append_exec (fun state call next _ step => step_of_lifeStep step) result
  refine ⟨life, runs, ?_⟩
  rintro ⟨passes, last, freed, done, free, same, -⟩
  have one := ptdupDeleteAll_mono (Nat.le_max_left 2 passes) deleted
  have two := ptdupDeleteAll_mono (Nat.le_max_right 2 passes) done
  obtain rfl := Option.some.inj (one.symm.trans two)
  have lengths := of_decide_eq_true freedCount
  rw [free, List.length_append, same.length_eq, of_decide_eq_true more] at lengths
  omega

/-- The first of two copies is not freed. -/
theorem second_copy_leaks : ¬∀ l2 events life, (lifeSystem l2).Runs events life →
    Disposed l2 life := by
  intro always
  obtain ⟨life, runs, leaks⟩ := @leak_of_exec doubleCalls 5 (by decide +kernel)
  exact leaks (always _ _ life runs)

/-- A record that is the address of its list, and another one. -/
def markedCalls : List DupCall :=
  [.add 0x87f82000 true, .add (va2ptds 0x3000 ||| userPerm) true]

/-- The page that is linked where the first record stands is not freed, either. -/
theorem marked_record_leaks :
    ∃ life, (lifeSystem 0x87f10000).Runs markedCalls life ∧ ¬Disposed 0x87f10000 life :=
  @leak_of_exec markedCalls 4 (by decide +kernel)

end Ev6.PageTable
