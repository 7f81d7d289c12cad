import Ev6.PageTable.Tree

/-!
# Walking down the tree

One round of `walk` finds the node below the one where it is, or enters a new one. What
the duplicate is told about it changes no table page.
-/

namespace Ev6.PageTable

open Function (update update_apply update_of_ne update_self)
open Support
open PageMemory (write_apply write_of_page_ne)

/-! ## What `walk` finds -/

section Lookup

variable {world : World} {root : Page} {tree : NodeTree Page}

theorem Rooted.entry (rooted : Rooted world root tree) {path : List Nat} {page : Page}
    (there : tree path = some page) (inner : path.length < 2) (level va : Nat) :
    world.tables.memory page (px level va) = pde (tree (px level va :: path)) :=
  rooted.holds.entries path page there inner _ (px_lt level va)

theorem Rooted.walkLevel_old (rooted : Rooted world root tree) {path : List Nat}
    {page below : Page} (there : tree path = some page) (inner : path.length < 2)
    {level va : Nat} (l2 : Nat) (alloc : Bool) (found : tree (px level va :: path) = some below) :
    world.walkLevel l2 page level va alloc = .ok (some below.val, world) := by
  have entry := rooted.entry there inner level va
  rw [found] at entry
  have valid : isValid (world.tables.memory page (px level va)) = true := by
    rw [entry, isValid_pde]
    rfl
  rw [World.walkLevel, if_pos valid, entry, pte2pa_pde]

theorem Rooted.isValid_none (rooted : Rooted world root tree) {path : List Nat} {page : Page}
    (there : tree path = some page) (inner : path.length < 2) {level va : Nat}
    (empty : tree (px level va :: path) = none) :
    isValid (world.tables.memory page (px level va)) = false := by
  rw [rooted.entry there inner level va, empty]
  rfl

theorem Rooted.walk_eq (rooted : Rooted world root tree) {va : Nat} (low : va < maxva) :
    world.walk root va false =
      .ok ((tree [px 1 va, px 2 va]).map fun l0 => (l0.val, px 0 va), world) := by
  have below : ¬maxva ≤ va := Nat.not_le.mpr low
  rw [World.walk, if_neg below]
  cases first : tree [px 2 va] with
  | none =>
    have invalid := rooted.isValid_none rooted.top (Nat.zero_lt_two) first
    rw [walkLevel_none invalid (.inl rfl), rooted.holds.none_below first]
    rfl
  | some l1 =>
    rw [rooted.walkLevel_old rooted.top Nat.zero_lt_two root false first]
    have inner : [px 2 va].length < 2 := Nat.one_lt_two
    cases second : tree [px 1 va, px 2 va] with
    | none =>
      have invalid := rooted.isValid_none first inner second
      simp only [Except.bind, walkLevel_none invalid (.inl rfl)]
      rfl
    | some l0 =>
      simp only [Except.bind, rooted.walkLevel_old first inner root false second]
      rfl

theorem Rooted.translation_eq (rooted : Rooted world root tree) {va : Nat} (low : va < maxva) :
    world.translation root va =
      (tree [px 1 va, px 2 va]).bind fun l0 => (some (world.words l0 (px 0 va))).filter isValid := by
  rw [World.translation, rooted.walk_eq low]
  cases tree [px 1 va, px 2 va] with
  | none => rfl
  | some l0 => rfl

theorem translation_high (world : World) (root va : Nat) (high : maxva ≤ va) :
    world.translation root va = none := by
  rw [World.translation, World.walk, if_pos high]

end Lookup

/-! ## Steps of `walk` -/

section Steps

variable {world between after : World} {root : Page} {tree middle grown : NodeTree Page}

/-- A step writes to no table page. The duplicate may change. -/
structure Keeps (world after : World) (root : Page) (tree : NodeTree Page) : Prop where
  rooted : Rooted after root tree
  steady : Steady world after
  words : ∀ path page, tree path = some page → after.words page = world.words page

/-- A step enters tables without entries, and writes to no L0 table. -/
structure Grows (world after : World) (root : Page) (tree grown : NodeTree Page) : Prop where
  rooted : Rooted after root grown
  steady : Steady world after
  held : ∀ path page, tree path = some page → grown path = some page
  leaf : ∀ i j page, tree [j, i] = some page → after.words page = world.words page
  blank : ∀ i j page, tree [j, i] = none → grown [j, i] = some page →
    ∀ k < entrySize, after.words page k = 0

theorem Aloof.keeps (aloof : Aloof world after root tree) (rooted : Rooted world root tree) :
    Keeps world after root tree :=
  ⟨aloof.rooted rooted, aloof.steady, fun _ _ there => aloof.words there⟩

theorem Keeps.trans (first : Keeps world between root tree)
    (second : Keeps between after root tree) : Keeps world after root tree :=
  ⟨second.rooted, first.steady.trans second.steady,
    fun path page there => (second.words path page there).trans (first.words path page there)⟩

theorem Grows.refl (rooted : Rooted world root tree) : Grows world world root tree tree where
  rooted := rooted
  steady := .refl _
  held _ _ there := there
  leaf _ _ _ _ := rfl
  blank i j page none there := by
    rw [none] at there
    cases there

theorem Grows.keeps (grows : Grows world between root tree grown)
    (keeps : Keeps between after root grown) : Grows world after root tree grown where
  rooted := keeps.rooted
  steady := grows.steady.trans keeps.steady
  held := grows.held
  leaf i j page there :=
    (keeps.words _ page (grows.held _ page there)).trans (grows.leaf i j page there)
  blank i j page none there k low := by
    rw [keeps.words _ page there]
    exact grows.blank i j page none there k low

theorem Grows.trans (first : Grows world between root tree middle)
    (second : Grows between after root middle grown) : Grows world after root tree grown where
  rooted := second.rooted
  steady := first.steady.trans second.steady
  held path page there := second.held path page (first.held path page there)
  leaf i j page there :=
    (second.leaf i j page (first.held _ page there)).trans (first.leaf i j page there)
  blank i j page none there k low := by
    cases here : middle [j, i] with
    | none => exact second.blank i j page here there k low
    | some other =>
      obtain rfl : other = page := Option.some.inj ((second.held _ other here).symm.trans there)
      rw [second.leaf i j other here]
      exact first.blank i j other none here k low

theorem Grows.translation (grows : Grows world after root tree grown)
    (rooted : Rooted world root tree) (va : Nat) :
    after.translation root va = world.translation root va := by
  by_cases low : va < maxva
  · rw [grows.rooted.translation_eq low, rooted.translation_eq low]
    cases before : tree [px 1 va, px 2 va] with
    | some l0 =>
      rw [grows.held _ l0 before, Option.bind_some, Option.bind_some,
        grows.leaf _ _ l0 before]
    | none =>
      cases there : grown [px 1 va, px 2 va] with
      | none => rfl
      | some l0 =>
        rw [Option.bind_some, grows.blank _ _ l0 before there _ (px_lt 0 va)]
        rfl
  · rw [translation_high _ _ _ (Nat.not_lt.mp low), translation_high _ _ _ (Nat.not_lt.mp low)]

end Steps

/-! ## The duplicate -/

section Duplicate

variable {world after : World} {root : Page} {tree : NodeTree Page} {idx : Nat}

/-- The copy of the L2 table, or of an L1 table, is written to. -/
theorem Rooted.write_copy (rooted : Rooted world root tree)
    (index : world.tables.ptdupIndex root = some idx) {page : Nat}
    (copy : page ∈ world.duplicatePages root) (other : page ≠ (world.tables.head idx).l1)
    (slot value : Nat) : Keeps world (world.write page slot value) root tree := by
  have listed : (world.write page slot value).tables.memory (world.tables.head idx).l1 =
      world.tables.memory (world.tables.head idx).l1 :=
    write_of_page_ne _ _ _ other.symm
  have words (path : List Nat) (node : Page) (there : tree path = some node) :
      (world.write page slot value).words node = world.words node :=
    write_of_page_ne _ _ _ (rooted.beside.apart page copy path node there)
  have pages : (world.write page slot value).duplicatePages root = world.duplicatePages root := by
    have found : (world.write page slot value).tables.ptdupIndex root = some idx := index
    simp only [World.duplicatePages, found, index, Option.elim_some]
    rw [← listed]
    rfl
  refine ⟨⟨rooted.top, rooted.holds.frame fun path node there _ => words path node there,
    rooted.once, rooted.free, ?_⟩, steady_write _ _ _ _, words⟩
  constructor
  · intro address member
    exact rooted.beside.apart address (pages ▸ member)
  · intro address member
    exact rooted.beside.taken address (pages ▸ member)
  · exact rooted.beside.distinct
  · intro key found i low
    obtain rfl : key = idx := Option.some.inj (found.symm.trans index)
    have before := rooted.beside.copies key index i low
    rw [← listed] at before
    exact before

theorem Rooted.write_list (rooted : Rooted world root tree)
    (index : world.tables.ptdupIndex root = some idx) {copy : Page}
    (other : ¬Owns world root tree copy) (taken : copy ∉ world.free) (slot : Nat) :
    Keeps world (world.write (world.tables.head idx).l1 slot copy) root tree := by
  have heads := (mem_duplicatePages index).mpr (.inr (.inl rfl))
  have notL1 : copy.val ≠ (world.tables.head idx).l1 := fun same => other (.inr (same ▸ heads))
  have notL2 : copy.val ≠ (world.tables.head idx).l2 := fun same =>
    other (.inr ((mem_duplicatePages index).mpr (.inl same)))
  have words (path : List Nat) (node : Page) (there : tree path = some node) :
      (world.write (world.tables.head idx).l1 slot copy).words node = world.words node :=
    write_of_page_ne _ _ _ (rooted.beside.apart _ heads path node there)
  have found : (world.write (world.tables.head idx).l1 slot copy).tables.ptdupIndex root =
      some idx := index
  have listed (i : Nat) :
      (world.write (world.tables.head idx).l1 slot copy).tables.memory
          (world.tables.head idx).l1 i =
        if i = slot then copy.val else world.tables.memory (world.tables.head idx).l1 i := by
    simp [World.write, write_apply]
  have pages (address : Nat)
      (member : address ∈
        (world.write (world.tables.head idx).l1 slot copy).duplicatePages root) :
      address = copy ∨ address ∈ world.duplicatePages root := by
    rcases (mem_duplicatePages found).mp member with l2 | l1 | ⟨i, low, same, nonzero⟩
    · exact .inr ((mem_duplicatePages index).mpr (.inl l2))
    · exact .inr ((mem_duplicatePages index).mpr (.inr (.inl l1)))
    · rw [show (world.write (world.tables.head idx).l1 slot copy).tables.head idx =
        world.tables.head idx from rfl, listed i] at same
      split at same
      · exact .inl same.symm
      · exact .inr ((mem_duplicatePages index).mpr (.inr (.inr ⟨i, low, same, nonzero⟩)))
  refine ⟨⟨rooted.top, rooted.holds.frame fun path node there _ => words path node there,
    rooted.once, rooted.free, ?_⟩, steady_write _ _ _ _, words⟩
  constructor
  · intro address member path node there same
    rcases pages address member with rfl | before
    · exact other (.inl ⟨path, node, there, same⟩)
    · exact rooted.beside.apart address before path node there same
  · intro address member page free same
    rcases pages address member with rfl | before
    · exact taken (Subtype.ext same ▸ free)
    · exact rooted.beside.taken address before page free same
  · exact rooted.beside.distinct
  · intro key here i low nonzero
    obtain rfl : key = idx := Option.some.inj (here.symm.trans index)
    have word := listed i
    by_cases new : i = slot
    · rw [if_pos new] at word
      exact ⟨fun same => notL1 (word.symm.trans same), fun same => notL2 (word.symm.trans same)⟩
    · rw [if_neg new] at word
      have before := rooted.beside.copies key index i low
      rw [← word] at before
      exact before nonzero

theorem Rooted.search_top (rooted : Rooted world root tree) {i : Nat} {l1 : Page}
    (there : tree [i] = some l1) :
    firstSlot (fun k => l1.val = pte2pa (world.tables.memory root k)) entrySize = some i := by
  have low := (rooted.holds.above i [] l1 there).2.1
  have entries := rooted.holds.entries [] root rooted.top Nat.zero_lt_two
  refine firstSlot_eq_some.mpr ⟨low, ?_, fun earlier before => ?_⟩
  · rw [decide_eq_true_iff]
    have entry : world.tables.memory root i = pde (tree [i]) := entries i low
    rw [entry, there, pte2pa_pde]
  · rw [decide_eq_false_iff_not]
    have entry : world.tables.memory root earlier = pde (tree [earlier]) :=
      entries earlier (Nat.lt_trans before low)
    rw [entry]
    intro leads
    have same := rooted.holds.apart (pte2pa_pde_eq l1 leads) there
    exact Nat.ne_of_lt before (List.cons.inj same).1

/-- The duplicate lists the copy of one more L1 table. -/
theorem Covered.enter {between : World} (covered : Covered world root tree idx)
    (steady : Steady world between) (same : between.tables.memory (between.tables.head idx).l1 =
        world.tables.memory (world.tables.head idx).l1 ∧
      between.tables.memory (between.tables.head idx).l2 =
        world.tables.memory (world.tables.head idx).l2)
    (distinct : (between.tables.head idx).l2 ≠ (between.tables.head idx).l1) {i copy : Nat}
    {l1 : Page} (nonzero : copy ≠ 0) :
    Covered ((between.write (between.tables.head idx).l1 i copy).write
      (between.tables.head idx).l2 i (pde (some l1))) root
      (update tree [i] (some l1)) idx := by
  constructor
  · exact (steady.ptdupIndex root).trans covered.index
  · intro k low
    show PageMemory.write (PageMemory.write between.tables.memory _ i copy) _ i (pde (some l1))
      (between.tables.head idx).l2 k = _
    by_cases here : k = i
    · simp [here]
    · simp [write_apply, here, same.2, covered.copied k low]
  · intro k there
    show PageMemory.write (PageMemory.write between.tables.memory _ i copy) _ i (pde (some l1))
      (between.tables.head idx).l1 k ≠ 0
    by_cases here : k = i
    · simp [write_apply, here, distinct.symm, nonzero]
    · have before : (tree [k]).isSome := by simpa [here] using there
      simpa [write_apply, here, distinct.symm, same.1] using covered.listed k before

/-- `ptdup_create_l1` for an L1 table that has just been entered. -/
theorem Rooted.ptdupCreateL1 (rooted : Rooted world root tree) {i : Nat} {l1 : Page}
    (there : tree [i] = some l1) :
    (∃ panic, world.ptdupCreateL1 root l1 (pde (some l1)) = .error panic ∧ panic.OfPtdup ∧
        ∀ idx, world.tables.ptdupIndex root = some idx →
          panic = .ptdupCreateL1Kalloc ∧ world.free = []) ∨
      ∃ after, world.ptdupCreateL1 root l1 (pde (some l1)) = .ok after ∧
        Keeps world after root tree ∧ world.free.length = after.free.length + 1 ∧
        ∀ before idx, Covered world root before idx →
          tree = update before [i] (some l1) → Covered after root tree idx := by
  unfold World.ptdupCreateL1
  cases index : world.tables.ptdupIndex root with
  | none => exact .inl ⟨_, rfl, trivial, fun idx none => by cases none⟩
  | some key =>
    have found := rooted.search_top there
    cases answer : world.kalloc with
    | none =>
      refine .inl ⟨.ptdupCreateL1Kalloc, ?_, trivial, fun _ _ => ⟨rfl, ?_⟩⟩
      · simp only [l1.property.ne_zero, if_false, found]
      · exact kalloc_eq_none.mp answer
    | some given =>
      obtain ⟨copy, given⟩ := given
      right
      simp only [l1.property.ne_zero, if_false, found]
      obtain ⟨aloof, other, taken⟩ := kalloc_aloof rooted answer
      have free := (kalloc_eq_some answer).1
      have rootedGiven := aloof.rooted rooted
      have otherGiven : ¬Owns given root tree copy := fun owns => other ((aloof.owns copy).mp owns)
      have cleared := Aloof.memset rootedGiven otherGiven 0
      have rootedCleared := cleared.rooted rootedGiven
      have both := aloof.trans cleared
      have otherCleared : ¬Owns (given.memset copy 0) root tree copy := fun owns =>
        other ((both.owns copy).mp owns)
      have indexCleared := (both.steady.ptdupIndex root).trans index
      have listed := rootedCleared.write_list indexCleared otherCleared taken i
      have distinct := rootedCleared.beside.distinct key indexCleared
      have indexListed := (listed.steady.ptdupIndex root).trans indexCleared
      have copied := listed.rooted.write_copy indexListed
        ((mem_duplicatePages indexListed).mpr (.inl rfl)) distinct i (pde (some l1))
      refine ⟨_, rfl, ((both.keeps rooted).trans listed).trans copied, ?_, ?_⟩
      · rw [free]
        rfl
      · rintro before idx covered rfl
        obtain rfl : key = idx := Option.some.inj (index.symm.trans covered.index)
        exact covered.enter both.steady (both.heads index) distinct copy.property.ne_zero

/-- The copy of the L2 table has an entry for each L1 table. -/
theorem Covered.search (covered : Covered world root tree idx) (apart : Separate tree) {i : Nat}
    {l1 : Page} (there : tree [i] = some l1) (low : i < entrySize) :
    firstSlot (fun k => l1.val = pte2pa (world.tables.memory (world.tables.head idx).l2 k))
      entrySize = some i := by
  refine firstSlot_eq_some.mpr ⟨low, ?_, fun earlier before => ?_⟩
  · rw [decide_eq_true_iff, covered.copied i low, there, pte2pa_pde]
  · rw [decide_eq_false_iff_not, covered.copied earlier (Nat.lt_trans before low)]
    intro leads
    have same := apart (pte2pa_pde_eq l1 leads) there
    exact Nat.ne_of_lt before (List.cons.inj same).1

/-- `ptdup_update` for an L1 table. -/
theorem Rooted.ptdupUpdate (rooted : Rooted world root tree) {l1 : Page} (content slot : Nat) :
    (∃ panic, world.ptdupUpdate root l1 content slot = .error panic ∧ panic.OfPtdup ∧
        ∀ before i idx, Separate before → before [i] = some l1 → i < entrySize →
          ¬Covered world root before idx) ∨
      ∃ after, world.ptdupUpdate root l1 content slot = .ok after ∧ Keeps world after root tree ∧
        after.free = world.free ∧
        ∀ before idx, Covered world root before idx → Covered after root before idx := by
  unfold World.ptdupUpdate
  cases index : world.tables.ptdupIndex root with
  | none =>
    refine .inl ⟨_, rfl, trivial, fun before i idx _ _ _ covered => ?_⟩
    have found := covered.index
    rw [index] at found
    cases found
  | some key =>
    simp only [l1.property.ne_zero, if_false]
    generalize found : firstSlot (fun i => l1.val = pte2pa
      (world.tables.memory (world.tables.head key).l2 i)) entrySize = search
    by_cases zero : search.elim 0 (world.tables.memory (world.tables.head key).l1) = 0
    · refine .inl ⟨_, if_pos zero, trivial, fun before i idx apart there low covered => ?_⟩
      obtain rfl : key = idx := Option.some.inj (index.symm.trans covered.index)
      rw [covered.search apart there low] at found
      subst found
      exact covered.listed i (there ▸ rfl) zero
    · refine .inr ⟨_, if_neg zero, ?_⟩
      cases search with
      | none => exact absurd rfl zero
      | some k =>
        obtain ⟨low, -⟩ := firstSlot_eq_some.mp found
        have copy : world.tables.memory (world.tables.head key).l1 k ∈
            world.duplicatePages root :=
          (mem_duplicatePages index).mpr (.inr (.inr ⟨k, low, rfl, zero⟩))
        obtain ⟨notL1, notL2⟩ := rooted.beside.copies key index k low zero
        refine ⟨rooted.write_copy index copy notL1 slot content, rfl,
          fun before idx covered => ?_⟩
        obtain rfl : key = idx := Option.some.inj (index.symm.trans covered.index)
        refine ⟨covered.index, fun i inside => ?_, fun i isSome => ?_⟩
        · rw [← covered.copied i inside]
          exact congrFun (write_of_page_ne _ _ _ notL2.symm) i
        · have listed := covered.listed i isSome
          have same : (world.write (world.tables.memory (world.tables.head key).l1 k) slot
              content).tables.memory (world.tables.head key).l1 =
              world.tables.memory (world.tables.head key).l1 :=
            write_of_page_ne _ _ _ notL1.symm
          rw [← same] at listed
          exact listed

end Duplicate

/-! ## One round of `walk` -/

section Level

variable {world given : World} {root : Page} {tree : NodeTree Page}

/-- An empty page that belongs to no table is entered. -/
theorem Rooted.attach (rooted : Rooted world root tree) {path : List Nat} {node page : Page}
    (there : tree path = some node) (inner : path.length < 2) {slot : Nat}
    (low : slot < entrySize) (empty : tree (slot :: path) = none)
    (other : ¬Owns world root tree page) (taken : page ∉ world.free)
    (zero : ∀ k < entrySize, world.words page k = 0) :
    Rooted (world.write node slot (pde (some page))) root
      (update tree (slot :: path) (some page)) := by
  have unheld : Unheld tree page := fun way held => other (.inl ⟨way, page, held, rfl⟩)
  have same (address : Nat) (different : address ≠ node) :
      (world.write node slot (pde (some page))).tables.memory address =
        world.tables.memory address := write_of_page_ne _ _ _ different
  have linked : (world.write node slot (pde (some page))).words node =
      update (world.words node) slot (pde (some page)) := by
    funext k
    simp [World.words, World.write, write_apply, update_apply]
  refine ⟨?_, ?_, rooted.once, ?_, ?_⟩
  · rw [update_of_ne (List.cons_ne_nil slot path).symm]
    exact rooted.top
  · exact rooted.holds.attach there inner low empty unheld zero linked fun other different =>
      same other fun equal => different (Subtype.ext equal)
  · intro free member
    refine (rooted.free free member).claim ?_
    rintro rfl
    exact taken member
  · refine rooted.beside.transfer (steady_write _ _ _ _) ?_ ?_ rooted.beside.taken
    · exact fun address member => same address
        (rooted.beside.apart address member path node there).symm
    · intro address member way held found
      by_cases new : way = slot :: path
      · subst new
        rw [update_self] at found
        cases found
        exact fun equal => other (.inr (equal ▸ member))
      · rw [update_of_ne new] at found
        exact rooted.beside.apart address member way held found

theorem Rooted.link (rooted : Rooted world root tree) {path : List Nat} {node page : Page}
    (there : tree path = some node) (inner : path.length < 2) {slot : Nat}
    (low : slot < entrySize) (empty : tree (slot :: path) = none)
    (answer : world.kalloc = some (page, given)) :
    Grows world (given.link node slot page) root tree
        (update tree (slot :: path) (some page)) ∧
      world.free = page :: (given.link node slot page).free ∧
      ∀ idx, Covered world root tree idx → Covered (given.link node slot page) root tree idx := by
  obtain ⟨aloof, other, taken⟩ := kalloc_aloof rooted answer
  have rootedGiven := aloof.rooted rooted
  have otherGiven : ¬Owns given root tree page := fun owns => other ((aloof.owns page).mp owns)
  have cleared := Aloof.memset rootedGiven otherGiven 0
  have both := aloof.trans cleared
  have rootedCleared := both.rooted rooted
  have otherCleared : ¬Owns (given.memset page 0) root tree page := fun owns =>
    other ((both.owns page).mp owns)
  have zero : ∀ k < entrySize, (given.memset page 0).words page k = 0 := fun k inside =>
    memsetPage_self _ _ _ inside
  have attached := rootedCleared.attach there inner low empty otherCleared taken zero
  have different (way : List Nat) (held : Page) (found : tree way = some held) (apart : way ≠ path) :
      (given.link node slot page).words held = world.words held := by
    have elsewhere : held.val ≠ node := fun equal =>
      apart (rooted.holds.apart found (Subtype.ext equal ▸ there))
    exact (write_of_page_ne _ _ _ elsewhere).trans (both.words found)
  refine ⟨⟨attached, both.steady.trans (steady_write _ _ _ _), ?_, ?_, ?_⟩,
    (kalloc_eq_some answer).1, ?_⟩
  · intro way held found
    rw [update_of_ne]
    · exact found
    · rintro rfl
      rw [empty] at found
      cases found
  · intro i j held found
    refine different _ held found ?_
    rintro rfl
    exact absurd inner (Nat.lt_irrefl 2)
  · intro i j held none found k inside
    by_cases new : [j, i] = slot :: path
    · rw [new, update_self] at found
      cases found
      have elsewhere : page.val ≠ node := fun equal =>
        other (.inl ⟨path, node, there, equal.symm⟩)
      exact (congrFun (write_of_page_ne _ _ _ elsewhere) k).trans (zero k inside)
    · rw [update_of_ne new, none] at found
      cases found
  · intro idx covered
    have before := both.covered covered
    have beside := rootedCleared.beside
    have l1 := beside.apart _ ((mem_duplicatePages before.index).mpr (.inr (.inl rfl))) path node
      there
    have l2 := beside.apart _ ((mem_duplicatePages before.index).mpr (.inl rfl)) path node there
    refine ⟨before.index, fun i inside => ?_, fun i isSome => ?_⟩
    · rw [← before.copied i inside]
      exact congrFun (write_of_page_ne _ _ _ l2.symm) i
    · have word : (given.link node slot page).tables.memory
          ((given.memset page 0).tables.head idx).l1 i =
          (given.memset page 0).tables.memory ((given.memset page 0).tables.head idx).l1 i :=
        congrFun (write_of_page_ne _ _ _ l1.symm) i
      exact fun same => before.listed i isSome (word.symm.trans same)

/-- The ways in which a step that may enter tables ends. It needs `need` pages at most: with
a complete duplicate, or without any, it stops or panics only because there were fewer. -/
inductive Walked (world : World) (root : Page) (tree : NodeTree Page) (path : List Nat)
    (need : Nat) : Except Panic (Option Nat × World) → Prop
  | found {page : Page} {after : World} {grown : NodeTree Page}
      (grows : Grows world after root tree grown) (there : grown path = some page)
      (covered : ∀ idx, 2 < world.nextpid → Covered world root tree idx →
        Covered after root grown idx)
      (spent : world.free.length ≤ after.free.length + need) :
      Walked world root tree path need (.ok (some page.val, after))
  | dry {after : World} {grown : NodeTree Page} (grows : Grows world after root tree grown)
      (covered : ∀ idx, 2 < world.nextpid → Covered world root tree idx →
        Covered after root grown idx)
      (empty : after.free = []) (short : world.free.length < need) :
      Walked world root tree path need (.ok (none, after))
  | panicked {panic : Panic} (ptdup : panic.OfPtdup) (late : 2 < world.nextpid)
      (short : ∀ idx, Covered world root tree idx →
        panic = .ptdupCreateL1Kalloc ∧ world.free.length < need) :
      Walked world root tree path need (.error panic)

theorem Rooted.walked_old (rooted : Rooted world root tree) {path : List Nat} {node below : Page}
    (there : tree path = some node) (inner : path.length < 2) {level va need : Nat}
    (found : tree (px level va :: path) = some below) :
    Walked world root tree (px level va :: path) need
      (world.walkLevel root node level va true) := by
  rw [rooted.walkLevel_old there inner root true found]
  exact .found (.refl rooted) found (fun _ _ covered => covered) (Nat.le_add_right _ _)

/-- There is no page for the table of the next level. -/
theorem Rooted.walked_dry (rooted : Rooted world root tree) {path : List Nat} {node : Page}
    (there : tree path = some node) (inner : path.length < 2) {level va need : Nat}
    (empty : tree (px level va :: path) = none) (answer : world.kalloc = none) (positive : 0 < need) :
    Walked world root tree (px level va :: path) need
      (world.walkLevel root node level va true) := by
  have free := kalloc_eq_none.mp answer
  rw [walkLevel_none (rooted.isValid_none there inner empty) (.inr answer)]
  exact .dry (.refl rooted) (fun _ _ covered => covered) free (by rwa [free])

theorem Rooted.walked_two (rooted : Rooted world root tree) (va : Nat) :
    Walked world root tree [px 2 va] 3 (world.walkLevel root root 2 va true) := by
  have inner : ([] : List Nat).length < 2 := Nat.zero_lt_two
  cases found : tree [px 2 va] with
  | some below => exact rooted.walked_old rooted.top inner found
  | none =>
    cases answer : world.kalloc with
    | none => exact rooted.walked_dry rooted.top inner found answer (by decide)
    | some given =>
      obtain ⟨page, given⟩ := given
      obtain ⟨linked, free, carry⟩ := rooted.link rooted.top inner (px_lt 2 va) found answer
      have count : world.free.length = (given.link root (px 2 va) page).free.length + 1 :=
        congrArg List.length free
      have nextpid : given.nextpid = world.nextpid := linked.steady.nextpid
      have new : update tree [px 2 va] (some page) [px 2 va] = some page :=
        update_self _ _ _
      rw [walkLevel_new (rooted.isValid_none rooted.top inner found) answer, nextpid]
      by_cases alone : world.nextpid ≤ 2
      · rw [if_pos alone]
        exact .found linked new (fun _ late => absurd alone (Nat.not_le.mpr late)) (by omega)
      · rw [if_neg alone, if_pos rfl]
        have late := Nat.not_le.mp alone
        have registered := registerPtbMlist_aloof linked.rooted
        have spent := (registerPtbMlist_take (given.link root (px 2 va) page)).2.2.2
        have grows := linked.keeps (registered.keeps linked.rooted)
        rcases grows.rooted.ptdupCreateL1 new with
          ⟨panic, stops, ptdup, cause⟩ | ⟨after, done, keeps, taken, enter⟩
        · rw [stops]
          refine .panicked ptdup late fun idx covered => ?_
          obtain ⟨same, dry⟩ := cause idx ((grows.steady.ptdupIndex root).trans covered.index)
          have none := congrArg List.length dry
          rw [List.length_nil] at none
          exact ⟨same, by omega⟩
        · rw [done]
          refine .found (grows.keeps keeps) new (fun idx _ covered => ?_) (by omega)
          exact enter tree idx (registered.covered (carry idx covered)) rfl

theorem Rooted.walked_one (rooted : Rooted world root tree) {i : Nat} {l1 : Page}
    (there : tree [i] = some l1) (va : Nat) :
    Walked world root tree [px 1 va, i] 2 (world.walkLevel root l1 1 va true) := by
  have inner : [i].length < 2 := Nat.one_lt_two
  cases found : tree [px 1 va, i] with
  | some below => exact rooted.walked_old there inner found
  | none =>
    cases answer : world.kalloc with
    | none => exact rooted.walked_dry there inner found answer (by decide)
    | some given =>
      obtain ⟨page, given⟩ := given
      obtain ⟨linked, free, carry⟩ := rooted.link there inner (px_lt 1 va) found answer
      have count : world.free.length = (given.link l1 (px 1 va) page).free.length + 1 :=
        congrArg List.length free
      have nextpid : given.nextpid = world.nextpid := linked.steady.nextpid
      have new : update tree [px 1 va, i] (some page) [px 1 va, i] = some page :=
        update_self _ _ _
      have upper (idx : Nat) (after : World) (covered : Covered after root tree idx) :
          Covered after root (update tree [px 1 va, i] (some page)) idx :=
        ⟨covered.index, by simpa using covered.copied, by simpa using covered.listed⟩
      rw [walkLevel_new (rooted.isValid_none there inner found) answer, nextpid]
      by_cases alone : world.nextpid ≤ 2
      · rw [if_pos alone]
        exact .found linked new (fun _ late => absurd alone (Nat.not_le.mpr late)) (by omega)
      · rw [if_neg alone, if_neg (by decide)]
        have late := Nat.not_le.mp alone
        have registered := registerPtbMlist_aloof linked.rooted
        have spent := (registerPtbMlist_take (given.link l1 (px 1 va) page)).2.2.2
        have grows := linked.keeps (registered.keeps linked.rooted)
        have low := (rooted.holds.above i [] l1 there).2.1
        rcases @Rooted.ptdupUpdate _ _ _ grows.rooted l1 (pde (some page)) (px 1 va) with
          ⟨panic, stops, ptdup, cause⟩ | ⟨after, done, keeps, taken, enter⟩
        · rw [stops]
          refine .panicked ptdup late fun idx covered => ?_
          exact absurd (registered.covered (carry idx covered))
            (cause tree i idx rooted.holds.apart there low)
        · rw [done]
          have same := congrArg List.length taken
          refine .found (grows.keeps keeps) new (fun idx _ covered => ?_) (by omega)
          exact upper idx after (enter tree idx (registered.covered (carry idx covered)))

theorem Rooted.walked (rooted : Rooted world root tree) {va : Nat} (low : va < maxva) :
    ∃ result, Walked world root tree [px 1 va, px 2 va] 5 result ∧
      world.walk root va true =
        result.map fun answer => (answer.1.map fun l0 => (l0, px 0 va), answer.2) := by
  have below : ¬maxva ≤ va := Nat.not_le.mpr low
  rw [World.walk, if_neg below]
  have first := rooted.walked_two va
  generalize world.walkLevel root root 2 va true = answer at first
  cases first with
  | dry grows covered empty short =>
    exact ⟨_, .dry grows covered empty (Nat.lt_of_lt_of_le short (by decide)), rfl⟩
  | panicked ptdup late short =>
    refine ⟨_, .panicked ptdup late fun idx covered => ?_, rfl⟩
    obtain ⟨same, few⟩ := short idx covered
    exact ⟨same, Nat.lt_of_lt_of_le few (by decide)⟩
  | @found l1 between middle grows there covered spent =>
    have second := grows.rooted.walked_one there va
    refine ⟨between.walkLevel root l1 1 va true, ?_, rfl⟩
    generalize between.walkLevel root l1 1 va true = answer at second
    have nextpid := grows.steady.nextpid
    cases second with
    | dry further coveredAfter empty short =>
      refine .dry (grows.trans further) (fun idx late before => ?_) empty (by omega)
      exact coveredAfter idx (nextpid ▸ late) (covered idx late before)
    | panicked ptdup late short =>
      refine .panicked ptdup (nextpid ▸ late) fun idx before => ?_
      obtain ⟨same, few⟩ := short idx (covered idx (nextpid ▸ late) before)
      exact ⟨same, by omega⟩
    | found further there coveredAfter spentAfter =>
      refine .found (grows.trans further) there (fun idx late before => ?_) (by omega)
      exact coveredAfter idx (nextpid ▸ late) (covered idx late before)

end Level

end Ev6.PageTable
