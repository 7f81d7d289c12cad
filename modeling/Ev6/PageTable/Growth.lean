import Ev6.PageTable.Mirror

/-!
# Calls that change page tables

Each function of `vm.c` on a page table keeps the trees of all of them, and only the tree
of that table grows.
-/

namespace Ev6.PageTable

open List (mem_cons suffix_refl)
open Function (update update_of_ne update_self)
open Support

theorem bind_eq_ok {First Second : Type} {first : Except Panic First}
    {next : First → Except Panic Second} {answer : Second} :
    first.bind next = .ok answer ↔ ∃ between, first = .ok between ∧ next between = .ok answer := by
  cases first with
  | error panic => simp [Except.bind]
  | ok between => simp [Except.bind]

theorem map_eq_ok {First Second : Type} {first : Except Panic First} {next : First → Second}
    {answer : Second} :
    first.map next = .ok answer ↔ ∃ between, first = .ok between ∧ next between = answer := by
  cases first with
  | error panic => simp [Except.map]
  | ok between => simp [Except.map]

/-- A step after which the trees are kept, and only the tree of one table has grown. -/
structure Advance (idx : Nat) (world after : World) (place grown : Layout) : Prop where
  kept : Laid after grown
  steady : Steady world after
  grown : Grown world.nextpid idx place grown

section Advance

variable {idx : Nat} {world between after : World} {place middle grown : Layout}

theorem Advance.stay (kept : Laid after place) (steady : Steady world after) :
    Advance idx world after place place :=
  ⟨kept, steady, Grown.refl _ _ _⟩

theorem Advance.trans (first : Advance idx world between place middle)
    (second : Advance idx between after middle grown) : Advance idx world after place grown :=
  ⟨second.kept, first.steady.trans second.steady,
    first.grown.trans (first.steady.nextpid ▸ second.grown)⟩

theorem Advance.used (advance : Advance idx world after place grown)
    (used : Standing place idx) : Standing grown idx := by
  obtain ⟨top, holds⟩ := used
  exact ⟨top, advance.grown.old _ top holds⟩

end Advance

/-! ## What is attached -/

section Attached

variable {nextpid idx i : Nat} {place : Layout} {page copy : Page}

theorem Grown.attach_l1 (empty : place (idx, .l1 i) = none) (uncopied : place (idx, .copy i) = none)
    (alone : nextpid ≤ 2) :
    Grown nextpid idx place (update place (idx, .l1 i) (some page)) where
  others other role different := update_of_ne (by simp [different]) _ _
  old role other holds := by
    have different : (idx, role) ≠ (idx, Role.l1 i) := by
      rintro same
      rw [same, empty] at holds
      cases holds
    rw [update_of_ne different]
    exact holds
  copies k other holds := by simp
  new k none isSome := by
    by_cases here : k = i
    · subst here
      simp [uncopied, alone]
    · simp [here, none] at isSome

theorem Grown.attach_copy (empty : place (idx, .l1 i) = none)
    (uncopied : place (idx, .copy i) = none) (late : 2 < nextpid) :
    Grown nextpid idx place (update (update place (idx, .l1 i) (some page))
      (idx, .copy i) (some copy)) where
  others other role different := by simp [different]
  old role other holds := by
    have first : (idx, role) ≠ (idx, Role.l1 i) := by
      rintro same
      rw [same, empty] at holds
      cases holds
    have second : (idx, role) ≠ (idx, Role.copy i) := by
      rintro same
      rw [same, uncopied] at holds
      cases holds
    rw [update_of_ne second, update_of_ne first]
    exact holds
  copies k other holds := by
    have different : k ≠ i := by
      rintro rfl
      rw [empty] at holds
      cases holds
    simp [different]
  new k none isSome := by
    by_cases here : k = i
    · subst here
      simp [late]
    · simp [here, none] at isSome

theorem Grown.attach_l0 {j : Nat} (empty : place (idx, .l0 i j) = none) :
    Grown nextpid idx place (update place (idx, .l0 i j) (some page)) where
  others other role different := update_of_ne (by simp [different]) _ _
  old role other holds := by
    have different : (idx, role) ≠ (idx, Role.l0 i j) := by
      rintro same
      rw [same, empty] at holds
      cases holds
    rw [update_of_ne different]
    exact holds
  copies k other holds := by simp
  new k none isSome := by simp [none] at isSome

end Attached

/-! ## `walk` -/

section Walk

variable {world after : World} {place : Layout} {idx va : Nat} {alloc : Bool}
  (kept : Laid world place) (low : idx < ptdupSize) (used : Standing place idx)

include kept low used

/-- The first round of `walk` ends at the L1 table. -/
theorem walkLevel_two_spec {res : Option Nat}
    (done : world.walkLevel (world.tables.idxPtdup idx) (world.tables.idxPtdup idx) 2 va alloc =
      .ok (res, after)) :
    ∃ grown, Advance idx world after place grown ∧
      ∀ l1, res = some l1 → ∃ page : Page, grown (idx, .l1 (px 2 va)) = some page ∧ l1 = page := by
  cases held : place (idx, .l1 (px 2 va)) with
  | some page =>
    rw [kept.walkLevel_two_old low used alloc held] at done
    cases done
    refine ⟨place, .stay kept (.refl _), fun l1 same => ⟨page, held, ?_⟩⟩
    exact (Option.some.inj same).symm
  | none =>
    have invalid := kept.isValid_l2 low used va
    rw [held] at invalid
    obtain ⟨uncopied, -⟩ := (kept.shows idx low used).below _ held
    have unchanged (without : alloc = false ∨ world.kalloc = none) :
        ∃ grown, Advance idx world after place grown ∧
          ∀ l1, res = some l1 →
            ∃ page : Page, grown (idx, .l1 (px 2 va)) = some page ∧ l1 = page := by
      rw [walkLevel_none invalid without] at done
      cases done
      exact ⟨place, .stay kept (.refl _), fun l1 none => by cases none⟩
    cases alloc with
    | false => exact unchanged (.inl rfl)
    | true =>
      cases answer : world.kalloc with
      | none => exact unchanged (.inr answer)
      | some answered =>
        obtain ⟨page, given⟩ := answered
        by_cases alone : world.nextpid ≤ 2
        · rw [kept.walkLevel_two_alone low used held answer alone] at done
          cases done
          obtain ⟨linked, steady⟩ := kept.linked_l1 low used held answer
          refine ⟨_, ⟨linked, steady, .attach_l1 held uncopied alone⟩, fun l1 same => ?_⟩
          exact ⟨page, update_self _ _ _, (Option.some.inj same).symm⟩
        · have late := Nat.not_le.mp alone
          rw [kept.walkLevel_two_late low used held answer late] at done
          split at done
          · cases done
          · next copy behind copied =>
             cases done
             obtain ⟨linked, steady⟩ := kept.linked_copy low used held answer late copied
             refine ⟨_, ⟨linked, steady, .attach_copy held uncopied late⟩, fun l1 same => ?_⟩
             exact ⟨page, by simp, (Option.some.inj same).symm⟩

theorem walkLevel_one_spec {i : Nat} {l1 : Page} (holds : place (idx, .l1 i) = some l1)
    {res : Option Nat}
    (done : world.walkLevel (world.tables.idxPtdup idx) l1 1 va alloc = .ok (res, after)) :
    ∃ grown, Advance idx world after place grown ∧
      ∀ l0, res = some l0 → ∃ page : Page, grown (idx, .l0 i (px 1 va)) = some page ∧ l0 = page := by
  cases held : place (idx, .l0 i (px 1 va)) with
  | some page =>
    rw [kept.walkLevel_one_old low used alloc holds held] at done
    cases done
    refine ⟨place, .stay kept (.refl _), fun l0 same => ⟨page, held, ?_⟩⟩
    exact (Option.some.inj same).symm
  | none =>
    have invalid := kept.isValid_l1 low used holds va
    rw [held] at invalid
    have unchanged (without : alloc = false ∨ world.kalloc = none) :
        ∃ grown, Advance idx world after place grown ∧
          ∀ l0, res = some l0 →
            ∃ page : Page, grown (idx, .l0 i (px 1 va)) = some page ∧ l0 = page := by
      rw [walkLevel_none invalid without] at done
      cases done
      exact ⟨place, .stay kept (.refl _), fun l0 none => by cases none⟩
    cases alloc with
    | false => exact unchanged (.inl rfl)
    | true =>
      cases answer : world.kalloc with
      | none => exact unchanged (.inr answer)
      | some answered =>
        obtain ⟨page, given⟩ := answered
        by_cases alone : world.nextpid ≤ 2
        · rw [kept.walkLevel_one_alone low used holds held answer alone] at done
          cases done
          have uncopied : place (idx, .copy i) = none := by
            cases copied : place (idx, .copy i) with
            | none => rfl
            | some copy => exact absurd (kept.recorded idx i copy copied) (by omega)
          obtain ⟨linked, steady⟩ := kept.linked_l0 low used holds answer uncopied
          refine ⟨_, ⟨linked, steady, .attach_l0 held⟩, fun l0 same => ?_⟩
          exact ⟨page, update_self _ _ _, (Option.some.inj same).symm⟩
        · have late := Nat.not_le.mp alone
          rw [kept.walkLevel_one_late low used holds held answer late] at done
          split at done
          · cases done
          · next copy copied =>
             cases done
             obtain ⟨linked, steady⟩ := kept.linked_l0_copied low used holds answer copied
             refine ⟨_, ⟨linked, steady, .attach_l0 held⟩, fun l0 same => ?_⟩
             exact ⟨page, update_self _ _ _, (Option.some.inj same).symm⟩

theorem walk_spec {res : Option (Nat × Nat)}
    (done : world.walk (world.tables.idxPtdup idx) va alloc = .ok (res, after)) :
    ∃ grown, Advance idx world after place grown ∧ ∀ entry, res = some entry →
      ∃ i j, ∃ page : Page, grown (idx, .l0 i j) = some page ∧ entry.1 = page := by
  unfold World.walk at done
  split at done
  · cases done
  · obtain ⟨⟨l1, between⟩, first, second⟩ := bind_eq_ok.mp done
    obtain ⟨middle, advance, leads⟩ := walkLevel_two_spec kept low used first
    cases l1 with
    | none =>
      cases second
      exact ⟨middle, advance, fun entry none => by cases none⟩
    | some l1 =>
      obtain ⟨page, holds, rfl⟩ := leads l1 rfl
      obtain ⟨⟨l0, behind⟩, third, last⟩ := map_eq_ok.mp second
      cases last
      have index := congrFun advance.steady.index idx
      rw [← index] at third
      obtain ⟨grown, further, ends⟩ :=
        walkLevel_one_spec advance.kept low (advance.used used) holds third
      refine ⟨grown, advance.trans further, fun entry same => ?_⟩
      obtain ⟨address, there, rfl⟩ := Option.map_eq_some_iff.mp same
      obtain ⟨page, held, rfl⟩ := ends address there
      exact ⟨_, _, page, held, rfl⟩

end Walk

/-! ## The records -/

/-- A step that leaves the memory as it is, and may only take pages. -/
structure Idle (world after : World) : Prop where
  steady : Steady world after
  memory : after.tables.memory = world.tables.memory
  free : after.free <:+ world.free

section Idle

variable {world between after : World} {place : Layout}

theorem Idle.refl (world : World) : Idle world world := ⟨.refl _, rfl, suffix_refl _⟩

theorem Idle.trans (first : Idle world between) (second : Idle between after) : Idle world after :=
  ⟨first.steady.trans second.steady, second.memory.trans first.memory,
    second.free.trans first.free⟩

theorem Laid.idle (kept : Laid world place) (idle : Idle world after) : Laid after place := by
  refine kept.frame idle.steady (fun key page _ _ => by rw [idle.memory]) ?_ ?_
  · exact kept.once.sublist idle.free.sublist
  · exact fun page member => kept.free page (idle.free.subset member)

variable {idx : Nat}

theorem idle_setHead (world : World) {head : PtdupHead} {free : List Page}
    (l2 : head.l2 = (world.tables.head idx).l2) (l1 : head.l1 = (world.tables.head idx).l1)
    (suffix : free <:+ world.free) :
    Idle world (World.setHead { world with free := free } idx head) := by
  refine ⟨⟨rfl, fun other => ?_, fun other => ?_, rfl⟩, rfl, suffix⟩
  · by_cases here : other = idx
    · subst here
      simpa [World.setHead] using l2
    · simp [World.setHead, here]
  · by_cases here : other = idx
    · subst here
      simpa [World.setHead] using l1
    · simp [World.setHead, here]

variable {content : Nat}

theorem ptdsPtedAdd_suffix {records added : Records} {supply rest : List Page}
    (done : ptdsPtedAdd records content supply = some (added, rest)) : rest <:+ supply := by
  unfold ptdsPtedAdd at done
  split at done
  · split at done
    · cases done
      exact suffix_refl _
    · split at done
      · cases done
      · next page rest' =>
         cases done
         exact List.suffix_cons page _
  · split at done
    · cases done
    · next page rest' =>
       cases done
       exact List.suffix_cons page _

variable {vaStart : Nat}

theorem ptdsDeleteWord_suffix {vaEnd n : Nat} {state after : Records × List Page}
    (done : ptdsDeleteWord vaStart vaEnd n state = some after) : after.2 <:+ state.2 := by
  obtain ⟨records, supply⟩ := state
  unfold ptdsDeleteWord at done
  dsimp only at done
  split_ifs at done with covered front back middle
  · cases done
    exact suffix_refl _
  · cases done
    exact suffix_refl _
  · cases done
    exact suffix_refl _
  · obtain ⟨added, adds, rfl⟩ := Option.map_eq_some_iff.mp done
    exact ptdsPtedAdd_suffix adds
  · cases done
    exact suffix_refl _

theorem ptdsDeleteFrom_suffix {vaEnd : Nat} (fuel : Nat) {page : Nat}
    {state after : Records × List Page}
    (done : ptdsDeleteFrom vaStart vaEnd fuel page state = some after) : after.2 <:+ state.2 := by
  induction fuel generalizing page state with
  | zero => cases done
  | succ fuel ih =>
    obtain ⟨between, first, second⟩ := Option.bind_eq_some_iff.mp done
    have here : between.2 <:+ state.2 := by
      unfold ptdsDeletePage at first
      generalize pageRecords = count at first
      exact @foldlM_range_invariant _ _ (fun _ next => next.2 <:+ state.2) _ _ _
        (suffix_refl _) (fun _ _ _ _ held word => (ptdsDeleteWord_suffix word).trans held)
        first
    split at second
    · cases second
      exact here
    · exact (ih second).trans here

/-- `L0_ptes_delete` only changes records. -/
theorem l0PtesDelete_idle {pagetable sz : Nat} {tables : Tables} {free : List Page}
    (done : l0PtesDelete world.tables pagetable vaStart sz world.free = some (tables, free)) :
    Idle world { world with tables := tables, free := free } := by
  unfold l0PtesDelete at done
  dsimp only at done
  have unchanged (same : some (world.tables, world.free) = some (tables, free)) :
      Idle world { world with tables := tables, free := free } := by
    cases same
    exact .refl _
  split at done
  · exact unchanged done
  · split at done
    · split at done
      · cases done
        exact idle_setHead world rfl rfl (suffix_refl _)
      · obtain ⟨⟨records, rest⟩, deleted, same⟩ := Option.map_eq_some_iff.mp done
        cases same
        refine idle_setHead world ?_ ?_ (ptdsDeleteFrom_suffix _ deleted)
        · rfl
        · rfl
    · exact unchanged done

theorem addRecord_idle {flag : Bool} {records : Records}
    (done : world.addRecord idx flag records content = .ok after) : Idle world after := by
  unfold World.addRecord at done
  split at done
  · cases done
  · next added free adds =>
     obtain rfl := Except.ok.inj done
     refine idle_setHead world ?_ ?_ (ptdsPtedAdd_suffix adds)
     · cases flag <;> rfl
     · cases flag <;> rfl

/-- `L0_ptes_add` only changes records. -/
theorem l0PtesAdd_idle {l2 : Nat} {flag : Bool}
    (done : world.l0PtesAdd l2 content flag = .ok after) : Idle world after := by
  unfold World.l0PtesAdd at done
  split at done
  · cases done
  · dsimp only at done
    split at done
    · obtain rfl := Except.ok.inj done
      exact .refl _
    · exact addRecord_idle done

theorem addPted_idle (done : world.addPted idx content = .ok after) : Idle world after := by
  unfold World.addPted at done
  split at done
  · cases done
  · exact addRecord_idle done

theorem addPair_idle {entry startVa startPpn startPa : Nat}
    (done : world.addPair idx entry startVa startPpn startPa = .ok after) : Idle world after := by
  obtain ⟨between, first, second⟩ := bind_eq_ok.mp done
  exact (addPted_idle first).trans (addPted_idle second)

theorem ptdsDecomposeClear_idle {entry : Nat}
    (done : world.ptdsDecomposeClear idx entry = .ok after) : Idle world after := by
  unfold World.ptdsDecomposeClear at done
  dsimp only at done
  split at done
  · obtain ⟨between, added, rest⟩ := bind_eq_ok.mp done
    refine (addPair_idle added).trans ?_
    split at rest
    · cases rest
    · split at rest
      · cases rest
      · next records free deleted =>
         obtain rfl := Except.ok.inj rest
         exact idle_setHead between rfl rfl (ptdsDeleteFrom_suffix _ deleted)
  · split at done
    · exact addPair_idle done
    · obtain rfl := Except.ok.inj done
      exact .refl _

/-- `L0_ptes_clear_user` only changes records. -/
theorem l0PtesClearUser_idle {l2 targetVa : Nat}
    (done : world.l0PtesClearUser l2 targetVa = .ok after) : Idle world after := by
  unfold World.l0PtesClearUser at done
  have unchanged (same : Except.ok world = Except.ok (ε := Panic) after) : Idle world after := by
    obtain rfl := Except.ok.inj same
    exact .refl _
  split at done
  · exact unchanged done
  · dsimp only at done
    split at done
    · exact ptdsDecomposeClear_idle done
    · split at done
      · exact unchanged done
      · split at done
        · exact unchanged done
        · obtain rfl := Except.ok.inj done
          exact idle_setHead world rfl rfl (suffix_refl _)

end Idle

/-! ## The calls -/

section Calls

variable {world after : World} {place : Layout} {idx : Nat}

/-- What `mappages` and `uvmunmap` store lies in L0 tables. -/
theorem Advance.store {middle : World} {grown : Layout} {i j : Nat} {page : Page}
    (advance : Advance idx world middle place grown) (holds : grown (idx, .l0 i j) = some page)
    (index value : Nat) : Advance idx world (middle.write page index value) place grown :=
  ⟨advance.kept.store_l0 holds index value, advance.steady.trans (steady_write _ _ _ _),
    advance.grown⟩

variable (kept : Laid world place) (low : idx < ptdupSize)
  (used : Standing place idx)

include kept low used

variable {res : Int} {pa perm : Nat}

theorem mapPage_spec {a : Nat}
    (done : world.mapPage (world.tables.idxPtdup idx) a pa perm = .ok (res, after)) :
    ∃ grown, Advance idx world after place grown := by
  obtain ⟨⟨pte, between⟩, walked, rest⟩ := bind_eq_ok.mp done
  obtain ⟨grown, advance, ends⟩ := walk_spec kept low used walked
  cases pte with
  | none =>
    cases rest
    exact ⟨grown, advance⟩
  | some entry =>
    obtain ⟨i, j, page, holds, leads⟩ := ends entry rfl
    dsimp only at rest
    split at rest
    · cases rest
    · cases rest
      rw [leads]
      exact ⟨grown, advance.store holds _ _⟩

omit kept used in
/-- The loop of `mappages`, by induction on the pages that are left. -/
theorem mapPages_spec (steps : Nat) {world : World} {place : Layout}
    (kept : Laid world place) (used : Standing place idx) {a : Nat}
    (done : World.mapPages (world.tables.idxPtdup idx) perm steps a pa world = .ok (res, after)) :
    ∃ grown, Advance idx world after place grown := by
  induction steps generalizing world place a pa with
  | zero => exact mapPage_spec kept low used done
  | succ steps ih =>
    obtain ⟨⟨first, between⟩, mapped, rest⟩ := bind_eq_ok.mp done
    obtain ⟨middle, advance⟩ := mapPage_spec kept low used mapped
    dsimp only at rest
    split at rest
    · cases rest
      exact ⟨middle, advance⟩
    · rw [← congrFun advance.steady.index idx] at rest
      obtain ⟨grown, further⟩ := ih advance.kept (advance.used used) rest
      exact ⟨grown, advance.trans further⟩

theorem mappages_spec {va size : Nat}
    (done : world.mappages (world.tables.idxPtdup idx) va size pa perm = .ok (res, after)) :
    ∃ grown, Advance idx world after place grown :=
  mapPages_spec low _ kept used done

theorem uvmclear_spec {va : Nat}
    (done : world.uvmclear (world.tables.idxPtdup idx) va = .ok after) :
    ∃ grown, Advance idx world after place grown := by
  obtain ⟨⟨pte, between⟩, walked, rest⟩ := bind_eq_ok.mp done
  obtain ⟨grown, advance, ends⟩ := walk_spec kept low used walked
  cases pte with
  | none => cases rest
  | some entry =>
    obtain ⟨i, j, page, holds, leads⟩ := ends entry rfl
    dsimp only at rest
    rw [leads] at rest
    have idle := l0PtesClearUser_idle rest
    have stored := advance.store holds entry.2
      (between.tables.memory page entry.2 &&& (2 ^ 64 - 1 - pteU))
    exact ⟨grown, stored.trans (.stay (stored.kept.idle idle) idle.steady)⟩

end Calls

/-! ## Pages that are given back -/

/-- A page that `kfree` may take: it has no place, and is not free. -/
structure Disposable (world : World) (place : Layout) (pa : Nat) : Prop where
  unheld : ∀ key (page : Page), place key = some page → page.val ≠ pa
  taken : ∀ page ∈ world.free, page.val ≠ pa

section Free

variable {world after : World} {place : Layout} {idx : Nat}

/-- `kfree` puts the page before the other free ones. -/
theorem kfree_spec (kept : Laid world place) {pa : Nat} (disposable : Disposable world place pa)
    (done : world.kfree pa = .ok after) :
    Laid after place ∧ Steady world after ∧
      ∃ page : Page, page.val = pa ∧ after.free = page :: world.free := by
  unfold World.kfree at done
  split at done
  · next physical =>
     obtain rfl := Except.ok.inj done
     have steady : Steady world
         { (world.memset pa MList.emptyMark).write pa 0
             ((world.free.head?.map Subtype.val).getD 0) with
           free := ⟨pa, physical.1⟩ :: world.free } :=
       ⟨rfl, fun _ => rfl, fun _ => rfl, rfl⟩
     refine ⟨kept.frame steady ?_ ?_ ?_, steady, ⟨pa, physical.1⟩, rfl, rfl⟩
     · intro key page _ holds
       have different := disposable.unheld key page holds
       simp only [World.write, World.memset]
       rw [PageMemory.write_of_page_ne _ _ _ different, memsetPage_of_ne _ _ different]
     · refine List.nodup_cons.mpr ⟨fun member => ?_, kept.once⟩
       exact disposable.taken _ member rfl
     · intro page member key holds
       rcases mem_cons.mp member with rfl | behind
       · exact disposable.unheld key _ holds rfl
       · exact kept.free page behind key holds
  · cases done

variable (kept : Laid world place) (low : idx < ptdupSize)
  (used : Standing place idx)

include kept low used

variable {a : Nat}

/-- Without the permission to allocate `walk` changes nothing. -/
theorem walk_lookup {res : Option (Nat × Nat)}
    (done : world.walk (world.tables.idxPtdup idx) a false = .ok (res, after)) :
    after = world ∧ ∀ entry, res = some entry →
      ∃ i j, ∃ page : Page, place (idx, .l0 i j) = some page ∧ entry.1 = page := by
  unfold World.walk at done
  split at done
  · cases done
  · cases held : place (idx, .l1 (px 2 a)) with
    | none =>
      have invalid := kept.isValid_l2 low used a
      rw [held] at invalid
      rw [walkLevel_none invalid (.inl rfl)] at done
      cases done
      exact ⟨rfl, fun entry none => by cases none⟩
    | some l1 =>
      rw [kept.walkLevel_two_old low used false held] at done
      simp only [Except.bind] at done
      cases there : place (idx, .l0 (px 2 a) (px 1 a)) with
      | none =>
        have invalid := kept.isValid_l1 low used held a
        rw [there] at invalid
        rw [walkLevel_none invalid (.inl rfl)] at done
        cases done
        exact ⟨rfl, fun entry none => by cases none⟩
      | some l0 =>
        rw [kept.walkLevel_one_old low used false held there] at done
        cases done
        refine ⟨rfl, fun entry same => ⟨_, _, l0, there, ?_⟩⟩
        exact (congrArg Prod.fst (Option.some.inj same)).symm

variable {doFree : Bool}

/-- One round of `uvmunmap`. A page that is freed is the one behind the entry. -/
theorem unmapPage_spec (disposable : doFree = true →
      ∀ pa ∈ world.leafPage (world.tables.idxPtdup idx) a, Disposable world place pa)
    (done : world.unmapPage (world.tables.idxPtdup idx) a doFree = .ok after) :
    Laid after place ∧ Steady world after ∧ ∀ page ∈ after.free, page ∈ world.free ∨
        doFree = true ∧ page.val ∈ world.leafPage (world.tables.idxPtdup idx) a := by
  obtain ⟨⟨pte, between⟩, walked, rest⟩ := bind_eq_ok.mp done
  obtain ⟨rfl, ends⟩ := walk_lookup kept low used walked
  cases pte with
  | none => cases rest
  | some entry =>
    obtain ⟨i, j, l0, holds, leads⟩ := ends entry rfl
    have leaf : between.leafPage (between.tables.idxPtdup idx) a =
        [pte2pa (between.tables.memory entry.1 entry.2)] := by
      rw [World.leafPage, walked]
    dsimp only at rest
    split at rest
    · cases rest
    · split at rest
      · cases rest
      · obtain ⟨freed, frees, rfl⟩ := map_eq_ok.mp rest
        rw [leads]
        cases doFree with
        | false =>
          obtain rfl := Except.ok.inj frees
          exact ⟨kept.store_l0 holds _ _, steady_write _ _ _ _, fun page member => .inl member⟩
        | true =>
          have ready := disposable rfl _ (leaf ▸ List.mem_singleton_self _)
          rw [if_pos rfl] at frees
          obtain ⟨keptFreed, steady, page, same, free⟩ := kfree_spec kept ready frees
          refine ⟨keptFreed.store_l0 holds _ _, steady.trans (steady_write _ _ _ _), ?_⟩
          intro other member
          rw [show (freed.write l0 entry.2 0).free = freed.free from rfl, free] at member
          rcases mem_cons.mp member with rfl | behind
          · exact .inr ⟨rfl, leaf ▸ same ▸ List.mem_singleton_self _⟩
          · exact .inl behind

omit kept in
/-- The loop of `uvmunmap`, by induction on the pages that are left. -/
theorem unmapPages_spec (steps : Nat) {world : World} (kept : Laid world place)
    (once : doFree = true → (World.freedPages (world.tables.idxPtdup idx) steps a world).Nodup)
    (disposable : doFree = true → ∀ pa ∈ World.freedPages (world.tables.idxPtdup idx) steps a world,
        Disposable world place pa)
    (done : World.unmapPages (world.tables.idxPtdup idx) doFree steps a world = .ok after) :
    Laid after place ∧ Steady world after := by
  induction steps generalizing world a with
  | zero =>
    obtain ⟨keptAfter, steady, -⟩ := unmapPage_spec kept low used disposable done
    exact ⟨keptAfter, steady⟩
  | succ steps ih =>
    obtain ⟨between, first, rest⟩ := bind_eq_ok.mp done
    have here : doFree = true →
        ∀ pa ∈ world.leafPage (world.tables.idxPtdup idx) a, Disposable world place pa :=
      fun frees pa member => disposable frees pa (List.mem_append_left _ member)
    obtain ⟨keptBetween, steady, free⟩ := unmapPage_spec kept low used here first
    have index := congrFun steady.index idx
    rw [← index] at rest
    have behind : doFree = true →
        World.freedPages (world.tables.idxPtdup idx) (steps + 1) a world =
          world.leafPage (world.tables.idxPtdup idx) a ++
            World.freedPages (between.tables.idxPtdup idx) steps ((a + pgsize) % 2 ^ 64)
              between := by
      intro frees
      rw [frees] at first
      rw [World.freedPages, first, index]
    obtain ⟨keptAfter, further⟩ := ih keptBetween
      (fun frees => (List.nodup_append.mp (behind frees ▸ once frees)).2.1)
      (fun frees pa member => by
        have before := disposable frees pa (behind frees ▸ List.mem_append_right _ member)
        refine ⟨before.unheld, fun page there same => ?_⟩
        rcases free page there with old | ⟨-, new⟩
        · exact before.taken page old same
        · have apart := (List.nodup_append.mp (behind frees ▸ once frees)).2.2
          exact apart page new pa member same) rest
    exact ⟨keptAfter, steady.trans further⟩

theorem uvmunmap_spec {va size : Nat}
    (once : doFree = true → (World.freedPages (world.tables.idxPtdup idx) (World.pageSteps va size)
      (pgrounddown va) world).Nodup) (disposable : doFree = true →
      ∀ pa ∈ World.freedPages (world.tables.idxPtdup idx) (World.pageSteps va size)
        (pgrounddown va) world, Disposable world place pa)
    (done : world.uvmunmap (world.tables.idxPtdup idx) va size doFree = .ok after) :
    Laid after place ∧ Steady world after := by
  obtain ⟨between, unmapped, rest⟩ := bind_eq_ok.mp done
  obtain ⟨keptBetween, steady⟩ := unmapPages_spec low used _ kept once disposable unmapped
  split at rest
  · cases rest
  · next tables free deleted =>
     obtain rfl := Except.ok.inj rest
     have idle := l0PtesDelete_idle deleted
     exact ⟨keptBetween.idle idle, steady.trans idle.steady⟩

end Free

end Ev6.PageTable
