import Ev6.PageTable.Duplicates

/-!
# Extending page tables

`walk` should never panic for want of a duplicate. Whether an L1 table is duplicated is
decided when it is created, and whether the copy is looked for when it is extended; in
between the first process may have created another one.
-/

namespace Ev6.PageTable

open Support

/-- The panics of `ptdup_create_l1` and of `ptdup_update`. -/
def Panic.OfPtdup : Panic → Prop
  | .ptdupCreateL1NoIndex | .ptdupCreateL1Null | .ptdupCreateL1Kalloc => True
  | .ptdupUpdateNoIndex | .ptdupUpdateNull | .ptdupUpdateNoPagetable => True
  | _ => False

/-- The panic that `walk(pagetable, va, 1)` ends with, if any. -/
def World.walkPanic (world : World) (pagetable va : Nat) : Option Panic :=
  match world.walk pagetable va true with
  | .error panic => some panic
  | .ok _ => none

/-- `walk(pagetable, va, 1)` reaches no panic of the duplicates. -/
def World.Extends (world : World) (pagetable va : Nat) : Prop :=
  ∀ panic, world.walkPanic pagetable va = some panic → ¬panic.OfPtdup

/-- The L1 table at an index is recorded in the duplicate. -/
def Tables.Recorded (tables : Tables) (idx i : Nat) : Prop :=
  tables.memory (tables.head idx).l2 i = tables.memory (tables.idxPtdup idx) i ∧
    tables.memory (tables.head idx).l1 i ≠ 0

/-- The number of pages that `register_ptb_mlist` takes. -/
def World.mlistPages (world : World) : Nat := if world.mlistFull.headD false then 1 else 0

/-- When a page table can be extended: the address is no virtual address, or the first
process is alone, or there is no page left; or an L1 table is there, and so is the L0 table
or the L1 table was created when the first process was not alone any more; or a new L1
table leaves a page for its copy. -/
def VmState.Extendable (state : VmState) (idx va : Nat) : Prop :=
  let tables := state.world.tables
  let entry := tables.memory (tables.idxPtdup idx) (px 2 va)
  maxva ≤ va ∨ state.world.nextpid ≤ 2 ∨ state.world.free = [] ∨
    if isValid entry = true then
      isValid (tables.memory (pte2pa entry) (px 1 va)) = true ∨ 2 < state.bornL1 idx (px 2 va)
    else 2 + state.world.mlistPages ≤ state.world.free.length

section Extend

variable {world : World} {place : Layout} {idx va : Nat}

theorem kalloc_eq_none : world.kalloc = none ↔ world.free = [] := by
  unfold World.kalloc
  cases world.free <;> simp

theorem kalloc_mlistPages {page : Page} {given : World}
    (answer : world.kalloc = some (page, given)) : given.mlistPages = world.mlistPages := by
  unfold World.kalloc at answer
  split at answer
  · cases answer
  · cases answer
    rfl

/-- The pages that are left behind `register_ptb_mlist`. -/
theorem registerPtbMlist_free (world : World) :
    world.registerPtbMlist.free = world.free.drop world.mlistPages := by
  unfold World.registerPtbMlist World.mlistPages World.kalloc
  dsimp only
  split
  · cases free : world.free with
    | nil => simp
    | cons page rest => simp [World.memset]
  · simp

variable (kept : Laid world place) (low : idx < ptdupSize)
  (used : Standing place idx)

include kept low used

/-- The second round of `walk` panics at an L1 table without a copy only. -/
theorem walkLevel_one_ok {i : Nat} {l1 : Page} (holds : place (idx, .l1 i) = some l1)
    (enough : (place (idx, .l0 i (px 1 va))).isSome ∨ world.free = [] ∨ world.nextpid ≤ 2 ∨
      (place (idx, .copy i)).isSome) :
    ∃ answer, world.walkLevel (world.tables.idxPtdup idx) l1 1 va true = .ok answer := by
  cases held : place (idx, .l0 i (px 1 va)) with
  | some l0 => exact ⟨_, kept.walkLevel_one_old low used true holds held⟩
  | none =>
    cases answer : world.kalloc with
    | none =>
      have invalid := kept.isValid_l1 low used holds va
      rw [held] at invalid
      exact ⟨_, walkLevel_none invalid (.inr answer)⟩
    | some given =>
      obtain ⟨page, given⟩ := given
      by_cases alone : world.nextpid ≤ 2
      · exact ⟨_, kept.walkLevel_one_alone low used holds held answer alone⟩
      · have some : (place (idx, .copy i)).isSome := by
          rcases enough with there | dry | early | copied
          · rw [held] at there
            cases there
          · rw [kalloc_eq_none.mpr dry] at answer
            cases answer
          · exact absurd early alone
          · exact copied
        obtain ⟨copy, copied⟩ := Option.isSome_iff_exists.mp some
        have late := kept.walkLevel_one_late low used holds held answer (Nat.not_le.mp alone)
        rw [copied] at late
        exact ⟨_, late⟩

theorem walkPanic_old (virtual : va < maxva) {l1 : Page}
    (holds : place (idx, .l1 (px 2 va)) = some l1) :
    world.walkPanic (world.tables.idxPtdup idx) va =
      if (place (idx, .l0 (px 2 va) (px 1 va))).isSome ∨ world.free = [] ∨ world.nextpid ≤ 2 ∨
        (place (idx, .copy (px 2 va))).isSome then none
      else some .ptdupUpdateNoPagetable := by
  unfold World.walkPanic World.walk
  rw [if_neg (Nat.not_le.mpr virtual), kept.walkLevel_two_old low used true holds]
  simp only [Except.bind]
  split_ifs with enough
  · obtain ⟨answer, done⟩ := walkLevel_one_ok kept low used holds enough
    rw [done]
    rfl
  · push Not at enough
    obtain ⟨empty, wet, late, uncopied⟩ := enough
    obtain ⟨⟨page, given⟩, answer⟩ :=
      Option.ne_none_iff_exists'.mp fun dry => wet (kalloc_eq_none.mp dry)
    have stops := kept.walkLevel_one_late low used holds (by simpa using empty) answer late
    rw [show place (idx, .copy (px 2 va)) = none by simpa using uncopied] at stops
    rw [stops]
    rfl

/-- What `walk` panics with where there is no L1 table. -/
theorem walkPanic_new (virtual : va < maxva) (empty : place (idx, .l1 (px 2 va)) = none) :
    world.walkPanic (world.tables.idxPtdup idx) va =
      if world.free = [] ∨ world.nextpid ≤ 2 ∨ 2 + world.mlistPages ≤ world.free.length then none
      else some .ptdupCreateL1Kalloc := by
  have invalid := kept.isValid_l2 low used va
  rw [empty] at invalid
  unfold World.walkPanic World.walk
  rw [if_neg (Nat.not_le.mpr virtual)]
  cases answer : world.kalloc with
  | none =>
    rw [walkLevel_none invalid (.inr answer), if_pos (.inl (kalloc_eq_none.mp answer))]
    rfl
  | some answered =>
    obtain ⟨page, given⟩ := answered
    have free := kalloc_free answer
    have pages := kalloc_mlistPages answer
    obtain ⟨linked, steady⟩ := kept.linked_l1 low used empty answer
    -- the L1 table is new, and its L0 table can be entered in its copy
    have rest (after : World) (grown : Layout) (keptAfter : Laid after grown)
        (still : Steady world after) (stays : Standing grown idx)
        (there : grown (idx, .l1 (px 2 va)) = some page)
        (enough : after.nextpid ≤ 2 ∨ (grown (idx, .copy (px 2 va))).isSome) :
        ∃ result, after.walkLevel (world.tables.idxPtdup idx) page 1 va true = .ok result := by
      rw [← congrFun still.index idx]
      exact walkLevel_one_ok keptAfter low stays there (.inr (.inr enough))
    by_cases alone : world.nextpid ≤ 2
    · obtain ⟨result, done⟩ := rest _ _ linked steady (used.claim _ _) (Function.update_self _ _ _)
        (.inl (steady.nextpid ▸ alone))
      rw [kept.walkLevel_two_alone low used empty answer alone, if_pos (.inr (.inl alone))]
      simp only [Except.bind, done, Except.map]
    · have late := Nat.not_le.mp alone
      rw [kept.walkLevel_two_late low used empty answer late]
      have left : (given.link (world.tables.idxPtdup idx) (px 2 va) page).registerPtbMlist.free =
          given.free.drop world.mlistPages := by
        rw [registerPtbMlist_free, ← pages]
        rfl
      cases copied : (given.link (world.tables.idxPtdup idx) (px 2 va)
          page).registerPtbMlist.kalloc with
      | none =>
        have dry := kalloc_eq_none.mp copied
        rw [left, List.drop_eq_nil_iff] at dry
        rw [if_neg]
        · rfl
        · rintro (nil | early | enough)
          · rw [free] at nil
            cases nil
          · exact alone early
          · rw [free, List.length_cons] at enough
            omega
      | some copy =>
        obtain ⟨copy, after⟩ := copy
        have wet : given.free.drop world.mlistPages ≠ [] := by
          rw [← left]
          intro dry
          rw [kalloc_eq_none.mpr dry] at copied
          cases copied
        rw [ne_eq, List.drop_eq_nil_iff, Nat.not_le] at wet
        obtain ⟨complete, still⟩ := kept.linked_copy low used empty answer late copied
        obtain ⟨result, done⟩ := rest _ _ complete still
          ((used.claim _ _).claim _ _) (by simp) (.inr (by simp))
        rw [if_pos (.inr (.inr (by rw [free, List.length_cons]; omega)))]
        simp only [Except.bind, done, Except.map]

end Extend

/-- A walk that ends with a panic of the duplicates unless a condition holds. -/
theorem panics_iff {condition : Prop} [Decidable condition] {stop : Panic} (ofPtdup : stop.OfPtdup) :
    (∀ panic, (if condition then none else some stop) = some panic → ¬panic.OfPtdup) ↔
      condition := by
  by_cases holds : condition
  · simp [holds]
  · simp [holds, ofPtdup]

/-- An L1 table that is there is recorded when it has a copy. -/
theorem Shows.recorded_iff {tables : Tables} {place : Layout} {idx i : Nat}
    (shows : Shows tables place idx) {l1 : Page} (holds : place (idx, .l1 i) = some l1) :
    tables.Recorded idx i ↔ (place (idx, .copy i)).isSome := by
  have slot := shows.inside i l1 holds
  have nonzero : pde (some l1) ≠ 0 := by
    rw [pde_page_eq]
    exact Nat.succ_ne_zero _
  rw [Tables.Recorded, shows.copied i slot, shows.entry i slot, shows.listed i slot, holds]
  cases copied : place (idx, .copy i) with
  | none => simp [address]
  | some copy => simp [address, copy.property.ne_zero]

/-- In every state that is reached without taking a root that `idx_ptdup` still names, `walk`
extends a page table that is not taken down exactly when the condition holds, and an L1 table is
recorded exactly when it was created after the first process had created another one. -/
theorem extends_iff {calls : List VmCall} {state : VmState}
    (runs : (vmSystem.guarded FreshRoot).Runs calls state) {idx : Nat} (low : idx < ptdupSize)
    (used : state.world.tables.idxPtdup idx ≠ 0) (idle : state.dying idx = false) :
    (∀ va, state.world.Extends (state.world.tables.idxPtdup idx) va ↔ state.Extendable idx va) ∧
      ∀ i < entrySize,
        isValid (state.world.tables.memory (state.world.tables.idxPtdup idx) i) = true →
        (state.world.tables.Recorded idx i ↔ 2 < state.bornL1 idx i) := by
  obtain ⟨place, dated⟩ := dated_of_run runs
  have stands := dated.serving.standing idx low used idle
  have kept := dated.kept
  have shows := kept.shows idx low stands
  refine ⟨fun va => ?_, fun i slot valid => ?_⟩
  · by_cases virtual : maxva ≤ va
    · refine iff_of_true (fun panic walked => ?_) (.inl virtual)
      rw [World.walkPanic, World.walk, if_pos virtual] at walked
      cases walked
      exact id
    · have inside := Nat.not_le.mp virtual
      have entry := shows.entry _ (px_lt 2 va)
      unfold World.Extends VmState.Extendable
      dsimp only
      rw [entry, isValid_pde]
      cases held : place (idx, .l1 (px 2 va)) with
      | none =>
        have stop : Panic.OfPtdup .ptdupCreateL1Kalloc := trivial
        rw [walkPanic_new kept low stands inside held, panics_iff stop, if_neg (by simp)]
        simp only [virtual, false_or]
        exact or_left_comm
      | some l1 =>
        have copied := dated.copied idx (px 2 va) (by simp [held])
        have stop : Panic.OfPtdup .ptdupUpdateNoPagetable := trivial
        rw [walkPanic_old kept low stands inside held, panics_iff stop, if_pos (by simp),
          pte2pa_pde, kept.isValid_l1 low stands held va, copied]
        simp only [virtual, false_or]
        tauto
  · rw [shows.entry i slot, isValid_pde] at valid
    obtain ⟨l1, held⟩ := Option.isSome_iff_exists.mp valid
    rw [shows.recorded_iff held]
    exact dated.copied idx i valid

/-- The first process with a page at address 0, which creates a second process. -/
def firstProcessCalls : List VmCall :=
  [.allocpid, .procPagetable 0x87000000 0x87001000,
    .mappages kernbase 0 pgsize 0x87002000 (pteR ||| pteW ||| pteU), .allocpid]

/-- The second process of the sample can be extended behind its L1 table. -/
theorem extends_iff_sample : ∃ state, (vmSystem.guarded FreshRoot).Runs sampleCalls state ∧
    ((∀ va, state.world.Extends (state.world.tables.idxPtdup 0) va ↔ state.Extendable 0 va) ∧
      ∀ i < entrySize, isValid (state.world.tables.memory (state.world.tables.idxPtdup 0) i) = true →
        (state.world.tables.Recorded 0 i ↔ 2 < state.bornL1 0 i)) := by
  have found : (LabelledSystem.exec (LabelledSystem.checked FreshRoot extendStep) sampleVm
      sampleCalls).any (fun state => decide (state.world.tables.idxPtdup 0 ≠ 0 ∧
        state.dying 0 = false)) = true := by
    decide +kernel
  obtain ⟨state, result, holds⟩ := (Option.any_eq_true _ _).mp found
  obtain ⟨used, idle⟩ := of_decide_eq_true holds
  have runs := LabelledSystem.Runs.of_checked extendStep_sound fresh_sampleVm result
  exact ⟨state, runs, extends_iff runs (by decide) used idle⟩

/-- After its first fork, the first process needs an L0 table behind an L1 table that was
created before. -/
theorem first_process_cannot_grow : ¬∀ calls state, vmSystem.Runs calls state →
    ∀ idx < ptdupSize, state.world.tables.idxPtdup idx ≠ 0 → state.dying idx = false →
      ∀ va, state.world.Extends (state.world.tables.idxPtdup idx) va := by
  intro always
  have found : (LabelledSystem.exec (LabelledSystem.checked FreshRoot extendStep) sampleVm
      firstProcessCalls).any (fun state => decide (state.world.tables.idxPtdup 0 ≠ 0 ∧
        state.dying 0 = false ∧ state.world.walkPanic (state.world.tables.idxPtdup 0) 0x200000 =
          some .ptdupUpdateNoPagetable)) = true := by
    decide +kernel
  obtain ⟨state, result, holds⟩ := (Option.any_eq_true _ _).mp found
  obtain ⟨used, idle, panics⟩ := of_decide_eq_true holds
  have runs := LabelledSystem.Runs.of_checked extendStep_sound fresh_sampleVm result
  exact always _ state runs.forgetGuard 0 (by decide) used idle 0x200000 _ panics trivial

end Ev6.PageTable
