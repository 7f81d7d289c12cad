import Ev6.PageTable.Lifetimes
import Ev6.PageTable.Recovery
import Ev6.Support.LabelledSystem

/-!
# The duplicates of a running system

Processes are created, grow, shrink and end. `freewalk` gives the pages of a table back
before `ptdup_delete_all` takes it out of `idx_ptdup`, so that in between its root may become
that of another table, which `idx_ptdup` then names twice. As long as that does not happen, in
every state the duplicate of a page table that was created when the first process was not alone
any more has all the upper levels of the table, and the recovery of a broken page takes them from
there.
-/

namespace Ev6.PageTable

open Option (any_eq_true isSome_iff_exists)
open Support

/-! ## The system -/

/-- The calls on page tables, each as a whole, and what the rest of the kernel does to
pages: it takes them, gives them back, and writes to them. -/
inductive VmCall where
  | allocpid
  | procPagetable (trampoline tf : Nat)
  | walk (pagetable va : Nat) (alloc : Bool)
  | mappages (pagetable va size pa perm : Nat)
  | uvmunmap (pagetable va size : Nat) (doFree : Bool)
  | uvmclear (pagetable va : Nat)
  | l0PtesAdd (pagetable content : Nat) (flag : Bool)
  /-- `proc_freepagetable` has unmapped the pages of a table: `freewalk` and `ptdup_delete_all` free
  the pages of the table and of its duplicate from now on. -/
  | procFreepagetable (pagetable : Nat)
  /-- `ptdup_delete_all` ends. -/
  | retire (pagetable : Nat)
  | kalloc
  | kfree (pa : Nat)
  | store (page index value : Nat)

/-- One call. -/
def vmStep (world : World) : VmCall → Except Panic World
  | .allocpid => .ok { world with nextpid := world.nextpid + 1 }
  | .procPagetable trampoline tf => (world.procPagetable trampoline tf).map Prod.snd
  | .walk pagetable va alloc => (world.walk pagetable va alloc).map Prod.snd
  | .mappages pagetable va size pa perm => (world.mappages pagetable va size pa perm).map Prod.snd
  | .uvmunmap pagetable va size doFree => world.uvmunmap pagetable va size doFree
  | .uvmclear pagetable va => world.uvmclear pagetable va
  | .l0PtesAdd pagetable content flag => world.l0PtesAdd pagetable content flag
  | .procFreepagetable _ => .ok world
  | .retire pagetable => .ok (world.retire pagetable)
  | .kalloc => .ok ((world.kalloc.map Prod.snd).getD world)
  | .kfree pa => world.kfree pa
  | .store page index value => .ok (world.write page index value)

/-- The system with its history: `nextpid` when the table with an index was created, and
when the L1 table at an index of its L2 table was, and whether the table is taken down. No function
reads it. -/
structure VmState where
  world : World
  born : Nat → Nat
  bornL1 : Nat → Nat → Nat
  dying : Nat → Bool

namespace VmState

variable (state : VmState)

/-- A user page table that is not taken down. -/
def Live (pagetable : Nat) : Prop :=
  ∃ idx < ptdupSize, state.world.tables.idxPtdup idx ≠ 0 ∧ state.dying idx = false ∧
    state.world.tables.idxPtdup idx = pagetable

/-- A page of such a page table or of its duplicate. -/
def Owns (page : Nat) : Prop :=
  let tables := state.world.tables
  ∃ idx < ptdupSize, tables.idxPtdup idx ≠ 0 ∧ state.dying idx = false ∧
    (page = tables.idxPtdup idx ∨ page = (tables.head idx).l2 ∨ page = (tables.head idx).l1 ∨
      ∃ i < entrySize, isValid (tables.memory (tables.idxPtdup idx) i) = true ∧
        (page = pte2pa (tables.memory (tables.idxPtdup idx) i) ∨
          page = tables.memory (tables.head idx).l1 i ∨
          ∃ j < entrySize,
            page = pte2pa (tables.memory (pte2pa (tables.memory (tables.idxPtdup idx) i)) j)))

/-- A page of the rest of the kernel, of a user, or of a table that is taken down. -/
def Foreign (page : Nat) : Prop :=
  ¬state.Owns page ∧ ∀ free ∈ state.world.free, free.val ≠ page

end VmState

/-- Calls on page tables are on user page tables in use, and the pages that are freed or written
to outside these calls belong to no such table and are not free. `uvmunmap` frees no page
twice. -/
def Allowed (state : VmState) : VmCall → Prop
  | .walk pagetable _ _ => state.Live pagetable
  | .mappages pagetable _ _ _ _ => state.Live pagetable
  | .uvmunmap pagetable va size doFree => state.Live pagetable ∧
      (doFree = true →
        (World.freedPages pagetable (World.pageSteps va size) (pgrounddown va) state.world).Nodup ∧
        ∀ pa ∈ World.freedPages pagetable (World.pageSteps va size) (pgrounddown va) state.world,
          state.Foreign pa)
  | .uvmclear pagetable _ => state.Live pagetable
  | .l0PtesAdd pagetable _ _ => state.Live pagetable
  | .kfree pa => state.Foreign pa
  | .store page _ _ => state.Foreign page
  | _ => True

/-- No page becomes the root of a table while `idx_ptdup` still names it. -/
def FreshRoot (state : VmState) : VmCall → Prop
  | .procPagetable _ _ => ∀ page ∈ state.world.free.head?, ∀ idx < ptdupSize,
      state.world.tables.idxPtdup idx ≠ page.val
  | _ => True

/-- The step takes down the table with an index. -/
def VmCall.takesDown (world : World) (idx : Nat) : VmCall → Bool
  | .procFreepagetable pagetable => world.tables.ptdupIndex pagetable = some idx
  | _ => false

/-- Remember what a step has created, and what it takes down. -/
def VmState.record (state : VmState) (call : VmCall) (after : World) : VmState where
  world := after
  born idx := if state.world.tables.idxPtdup idx ≠ 0 then state.born idx else after.nextpid
  bornL1 idx i :=
    if state.world.tables.idxPtdup idx ≠ 0 ∧
        isValid (state.world.tables.memory (state.world.tables.idxPtdup idx) i) = true then
      state.bornL1 idx i
    else after.nextpid
  dying idx := state.world.tables.idxPtdup idx ≠ 0 &&
    (state.dying idx || call.takesDown state.world idx)

/-- The next state, unless the kernel panics. -/
def vmNext (state : VmState) (call : VmCall) : Option VmState :=
  match vmStep state.world call with
  | .ok after => some (state.record call after)
  | .error _ => none

/-- Before the first process there is no page table. -/
structure Fresh (world : World) : Prop where
  unused : ∀ idx, world.tables.idxPtdup idx = 0
  nextpid : world.nextpid = 1
  once : world.free.Nodup

/-- The runs of the system. -/
def vmSystem : LabelledSystem VmState VmCall where
  Initial state := Fresh state.world
  Step state call next := Allowed state call ∧ vmNext state call = some next

/-! ## The invariant -/

/-- The tables in use are those that `idx_ptdup` names and that are not taken down. -/
structure Serving (state : VmState) (place : Layout) : Prop where
  standing : ∀ idx < ptdupSize, state.world.tables.idxPtdup idx ≠ 0 →
    state.dying idx = false → Standing place idx
  serving : ∀ idx, Standing place idx → state.dying idx = false

/-- The trees are kept, and an L1 table is duplicated exactly when it was created after
the first process had created another one. -/
structure Dated (state : VmState) (place : Layout) : Prop where
  kept : Laid state.world place
  serving : Serving state place
  copied : ∀ idx i, (place (idx, .l1 i)).isSome →
    ((place (idx, .copy i)).isSome ↔ 2 < state.bornL1 idx i)
  order : ∀ idx i, (place (idx, .l1 i)).isSome → state.born idx ≤ state.bornL1 idx i
  past : ∀ idx, state.world.tables.idxPtdup idx ≠ 0 → state.born idx ≤ state.world.nextpid

section Invariant

variable {state : VmState} {after : World} {place later : Layout}

theorem Dated.owns (dated : Dated state place) {key : Nat × Role} {page : Page}
    (holds : place key = some page) : state.Owns page := by
  obtain ⟨idx, role⟩ := key
  obtain ⟨low, used⟩ := dated.kept.live idx role page holds
  have shows := dated.kept.shows idx low used
  have entered {i : Nat} {l1 : Page} (there : place (idx, .l1 i) = some l1) : i < entrySize ∧
      isValid (state.world.tables.memory (state.world.tables.idxPtdup idx) i) = true ∧
        pte2pa (state.world.tables.memory (state.world.tables.idxPtdup idx) i) = l1 := by
    have slot := shows.inside i l1 there
    rw [shows.entry i slot, there, isValid_pde, pte2pa_pde]
    exact ⟨slot, rfl, rfl⟩
  have above {i : Nat} (present : place (idx, .l1 i) ≠ none) :
      ∃ l1, place (idx, .l1 i) = some l1 := Option.ne_none_iff_exists'.mp present
  refine ⟨idx, low, dated.kept.index_ne_zero low used, dated.serving.serving idx used, ?_⟩
  cases role with
  | top =>
    obtain ⟨top, there, same⟩ := shows.top
    obtain rfl := Option.some.inj (there.symm.trans holds)
    exact .inl same.symm
  | topCopy =>
    obtain ⟨topCopy, there, same⟩ := shows.topCopy
    obtain rfl := Option.some.inj (there.symm.trans holds)
    exact .inr (.inl same.symm)
  | directory =>
    obtain ⟨directory, there, same⟩ := shows.directory
    obtain rfl := Option.some.inj (there.symm.trans holds)
    exact .inr (.inr (.inl same.symm))
  | l1 i =>
    obtain ⟨slot, valid, leads⟩ := entered holds
    exact .inr (.inr (.inr ⟨i, slot, valid, .inl leads.symm⟩))
  | copy i =>
    obtain ⟨l1, there⟩ := above fun none => by
      rw [(shows.below i none).1] at holds
      cases holds
    obtain ⟨slot, valid, -⟩ := entered there
    have listed := shows.listed i slot
    rw [holds] at listed
    exact .inr (.inr (.inr ⟨i, slot, valid, .inr (.inl listed.symm)⟩))
  | l0 i j =>
    obtain ⟨l1, there⟩ := above fun none => by
      rw [(shows.below i none).2] at holds
      cases holds
    obtain ⟨slot, valid, leads⟩ := entered there
    have low := shows.insideL0 i j page holds
    have entry := shows.inner i l1 there j low
    refine .inr (.inr (.inr ⟨i, slot, valid, .inr (.inr ⟨j, low, ?_⟩)⟩))
    rw [leads, entry, holds, pte2pa_pde]

theorem VmState.Foreign.disposable (dated : Dated state place) {pa : Nat}
    (foreign : state.Foreign pa) : Disposable state.world place pa :=
  ⟨fun _ _ holds same => foreign.1 (same ▸ dated.owns holds), foreign.2⟩

variable {call : VmCall}

/-- A step that takes no table down and leaves `idx_ptdup` alone. -/
theorem Serving.stay (serves : Serving state place)
    (quiet : ∀ idx, call.takesDown state.world idx = false)
    (index : after.tables.idxPtdup = state.world.tables.idxPtdup)
    (alike : ∀ idx, Standing later idx ↔ Standing place idx) :
    Serving (state.record call after) later where
  standing idx low used := by
    change after.tables.idxPtdup idx ≠ 0 at used
    rw [index] at used
    simp only [VmState.record, quiet, used, Bool.or_false, ne_eq, not_false_eq_true, decide_true,
      Bool.true_and]
    exact fun idle => (alike idx).mpr (serves.standing idx low used idle)
  serving idx stands := by
    simp only [VmState.record, quiet, serves.serving idx ((alike idx).mp stands), Bool.or_false,
      Bool.and_false]

/-- A step that opens, takes down or retires the table with one index. -/
theorem Serving.change (serves : Serving state place) {idx : Nat}
    (quiet : ∀ other ≠ idx, call.takesDown state.world other = false)
    (index : ∀ other ≠ idx, after.tables.idxPtdup other = state.world.tables.idxPtdup other)
    (alike : ∀ other ≠ idx, Standing later other ↔ Standing place other)
    (standing : after.tables.idxPtdup idx ≠ 0 → (state.record call after).dying idx = false →
      Standing later idx)
    (serving : Standing later idx → (state.record call after).dying idx = false) :
    Serving (state.record call after) later where
  standing other low used := by
    by_cases here : other = idx
    · exact here ▸ standing (here ▸ used)
    · change after.tables.idxPtdup other ≠ 0 at used
      rw [index other here] at used
      simp only [VmState.record, quiet other here, used, Bool.or_false, ne_eq, not_false_eq_true,
        decide_true, Bool.true_and]
      exact fun idle => (alike other here).mpr (serves.standing other low used idle)
  serving other stands := by
    by_cases here : other = idx
    · exact here ▸ serving (here ▸ stands)
    · simp only [VmState.record, quiet other here,
        serves.serving other ((alike other here).mp stands), Bool.or_false, Bool.and_false]

/-- The history is kept by every step whose new L1 tables are duplicated when they should
be. -/
theorem Dated.follow (dated : Dated state place) (kept : Laid after later)
    (serves : Serving (state.record call after) later)
    (monotone : state.world.nextpid ≤ after.nextpid) (follows : Follows after.nextpid place later) :
    Dated (state.record call after) later := by
  have before (idx i : Nat) (there : (place (idx, .l1 i)).isSome) :
      (state.record call after).born idx = state.born idx ∧
        (state.record call after).bornL1 idx i = state.bornL1 idx i := by
    obtain ⟨page, holds⟩ := isSome_iff_exists.mp there
    obtain ⟨low, used⟩ := dated.kept.live idx _ page holds
    have shows := dated.kept.shows idx low used
    have nonzero := dated.kept.index_ne_zero low used
    have valid : isValid (state.world.tables.memory (state.world.tables.idxPtdup idx) i) = true := by
      rw [shows.entry i (shows.inside i page holds), isValid_pde, there]
    exact ⟨if_pos nonzero, if_pos ⟨nonzero, valid⟩⟩
  have created (idx i : Nat) (none : place (idx, .l1 i) = none)
      (there : (later (idx, .l1 i)).isSome) :
      (state.record call after).bornL1 idx i = after.nextpid := by
    refine if_neg ?_
    rintro ⟨used, valid⟩
    obtain ⟨page, holds⟩ := isSome_iff_exists.mp there
    obtain ⟨low, live⟩ := kept.live idx _ page holds
    have slot := (kept.shows idx low live).inside i page holds
    -- a table that is taken down gets no new L1 table
    have idle : state.dying idx = false := by
      have still := serves.serving idx live
      simp only [VmState.record, used, ne_eq, not_false_eq_true, decide_true, Bool.true_and,
        Bool.or_eq_false_iff] at still
      exact still.1
    have stands := dated.serving.standing idx low used idle
    rw [(dated.kept.shows idx low stands).entry i slot, isValid_pde, none] at valid
    cases valid
  refine ⟨kept, serves, fun idx i there => ?_, fun idx i there => ?_, fun idx used => ?_⟩
  · cases held : place (idx, .l1 i) with
    | none =>
      rw [created idx i held there]
      exact follows.new idx i held there
    | some page =>
      have old : (place (idx, .l1 i)).isSome := by simp [held]
      rw [(before idx i old).2, follows.old idx i old there]
      exact dated.copied idx i old
  · cases held : place (idx, .l1 i) with
    | none =>
      rw [created idx i held there]
      by_cases live : state.world.tables.idxPtdup idx = 0
      · exact le_of_eq (if_neg fun used => used live)
      · exact le_of_eq_of_le (if_pos live) ((dated.past idx live).trans monotone)
    | some page =>
      have old : (place (idx, .l1 i)).isSome := by simp [held]
      rw [(before idx i old).1, (before idx i old).2]
      exact dated.order idx i old
  · by_cases live : state.world.tables.idxPtdup idx = 0
    · exact le_of_eq (if_neg fun used => used live)
    · exact le_of_eq_of_le (if_pos live) ((dated.past idx live).trans monotone)

theorem Dated.stay (dated : Dated state place) (kept : Laid after place)
    (quiet : ∀ idx, call.takesDown state.world idx = false)
    (index : after.tables.idxPtdup = state.world.tables.idxPtdup)
    (monotone : state.world.nextpid ≤ after.nextpid) : Dated (state.record call after) place :=
  dated.follow kept (dated.serving.stay quiet index fun _ => Iff.rfl) monotone (.refl _ _)

/-- A step after which the tree of a table in use has grown. -/
theorem Dated.advance {idx : Nat} (dated : Dated state place)
    (quiet : ∀ idx, call.takesDown state.world idx = false) (used : Standing place idx)
    (advance : Advance idx state.world after place later) :
    Dated (state.record call after) later := by
  refine dated.follow advance.kept (dated.serving.stay quiet advance.steady.index fun other => ?_)
    (le_of_eq advance.steady.nextpid.symm) (advance.steady.nextpid ▸ advance.grown.follows)
  by_cases here : other = idx
  · exact here ▸ iff_of_true (advance.used used) used
  · rw [Standing, Standing, advance.grown.others other .top here]

/-- A user page table that is not taken down is in use. -/
theorem Dated.standing (dated : Dated state place) {pagetable : Nat} (live : state.Live pagetable) :
    ∃ idx < ptdupSize, Standing place idx ∧ state.world.tables.idxPtdup idx = pagetable := by
  obtain ⟨idx, low, used, idle, same⟩ := live
  exact ⟨idx, low, dated.serving.standing idx low used idle, same⟩

/-- `ptdup_delete_all` takes the table with one index out of `idx_ptdup`. -/
theorem Dated.retire (dated : Dated state place) (pagetable : Nat) :
    ∃ later, Dated (state.record (.retire pagetable) (state.world.retire pagetable)) later := by
  cases found : state.world.tables.ptdupIndex pagetable with
  | none =>
    have same : state.world.retire pagetable = state.world := by
      rw [World.retire, found]
    rw [same]
    exact ⟨place, dated.stay dated.kept (fun _ => rfl) rfl le_rfl⟩
  | some idx =>
    obtain ⟨kept, nextpid⟩ := retire_spec dated.kept found
    have index (other : Nat) (different : other ≠ idx) :
        (state.world.retire pagetable).tables.idxPtdup other =
          state.world.tables.idxPtdup other := by
      simp [World.retire, found, different]
    refine ⟨closed place idx, dated.follow kept ?_ (le_of_eq nextpid.symm) (closed_follows _)⟩
    refine dated.serving.change (fun _ _ => rfl) index (fun _ => standing_closed) ?_ ?_
    · intro used
      simp [World.retire, found] at used
    · exact fun stands => absurd rfl (ne_of_standing_closed stands)

/-- `proc_freepagetable` takes the table with one index down. -/
theorem Dated.procFreepagetable (dated : Dated state place) (pagetable : Nat) :
    ∃ later, Dated (state.record (.procFreepagetable pagetable) state.world) later := by
  cases found : state.world.tables.ptdupIndex pagetable with
  | none =>
    exact ⟨place, dated.stay dated.kept (fun _ => by simp [VmCall.takesDown, found]) rfl le_rfl⟩
  | some idx =>
    refine ⟨closed place idx, dated.follow dated.kept.close ?_ le_rfl (closed_follows _)⟩
    refine dated.serving.change (fun other different => ?_) (fun _ _ => rfl)
      (fun _ => standing_closed) ?_ ?_
    · simp [VmCall.takesDown, found, different.symm]
    · intro used idle
      simp [VmState.record, VmCall.takesDown, found, used] at idle
    · exact fun stands => absurd rfl (ne_of_standing_closed stands)

theorem dated_step (dated : Dated state place) (allowed : Allowed state call)
    (fresh : FreshRoot state call) (done : vmStep state.world call = .ok after) :
    ∃ later, Dated (state.record call after) later := by
  have kept := dated.kept
  cases call with
  | allocpid =>
    obtain rfl := Except.ok.inj done
    refine ⟨place, dated.stay ⟨kept.apart, kept.live, kept.shows, kept.single, kept.once,
      kept.free, ?_⟩ (fun _ => rfl) rfl (Nat.le_succ _)⟩
    exact fun idx i page holds => Nat.lt_succ_of_lt (kept.recorded idx i page holds)
  | procPagetable trampoline tf =>
    obtain ⟨⟨pagetable, world⟩, created, rfl⟩ := map_eq_ok.mp done
    obtain ⟨later, idx, opens⟩ := procPagetable_spec kept fresh created
    refine ⟨later, dated.follow opens.kept ?_ (le_of_eq opens.nextpid.symm)
      (opens.nextpid ▸ opens.follows)⟩
    refine dated.serving.change (fun _ _ => rfl) opens.index opens.others ?_ ?_
    · exact fun _ _ => opens.stands
    · intro _
      simp [VmState.record, opens.unused]
  | walk pagetable va alloc =>
    obtain ⟨idx, low, used, rfl⟩ := dated.standing allowed
    obtain ⟨⟨pte, world⟩, walked, rfl⟩ := map_eq_ok.mp done
    obtain ⟨later, advance, -⟩ := walk_spec kept low used walked
    exact ⟨later, dated.advance (fun _ => rfl) used advance⟩
  | mappages pagetable va size pa perm =>
    obtain ⟨idx, low, used, rfl⟩ := dated.standing allowed
    obtain ⟨⟨res, world⟩, mapped, rfl⟩ := map_eq_ok.mp done
    obtain ⟨later, advance⟩ := mappages_spec kept low used mapped
    exact ⟨later, dated.advance (fun _ => rfl) used advance⟩
  | uvmunmap pagetable va size doFree =>
    obtain ⟨live, frees⟩ := allowed
    obtain ⟨idx, low, used, rfl⟩ := dated.standing live
    obtain ⟨keptAfter, steady⟩ := uvmunmap_spec kept low used (fun free => (frees free).1)
      (fun free pa member => ((frees free).2 pa member).disposable dated) done
    exact ⟨place, dated.stay keptAfter (fun _ => rfl) steady.index
      (le_of_eq steady.nextpid.symm)⟩
  | uvmclear pagetable va =>
    obtain ⟨idx, low, used, rfl⟩ := dated.standing allowed
    obtain ⟨later, advance⟩ := uvmclear_spec kept low used done
    exact ⟨later, dated.advance (fun _ => rfl) used advance⟩
  | l0PtesAdd pagetable content flag =>
    have idle := l0PtesAdd_idle done
    exact ⟨place, dated.stay (kept.idle idle) (fun _ => rfl) idle.steady.index
      (le_of_eq idle.steady.nextpid.symm)⟩
  | procFreepagetable pagetable =>
    obtain rfl := Except.ok.inj done
    exact dated.procFreepagetable pagetable
  | retire pagetable =>
    obtain rfl := Except.ok.inj done
    exact dated.retire pagetable
  | kalloc =>
    obtain rfl := Except.ok.inj done
    cases answer : state.world.kalloc with
    | none => exact ⟨place, dated.stay kept (fun _ => rfl) rfl le_rfl⟩
    | some given =>
      obtain ⟨page, world⟩ := given
      obtain ⟨keptAfter, -, leaves⟩ := kalloc_spec kept answer
      exact ⟨place, dated.stay keptAfter (fun _ => rfl) leaves.steady.index
        (le_of_eq leaves.steady.nextpid.symm)⟩
  | kfree pa =>
    obtain ⟨keptAfter, steady, -⟩ := kfree_spec kept (allowed.disposable dated) done
    exact ⟨place, dated.stay keptAfter (fun _ => rfl) steady.index
      (le_of_eq steady.nextpid.symm)⟩
  | store page index value =>
    obtain rfl := Except.ok.inj done
    have keptAfter := kept.store index value (allowed.disposable dated).unheld
    exact ⟨place, dated.stay keptAfter (fun _ => rfl) rfl le_rfl⟩

/-- The invariant holds in every state that is reached without taking a root that `idx_ptdup`
still names. -/
theorem dated_of_run {calls : List VmCall} (runs : (vmSystem.guarded FreshRoot).Runs calls state) :
    ∃ place, Dated state place := by
  refine runs.invariant (fun state => ∃ place, Dated state place) ?_ ?_
  · intro state fresh
    have nowhere (idx : Nat) : ¬Standing (fun _ => none) idx := by
      rintro ⟨page, holds⟩
      cases holds
    refine ⟨fun _ => none, ⟨separate_none, fun _ _ _ none => ?_, fun idx _ used => ?_,
      fun idx _ _ _ used => ?_, fresh.once, fun _ _ _ none => ?_, fun _ _ _ none => ?_⟩,
      ⟨fun idx _ used => ?_, fun idx used => ?_⟩, fun _ _ none => ?_, fun _ _ none => ?_,
      fun idx used => ?_⟩
    · cases none
    · exact absurd used (nowhere idx)
    · exact absurd (fresh.unused idx) used
    · cases none
    · cases none
    · exact absurd (fresh.unused idx) used
    · exact absurd used (nowhere idx)
    · cases none
    · cases none
    · exact absurd (fresh.unused idx) used
  · rintro state call next ⟨place, dated⟩ ⟨unshared, allowed, taken⟩
    unfold vmNext at taken
    split at taken
    · next after done =>
       cases taken
       exact dated_step dated allowed unshared done
    · cases taken

end Invariant

/-! ## What the duplicate is for -/

/-- The upper levels of the duplicate are those of the table. -/
structure Mirrored (tables : Tables) (idx : Nat) : Prop where
  l2 : ∀ i < entrySize, tables.memory (tables.head idx).l2 i =
    tables.memory (tables.idxPtdup idx) i
  l1 : ∀ i < entrySize, isValid (tables.memory (tables.idxPtdup idx) i) = true →
    IsPage (tables.memory (tables.head idx).l1 i) ∧
      ∀ j < entrySize, tables.memory (tables.memory (tables.head idx).l1 i) j =
        tables.memory (pte2pa (tables.memory (tables.idxPtdup idx) i)) j

theorem memmovePage_self (memory : PageMemory Nat) (target source : Nat) {n : Nat}
    (inside : n < entrySize) : memmovePage memory target source target n = memory source n := by
  simp [memmovePage, inside]

/-- A page is overwritten by a memory error, and the handler has cleared another one. -/
def Tables.struck (tables : Tables) (page : Nat) (content : Nat → Nat) (new : Page) : Tables :=
  { tables with memory := Function.update tables.memory page content }.cleared new

/-- Whatever a memory error leaves of the L2 table or of an L1 table, its recovery with
any free page gives back all entries. -/
structure Restores (world : World) (idx : Nat) : Prop where
  l2 : ∀ content, ∀ new ∈ world.free, ∀ j < entrySize,
    (recoveryL2 (world.tables.struck (world.tables.idxPtdup idx) content new) idx
        (world.tables.idxPtdup idx) new).1.memory new j =
      world.tables.memory (world.tables.idxPtdup idx) j
  l1 : ∀ i < entrySize, isValid (world.tables.memory (world.tables.idxPtdup idx) i) = true →
    ∀ address, address = pte2pa (world.tables.memory (world.tables.idxPtdup idx) i) →
    ∀ content, ∀ new ∈ world.free, ∀ mode ret, ∃ after,
      recoveryL1 mode ret (world.tables.struck address content new) idx address new
          (world.tables.idxPtdup idx) = (ret, after) ∧
        ∀ j < entrySize, after.memory new j = world.tables.memory address j

section Restore

variable {world : World} {place : Layout} {idx : Nat} (kept : Laid world place)
  (low : idx < ptdupSize) (used : Standing place idx)

include kept

/-- A memory error in one page of a table leaves the others as they are. -/
theorem Laid.struck_other {broken : Nat × Role} {page : Page} (holds : place broken = some page)
    (content : Nat → Nat) {new : Page} (free : new ∈ world.free) {key : Nat × Role} {other : Page}
    (there : place key = some other) (different : key ≠ broken) :
    (world.tables.struck page content new).memory other = world.tables.memory other := by
  have apart := kept.val_ne there holds different
  have unheld := Unheld.val_ne (kept.free new free) key other there
  simp only [Tables.struck, Tables.cleared]
  rw [memsetPage_of_ne _ _ unheld, Function.update_of_ne apart]

include low used

variable (copied : ∀ i, (place (idx, .l1 i)).isSome → (place (idx, .copy i)).isSome)

include copied

/-- A table all of whose L1 tables are duplicated is mirrored. -/
theorem Laid.mirrored : Mirrored world.tables idx := by
  have shows := kept.shows idx low used
  constructor
  · intro i inside
    rw [shows.copied i inside, shows.entry i inside]
    cases held : place (idx, .l1 i) with
    | none => simp [pde]
    | some page => rw [if_pos (copied i (by simp [held]))]
  · intro i inside valid
    rw [shows.entry i inside, isValid_pde] at valid
    obtain ⟨l1, held⟩ := isSome_iff_exists.mp valid
    obtain ⟨copy, there⟩ := isSome_iff_exists.mp (copied i valid)
    rw [shows.listed i inside, there, shows.entry i inside, held, pte2pa_pde]
    refine ⟨copy.property, fun j low => ?_⟩
    rw [address, shows.innerCopy i copy there j low, shows.inner i l1 held j low]

/-- The recovery of a table all of whose L1 tables are duplicated. -/
theorem Laid.restores : Restores world idx := by
  have shows := kept.shows idx low used
  have mirrored := kept.mirrored low used copied
  obtain ⟨top, atTop, isTop⟩ := shows.top
  obtain ⟨topCopy, atCopy, isCopy⟩ := shows.topCopy
  obtain ⟨directory, atDirectory, isDirectory⟩ := shows.directory
  constructor
  · intro content new free j inside
    have read := kept.struck_other atTop content free atCopy (by simp)
    have same := mirrored.l2 j inside
    rw [isCopy, isTop] at same
    simp only [recoveryL2]
    rw [memmovePage_self _ _ _ inside, isTop,
      show ((world.tables.struck top content new).head idx).l2 = topCopy from isCopy, read, same]
  · intro i inside valid broken leads content new free mode ret
    rw [shows.entry i inside, isValid_pde] at valid
    obtain ⟨l1, held⟩ := isSome_iff_exists.mp valid
    obtain ⟨copy, there⟩ := isSome_iff_exists.mp (copied i valid)
    rw [shows.entry i inside, held, pte2pa_pde] at leads
    subst leads
    have readCopy := kept.struck_other held content free atCopy (by simp)
    have readDirectory := kept.struck_other held content free atDirectory (by simp)
    have readTarget := kept.struck_other held content free there (by simp)
    have found : searchL1 (world.tables.struck l1 content new) idx l1 = some i := by
      have search := kept.search_l2Copy low used held
      rw [if_pos (copied i valid), isCopy] at search
      rw [searchL1, show ((world.tables.struck l1 content new).head idx).l2 = topCopy from isCopy,
        readCopy]
      exact search
    have target : (world.tables.struck l1 content new).memory
        ((world.tables.struck l1 content new).head idx).l1 i = copy := by
      have listed := shows.listed i inside
      rw [isDirectory, there] at listed
      rw [show ((world.tables.struck l1 content new).head idx).l1 = directory from isDirectory,
        readDirectory]
      exact listed
    have newTop := Unheld.val_ne (kept.free new free) _ _ atTop
    have newCopy := Unheld.val_ne (kept.free new free) _ _ atCopy
    unfold recoveryL1
    rw [found]
    simp only [target, copy.property.ne_zero, if_false,
      memmovePage_checked (world.tables.struck l1 content new).memory new copy]
    refine ⟨_, rfl, fun j low => ?_⟩
    rw [show ((world.tables.struck l1 content new).head idx).l2 = topCopy from isCopy, isTop]
    simp only [PageMemory.write_of_page_ne _ _ _ newCopy.symm,
      PageMemory.write_of_page_ne _ _ _ newTop.symm]
    rw [memmovePage_self _ _ _ low, readTarget, shows.innerCopy i copy there j low,
      shows.inner i l1 held j low]

end Restore

/-- In every run in which no root is taken that `idx_ptdup` still names, the duplicate of a page
table that was created when `nextpid` was above 2, and that is not taken down, has all its upper
levels, and the recovery of its L2 table and of its L1 tables is exact. -/
theorem duplicate_exact {calls : List VmCall} {state : VmState}
    (runs : (vmSystem.guarded FreshRoot).Runs calls state) {idx : Nat} (low : idx < ptdupSize)
    (used : state.world.tables.idxPtdup idx ≠ 0) (idle : state.dying idx = false)
    (late : 2 < state.born idx) :
    Mirrored state.world.tables idx ∧ Restores state.world idx := by
  obtain ⟨place, dated⟩ := dated_of_run runs
  have stands := dated.serving.standing idx low used idle
  have copied (i : Nat) (there : (place (idx, .l1 i)).isSome) : (place (idx, .copy i)).isSome :=
    (dated.copied idx i there).mpr (Nat.lt_of_lt_of_le late (dated.order idx i there))
  exact ⟨dated.kept.mirrored low stands copied, dated.kept.restores low stands copied⟩

instance (state : VmState) (pagetable : Nat) : Decidable (state.Live pagetable) := by
  unfold VmState.Live
  infer_instance

instance (state : VmState) (call : VmCall) : Decidable (FreshRoot state call) := by
  cases call <;> unfold FreshRoot <;> infer_instance

/-- A step of one of the calls that create and extend page tables. A page is freed when no table
is in use. -/
def extendStep (state : VmState) : VmCall → Option VmState
  | .allocpid => vmNext state .allocpid
  | .procPagetable trampoline tf => vmNext state (.procPagetable trampoline tf)
  | .mappages pagetable va size pa perm =>
    if state.Live pagetable then vmNext state (.mappages pagetable va size pa perm) else none
  | .procFreepagetable pagetable => vmNext state (.procFreepagetable pagetable)
  | .kfree pa =>
    if (∀ idx < ptdupSize, state.world.tables.idxPtdup idx ≠ 0 → state.dying idx = true) ∧
        ∀ free ∈ state.world.free, free.val ≠ pa then vmNext state (.kfree pa)
    else none
  | _ => none

theorem extendStep_sound (state : VmState) (call : VmCall) (next : VmState)
    (taken : extendStep state call = some next) : vmSystem.Step state call next := by
  unfold extendStep at taken
  split at taken
  · exact ⟨trivial, taken⟩
  · exact ⟨trivial, taken⟩
  · obtain ⟨live, mapped⟩ := Option.ite_none_right_eq_some.mp taken
    exact ⟨live, mapped⟩
  · exact ⟨trivial, taken⟩
  · obtain ⟨⟨dying, allocated⟩, freed⟩ := Option.ite_none_right_eq_some.mp taken
    refine ⟨⟨?_, allocated⟩, freed⟩
    rintro ⟨idx, low, used, idle, -⟩
    rw [dying idx low used] at idle
    cases idle
  · cases taken

/-- A system with twelve free pages. -/
def sampleVm : VmState where
  world :=
    { tables := ⟨fun _ _ => 0, fun _ => ⟨0, 0, none, none⟩, fun _ => 0⟩
      nextpid := 1
      free := (List.finRange 12).map fun number =>
        ⟨kernbase + number.val * pgsize, by rw [kernbase_eq, pgsize_eq]; decide +revert⟩
      kernelEnd := kernbase
      mlistFull := [] }
  born _ := 0
  bornL1 _ _ := 0
  dying _ := false

theorem fresh_sampleVm : Fresh sampleVm.world := ⟨fun _ => rfl, rfl, by decide⟩

/-- The second process, and a page at address 0. -/
def sampleCalls : List VmCall :=
  [.allocpid, .allocpid, .procPagetable 0x87000000 0x87001000,
    .mappages kernbase 0 pgsize 0x87002000 (pteR ||| pteW ||| pteU)]

theorem duplicate_exact_sample : ∃ state, (vmSystem.guarded FreshRoot).Runs sampleCalls state ∧
    Mirrored state.world.tables 0 ∧ Restores state.world 0 := by
  have found : (LabelledSystem.exec (LabelledSystem.checked FreshRoot extendStep) sampleVm
      sampleCalls).any (fun state => decide (state.world.tables.idxPtdup 0 ≠ 0 ∧
        state.dying 0 = false ∧ 2 < state.born 0)) = true := by
    decide +kernel
  obtain ⟨state, result, holds⟩ := (any_eq_true _ _).mp found
  obtain ⟨used, idle, late⟩ := of_decide_eq_true holds
  have runs := LabelledSystem.Runs.of_checked extendStep_sound fresh_sampleVm result
  exact ⟨state, runs, duplicate_exact runs (by decide) used idle late⟩

/-- `freewalk` gives back the pages of the second process, and its root becomes that of the third
process before `ptdup_delete_all`. -/
def rootReusedCalls : List VmCall :=
  [.allocpid, .allocpid, .procPagetable 0x87000000 0x87001000, .procFreepagetable kernbase,
    .kfree (kernbase + 7 * pgsize), .kfree (kernbase + 5 * pgsize), .kfree kernbase, .allocpid,
    .procPagetable 0x87000000 0x87001000]

theorem mirror_lost : ¬∀ calls state, vmSystem.Runs calls state → ∀ idx < ptdupSize,
    state.world.tables.idxPtdup idx ≠ 0 → state.dying idx = false → 2 < state.born idx →
      Mirrored state.world.tables idx ∧ Restores state.world idx := by
  intro always
  have found : (LabelledSystem.exec extendStep sampleVm rootReusedCalls).any (fun state =>
      decide (state.world.tables.idxPtdup 1 ≠ 0 ∧ state.dying 1 = false ∧ 2 < state.born 1 ∧
        state.world.tables.memory (state.world.tables.head 1).l2 255 ≠
          state.world.tables.memory (state.world.tables.idxPtdup 1) 255)) = true := by
    decide +kernel
  obtain ⟨state, result, holds⟩ := (any_eq_true _ _).mp found
  obtain ⟨used, idle, late, different⟩ := of_decide_eq_true holds
  have start : vmSystem.Runs [] sampleVm := .initial fresh_sampleVm
  have runs := start.append_exec (fun state call next _ => extendStep_sound state call next) result
  exact different ((always _ state runs 1 (by decide) used idle late).1.l2 255 (by decide))

end Ev6.PageTable
