import Ev6.PageTable.Leaves
import Ev6.PageTable.Lifetimes
import Ev6.Support.LabelledSystem

/-!
# What page tables translate

A page table starts empty and is then only changed by `walk`, `mappages` and `uvmunmap`,
while the rest of the kernel takes and gives back pages and writes to its own. In every
such run `mappages` maps the pages of its range and `uvmunmap` unmaps them, no other
address is affected, and the table pages are distinct.
-/

namespace Ev6.PageTable

open Support

/-! ## The calls -/

/-- A call on a page table, or a step of the rest of the kernel. -/
inductive TableCall
  | walk (va : Nat) (alloc : Bool)
  | mappages (va size pa perm : Nat)
  | uvmunmap (va size : Nat) (doFree : Bool)
  | kalloc
  | kfree (pa : Nat)
  | store (page index value : Nat)
  | l0PtesAdd (content : Nat) (flag : Bool)
  | allocpid

/-- One step. There is none where the call panics. -/
def TableCall.step (root : Nat) (world : World) : TableCall → Option World
  | .walk va alloc => (world.walk root va alloc).toOption.map Prod.snd
  | .mappages va size pa perm => (world.mappages root va size pa perm).toOption.map Prod.snd
  | .uvmunmap va size doFree => (world.uvmunmap root va size doFree).toOption
  | .kalloc => world.kalloc.map Prod.snd
  | .kfree pa => (world.kfree pa).toOption
  | .store page index value => some (world.write page index value)
  | .l0PtesAdd content flag => (world.l0PtesAdd root content flag).toOption
  | .allocpid => some { world with nextpid := world.nextpid + 1 }

/-- The number of the first page of a range. -/
def firstPage (va : Nat) : Nat := pgrounddown va / pgsize

/-- The number of pages that the loops visit. -/
def pageCount (va size : Nat) : Nat := World.pageSteps va size + 1

/-- The permissions allow something, what is freed is used for nothing else, and the rest
of the kernel keeps to its own pages. -/
def TableCall.Proper (root : Nat) (world : World) : TableCall → Prop
  | .mappages _ _ pa perm => pa < 2 ^ 64 ∧ perm &&& (pteR ||| pteW ||| pteX) ≠ 0
  | .uvmunmap va size doFree =>
    doFree = true → Releasable world root (firstPage va) (pageCount va size)
  | .kfree pa => world.InUseElsewhere root pa
  | .store page _ _ => page ∉ world.tablePages root ∧ page ∉ world.duplicatePages root
  | _ => True

instance (root : Nat) (world : World) (call : TableCall) :
    Decidable (TableCall.Proper root world call) := by
  cases call <;> unfold TableCall.Proper <;> infer_instance

/-- The duplicate of an empty page table is empty, and its pages are not free. -/
structure BlankDuplicate (world : World) (root : Nat) (head : PtdupHead) : Prop where
  distinct : head.l2 ≠ head.l1
  apart : head.l2 ≠ root ∧ head.l1 ≠ root
  taken : ∀ page ∈ world.free, page.val ≠ head.l2 ∧ page.val ≠ head.l1
  zero : ∀ i < entrySize, world.tables.memory head.l2 i = 0 ∧ world.tables.memory head.l1 i = 0

/-- An empty page table, with an empty duplicate if it has one. -/
structure EmptyTable (root : Page) (world : World) : Prop where
  zero : ∀ i < entrySize, world.tables.memory root i = 0
  once : world.free.Nodup
  taken : root ∉ world.free
  duplicate : ∀ idx, world.tables.ptdupIndex root = some idx →
    BlankDuplicate world root (world.tables.head idx)

/-- The runs of the calls on an empty page table. -/
def tableCalls (root : Page) : LabelledSystem World TableCall :=
  .ofFunction (EmptyTable root) (TableCall.step root)

/-- The duplicate has a copy of each L1 table. -/
def World.Duplicated (world : World) (root : Nat) : Prop :=
  ∃ idx, world.tables.ptdupIndex root = some idx ∧ ∀ i < entrySize,
    world.tables.memory (world.tables.head idx).l2 i = world.tables.memory root i ∧
      (isValid (world.tables.memory root i) = true →
        world.tables.memory (world.tables.head idx).l1 i ≠ 0)

/-- The addresses of the pages of a range. -/
def InRange (va size a : Nat) : Prop :=
  pgrounddown va ≤ a ∧ a < pgrounddown (va + size - 1) + pgsize

instance (va size a : Nat) : Decidable (InRange va size a) := by
  unfold InRange
  infer_instance

/-- The pages of a range are mapped in order, and nothing else changes. -/
structure MapsRange (before after : World) (root va size pa perm : Nat) : Prop where
  inside : ∀ a, InRange va size a → ∃ pte, after.translation root a = some pte ∧
    pte2pa pte = (pa + (pgrounddown a - pgrounddown va)) % 2 ^ 64 ∧
    pteFlags pte = perm ||| pteV
  outside : ∀ a, ¬InRange va size a → after.translation root a = before.translation root a

/-! ## Where an empty table comes from -/

section Start

variable {world after : World} {root : Page}

/-- The tree of an empty page table. -/
def bare (root : Page) : NodeTree Page := fun path => if path = [] then some root else none

theorem bare_eq_some {path : List Nat} {page : Page} :
    bare root path = some page ↔ path = [] ∧ root = page := by
  unfold bare
  split_ifs with top
  · simp [top]
  · simp [top]

theorem EmptyTable.rooted (empty : EmptyTable root world) : Rooted world root (bare root) where
  top := rfl
  holds := by
    constructor
    · intro first second page one two
      rw [(bare_eq_some.mp one).1, (bare_eq_some.mp two).1]
    · intro path page there _ slot low
      obtain ⟨rfl, rfl⟩ := bare_eq_some.mp there
      exact empty.zero slot low
    · intro slot path page there
      cases (bare_eq_some.mp there).1
  once := empty.once
  free page member path there := by
    obtain ⟨-, rfl⟩ := bare_eq_some.mp there
    exact empty.taken member
  beside := by
    have pages (address : Nat) (member : address ∈ world.duplicatePages root) :
        address ≠ root ∧ ∀ page ∈ world.free, page.val ≠ address := by
      cases index : world.tables.ptdupIndex root with
      | none => simp [World.duplicatePages, index] at member
      | some idx =>
        have blank := empty.duplicate idx index
        rcases (mem_duplicatePages index).mp member with rfl | rfl | ⟨i, low, rfl, nonzero⟩
        · exact ⟨blank.apart.1, fun page free => (blank.taken page free).1⟩
        · exact ⟨blank.apart.2, fun page free => (blank.taken page free).2⟩
        · exact absurd (blank.zero i low).2 nonzero
    constructor
    · intro address member path page there same
      obtain ⟨-, rfl⟩ := bare_eq_some.mp there
      exact (pages address member).1 same.symm
    · exact fun address member => (pages address member).2
    · exact fun idx index => (empty.duplicate idx index).distinct
    · exact fun idx index i low nonzero => absurd ((empty.duplicate idx index).zero i low).2 nonzero

theorem EmptyTable.covered (empty : EmptyTable root world) {idx : Nat}
    (index : world.tables.ptdupIndex root = some idx) : Covered world root (bare root) idx where
  index := index
  copied i low := ((empty.duplicate idx index).zero i low).1
  listed i isSome := by cases isSome

theorem EmptyTable.space (empty : EmptyTable root world) (n : Nat) : world.space root n = none := by
  by_cases low : n * pgsize < maxva
  · rw [empty.rooted.space_eq low]
    rfl
  · exact translation_high _ _ _ (Nat.not_lt.mp low)

/-- `uvmcreate` makes an empty page table, which has no duplicate yet. -/
theorem emptyTable_uvmcreate (once : world.free.Nodup)
    (unused : world.tables.ptdupIndex root = none) (answer : world.kalloc = some (root, after)) :
    EmptyTable root (after.memset root 0) := by
  obtain ⟨free, steady, -⟩ := kalloc_eq_some answer
  rw [free, List.nodup_cons] at once
  refine ⟨fun i low => memsetPage_self _ _ _ low, once.2, once.1, fun idx index => ?_⟩
  have same : (after.memset root 0).tables.ptdupIndex root = world.tables.ptdupIndex root :=
    steady.ptdupIndex root
  rw [same, unused] at index
  cases index

/-- `ptdup_init` gives it an empty duplicate. -/
theorem emptyTable_ptdupInit {place : Layout} (kept : Laid world place)
    (spare : Spare world place root) (zero : ∀ n < entrySize, world.tables.memory root n = 0)
    (fresh : ∀ other < ptdupSize, world.tables.idxPtdup other ≠ root)
    (done : world.ptdupInit root = .ok after) : EmptyTable root after := by
  obtain ⟨idx, low, unused, updated, -, topCopy, directory, laid⟩ :=
    ptdupInit_spec kept spare zero fresh done
  have index : after.tables.idxPtdup idx = root := by
    rw [updated, Function.update_self]
  have used : Standing (opened place idx root topCopy directory) idx := ⟨root, by simp [opened]⟩
  have dead (role : Role) : place (idx, role) = none := kept.dead unused role
  have shows := laid.shows idx low used
  have noL1 (i : Nat) : opened place idx root topCopy directory (idx, .l1 i) = none := by
    simp [opened, dead]
  have noCopy (i : Nat) : opened place idx root topCopy directory (idx, .copy i) = none := by
    simp [opened, dead]
  have atTop : opened place idx root topCopy directory (idx, .top) = some root := by
    simp [opened]
  obtain ⟨copy, atCopy, isCopy⟩ := shows.topCopy
  obtain ⟨array, atArray, isArray⟩ := shows.directory
  refine ⟨fun i inside => ?_, laid.once, fun member => laid.free root member _ atTop,
    fun key found => ?_⟩
  · rw [← index, shows.entry i inside, noL1]
    rfl
  · have scanned := laid.ptdupIndex_eq low used
    rw [index, found] at scanned
    cases scanned
    refine ⟨?_, ⟨?_, ?_⟩, fun page member => ⟨?_, ?_⟩, fun i inside => ⟨?_, ?_⟩⟩
    · rw [isCopy, isArray]
      exact laid.val_ne atCopy atArray (by simp)
    · rw [isCopy]
      exact laid.val_ne atCopy atTop (by simp)
    · rw [isArray]
      exact laid.val_ne atArray atTop (by simp)
    · rw [isCopy]
      exact fun same => laid.free page member _ (Subtype.ext same ▸ atCopy)
    · rw [isArray]
      exact fun same => laid.free page member _ (Subtype.ext same ▸ atArray)
    · rw [shows.copied i inside, noCopy]
      rfl
    · rw [shows.listed i inside, noCopy]
      rfl

end Start

/-! ## Entries and ranges -/

section Entries

/-- The permissions that a leaf has. -/
def rwx : Nat := pteR ||| pteW ||| pteX

variable {pa perm : Nat}

theorem pteFlags_leaf_ne (allows : perm &&& rwx ≠ 0) : pteFlags (leaf pa perm) ≠ pteV := by
  intro bare
  have masked : leaf pa perm &&& rwx = 0 := by
    have both : pteFlags (leaf pa perm) &&& rwx = leaf pa perm &&& rwx := by
      rw [pteFlags, Nat.and_assoc]
      rfl
    rw [← both, bare]
    rfl
  rw [leaf, Nat.and_or_distrib_right, Nat.and_or_distrib_right, Nat.or_eq_zero_iff,
    Nat.or_eq_zero_iff] at masked
  exact allows masked.1.2

theorem leaf_fields (aligned : pa % pgsize = 0) (word : pa < 2 ^ 64)
    (flags : perm < 2 ^ 10) : pte2pa (leaf pa perm) = pa ∧ pteFlags (leaf pa perm) = perm ||| pteV := by
  have small : perm ||| pteV < 2 ^ 10 := Nat.or_lt_two_pow flags (by decide)
  have high : 2 ^ 10 ∣ pa2pte pa := by
    rw [pa2pte, Nat.shiftLeft_eq]
    exact Nat.dvd_mul_left _ _
  have split : leaf pa perm = pa2pte pa + (perm ||| pteV) := by
    rw [leaf, Nat.or_assoc, or_eq_add high small]
  rw [pgsize_eq] at aligned
  have number : pa2pte pa = pa / 2 ^ 12 * 2 ^ 10 := by
    rw [pa2pte, Nat.shiftLeft_eq, Nat.shiftRight_eq_div_pow]
  constructor
  · rw [pte2pa, split, Nat.shiftLeft_eq, Nat.shiftRight_eq_div_pow, number]
    omega
  · have mask : pteFlags (leaf pa perm) = leaf pa perm % 2 ^ 10 :=
      Nat.and_two_pow_sub_one_eq_mod _ 10
    rw [mask, split, number]
    omega

theorem pgrounddown_mod (va : Nat) : pgrounddown va % pgsize = 0 := by
  have low : (va &&& (2 ^ 64 - 2 ^ 12)) % 2 ^ 12 = 0 := by
    rw [Nat.and_mod_two_pow]
    simp
  exact low

theorem firstPage_mul (va : Nat) : firstPage va * pgsize = pgrounddown va :=
  Nat.div_mul_cancel (Nat.dvd_of_mod_eq_zero (pgrounddown_mod va))

variable {va size : Nat}

/-- The numbers of the first page of a range and of the pages that the loops visit. -/
theorem page_numbers (positive : 1 ≤ size) (low : va + size ≤ maxva) :
    firstPage va = va / pgsize ∧
      firstPage va + pageCount va size = (va + size - 1) / pgsize + 1 ∧
      pgrounddown (va + size - 1) = (va + size - 1) / pgsize * pgsize := by
  have numbers : maxva = 2 ^ 38 := rfl
  have page : pgsize = 4096 := rfl
  have first : pgrounddown va = va / pgsize * pgsize := pgrounddown_eq (by omega)
  have last : pgrounddown (va + size - 1) = (va + size - 1) / pgsize * pgsize :=
    pgrounddown_eq (by omega)
  have stop : subWord (va + size) 1 = va + size - 1 := by
    unfold subWord
    omega
  have number : firstPage va = va / pgsize := by
    rw [firstPage, first]
    exact Nat.mul_div_cancel _ (by decide)
  have steps : World.pageSteps va size = (va + size - 1) / pgsize - va / pgsize := by
    rw [World.pageSteps, stop, last, first, subWord, page]
    omega
  refine ⟨number, ?_, last⟩
  rw [pageCount, number, steps, page]
  omega

theorem inRange_iff (positive : 1 ≤ size) (low : va + size ≤ maxva) (a : Nat) :
    InRange va size a ↔
      firstPage va ≤ a / pgsize ∧ a / pgsize < firstPage va + pageCount va size := by
  obtain ⟨-, stop, last⟩ := page_numbers positive low
  rw [InRange, stop, last, ← firstPage_mul, pgsize_eq]
  omega

/-- The entry that belongs to an address of the range. -/
theorem leafAt_fields {a : Nat} (aligned : pa % pgsize = 0) (flags : perm < 2 ^ 10)
    (positive : 1 ≤ size) (low : va + size ≤ maxva) (inside : InRange va size a) :
    pte2pa (leafAt pa perm (a / pgsize - firstPage va)) =
        (pa + (pgrounddown a - pgrounddown va)) % 2 ^ 64 ∧
      pteFlags (leafAt pa perm (a / pgsize - firstPage va)) = perm ||| pteV := by
  obtain ⟨first, stop, -⟩ := page_numbers positive low
  obtain ⟨front, back⟩ := (inRange_iff positive low a).mp inside
  have numbers : maxva = 2 ^ 38 := rfl
  have page : pgsize = 4096 := rfl
  have small : a < 2 ^ 64 := by
    rw [stop, page] at back
    omega
  have offset : (a / pgsize - firstPage va) * pgsize = pgrounddown a - pgrounddown va := by
    rw [pgrounddown_eq small, ← firstPage_mul, Nat.sub_mul]
    rfl
  have whole : (pa + (a / pgsize - firstPage va) * pgsize) % 2 ^ 64 % pgsize = 0 := by
    rw [page] at aligned ⊢
    omega
  obtain ⟨address, bits⟩ := leaf_fields whole (Nat.mod_lt _ (Nat.two_pow_pos 64)) flags
  rw [leafAt, ← offset]
  exact ⟨address, bits⟩

end Entries

/-! ## What a step does -/

section Steps

variable {world next : World} {root : Page} {tree : NodeTree Page}

/-- What every step keeps: the tree, the duplicate once the first process is not alone, and what
is mapped where nothing new is. -/
structure Moves (world next : World) (root : Page) (tree grown : NodeTree Page) : Prop where
  rooted : Rooted next root grown
  covered : ∀ idx, 2 < world.nextpid → Covered world root tree idx → Covered next root grown idx
  later : world.nextpid ≤ next.nextpid
  space : ∀ n pte, next.space root n = some pte → world.space root n = some pte ∨
    pteFlags pte ≠ pteV

theorem Aloof.moves (aloof : Aloof world next root tree) (rooted : Rooted world root tree) :
    Moves world next root tree tree where
  rooted := aloof.rooted rooted
  covered _ _ before := aloof.covered before
  later := Nat.le_of_eq aloof.steady.nextpid.symm
  space _ _ mapped := .inl ((aloof.keeps rooted).space rooted ▸ mapped)

theorem toOption_eq_some {Value : Type} {answer : Except Panic Value} {value : Value} :
    answer.toOption = some value ↔ answer = .ok value := by
  cases answer with
  | error panic => simp [Except.toOption]
  | ok other => simp [Except.toOption]

variable {va : Nat}

theorem Rooted.moves_walk (rooted : Rooted world root tree) {alloc : Bool}
    {res : Option (Nat × Nat)} (done : world.walk root va alloc = .ok (res, next)) :
    ∃ grown, Moves world next root tree grown := by
  by_cases low : va < maxva
  · cases alloc with
    | false =>
      rw [rooted.walk_eq low] at done
      cases done
      exact ⟨tree, (Aloof.refl rooted).moves rooted⟩
    | true =>
      obtain ⟨result, walked, same⟩ := rooted.walked low
      rw [same] at done
      cases walked with
      | panicked ptdup late short => cases done
      | dry grows covered empty short =>
        cases done
        exact ⟨_, grows.rooted, covered, Nat.le_of_eq grows.steady.nextpid.symm,
          fun n pte mapped => .inl (grows.space rooted ▸ mapped)⟩
      | found grows there covered spent =>
        cases done
        exact ⟨_, grows.rooted, covered, Nat.le_of_eq grows.steady.nextpid.symm,
          fun n pte mapped => .inl (grows.space rooted ▸ mapped)⟩
  · rw [World.walk, if_pos (Nat.not_lt.mp low)] at done
    cases done

theorem Rooted.mappages (rooted : Rooted world root tree) (va size perm : Nat) {pa : Nat}
    (word : pa < 2 ^ 64) :
    Mapped world root tree (firstPage va) (pageCount va size) (leafAt pa perm)
      (5 * pageCount va size) (world.mappages root va size pa perm) := by
  rw [World.mappages, ← firstPage_mul]
  exact rooted.mapPages _ _ perm word

theorem Rooted.moves_mappages (rooted : Rooted world root tree) {size pa perm : Nat} {res : Int}
    (word : pa < 2 ^ 64) (allows : perm &&& rwx ≠ 0)
    (done : world.mappages root va size pa perm = .ok (res, next)) :
    ∃ grown, Moves world next root tree grown := by
  have leaves_ne (count n pte : Nat)
      (mapped : setRange (world.space root) (firstPage va) count (leafAt pa perm) n = some pte) :
      world.space root n = some pte ∨ pteFlags pte ≠ pteV := by
    unfold setRange at mapped
    split at mapped
    · cases mapped
      exact .inr (pteFlags_leaf_ne allows)
    · exact .inl mapped
  have mapped := rooted.mappages va size perm word
  rw [done] at mapped
  cases mapped with
  | done carries low space spent =>
    exact ⟨_, carries.rooted, carries.covered, Nat.le_of_eq carries.steady.nextpid.symm,
      fun n pte there => leaves_ne _ n pte (space ▸ there)⟩
  | dry carries passed few space empty short =>
    exact ⟨_, carries.rooted, carries.covered, Nat.le_of_eq carries.steady.nextpid.symm,
      fun n pte there => leaves_ne _ n pte (space ▸ there)⟩

theorem Rooted.unmapRange (rooted : Rooted world root tree) (va size : Nat) {doFree : Bool}
    (releasable : doFree = true → Releasable world root (firstPage va) (pageCount va size)) :
    Unmapped world root tree doFree (firstPage va) (pageCount va size)
      (World.unmapPages root doFree (World.pageSteps va size) (pgrounddown va) world) := by
  rw [← firstPage_mul]
  exact rooted.unmapPages _ _ releasable

theorem Rooted.uvmunmap (rooted : Rooted world root tree) {size : Nat} {doFree : Bool}
    (releasable : doFree = true → Releasable world root (firstPage va) (pageCount va size))
    (done : world.uvmunmap root va size doFree = .ok next) : Carries world next root tree tree ∧
      next.space root = clearRange (world.space root) (firstPage va) (pageCount va size) := by
  obtain ⟨between, unmapped, rest⟩ := bind_eq_ok.mp done
  have range := rooted.unmapRange va size releasable
  rw [unmapped] at range
  cases range with
  | done carries space duplicate kernelEnd released =>
    split at rest
    · cases rest
    · next tables free deleted =>
       obtain rfl := Except.ok.inj rest
       have aloof := Aloof.idle carries.rooted (l0PtesDelete_idle deleted)
       refine ⟨carries.trans ⟨aloof.rooted carries.rooted, aloof.steady,
         fun idx _ before => aloof.covered before⟩, ?_⟩
       rw [(aloof.keeps carries.rooted).space carries.rooted, space]

theorem Rooted.moves (rooted : Rooted world root tree) {call : TableCall}
    (proper : call.Proper root world) (taken : call.step root world = some next) :
    ∃ grown, Moves world next root tree grown := by
  cases call with
  | walk va alloc =>
    obtain ⟨⟨res, after⟩, done, rfl⟩ := Option.map_eq_some_iff.mp taken
    exact rooted.moves_walk (toOption_eq_some.mp done)
  | mappages va size pa perm =>
    obtain ⟨⟨res, after⟩, done, rfl⟩ := Option.map_eq_some_iff.mp taken
    exact rooted.moves_mappages proper.1 proper.2 (toOption_eq_some.mp done)
  | uvmunmap va size doFree =>
    obtain ⟨carries, space⟩ := rooted.uvmunmap proper (toOption_eq_some.mp taken)
    refine ⟨tree, carries.rooted, carries.covered, Nat.le_of_eq carries.steady.nextpid.symm, ?_⟩
    intro n pte mapped
    rw [space] at mapped
    unfold clearRange at mapped
    split at mapped
    · cases mapped
    · exact .inl mapped
  | kalloc =>
    obtain ⟨⟨page, after⟩, answer, rfl⟩ := Option.map_eq_some_iff.mp taken
    exact ⟨tree, (kalloc_aloof rooted answer).1.moves rooted⟩
  | kfree pa =>
    have freed := kfree_aloof rooted (rooted.not_owns proper) proper.2.2
      (toOption_eq_some.mp taken)
    exact ⟨tree, freed.1.moves rooted⟩
  | store page index value =>
    cases taken
    have other : ¬Owns world root tree page := by
      rintro (held | copy)
      · exact proper.1 (rooted.mem_tablePages.mpr held)
      · exact proper.2 copy
    exact ⟨tree, (Aloof.write rooted other index value).moves rooted⟩
  | l0PtesAdd content flag =>
    have idle := l0PtesAdd_idle (toOption_eq_some.mp taken)
    exact ⟨tree, (Aloof.idle rooted idle).moves rooted⟩
  | allocpid =>
    cases taken
    have beside := rooted.beside
    have later : Rooted { world with nextpid := world.nextpid + 1 } root tree :=
      ⟨rooted.top, rooted.holds, rooted.once, rooted.free,
        ⟨beside.apart, beside.taken, beside.distinct, beside.copies⟩⟩
    refine ⟨tree, later, fun idx _ before => ⟨before.index, before.copied, before.listed⟩,
      Nat.le_succ _, fun n pte mapped => .inl ?_⟩
    by_cases low : n * pgsize < maxva
    · rw [later.space_eq low] at mapped
      exact (rooted.space_eq low).trans mapped
    · rw [World.space, translation_high _ _ _ (Nat.not_lt.mp low)] at mapped
      cases mapped

end Steps

/-! ## Runs -/

section Runs

variable {root : Page} {calls : List TableCall} {world : World}

/-- What holds between the calls: the table pages are a tree, and what is mapped may be
used for something. -/
structure InOrder (root : Page) (world : World) : Prop where
  rooted : ∃ tree, Rooted world root tree
  leaves : ∀ n pte, world.space root n = some pte → pteFlags pte ≠ pteV

theorem inOrder (runs : ((tableCalls root).guarded (TableCall.Proper root)).Runs calls world) :
    InOrder root world := by
  refine runs.invariant (InOrder root) ?_ ?_
  · intro start empty
    refine ⟨⟨_, EmptyTable.rooted empty⟩, fun n pte mapped => ?_⟩
    rw [EmptyTable.space empty] at mapped
    cases mapped
  · intro before call next holds step
    obtain ⟨proper, taken⟩ := step
    obtain ⟨tree, rooted⟩ := holds.rooted
    obtain ⟨grown, moves⟩ := rooted.moves proper taken
    refine ⟨⟨grown, moves.rooted⟩, fun n pte mapped => ?_⟩
    exact (moves.space n pte mapped).elim (holds.leaves n pte) id

variable {tree : NodeTree Page}

theorem Rooted.duplicated_iff (rooted : Rooted world root tree) :
    world.Duplicated root ↔ ∃ idx, Covered world root tree idx := by
  have entry (i : Nat) (low : i < entrySize) : world.tables.memory root i = pde (tree [i]) :=
    rooted.holds.entries [] root rooted.top Nat.zero_lt_two i low
  constructor
  · rintro ⟨idx, index, words⟩
    refine ⟨idx, index, fun i low => (words i low).1.trans (entry i low), fun i isSome => ?_⟩
    obtain ⟨l1, there⟩ := Option.isSome_iff_exists.mp isSome
    have low := (rooted.holds.above i [] l1 there).2.1
    refine (words i low).2 ?_
    rw [entry i low, isValid_pde]
    exact isSome
  · rintro ⟨idx, covered⟩
    refine ⟨idx, covered.index, fun i low => ⟨(covered.copied i low).trans (entry i low).symm, ?_⟩⟩
    intro valid
    rw [entry i low, isValid_pde] at valid
    exact covered.listed i valid

variable {size va : Nat}

theorem Rooted.range_none (rooted : Rooted world root tree)
    (positive : 1 ≤ size) (low : va + size ≤ maxva)
    (pages : ∀ k < pageCount va size, world.space root (firstPage va + k) = none) (a : Nat)
    (inside : InRange va size a) : world.translation root a = none := by
  obtain ⟨first, last⟩ := (inRange_iff positive low a).mp inside
  have page := pages (a / pgsize - firstPage va) (by omega)
  rw [Nat.add_sub_cancel' first] at page
  exact (rooted.translation_page a).trans page

theorem Rooted.range_some (rooted : Rooted world root tree)
    (positive : 1 ≤ size) (low : va + size ≤ maxva)
    (pages : ∀ k < pageCount va size, (world.space root (firstPage va + k)).isSome) (a : Nat)
    (inside : InRange va size a) : (world.translation root a).isSome := by
  obtain ⟨first, last⟩ := (inRange_iff positive low a).mp inside
  have page := pages (a / pgsize - firstPage va) (by omega)
  rw [Nat.add_sub_cancel' first] at page
  exact (rooted.translation_page a).symm ▸ page

/-- What `mappages` does to a range that is not mapped. -/
theorem InOrder.mappages (inOrder : InOrder root world) {pa perm : Nat}
    (positive : 1 ≤ size) (low : va + size ≤ maxva) (aligned : pa % pgsize = 0)
    (word : pa < 2 ^ 64) (flags : perm < 2 ^ 10)
    (unmapped : ∀ a, InRange va size a → world.translation root a = none) :
    (∀ res after, world.mappages root va size pa perm = .ok (res, after) →
      (res = 0 ∧ MapsRange world after root va size pa perm) ∨
        (res = -1 ∧ after.free = [] ∧ ∀ a, ¬InRange va size a →
          after.translation root a = world.translation root a)) ∧
    (∀ panic, world.mappages root va size pa perm = .error panic →
      panic.OfPtdup ∧ 2 < world.nextpid) ∧ (world.nextpid ≤ 2 ∨ world.Duplicated root →
      5 * pageCount va size ≤ world.free.length →
        ∃ after, world.mappages root va size pa perm = .ok (0, after)) := by
  obtain ⟨tree, rooted⟩ := inOrder.rooted
  have mapped := rooted.mappages va size perm word
  have range := inRange_iff positive low
  generalize world.mappages root va size pa perm = answer at mapped
  cases mapped with
  | @done after grown carries _ space spent =>
    refine ⟨fun res final same => .inl ?_, (fun panic error => by cases error),
      fun _ _ => ⟨after, rfl⟩⟩
    cases same
    refine ⟨rfl, fun a inside => ?_, fun a outside => ?_⟩
    · obtain ⟨first, last⟩ := (range a).mp inside
      refine ⟨leafAt pa perm (a / pgsize - firstPage va), ?_, ?_⟩
      · rw [carries.rooted.translation_page, space, setRange, if_pos ⟨first, last⟩]
      · exact leafAt_fields aligned flags positive low inside
    · rw [carries.rooted.translation_page, rooted.translation_page, space, setRange,
        if_neg (fun there => outside ((range a).mpr there))]
  | @dry after grown carries passed few space empty short =>
    refine ⟨fun res final same => .inr ?_, (fun panic error => by cases error),
      fun _ enough => absurd short (Nat.not_lt.mpr enough)⟩
    cases same
    refine ⟨rfl, empty, fun a outside => ?_⟩
    have behind : ¬(firstPage va ≤ a / pgsize ∧ a / pgsize < firstPage va + passed) :=
      fun there => outside ((range a).mpr ⟨there.1, by omega⟩)
    rw [carries.rooted.translation_page, rooted.translation_page, space, setRange,
      if_neg behind]
  | panicked ptdup late short =>
    refine ⟨(fun res final error => by cases error), fun panic same => ?_, fun ready enough => ?_⟩
    · obtain rfl := Except.error.inj same
      exact ⟨ptdup, late⟩
    · rcases ready with alone | duplicated
      · exact absurd late (Nat.not_lt.mpr alone)
      · obtain ⟨idx, covered⟩ := rooted.duplicated_iff.mp duplicated
        exact absurd (short idx covered).2 (Nat.not_lt.mpr enough)
  | remap n inside there =>
    have whole : n * pgsize / pgsize = n := Nat.mul_div_cancel n (by decide)
    have empty := unmapped (n * pgsize) ((range _).mpr (by rwa [whole]))
    rw [show world.space root n = none from empty] at there
    cases there
  | high above =>
    have stop := (page_numbers positive low).2.1
    have numbers : maxva = 2 ^ 38 := rfl
    rw [stop, pgsize_eq] at above
    omega

/-- What `uvmunmap` does to a range that is mapped. -/
theorem InOrder.uvmunmap (inOrder : InOrder root world) {doFree : Bool}
    (positive : 1 ≤ size) (low : va + size ≤ maxva)
    (mapped : ∀ a, InRange va size a → (world.translation root a).isSome)
    (releasable : doFree = true → Releasable world root (firstPage va) (pageCount va size)) :
    (∀ after, world.uvmunmap root va size doFree = .ok after → ∀ a, after.translation root a =
        if InRange va size a then none else world.translation root a) ∧
    ∀ panic, world.uvmunmap root va size doFree = .error panic → panic = .ptdsPtedAddKalloc := by
  obtain ⟨tree, rooted⟩ := inOrder.rooted
  have range := inRange_iff positive low
  have page (n : Nat) (inside : firstPage va ≤ n ∧ n < firstPage va + pageCount va size) :
      (world.space root n).isSome := by
    have whole : n * pgsize / pgsize = n := Nat.mul_div_cancel n (by decide)
    exact mapped (n * pgsize) ((range _).mpr (by rwa [whole]))
  constructor
  · intro after done a
    obtain ⟨carries, space⟩ := rooted.uvmunmap releasable done
    rw [carries.rooted.translation_page, rooted.translation_page, space, clearRange]
    exact if_congr (range a).symm rfl rfl
  · intro panic stopped
    have loop := rooted.unmapRange va size releasable
    rw [World.uvmunmap] at stopped
    generalize World.unmapPages root doFree (World.pageSteps va size) (pgrounddown va) world =
      answer at loop stopped
    cases loop with
    | missing n inside empty =>
      have there := page n inside
      rw [empty] at there
      cases there
    | notALeaf n pte inside there bare => exact absurd bare (inOrder.leaves n pte there)
    | done carries space duplicate kernelEnd released =>
      simp only [Except.bind] at stopped
      split at stopped
      · exact (Except.error.inj stopped).symm
      · cases stopped

/-- The laws of page tables. No two table pages are the same; `mappages` maps an unmapped
range or, when there are no pages for tables left, changes nothing outside it; `uvmunmap`
unmaps a mapped range. -/
theorem page_table_laws
    (runs : ((tableCalls root).guarded (TableCall.Proper root)).Runs calls world) :
    (world.tablePages root).Nodup ∧
    (∀ va size pa perm, 1 ≤ size → va + size ≤ maxva → pa % pgsize = 0 → pa < 2 ^ 64 →
      perm < 2 ^ 10 → perm &&& (pteR ||| pteW ||| pteX) ≠ 0 →
      (∀ a, InRange va size a → world.translation root a = none) →
      (∀ res after, world.mappages root va size pa perm = .ok (res, after) →
        (res = 0 ∧ MapsRange world after root va size pa perm) ∨
          (res = -1 ∧ after.free = [] ∧ ∀ a, ¬InRange va size a →
            after.translation root a = world.translation root a)) ∧
      (∀ panic, world.mappages root va size pa perm = .error panic →
        panic.OfPtdup ∧ 2 < world.nextpid) ∧
      (world.nextpid ≤ 2 ∨ world.Duplicated root →
        5 * pageCount va size ≤ world.free.length →
          ∃ after, world.mappages root va size pa perm = .ok (0, after))) ∧
    ∀ va size doFree, 1 ≤ size → va + size ≤ maxva →
      (∀ a, InRange va size a → (world.translation root a).isSome) →
      (doFree = true → Releasable world root (firstPage va) (pageCount va size)) →
      (∀ after, world.uvmunmap root va size doFree = .ok after →
        ∀ a, after.translation root a =
          if InRange va size a then none else world.translation root a) ∧
      ∀ panic, world.uvmunmap root va size doFree = .error panic →
        panic = .ptdsPtedAddKalloc := by
  have holds := inOrder runs
  obtain ⟨tree, rooted⟩ := holds.rooted
  refine ⟨rooted.nodup_tablePages, ?_, ?_⟩
  · intro va size pa perm positive low aligned word flags _ unmapped
    exact holds.mappages positive low aligned word flags unmapped
  · intro va size doFree positive low mapped releasable
    exact holds.uvmunmap positive low mapped releasable

end Runs

/-! ## Runs of calls -/

section Examples

/-- The pages from one on. -/
def pagesFrom (first : Nat) : Nat → List Page
  | 0 => []
  | count + 1 => if physical : IsPage first then ⟨first, physical⟩ :: pagesFrom (first + pgsize) count
      else []

def bootHead : PtdupHead := ⟨0x86001000, 0x86002000, none, none⟩

/-- An empty page table at `0x86000000`, with its duplicate if `nextpid` is large. -/
def bootWorld (nextpid pages : Nat) : World where
  tables :=
    { memory := fun _ _ => 0
      head := fun _ => bootHead
      idxPtdup := fun i => if 2 < nextpid ∧ i = 1 then 0x86000000 else 0 }
  nextpid := nextpid
  free := pagesFrom 0x87000000 pages
  kernelEnd := 0x80020000
  mlistFull := []

def bootRoot : Page := ⟨0x86000000, by decide⟩

theorem emptyTable_late (pages : Nat) (once : (pagesFrom 0x87000000 pages).Nodup)
    (apart : ∀ page ∈ pagesFrom 0x87000000 pages, 0x87000000 ≤ page.val) :
    EmptyTable bootRoot (bootWorld 3 pages) where
  zero _ _ := rfl
  once := once
  taken member := absurd (apart bootRoot member) (by decide)
  duplicate _ _ := by
    have distinct : bootHead.l2 ≠ bootHead.l1 := by decide
    have apart' : bootHead.l2 ≠ bootRoot ∧ bootHead.l1 ≠ bootRoot := by decide
    refine ⟨distinct, apart', fun page member => ?_, fun _ _ => ⟨rfl, rfl⟩⟩
    have above := apart page member
    constructor
    · rintro same
      have value : page.val = 0x86001000 := same
      omega
    · rintro same
      have value : page.val = 0x86002000 := same
      omega

theorem emptyTable_early : EmptyTable bootRoot (bootWorld 1 3) where
  zero _ _ := rfl
  once := by decide +kernel
  taken := by decide +kernel
  duplicate idx index := by
    have there : (bootWorld 1 3).tables.ptdupIndex bootRoot = none := by decide +kernel
    rw [there] at index
    cases index

/-- A page that is taken and mapped, beside a range over the boundary of two L1 tables. -/
theorem page_table_laws_boundary : ∃ calls world,
    ((tableCalls bootRoot).guarded (TableCall.Proper bootRoot)).Runs calls world ∧
      (world.tablePages bootRoot).Nodup ∧
      (∃ after, world.mappages bootRoot 0x3ffff800 0x1000 0x85000000 (pteR ||| pteW) =
        .ok (0, after) ∧
          MapsRange world after bootRoot 0x3ffff800 0x1000 0x85000000 (pteR ||| pteW)) ∧
      ∃ after, world.uvmunmap bootRoot 0 0x1000 true = .ok after ∧
        ∀ a, after.translation bootRoot a =
          if InRange 0 0x1000 a then none else world.translation bootRoot a := by
  have found : (LabelledSystem.exec (LabelledSystem.checked (TableCall.Proper bootRoot)
      (TableCall.step bootRoot)) (bootWorld 3 16)
      [.kalloc, .mappages 0 0x1000 0x87000000 (pteR ||| pteW ||| pteX)]).any fun world =>
        decide ((∀ k < pageCount 0x3ffff800 0x1000,
            world.space bootRoot (firstPage 0x3ffff800 + k) = none) ∧
          (∀ k < pageCount 0 0x1000, (world.space bootRoot (firstPage 0 + k)).isSome) ∧
          Releasable world bootRoot (firstPage 0) (pageCount 0 0x1000) ∧
          (world.mappages bootRoot 0x3ffff800 0x1000 0x85000000 (pteR ||| pteW)).toOption.map
            Prod.fst = some 0 ∧
          (world.uvmunmap bootRoot 0 0x1000 true).toOption.isSome) := by
    decide +kernel
  obtain ⟨world, result, holds⟩ := (Option.any_eq_true _ _).mp found
  obtain ⟨empty, mapped, releasable, maps, unmaps⟩ := of_decide_eq_true holds
  have runs : ((tableCalls bootRoot).guarded (TableCall.Proper bootRoot)).Runs
      [.kalloc, .mappages 0 0x1000 0x87000000 (pteR ||| pteW ||| pteX)] world :=
    .of_checked_exec
      (emptyTable_late 16 (by decide +kernel) (by decide +kernel)) result
  obtain ⟨once, laws, removes⟩ := page_table_laws runs
  obtain ⟨tree, rooted⟩ := (inOrder runs).rooted
  have unmapped := rooted.range_none (by decide) (by decide) empty
  have whole := rooted.range_some (by decide) (by decide) mapped
  obtain ⟨⟨res, after⟩, done, same⟩ := Option.map_eq_some_iff.mp maps
  obtain rfl : res = 0 := same
  have done := toOption_eq_some.mp done
  obtain ⟨final, removed⟩ := Option.isSome_iff_exists.mp unmaps
  have removed := toOption_eq_some.mp removed
  refine ⟨_, world, runs, once, ⟨after, done, ?_⟩, final, removed, ?_⟩
  · obtain ⟨_, law⟩ | ⟨wrong, -⟩ := (laws 0x3ffff800 0x1000 0x85000000 (pteR ||| pteW) (by decide)
      (by decide) (by decide) (by decide) (by decide) (by decide) unmapped).1 0 after done
    · exact law
    · cases wrong
  · exact (removes 0 0x1000 true (by decide) (by decide) whole fun _ => releasable).1 final removed

/-- A page that is mapped twice and then freed becomes two tables; and without a page for
the duplicate of an L1 table `mappages` neither maps the range nor returns. -/
theorem freed_twice :
    (∃ world, (tableCalls bootRoot).Runs
      [.mappages 0 0x1000 0x87004000 (pteR ||| pteW),
        .mappages 0x1000 0x1000 0x87004000 (pteR ||| pteW),
        .uvmunmap 0 0x2000 true, .walk 0x40000000 true] world ∧
      ¬(world.tablePages bootRoot).Nodup) ∧
    ∃ world, EmptyTable bootRoot world ∧ (∀ a, world.translation bootRoot a = none) ∧
      ∀ answer, world.mappages bootRoot 0 0x1000 0x87004000 (pteR ||| pteW) ≠ .ok answer := by
  constructor
  · have found : (LabelledSystem.exec (TableCall.step bootRoot) (bootWorld 1 3)
        [.mappages 0 0x1000 0x87004000 (pteR ||| pteW),
          .mappages 0x1000 0x1000 0x87004000 (pteR ||| pteW),
          .uvmunmap 0 0x2000 true, .walk 0x40000000 true]).any fun world =>
        decide ¬(world.tablePages bootRoot).Nodup := by
      decide +kernel
    obtain ⟨world, result, twice⟩ := (Option.any_eq_true _ _).mp found
    exact ⟨world, .of_exec emptyTable_early result, of_decide_eq_true twice⟩
  · have empty := emptyTable_late 1 (by decide +kernel) (by decide +kernel)
    refine ⟨bootWorld 3 1, empty, fun a => ?_, fun answer done => ?_⟩
    · rw [empty.rooted.translation_page]
      exact empty.space _
    · have stops : ((bootWorld 3 1).mappages bootRoot 0 0x1000 0x87004000
          (pteR ||| pteW)).toOption.isNone := by decide +kernel
      rw [done] at stops
      cases stops

end Examples

end Ev6.PageTable
